import AffineCalls.Proofs.Registry.Merge
import AffineCalls.Registry.Current

/-!
# Declaring in the current registry

The current registry is extended by appending the registry of one function, and not by declaring
the function in it. Both are refused for the same names, but appending also refuses to pair a
name anew. So the two ways differ exactly where a bijection has a new name and a new name for
its inverse, and one of these is paired with a third name.
-/

namespace AffineCalls

/-- The name of an inverse comes after that of the function. -/
theorem Signature.le_inverseName (name : String) : name ≤ inverseName name := by
  apply not_lt.mp
  rw [String.lt_iff_toList_lt, inverseName, String.toList_append]
  exact List.le_append_left

namespace Registry

variable {r s : Registry} {f : Signature}

/-- The registry of one function can always be made. -/
theorem ofSignature_eq (f : Signature) : ofSignature f = .ok (single f) := by
  have hapart : Apart ∅ (single f) := fun _ => .inl rfl
  exact declare_eq_ok_iff_apart.mpr ⟨hapart, (empty_union (single f)).symm⟩

/-- Declaring in the current registry appends the registry of the function. -/
theorem outcome_declare :
    (Current.declare f).outcome r = (InPlace.append (single f)).outcome r := by
  rw [Current.declare, ofSignature_eq, Update.outcome_bind, Update.outcome_liftM]

/-- The registry of one function becomes the current one. -/
theorem outcome_declareOnly : (Current.declareOnly f).outcome r = (.ok (), single f) := by
  rw [Current.declareOnly, ofSignature_eq]
  rfl

/-! ## The two ways -/

/-- A bijection and its inverse both have new names, but one of these names is paired with a
third name. -/
structure Contested (r : Registry) (f : Signature) : Prop where
  /-- The function is a bijection. -/
  bijective : f.bijective = true
  /-- Its name is not declared. -/
  name : r.contains f.name = false
  /-- The name of its inverse is not declared. -/
  inverseName : r.contains f.inverse.name = false
  /-- One of the two names is paired with another name than the other one. -/
  paired : (∃ n, r.inverse? f.name = some n ∧ n ≠ f.inverse.name) ∨
    ∃ n, r.inverse? f.inverse.name = some n ∧ n ≠ f.name

/-- A registry agrees with that of one function if both names of a bijection are paired with each
other or not at all. -/
theorem agrees_single_iff : r.Agrees (single f) ↔ (f.bijective = true →
    (∀ n, r.inverse? f.name = some n → n = f.inverse.name) ∧
      ∀ n, r.inverse? f.inverse.name = some n → n = f.name) := by
  constructor
  · intro h hf
    constructor
    · intro n hn
      exact h _ n _ hn (inverse?_single_eq_some.mpr ⟨hf, .inl ⟨rfl, rfl⟩⟩)
    · intro n hn
      exact h _ n _ hn (inverse?_single_eq_some.mpr ⟨hf, .inr ⟨rfl, rfl⟩⟩)
  · intro h n a b ha hb
    obtain ⟨hf, ⟨rfl, rfl⟩ | ⟨rfl, rfl⟩⟩ := inverse?_single_eq_some.mp hb
    · exact (h hf).1 a ha
    · exact (h hf).2 a ha

/-- A function is contested exactly if it could be declared, but disagrees on a pair. -/
theorem contested_iff : r.Contested f ↔ r.Apart (single f) ∧ ¬ r.Agrees (single f) := by
  rw [apart_single_iff, agrees_single_iff, ← contains_eq_false_iff, ← contains_eq_false_iff]
  constructor
  · rintro ⟨hf, hname, hinverse, hpaired⟩
    refine ⟨⟨hname, fun _ => hinverse⟩, fun h => ?_⟩
    rcases hpaired with ⟨n, hn, hne⟩ | ⟨n, hn, hne⟩
    · exact hne ((h hf).1 n hn)
    · exact hne ((h hf).2 n hn)
  · rintro ⟨⟨hname, hinverse⟩, h⟩
    obtain ⟨hf, hpairs⟩ := Classical.not_imp.mp h
    refine ⟨hf, hname, hinverse hf, ?_⟩
    by_contra hnone
    obtain ⟨hfirst, hsecond⟩ := not_or.mp hnone
    simp only [not_exists, not_and, not_not] at hfirst hsecond
    exact hpairs ⟨hfirst, hsecond⟩

/-- Declaring is refused for the least of the two names that is declared already. -/
theorem isLeast_of_declare {e : RegistryError} (h : r.declare f = .error e) :
    ∃ n, e = .duplicate n ∧ IsLeast (r.shared (single f)) n := by
  rw [declare_eq] at h
  by_cases hname : r.contains f.name = true
  · rw [if_pos hname] at h
    cases h
    refine ⟨f.name, rfl, ⟨hname, contains_single.mpr (.inl rfl)⟩, ?_⟩
    rintro n ⟨_, hn⟩
    rcases contains_single.mp hn with rfl | ⟨_, rfl⟩
    · exact le_refl f.name
    · exact Signature.le_inverseName f.name
  · rw [if_neg hname] at h
    cases hf : f.bijective with
    | false => simp [hf] at h
    | true =>
      by_cases hinverse : r.contains f.inverse.name = true
      · simp only [hf, hinverse, Bool.not_true, Bool.false_eq_true, if_false, if_true] at h
        cases h
        refine ⟨f.inverse.name, rfl, ⟨hinverse, contains_single.mpr (.inr ⟨hf, rfl⟩)⟩, ?_⟩
        rintro n ⟨hn, hn'⟩
        rcases contains_single.mp hn' with rfl | ⟨_, rfl⟩
        · exact absurd hn hname
        · exact le_refl f.inverse.name
      · simp [hf, hinverse] at h

/-- Appending the registry of a function does what declaring it does unless it is contested. -/
theorem append_single_eq_declare_iff : r.append (single f) = r.declare f ↔ ¬ r.Contested f := by
  rw [contested_iff]
  constructor
  · rintro h ⟨hapart, hdisagree⟩
    have hdeclare := declare_eq_ok_iff_apart.mpr ⟨hapart, rfl⟩
    rw [← h] at hdeclare
    exact hdisagree (append_eq_ok.mp hdeclare).2.1
  · intro h
    cases hdeclare : r.declare f with
    | ok s =>
      obtain ⟨hapart, rfl⟩ := declare_eq_ok_iff_apart.mp hdeclare
      have hagrees : r.Agrees (single f) := by
        by_contra hdisagree
        exact h ⟨hapart, hdisagree⟩
      exact append_eq_ok.mpr ⟨hapart, hagrees, rfl⟩
    | error e =>
      obtain ⟨n, rfl, hn⟩ := isLeast_of_declare hdeclare
      exact append_eq_error.mpr ⟨n, rfl, .inl hn⟩

/-- A contested function is declared all the same, and then its two names lead to each other. But
its registry is not appended, for the least of the names whose partners differ. -/
theorem Contested.declare (h : r.Contested f) :
    (∃ s, r.declare f = .ok s ∧ s.inverse? f.name = some f.inverse.name ∧
      s.inverse? f.inverse.name = some f.name) ∧
    ∃ n, r.append (single f) = .error (.duplicate n) ∧ IsLeast (r.disputed (single f)) n := by
  obtain ⟨hapart, hdisagree⟩ := contested_iff.mp h
  constructor
  · refine ⟨_, declare_eq_ok_iff_apart.mpr ⟨hapart, rfl⟩, ?_, ?_⟩
    · rw [inverse?_union, inverse?_single_eq_some.mpr ⟨h.bijective, .inl ⟨rfl, rfl⟩⟩, Option.some_or]
    · rw [inverse?_union, inverse?_single_eq_some.mpr ⟨h.bijective, .inr ⟨rfl, rfl⟩⟩, Option.some_or]
  · cases happend : r.append (single f) with
    | ok s => exact absurd (append_eq_ok.mp happend).2.1 hdisagree
    | error e =>
      obtain ⟨n, rfl, hshared | ⟨_, hn⟩⟩ := append_eq_error.mp happend
      · have hmem := hshared.1
        rw [apart_iff_shared.mp hapart] at hmem
        cases hmem
      · exact ⟨n, rfl, hn⟩

/-- Declaring in the current registry has the outcome of declaring in it directly, whether the
function is declared or refused, unless the function is contested. In that case the direct way
declares it and overwrites the pairing, while the other one is refused for one of the names whose
partners differ, and keeps the registry. Making a function the only one never fails and leads to
what declaring it after a reset leads to. -/
theorem current_declare_exact (r : Registry) (f : Signature) :
    ((Current.declare f).outcome r = (InPlace.declare f).outcome r ↔ ¬ r.Contested f) ∧
    (r.Contested f →
      (∃ s, r.declare f = .ok s ∧ s.inverse? f.name = some f.inverse.name ∧
        s.inverse? f.inverse.name = some f.name) ∧
      ∃ n, (Current.declare f).outcome r = (.error (.duplicate n), r) ∧
        IsLeast (r.disputed (single f)) n) ∧
    ∃ s, (Current.reset.after r).declare f = .ok s ∧
      (Current.declareOnly f).outcome r = (.ok (), s) := by
  refine ⟨?_, fun h => ?_, single f, ofSignature_eq f, outcome_declareOnly⟩
  · rw [outcome_declare,
      (InPlace.atomic_append (single f)).outcome_eq_iff (InPlace.atomic_declare f)]
    exact append_single_eq_declare_iff
  · obtain ⟨hdeclare, n, happend, hn⟩ := h.declare
    refine ⟨hdeclare, n, ?_, hn⟩
    rw [outcome_declare]
    exact (InPlace.atomic_append (single f)).outcome_of_error happend

/-- Where `p` is paired with `q`, the bijection `p` is declared directly, so that `q` still leads to
`p`, which leads to `p_inv`. In the current registry it is refused. -/
theorem current_declare_exact_paired :
    let f : Signature := ⟨"p", .ofNames ["i"], .ofNames ["j"], true, .nondecreasing⟩
    let r : Registry := (∅ : Registry).pair "p" "q"
    Reached (fun _ _ => True) r ∧
      (∃ s, r.declare f = .ok s ∧ s.inverse? "p" = some "p_inv" ∧ s.inverse? "q" = some "p") ∧
      (Current.declare f).outcome r = (.error (.duplicate "p"), r) ∧
      ((Current.declareOnly f).after r).inverse? "q" = none := by
  intro f r
  have hpaired : r.inverse? "p" = some "q" := inverse?_pair_left ∅ "p" "q"
  have hinverse : r.inverse? "p_inv" = none := by
    rw [inverse?_pair_of_ne ∅ (by decide) (by decide)]
    rfl
  have hcontested : r.Contested f := ⟨rfl, rfl, rfl, .inl ⟨"q", hpaired, by decide⟩⟩
  obtain ⟨_, hdiffer, s, hs, honly⟩ := current_declare_exact r f
  obtain ⟨⟨s', hs', hname, _⟩, n, houtcome, hn⟩ := hdiffer hcontested
  refine ⟨.pair .empty trivial, ⟨s', hs', hname, ?_⟩, ?_, ?_⟩
  · cases hs'
    rw [inverse?_put, inverse?_put, inverse?_pair_of_ne r (by decide) (by decide)]
    exact inverse?_pair_right ∅ "p" "q"
  · obtain ⟨a, b, ha, hb, _⟩ := hn.1
    obtain ⟨_, ⟨rfl, _⟩ | ⟨rfl, _⟩⟩ := inverse?_single_eq_some.mp hb
    · exact houtcome
    · exact nomatch ha.symm.trans hinverse
  · cases hs
    rw [Update.after, honly, inverse?_put, inverse?_put,
      inverse?_pair_of_ne _ (by decide) (by decide)]
    rfl

end Registry

end AffineCalls
