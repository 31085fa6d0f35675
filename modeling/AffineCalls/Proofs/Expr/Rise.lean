import AffineCalls.Proofs.Expr.Total
import Mathlib.Data.List.Induction

/-!
# The order of the summands

While terms are added, the running total of a factor rises from zero whenever its summand
appears, and the summand disappears when the total becomes zero again. A summand appears at
the end, so the summands of a sum stand in the order in which their totals rose from zero for
the last time. With the totals this tells which list the sum is.
-/

namespace AffineCalls

namespace Term

/-- The term at a position changes the running total of a factor from zero to another number. -/
def Rises (ts : List Term) (f : Factor) (k : Nat) : Prop :=
  total f (ts.take k) = 0 ∧ total f (ts.take (k + 1)) ≠ 0

/-- The last position at which the running total of a factor rises from zero. -/
structure LastRise (ts : List Term) (f : Factor) (k : Nat) : Prop where
  /-- The running total rises there. -/
  rises : Rises ts f k
  /-- It does not rise at any later position. -/
  last : ∀ j, Rises ts f j → j ≤ k

/-- The running total of the first factor rose from zero for the last time before that of the
second one did. -/
def RisesBefore (ts : List Term) (f g : Factor) : Prop :=
  ∃ j k, LastRise ts f j ∧ LastRise ts g k ∧ j < k

variable {f g : Factor} {t : Term} {ts : List Term} {j k : Nat}

/-- Running totals rise at the terms of the list only. -/
theorem Rises.lt_length (h : Rises ts f k) : k < ts.length := by
  obtain ⟨hzero, hrisen⟩ := h
  by_contra hle
  rw [List.take_of_length_le (by omega)] at hzero hrisen
  exact hrisen hzero

/-- With a last term, a running total rises where it did before and, if it was zero and is not
any more, at the last term. -/
theorem rises_concat : Rises (ts ++ [t]) f k ↔
    Rises ts f k ∨ (k = ts.length ∧ total f ts = 0 ∧ total f (ts ++ [t]) ≠ 0) := by
  have hlength : (ts ++ [t]).length = ts.length + 1 := by simp
  rcases Nat.lt_trichotomy k ts.length with hlt | rfl | hgt
  · rw [Rises, List.take_append_of_le_length (by omega), List.take_append_of_le_length (by omega)]
    exact ⟨.inl, fun h => h.resolve_right fun h => by omega⟩
  · rw [Rises, List.take_append_of_le_length (Nat.le_refl _), List.take_length,
      List.take_of_length_le (by omega)]
    have hold : ¬Rises ts f ts.length := fun h => (Nat.lt_irrefl _ h.lt_length).elim
    exact ⟨fun h => .inr ⟨rfl, h⟩, fun h => (h.resolve_left hold).2⟩
  · constructor
    · intro h
      have hbefore := h.lt_length
      omega
    · rintro (h | ⟨rfl, _⟩)
      · have hbefore := h.lt_length
        omega
      · omega

/-- The last rise of a running total is at one position only. -/
theorem LastRise.unique (hj : LastRise ts f j) (hk : LastRise ts f k) : j = k :=
  Nat.le_antisymm (hk.last j hj.rises) (hj.last k hk.rises)

/-- A total other than zero has risen, and a last term does not make it rise again. -/
theorem LastRise.concat (h : LastRise ts f k) (hrisen : total f ts ≠ 0) :
    LastRise (ts ++ [t]) f k := by
  refine ⟨rises_concat.mpr (.inl h.rises), fun j hj => ?_⟩
  rcases rises_concat.mp hj with hj | ⟨_, hzero, _⟩
  · exact h.last j hj
  · exact absurd hzero hrisen

/-- A total that a last term changes from zero to another number rises there for the last time. -/
theorem lastRise_concat_length (hzero : total f ts = 0) (hrisen : total f (ts ++ [t]) ≠ 0) :
    LastRise (ts ++ [t]) f ts.length := by
  refine ⟨rises_concat.mpr (.inr ⟨rfl, hzero, hrisen⟩), fun j hj => ?_⟩
  rcases rises_concat.mp hj with hj | ⟨rfl, _⟩
  · exact Nat.le_of_lt hj.lt_length
  · exact Nat.le_refl _

/-- A total other than zero has risen for the last time somewhere. -/
theorem exists_lastRise (h : total f ts ≠ 0) : ∃ k, LastRise ts f k := by
  induction ts using List.reverseRecOn with
  | nil => exact absurd rfl h
  | append_singleton ts t ih =>
    by_cases hzero : total f ts = 0
    · exact ⟨ts.length, lastRise_concat_length hzero h⟩
    · obtain ⟨k, hk⟩ := ih hzero
      exact ⟨k, hk.concat hzero⟩

/-- Two factors do not each rise before the other one. -/
theorem RisesBefore.asymm (h : RisesBefore ts f g) : ¬RisesBefore ts g f := by
  rintro ⟨k', j', hk', hj', hlt'⟩
  obtain ⟨j, k, hj, hk, hlt⟩ := h
  rw [hj.unique hj', hk.unique hk'] at hlt
  omega

/-- Totals other than zero keep the order in which they rose. -/
theorem RisesBefore.concat (h : RisesBefore ts f g) (hf : total f ts ≠ 0) (hg : total g ts ≠ 0) :
    RisesBefore (ts ++ [t]) f g := by
  obtain ⟨j, k, hj, hk, hlt⟩ := h
  exact ⟨j, k, hj.concat hf, hk.concat hg, hlt⟩

/-- Totals other than zero rose before one that rises at a last term. -/
theorem risesBefore_concat_new (hf : total f ts ≠ 0) (hzero : total g ts = 0)
    (hrisen : total g (ts ++ [t]) ≠ 0) : RisesBefore (ts ++ [t]) f g := by
  obtain ⟨k, hk⟩ := exists_lastRise hf
  exact ⟨k, ts.length, hk.concat hf, lastRise_concat_length hzero hrisen, hk.rises.lt_length⟩

end Term

namespace Expr

variable {e o s : Expr} {t : Term} {ts : List Term}

/-- The sum has exactly one summand for each factor with a total other than zero, with the
total as coefficient, and its summands are ordered by where the running totals of their
factors rose from zero for the last time. -/
structure SumsUp (e : Expr) (ts : List Term) : Prop where
  /-- The factors are those with a total other than zero. -/
  mem_factors : ∀ f, f ∈ e.terms.map (·.factor) ↔ Term.total f ts ≠ 0
  /-- No factor occurs twice. -/
  distinct : (e.terms.map (·.factor)).Nodup
  /-- The coefficients are the totals. -/
  coeff : ∀ t ∈ e.terms, t.coeff.val = Term.total t.factor ts
  /-- The factors stand in the order in which they rose for the last time. -/
  order : (e.terms.map (·.factor)).Pairwise (Term.RisesBefore ts)

/-- The totals in the sum of a list of terms are those in the list. -/
theorem total_sum (h : sum ts = .ok e) (f : Factor) :
    Term.total f e.terms = Term.total f ts := by
  rw [total_foldlM_addTerm h, terms_zero, Term.total_nil, Int.zero_add]

/-- Adding a last term keeps the factors of a sum in the order in which they rose. -/
theorem pairwise_risesBefore_addTerm (he : Term.Merged e.terms)
    (htotal : ∀ f, Term.total f e.terms = Term.total f ts)
    (horder : (e.terms.map (·.factor)).Pairwise (Term.RisesBefore ts))
    (h : e.addTerm t = .ok s) :
    (s.terms.map (·.factor)).Pairwise (Term.RisesBefore (ts ++ [t])) := by
  have hrisen : ∀ f ∈ e.terms.map (·.factor), Term.total f ts ≠ 0 := fun f hf =>
    htotal f ▸ he.mem_factors_iff.mp hf
  have hkept : (e.terms.map (·.factor)).Pairwise (Term.RisesBefore (ts ++ [t])) :=
    horder.imp_of_mem fun hf hg hbefore => hbefore.concat (hrisen _ hf) (hrisen _ hg)
  rcases sublist_factors_addTerm h with hsub | ⟨hnot, hcoeff, hterms⟩
  · exact hkept.sublist hsub
  · have hzero : Term.total t.factor ts = 0 := by
      rw [← htotal, Term.total_of_notMem hnot]
    have hnew : Term.total t.factor (ts ++ [t]) ≠ 0 := by
      rw [Term.total_append, hzero, Term.total_singleton_self, Int.zero_add]
      exact mt Coeff.eq_zero_iff.mpr hcoeff
    rw [hterms, List.map_append, List.map_singleton, List.pairwise_append]
    refine ⟨hkept, List.pairwise_singleton _ _, fun f hf g hg => ?_⟩
    rw [List.mem_singleton.mp hg]
    exact Term.risesBefore_concat_new (hrisen f hf) hzero hnew

/-- The factors of a sum stand in the order in which they rose. -/
theorem pairwise_risesBefore_sum (h : sum ts = .ok e) :
    (e.terms.map (·.factor)).Pairwise (Term.RisesBefore ts) := by
  induction ts using List.reverseRecOn generalizing e with
  | nil =>
    cases h
    exact .nil
  | append_singleton ts t ih =>
    rw [sum, List.foldlM_append, bind_eq_ok] at h
    obtain ⟨e', he', h⟩ := h
    rw [List.foldlM_cons, bind_eq_ok] at h
    obtain ⟨s, hs, h⟩ := h
    cases h
    exact pairwise_risesBefore_addTerm (merged_of_sum he') (total_sum he') (ih he') hs

/-- The sum of a list of terms sums it up. -/
theorem sumsUp_of_sum (h : sum ts = .ok e) : e.SumsUp ts := by
  have hmerged := merged_of_sum h
  have htotal := total_sum h
  refine ⟨fun f => ?_, hmerged.distinct, fun t ht => ?_, pairwise_risesBefore_sum h⟩
  · rw [hmerged.mem_factors_iff, htotal]
  · rw [← hmerged.total_eq ht, htotal]

/-- What sums up a list of terms is merged. -/
theorem SumsUp.merged (he : e.SumsUp ts) : Term.Merged e.terms := by
  refine ⟨fun t ht => ?_, he.distinct⟩
  rw [ne_eq, Coeff.eq_zero_iff, he.coeff t ht]
  exact (he.mem_factors _).mp (List.mem_map_of_mem ht)

/-- What sums up a list of terms has the totals of the list. -/
theorem SumsUp.total_eq (he : e.SumsUp ts) (f : Factor) :
    Term.total f e.terms = Term.total f ts := by
  by_cases hf : f ∈ e.terms.map (·.factor)
  · obtain ⟨t, ht, rfl⟩ := List.mem_map.mp hf
    rw [he.merged.total_eq ht, he.coeff t ht]
  · rw [Term.total_of_notMem hf]
    exact (not_not.mp (mt (he.mem_factors f).mpr hf)).symm

/-- Only one sum sums up a list of terms. -/
theorem SumsUp.unique (he : e.SumsUp ts) (ho : o.SumsUp ts) : e = o := by
  have hperm : (e.terms.map (·.factor)).Perm (o.terms.map (·.factor)) := by
    rw [List.perm_ext_iff_of_nodup he.distinct ho.distinct]
    intro f
    rw [he.mem_factors, ho.mem_factors]
  have hfactors : e.terms.map (·.factor) = o.terms.map (·.factor) :=
    hperm.eq_of_pairwise (fun _ _ _ _ h h' => absurd h' h.asymm) he.order ho.order
  refine eq_of_totals_eq he.merged ho.merged hfactors fun f => ?_
  rw [he.total_eq, ho.total_eq]

/-- A list of terms has a sum exactly if every running total of every factor is in range. A sum
is that of the list exactly if this is so and it has one summand for each factor with a total
other than zero, with the total as coefficient, in the order in which the running totals of
the factors rose from zero for the last time. -/
theorem sum_exact (ts : List Term) :
    ((∃ e, sum ts = .ok e) ↔ ∀ f k, Coeff.InRange (Term.total f (ts.take k))) ∧
    ∀ e, sum ts = .ok e ↔
      (∀ f k, Coeff.InRange (Term.total f (ts.take k))) ∧ e.SumsUp ts := by
  have hsum : (∃ e, sum ts = .ok e) ↔ ∀ f k, Coeff.InRange (Term.total f (ts.take k)) := by
    have h := @exists_foldlM_addTerm_iff 0 ts .nil
    simp only [terms_zero, Term.total_nil, Int.zero_add] at h
    exact h
  refine ⟨hsum, fun e => ⟨fun h => ⟨hsum.mp ⟨e, h⟩, sumsUp_of_sum h⟩, ?_⟩⟩
  rintro ⟨hrange, he⟩
  obtain ⟨o, ho⟩ := hsum.mpr hrange
  rw [ho, he.unique (sumsUp_of_sum ho)]

/-- In `x + y - x + x`, the total of `x` rises last, so `x` comes to stand behind `y`. -/
example : sum [⟨1, .symbol "x"⟩, ⟨1, .symbol "y"⟩, ⟨.minusOne, .symbol "x"⟩, ⟨1, .symbol "x"⟩] =
    .ok ⟨[⟨1, .symbol "y"⟩, ⟨1, .symbol "x"⟩]⟩ := rfl

end Expr

end AffineCalls
