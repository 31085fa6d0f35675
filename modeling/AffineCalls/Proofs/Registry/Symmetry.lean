import AffineCalls.Proofs.Registry.Pairing

/-!
# When the pairing of names is symmetric

Pairing two names makes each of them lead to the other one, but a name that was paired with
one of them before still leads to it. So the pairing stays symmetric exactly as long as no
name is taken away from a third one. Appending never takes a name away, as it is refused if
some name is paired differently.
-/

namespace AffineCalls.Registry

/-- The partner of a name leads back to it. -/
def Symmetric (r : Registry) : Prop := ∀ a b, r.inverse? a = some b → r.inverse? b = some a

/-- Neither of two names is paired with a third one. -/
def Available (r : Registry) (a b : String) : Prop :=
  ∀ n, r.inverse? a = some n ∨ r.inverse? b = some n → n = a ∨ n = b

/-- The registries that are built from the empty one by operations of which none takes a name
away from a third one. Names may be paired freely apart from that. -/
inductive Orderly : Registry → Prop
  /-- Nothing is declared. -/
  | empty : Orderly ∅
  /-- The registry of one function is made. -/
  | ofSignature {f : Signature} {r : Registry} (h : ofSignature f = .ok r) : Orderly r
  /-- A function is declared, or refused. A bijection is paired with its inverse. -/
  | declare {r : Registry} (hr : Orderly r) (f : Signature)
    (hf : ∀ s, r.declare f = .ok s → f.bijective = true → r.Available f.name f.inverse.name) :
    Orderly ((InPlace.declare f).after r)
  /-- A registry is appended, or refused. -/
  | append {r o : Registry} (hr : Orderly r) (ho : Orderly o) : Orderly ((InPlace.append o).after r)
  /-- All declarations and pairs are removed. -/
  | reset {r : Registry} (hr : Orderly r) : Orderly Registry.empty
  /-- Two names are paired. -/
  | pair {r : Registry} {a b : String} (hr : Orderly r) (hab : r.Available a b) :
    Orderly (r.pair a b)

variable {r o s : Registry} {f : Signature} {a b : String}

/-! ## One operation -/

/-- The registry without pairs is symmetric. -/
theorem symmetric_empty : Symmetric ∅ := nofun

/-- Putting a declaration pairs nothing. -/
@[simp] theorem symmetric_put : (r.put f).Symmetric ↔ r.Symmetric := Iff.rfl

/-- Names without partners may be paired. -/
theorem available_of_unpaired (ha : r.inverse? a = none) (hb : r.inverse? b = none) :
    r.Available a b := by
  rintro n (hn | hn)
  · exact nomatch ha.symm.trans hn
  · exact nomatch hb.symm.trans hn

/-- It does not matter which of two names is named first. -/
theorem pair_comm (r : Registry) (a b : String) : r.pair a b = r.pair b a := by
  apply ext_queries
  · intro n
    rw [function?_pair, function?_pair]
  · intro n
    by_cases ha : n = a
    · simp [ha]
    · by_cases hb : n = b
      · simp [hb]
      · rw [inverse?_pair_of_ne r ha hb, inverse?_pair_of_ne r hb ha]

/-- If a pairing leaves a registry symmetric, then neither name was paired with a third one. -/
theorem Symmetric.available (hr : r.Symmetric) (h : (r.pair a b).Symmetric) : r.Available a b := by
  have hfirst : ∀ {a b n : String}, (r.pair a b).Symmetric → r.inverse? a = some n →
      n = a ∨ n = b := by
    intro a b n h hn
    by_contra hthird
    obtain ⟨hna, hnb⟩ := not_or.mp hthird
    -- The third name still leads to its partner, so the partner would have to lead back.
    have hkept : (r.pair a b).inverse? n = some a := by
      rw [inverse?_pair_of_ne r hna hnb]
      exact hr a n hn
    have hback := h n a hkept
    rw [inverse?_pair_left] at hback
    exact hnb (Option.some.inj hback).symm
  rintro n (hn | hn)
  · exact hfirst h hn
  · rw [pair_comm] at h
    exact (hfirst h hn).symm

/-- Names that are not paired with third ones may be paired. -/
theorem Symmetric.pair (hr : r.Symmetric) (h : r.Available a b) : (r.pair a b).Symmetric := by
  intro x y hxy
  by_cases hxa : x = a
  · subst hxa
    rw [inverse?_pair_left] at hxy
    cases hxy
    apply inverse?_pair_right
  · by_cases hxb : x = b
    · subst hxb
      rw [inverse?_pair_right] at hxy
      cases hxy
      apply inverse?_pair_left
    · rw [inverse?_pair_of_ne r hxa hxb] at hxy
      have hyx := hr x y hxy
      -- The partner of a third name is not one of the two names, so it is left alone too.
      have hya : y ≠ a := by
        rintro rfl
        exact (h x (.inl hyx)).elim hxa hxb
      have hyb : y ≠ b := by
        rintro rfl
        exact (h x (.inr hyx)).elim hxa hxb
      rw [inverse?_pair_of_ne r hya hyb]
      exact hyx

/-- Pairing two names keeps a registry symmetric exactly if neither is paired with a third one. -/
theorem Symmetric.pair_iff (hr : r.Symmetric) : (r.pair a b).Symmetric ↔ r.Available a b :=
  ⟨hr.available, hr.pair⟩

/-- Declaring keeps a registry symmetric exactly if it takes no name away from a third one. -/
theorem Symmetric.declare_iff (hr : r.Symmetric) (h : r.declare f = .ok s) :
    s.Symmetric ↔ (f.bijective = true → r.Available f.name f.inverse.name) := by
  obtain ⟨_, ⟨hf, rfl⟩ | ⟨hf, _, rfl⟩⟩ := declare_eq_ok.mp h
  · simp [hf, hr]
  · simp [hf, hr.pair_iff]

/-- Appending a symmetric registry keeps a registry symmetric. -/
theorem Symmetric.append (hr : r.Symmetric) (ho : o.Symmetric) (h : r.append o = .ok s) :
    s.Symmetric := by
  obtain ⟨_, hagree, rfl⟩ := append_eq_ok.mp h
  intro a b hab
  rw [inverse?_union] at hab ⊢
  rcases Option.or_eq_some_iff.mp hab with hab | ⟨_, hab⟩
  · rw [ho a b hab, Option.some_or]
  · have hba := hr a b hab
    cases hb : o.inverse? b with
    | none => exact hba
    | some c => rw [hagree b a c hba hb, Option.some_or]

/-! ## Runs -/

/-- Every registry that is built without taking names away is symmetric. -/
theorem Orderly.symmetric (h : r.Orderly) : r.Symmetric := by
  induction h with
  | empty => exact symmetric_empty
  | ofSignature h =>
    exact (symmetric_empty.declare_iff h).mpr fun _ => available_of_unpaired rfl rfl
  | declare _ f hf ih =>
    refine (InPlace.atomic_declare f).after_induction ih fun s hs => ?_
    exact (ih.declare_iff hs).mpr (hf s hs)
  | append _ _ ih iho => exact (InPlace.atomic_append _).after_induction ih fun _ => ih.append iho
  | reset _ _ => exact symmetric_empty
  | pair _ hab ih => exact ih.pair hab

/-- The partner of each name is itself paired, if perhaps with another name. -/
def Closed (r : Registry) : Prop := ∀ a b, r.inverse? a = some b → ∃ c, r.inverse? b = some c

/-- Pairing two names pairs both of them, and leaves no other name without a partner. -/
theorem Closed.pair (hr : r.Closed) (a b : String) : (r.pair a b).Closed := by
  intro x y hxy
  by_cases hya : y = a
  · subst hya
    exact ⟨b, inverse?_pair_left r y b⟩
  · by_cases hyb : y = b
    · subst hyb
      exact ⟨a, inverse?_pair_right r a y⟩
    · rw [inverse?_pair_of_ne r hya hyb]
      -- A name that leads to a third one is a third one itself.
      have hxa : x ≠ a := by
        rintro rfl
        rw [inverse?_pair_left] at hxy
        exact hyb (Option.some.inj hxy).symm
      have hxb : x ≠ b := by
        rintro rfl
        rw [inverse?_pair_right] at hxy
        exact hya (Option.some.inj hxy).symm
      rw [inverse?_pair_of_ne r hxa hxb] at hxy
      exact hr x y hxy

/-- Declaring leaves no partner unpaired. -/
theorem Closed.declare (hr : r.Closed) (h : r.declare f = .ok s) : s.Closed := by
  obtain ⟨_, ⟨_, rfl⟩ | ⟨_, _, rfl⟩⟩ := declare_eq_ok.mp h
  · exact hr
  · exact hr.pair f.name f.inverse.name

/-- Appending leaves no partner unpaired. -/
theorem Closed.append (hr : r.Closed) (ho : o.Closed) (h : r.append o = .ok s) : s.Closed := by
  obtain ⟨_, _, rfl⟩ := append_eq_ok.mp h
  intro a b hab
  rw [inverse?_union] at hab ⊢
  rcases Option.or_eq_some_iff.mp hab with hab | ⟨_, hab⟩
  · obtain ⟨c, hc⟩ := ho a b hab
    exact ⟨c, by rw [hc, Option.some_or]⟩
  · cases hb : o.inverse? b with
    | none => exact hr a b hab
    | some c => exact ⟨c, rfl⟩

/-- However registries are built, the partner of each name is itself paired. -/
theorem Reached.closed {free : String → String → Prop} (h : r.Reached free) : r.Closed := by
  have hempty : Closed ∅ := nofun
  induction h with
  | empty => exact hempty
  | ofSignature h => exact hempty.declare h
  | declare _ f ih => exact (InPlace.atomic_declare f).after_induction ih fun _ => ih.declare
  | append _ _ ih iho => exact (InPlace.atomic_append _).after_induction ih fun _ => ih.append iho
  | reset _ _ => exact hempty
  | pair _ _ ih => exact ih.pair _ _

/-- Every registry that is built without taking a name away from a third one is symmetric.
Of a symmetric registry, pairing and declaring make a symmetric one exactly if they take no
name away from a third one, and appending a symmetric one always does. However names are
paired, the partner of a paired name is paired, if perhaps with another name. -/
theorem pairing_symmetric (r : Registry) :
    (r.Orderly → ∀ a b, r.inverse? a = some b → r.inverse? b = some a) ∧
    (r.Symmetric →
      (∀ a b, (r.pair a b).Symmetric ↔ r.Available a b) ∧
      (∀ f s, r.declare f = .ok s →
        (s.Symmetric ↔ (f.bijective = true → r.Available f.name f.inverse.name))) ∧
      ∀ o s, Symmetric o → r.append o = .ok s → s.Symmetric) ∧
    (r.Reached (fun _ _ => True) → ∀ a b, r.inverse? a = some b → ∃ c, r.inverse? b = some c) := by
  refine ⟨fun hr => hr.symmetric, fun hr => ⟨fun a b => hr.pair_iff, ?_, ?_⟩, fun hr => hr.closed⟩
  · intro f s h
    exact hr.declare_iff h
  · intro o s ho h
    exact hr.append ho h

/-- After `f` and `g` have been paired and the bijection `p` has been declared, its inverse
leads back to it. To pair `f` with `h` would then break the symmetry. -/
theorem pairing_symmetric_declared :
    ∃ r : Registry, r.inverse? "p" = some "p_inv" ∧ r.inverse? "p_inv" = some "p" ∧
      ¬ (r.pair "f" "h").Symmetric := by
  have hpaired : Orderly ((∅ : Registry).pair "f" "g") :=
    .pair .empty (available_of_unpaired rfl rfl)
  have hnew : ((∅ : Registry).pair "f" "g").Available "p" "p_inv" :=
    available_of_unpaired rfl rfl
  have hdeclared : Orderly (Update.after _ ((∅ : Registry).pair "f" "g")) :=
    .declare hpaired ⟨"p", .ofNames ["i"], .ofNames ["j"], true, .nondecreasing⟩
      fun _ _ _ => hnew
  refine ⟨_, rfl, (pairing_symmetric _).1 hdeclared "p" "p_inv" rfl, fun h => ?_⟩
  have havailable := (((pairing_symmetric _).2.1 hdeclared.symmetric).1 "f" "h").mp h
  exact absurd (havailable "g" (.inl rfl)) (by decide)

/-- If `f` is paired with `g` and then with `h`, then `g` still leads to `f`, which leads to
`h`. -/
theorem pairing_not_symmetric :
    ¬ ∀ r, Reached (fun _ _ => True) r →
      ∀ a b, r.inverse? a = some b → r.inverse? b = some a := by
  intro h
  have hreached : Reached (fun _ _ => True) (((∅ : Registry).pair "f" "g").pair "f" "h") :=
    .pair (.pair .empty trivial) trivial
  exact absurd (h _ hreached "g" "f" rfl) (by decide)

end AffineCalls.Registry
