import AffineCalls.Proofs.Expr.Merge
import AffineCalls.Proofs.Expr.Value
import AffineCalls.Proofs.Obtained

/-!
# Exact arithmetic

Adding and multiplying expressions give the exact result or fail, and they fail exactly if a
coefficient of the exact result is out of range. A failure is found after some terms have been
added or multiplied already, but the expression that is held afterwards is the old one.
-/

namespace AffineCalls.Expr

variable {e o s : Expr} {c : Coeff}

/-- A multiple exists exactly if every exact product is in range. -/
theorem exists_scale_iff :
    (∃ s, e.scale c = .ok s) ↔ ∀ t ∈ e.terms, Coeff.InRange (t.coeff.val * c.val) := by
  by_cases hc : c = 0
  · subst hc
    refine ⟨fun _ t _ => ?_, fun _ => ⟨0, rfl⟩⟩
    rw [Coeff.val_zero, Int.mul_zero]
    exact Coeff.inRange_zero
  · constructor
    · rintro ⟨s, h⟩ t ht
      obtain ⟨_, hpairs⟩ := (scale_eq_ok.mp h).resolve_left fun h => hc h.1
      obtain ⟨u, _, hcoeff, _⟩ := exists_of_forall₂ hpairs ht
      exact Coeff.exists_checked_iff.mp ⟨_, hcoeff⟩
    · intro h
      have hproducts : ∀ t ∈ e.terms, ∃ u : Term,
          t.coeff.mul c = .ok u.coeff ∧ u.factor = t.factor := by
        intro t ht
        obtain ⟨d, hd⟩ := Coeff.exists_checked_iff.mpr (h t ht)
        exact ⟨t.withCoeff d, hd, rfl⟩
      obtain ⟨us, hus⟩ := exists_forall₂ hproducts
      exact ⟨⟨us⟩, scale_eq_ok.mpr (.inr ⟨hc, hus⟩)⟩

/-- Multiplication fails exactly if some exact product is out of range. -/
theorem scale_eq_overflow_iff :
    e.scale c = .error .coefficient ↔ ∃ t ∈ e.terms, ¬Coeff.InRange (t.coeff.val * c.val) := by
  rw [eq_overflow_iff, exists_scale_iff]
  simp

/-- A sum is a multiple by a number other than zero exactly if it has the same factors in the
same order with the exact products as coefficients. -/
theorem scale_eq_ok_iff (hc : c ≠ 0) :
    e.scale c = .ok s ↔
      s.terms.map Term.entry = e.terms.map fun t => (t.factor, t.coeff.val * c.val) := by
  have hpair : ∀ t u : Term, t.coeff.mul c = .ok u.coeff ∧ u.factor = t.factor ↔
      (t.factor, t.coeff.val * c.val) = u.entry := by
    intro t u
    rw [Coeff.mul, Coeff.checked_eq_ok_iff, Term.entry, Prod.mk.injEq, and_comm,
      @eq_comm _ u.factor, @eq_comm _ u.coeff.val]
  rw [scale_eq_ok, or_iff_right fun h => hc h.1, and_iff_right hc,
    @eq_comm _ (s.terms.map Term.entry), ← List.forall₂_eq_eq_eq, List.forall₂_map_left_iff,
    List.forall₂_map_right_iff]
  simp only [hpair]

/-- Adding `o` to `e` gives the exact sum or leaves `e` as it is. -/
structure AddsExactly (e o : Expr) : Prop where
  /-- It fails exactly if the coefficients of a factor of both have a sum out of range. -/
  fails : e.add o = .error .coefficient ↔ ∃ t ∈ e.terms, ∃ u ∈ o.terms,
    t.sameFactor u = true ∧ ¬Coeff.InRange (t.coeff.val + u.coeff.val)
  /-- Otherwise it gives the expression that has the entries of both added up. -/
  gives : ∀ s, e.add o = .ok s ↔ s.terms.map Term.entry = e.merge o
  /-- A failure leaves the expression as it was. -/
  keeps : e.add o = .error .coefficient → (InPlace.add o).outcome e = (.error .coefficient, e)
  /-- The value of the sum is the sum of the values. -/
  value : ∀ s, e.add o = .ok s → ∀ I, s.value I = e.value I + o.value I

/-- Multiplying `e` by `c` gives the exact multiple or leaves `e` as it is. -/
structure ScalesExactly (c : Coeff) (e : Expr) : Prop where
  /-- It fails exactly if some product is out of range. -/
  fails : e.scale c = .error .coefficient ↔ ∃ t ∈ e.terms, ¬Coeff.InRange (t.coeff.val * c.val)
  /-- By a number other than zero, it gives the expression with the exact products in place. -/
  gives : c ≠ 0 → ∀ s, e.scale c = .ok s ↔
    s.terms.map Term.entry = e.terms.map fun t => (t.factor, t.coeff.val * c.val)
  /-- By zero, it gives the empty sum. -/
  zero : c = 0 → e.scale c = .ok 0
  /-- A failure leaves the expression as it was. -/
  keeps : e.scale c = .error .coefficient → (InPlace.scale c).outcome e = (.error .coefficient, e)
  /-- The value of the multiple is the multiple of the value. -/
  value : ∀ s, e.scale c = .ok s → ∀ I, s.value I = c.val * e.value I

/-- Addition and multiplication of expressions that can be obtained are exact. -/
theorem Obtained.arithmetic_exact (he : e.Obtained) (ho : o.Obtained) (c : Coeff) :
    e.AddsExactly o ∧ e.ScalesExactly c := by
  have hleft := (normal_iff.mp he.normal).1
  have hright := (normal_iff.mp ho.normal).1
  constructor
  · refine ⟨add_eq_overflow_iff hleft hright, fun s => add_eq_ok_iff hleft hright,
      (InPlace.atomic_add o).outcome_of_error, fun s h I => ?_⟩
    rw [add_eq] at h
    rw [value_foldlM_addTerm h, value_eq o]
  · refine ⟨scale_eq_overflow_iff, fun hc s => scale_eq_ok_iff hc, fun hc => ?_,
      (InPlace.atomic_scale c).outcome_of_error, fun s h I => value_scale h⟩
    rw [scale_eq, if_pos hc]

/-- To `-9223372036854775808*x + y` one can neither add `-y - x`, although `y` cancels before `x`
overflows, nor can it be negated. Both leave it as it is. Adding `-y + z` cancels `y`. -/
theorem arithmetic_exact_least :
    let least : Coeff := ⟨-9223372036854775808, by decide, by decide⟩
    let e : Expr := ⟨[⟨least, .symbol "x"⟩, ⟨1, .symbol "y"⟩]⟩
    let o : Expr := ⟨[⟨.minusOne, .symbol "y"⟩, ⟨.minusOne, .symbol "x"⟩]⟩
    let o' : Expr := ⟨[⟨.minusOne, .symbol "y"⟩, ⟨1, .symbol "z"⟩]⟩
    (InPlace.add o).outcome e = (.error .coefficient, e) ∧
      (InPlace.scale .minusOne).outcome e = (.error .coefficient, e) ∧
      e.add o' = .ok ⟨[⟨least, .symbol "x"⟩, ⟨1, .symbol "z"⟩]⟩ := by
  intro least e o o'
  have hflat : ∀ {x : Expr}, (∀ t ∈ x.terms, t.factor.args = []) → sum x.terms = .ok x →
      x.Obtained := fun hargs h =>
    .sum (fun t ht a ha => absurd (hargs t ht ▸ ha) List.not_mem_nil) h
  have he : e.Obtained := hflat (by decide) rfl
  have ho : o.Obtained := hflat (by decide) rfl
  have ho' : o'.Obtained := hflat (by decide) rfl
  obtain ⟨hadd, hscale⟩ := Obtained.arithmetic_exact he ho .minusOne
  obtain ⟨hadd', _⟩ := Obtained.arithmetic_exact he ho' .minusOne
  have hfails : e.add o = .error .coefficient :=
    hadd.fails.mpr ⟨⟨least, .symbol "x"⟩, by simp [e], ⟨.minusOne, .symbol "x"⟩, by simp [o],
      by decide, by decide⟩
  have hfails' : e.scale .minusOne = .error .coefficient :=
    hscale.fails.mpr ⟨⟨least, .symbol "x"⟩, by simp [e], by decide⟩
  exact ⟨hadd.keeps hfails, hscale.keeps hfails', (hadd'.gives _).mpr (by decide)⟩

end AffineCalls.Expr
