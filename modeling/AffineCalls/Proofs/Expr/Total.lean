import AffineCalls.Proofs.Expr.Sum
import Mathlib.Algebra.Ring.Int.Defs

/-!
# Totals of factors

The total of a factor in a list of terms is the exact sum of its coefficients there. Adding a
term to a sum changes the total of its own factor only, and it succeeds exactly if the new
total is a coefficient. A merged sum has one summand for each factor with a total other than
zero, so it is told by the order of its factors and by their totals.
-/

namespace AffineCalls

/-- A checked result exists exactly if the exact result is in range. -/
theorem Coeff.exists_checked_iff {n : Int} : (∃ c, checked n = .ok c) ↔ InRange n := by
  constructor
  · rintro ⟨c, hc⟩
    exact checked_eq_ok_iff.mp hc ▸ c.inRange_val
  · intro h
    exact ⟨⟨n, h.1, h.2⟩, checked_eq_ok_iff.mpr rfl⟩

/-- Zero is in range. -/
theorem Coeff.inRange_zero : InRange 0 := (0 : Coeff).inRange_val

namespace Term

/-- The exact sum of the coefficients that a factor has in a list of terms. -/
def total (f : Factor) (ts : List Term) : Int :=
  ((ts.filter (·.factor = f)).map (·.coeff.val)).sum

/-- A factor and its exact coefficient. -/
def entry (t : Term) : Factor × Int := (t.factor, t.coeff.val)

variable {f : Factor} {t u : Term} {ts us vs : List Term}

@[simp] theorem total_nil : total f [] = 0 := rfl

/-- A first term adds its coefficient to the total of its factor. -/
theorem total_cons (f : Factor) (t : Term) (ts : List Term) :
    total f (t :: ts) = (if t.factor = f then t.coeff.val else 0) + total f ts := by
  by_cases h : t.factor = f
  · simp [total, h]
  · simp [total, h]

/-- The total in two lists is the sum of the totals. -/
theorem total_append (f : Factor) (ts us : List Term) :
    total f (ts ++ us) = total f ts + total f us := by
  simp [total]

/-- The total of a factor in a list of one term with that factor. -/
theorem total_singleton_self (t : Term) : total t.factor [t] = t.coeff.val := by
  simp [total_cons]

/-- Another factor has no total in a list of one term. -/
theorem total_singleton_of_ne (h : t.factor ≠ f) : total f [t] = 0 := by
  simp [total_cons, h]

/-- A factor that no term has has no total. -/
theorem total_of_notMem (h : f ∉ ts.map (·.factor)) : total f ts = 0 := by
  induction ts with
  | nil => rfl
  | cons t ts ih =>
    rw [List.map_cons, List.mem_cons, not_or] at h
    rw [total_cons, if_neg (Ne.symm h.1), ih h.2, Int.zero_add]

/-- Terms with the same entry are equal. -/
theorem entry_injective : Function.Injective entry := by
  rintro ⟨c, f⟩ ⟨d, g⟩ h
  obtain ⟨hfactor, hval⟩ := Prod.mk.inj h
  exact congrArg₂ Term.mk (Coeff.val_inj.mp hval) hfactor

/-! ## Merged lists -/

/-- In a merged list, the total of the factor of a summand is the coefficient. -/
theorem Merged.total_eq (hus : Merged us) (hu : u ∈ us) : total u.factor us = u.coeff.val := by
  induction us with
  | nil => exact nomatch hu
  | cons v us ih =>
    obtain ⟨_, hnot, hmerged⟩ := merged_cons.mp hus
    rw [total_cons]
    rcases List.mem_cons.mp hu with rfl | hu
    · rw [if_pos rfl, total_of_notMem hnot, Int.add_zero]
    · have hne : v.factor ≠ u.factor := fun h => hnot (h ▸ List.mem_map_of_mem hu)
      rw [if_neg hne, Int.zero_add, ih hmerged hu]

/-- The factors of a merged list are those with a total other than zero. -/
theorem Merged.mem_factors_iff (hus : Merged us) :
    f ∈ us.map (·.factor) ↔ total f us ≠ 0 := by
  constructor
  · intro hf
    obtain ⟨u, hu, rfl⟩ := List.mem_map.mp hf
    rw [hus.total_eq hu]
    exact mt Coeff.eq_zero_iff.mpr (hus.nonzero u hu)
  · intro h
    by_contra hnot
    exact h (total_of_notMem hnot)

/-- Every total in a merged list is in range. -/
theorem Merged.inRange_total (hus : Merged us) (f : Factor) : Coeff.InRange (total f us) := by
  by_cases hf : f ∈ us.map (·.factor)
  · obtain ⟨u, hu, rfl⟩ := List.mem_map.mp hf
    rw [hus.total_eq hu]
    exact u.coeff.inRange_val
  · rw [total_of_notMem hf]
    exact Coeff.inRange_zero

/-- The entries of a merged list are its factors with their totals. -/
theorem Merged.map_entry (hus : Merged us) :
    us.map entry = (us.map (·.factor)).map fun f => (f, total f us) := by
  rw [List.map_map]
  refine List.map_congr_left fun u hu => ?_
  exact congrArg (Prod.mk u.factor) (hus.total_eq hu).symm

/-! ## Adding a term -/

/-- Adding a term adds its coefficient to the total of its factor. -/
theorem total_addTo (h : t.addTo us = .ok vs) (f : Factor) :
    total f vs = total f us + total f [t] := by
  induction us generalizing vs with
  | nil =>
    cases h
    rw [total_nil, Int.zero_add]
  | cons u us ih =>
    rw [total_cons f u us]
    rcases addTo_cons_eq_ok.mp h with ⟨hfactor, c, hc, rfl⟩ | ⟨_, ws, hws, rfl⟩
    · have hval : c.val = u.coeff.val + t.coeff.val := Coeff.checked_eq_ok_iff.mp hc
      rw [total_cons f t [], total_nil, ← hfactor]
      by_cases hzero : c = 0
      · rw [if_pos hzero]
        rw [Coeff.eq_zero_iff.mp hzero] at hval
        split <;> omega
      · rw [if_neg hzero, total_cons]
        change (if u.factor = f then c.val else 0) + _ = _
        split <;> omega
    · rw [total_cons, ih hws, Int.add_assoc]

/-- A term can be added to a merged list exactly if the new total of its factor is in range. -/
theorem Merged.exists_addTo_iff (hus : Merged us) :
    (∃ vs, t.addTo us = .ok vs) ↔ Coeff.InRange (total t.factor us + t.coeff.val) := by
  induction us with
  | nil =>
    rw [total_nil, Int.zero_add]
    exact ⟨fun _ => t.coeff.inRange_val, fun _ => ⟨[t], rfl⟩⟩
  | cons u us ih =>
    obtain ⟨_, hnot, hmerged⟩ := merged_cons.mp hus
    rw [total_cons]
    by_cases hfactor : u.factor = t.factor
    · have htotal : total t.factor us = 0 := total_of_notMem (hfactor ▸ hnot)
      rw [if_pos hfactor, htotal, Int.add_zero, ← Coeff.exists_checked_iff]
      constructor
      · rintro ⟨vs, h⟩
        rcases addTo_cons_eq_ok.mp h with ⟨_, c, hc, _⟩ | ⟨hne, _⟩
        · exact ⟨c, hc⟩
        · exact absurd hfactor hne
      · rintro ⟨c, hc⟩
        exact ⟨_, addTo_cons_eq_ok.mpr (.inl ⟨hfactor, c, hc, rfl⟩)⟩
    · rw [if_neg hfactor, Int.zero_add, ← ih hmerged]
      constructor
      · rintro ⟨vs, h⟩
        rcases addTo_cons_eq_ok.mp h with ⟨heq, _⟩ | ⟨_, ws, hws, _⟩
        · exact absurd heq hfactor
        · exact ⟨ws, hws⟩
      · rintro ⟨ws, hws⟩
        exact ⟨_, addTo_cons_eq_ok.mpr (.inr ⟨hfactor, ws, hws, rfl⟩)⟩

end Term

namespace Expr

variable {e s : Expr} {f : Factor} {t : Term} {ts : List Term}

/-- Adding a term adds its coefficient to the total of its factor. -/
theorem total_addTerm (h : e.addTerm t = .ok s) (f : Factor) :
    Term.total f s.terms = Term.total f e.terms + Term.total f [t] := by
  rcases addTerm_eq_ok.mp h with ⟨hzero, rfl⟩ | ⟨_, h⟩
  · rw [Term.total_cons, Coeff.eq_zero_iff.mp hzero, ite_self, Term.total_nil]
    omega
  · exact Term.total_addTo h f

/-- A term can be added to a merged sum exactly if the new total of its factor is in range. -/
theorem exists_addTerm_iff (he : Term.Merged e.terms) :
    (∃ s, e.addTerm t = .ok s) ↔ Coeff.InRange (Term.total t.factor e.terms + t.coeff.val) := by
  by_cases hzero : t.coeff = 0
  · rw [Coeff.eq_zero_iff.mp hzero, Int.add_zero]
    exact ⟨fun _ => he.inRange_total t.factor, fun _ => ⟨e, addTerm_eq_ok.mpr (.inl ⟨hzero, rfl⟩)⟩⟩
  · rw [← he.exists_addTo_iff]
    constructor
    · rintro ⟨s, h⟩
      rcases addTerm_eq_ok.mp h with ⟨h, _⟩ | ⟨_, h⟩
      · exact absurd h hzero
      · exact ⟨s.terms, h⟩
    · rintro ⟨vs, h⟩
      exact ⟨⟨vs⟩, addTerm_eq_ok.mpr (.inr ⟨hzero, h⟩)⟩

/-! ## Adding a list of terms -/

/-- Adding terms adds their totals. -/
theorem total_foldlM_addTerm (h : ts.foldlM addTerm e = .ok s) (f : Factor) :
    Term.total f s.terms = Term.total f e.terms + Term.total f ts := by
  induction ts generalizing e with
  | nil =>
    cases h
    rw [Term.total_nil, Int.add_zero]
  | cons t ts ih =>
    rw [List.foldlM_cons, bind_eq_ok] at h
    obtain ⟨e', he', h⟩ := h
    rw [ih h, total_addTerm he', Int.add_assoc, ← Term.total_append, List.singleton_append]

/-- The total after a first term and some more is that of the latter in the new sum. -/
theorem total_take_succ (h : e.addTerm t = .ok s) (f : Factor) (k : Nat) :
    Term.total f e.terms + Term.total f ((t :: ts).take (k + 1)) =
      Term.total f s.terms + Term.total f (ts.take k) := by
  rw [total_addTerm h, List.take_succ_cons, ← List.singleton_append, Term.total_append,
    Int.add_assoc]

/-- Terms can be added to a merged sum exactly if the total of every factor stays in range all
the way. -/
theorem exists_foldlM_addTerm_iff (he : Term.Merged e.terms) :
    (∃ s, ts.foldlM addTerm e = .ok s) ↔
      ∀ f k, Coeff.InRange (Term.total f e.terms + Term.total f (ts.take k)) := by
  induction ts generalizing e with
  | nil =>
    simp only [List.take_nil, Term.total_nil, Int.add_zero]
    exact ⟨fun _ f _ => he.inRange_total f, fun _ => ⟨e, rfl⟩⟩
  | cons t ts ih =>
    constructor
    · rintro ⟨s, h⟩ f k
      rw [List.foldlM_cons, bind_eq_ok] at h
      obtain ⟨e', he', h⟩ := h
      cases k with
      | zero =>
        rw [List.take_zero, Term.total_nil, Int.add_zero]
        exact he.inRange_total f
      | succ k =>
        rw [total_take_succ he']
        exact (ih (merged_addTerm he he')).mp ⟨s, h⟩ f k
    · intro h
      have hfirst : Coeff.InRange (Term.total t.factor e.terms + t.coeff.val) := by
        have htake := h t.factor 1
        rwa [List.take_succ_cons, List.take_zero, Term.total_singleton_self] at htake
      obtain ⟨e', he'⟩ := (exists_addTerm_iff he).mpr hfirst
      have hrest : ∀ f k, Coeff.InRange (Term.total f e'.terms + Term.total f (ts.take k)) :=
        fun f k => total_take_succ he' f k ▸ h f (k + 1)
      obtain ⟨s, hs⟩ := (ih (merged_addTerm he he')).mpr hrest
      exact ⟨s, bind_eq_ok.mpr ⟨e', he', hs⟩⟩

/-- Merged sums with the same factors in the same order and with the same totals are equal. -/
theorem eq_of_totals_eq {e o : Expr} (he : Term.Merged e.terms) (ho : Term.Merged o.terms)
    (hfactors : e.terms.map (·.factor) = o.terms.map (·.factor))
    (htotals : ∀ f, Term.total f e.terms = Term.total f o.terms) : e = o := by
  obtain ⟨ts⟩ := e
  obtain ⟨us⟩ := o
  have hentries : ts.map Term.entry = us.map Term.entry := by
    rw [he.map_entry, ho.map_entry, hfactors]
    exact List.map_congr_left fun f _ => congrArg (Prod.mk f) (htotals f)
  rw [List.map_injective_iff.mpr Term.entry_injective hentries]

end Expr

end AffineCalls
