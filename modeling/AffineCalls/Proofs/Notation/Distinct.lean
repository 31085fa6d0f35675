import AffineCalls.Proofs.Notation.Written

/-!
# Different expressions have different forms

A normal expression is determined by the form in which it is written: the empty sum
is the only one written as the number zero, and every summand keeps its sign, the
absolute value of its coefficient and the form of its factor. The least coefficient
is no exception here, as the numbers of forms are not bounded.
-/

namespace AffineCalls

/-- A list is determined by the images of its members. -/
theorem eq_of_map_eq_map {α β : Type} {f : α → β} {xs ys : List α}
    (hinj : ∀ x ∈ xs, ∀ y ∈ ys, f x = f y → x = y) (h : xs.map f = ys.map f) : xs = ys := by
  induction xs generalizing ys with
  | nil => exact (List.map_eq_nil_iff.mp h.symm).symm
  | cons x xs ih =>
    cases ys with
    | nil => exact nomatch h
    | cons y ys =>
      obtain ⟨hx, hxs⟩ := List.cons.inj h
      have hhead := hinj x List.mem_cons_self y List.mem_cons_self hx
      have htail := ih (fun x hx y hy => hinj x (.tail _ hx) y (.tail _ hy)) hxs
      rw [hhead, htail]

/-- An atom determines the absolute value of the coefficient and the form of the factor. -/
theorem AtomForm.ofMagnitude_inj {m n : Nat} {f g : Option FactorForm}
    (h : AtomForm.ofMagnitude m f = AtomForm.ofMagnitude n g) : m = n ∧ f = g := by
  cases f with
  | none =>
    cases g with
    | none => exact ⟨AtomForm.number.inj h, rfl⟩
    | some g =>
      rw [ofMagnitude, ofMagnitude] at h
      by_cases hn : n = 1
      · rw [if_pos hn] at h
        cases h
      · rw [if_neg hn] at h
        cases h
  | some f =>
    by_cases hm : m = 1
    · rw [ofMagnitude, if_pos hm] at h
      cases g with
      | none => cases h
      | some g =>
        rw [ofMagnitude] at h
        by_cases hn : n = 1
        · rw [if_pos hn] at h
          exact ⟨hm.trans hn.symm, congrArg some (AtomForm.factor.inj h)⟩
        · rw [if_neg hn] at h
          cases h
    · rw [ofMagnitude, if_neg hm] at h
      cases g with
      | none => cases h
      | some g =>
        rw [ofMagnitude] at h
        by_cases hn : n = 1
        · rw [if_pos hn] at h
          cases h
        · rw [if_neg hn] at h
          obtain ⟨hmn, hfg⟩ := AtomForm.multiple.inj h
          exact ⟨hmn, congrArg some hfg⟩

/-- A sum determines its summands, unless one of them is the number zero. -/
theorem SumForm.ofSummands_inj {ss ts : List SummandForm} (hss : ∀ s ∈ ss, s.atom ≠ .number 0)
    (hts : ∀ t ∈ ts, t.atom ≠ .number 0) (h : SumForm.ofSummands ss = SumForm.ofSummands ts) :
    ss = ts := by
  cases ss with
  | nil =>
    cases ts with
    | nil => rfl
    | cons t ts =>
      obtain ⟨_, hatom, _⟩ := SumForm.mk.inj h
      exact absurd hatom.symm (hts t List.mem_cons_self)
  | cons s ss =>
    cases ts with
    | nil =>
      obtain ⟨_, hatom, _⟩ := SumForm.mk.inj h
      exact absurd hatom (hss s List.mem_cons_self)
    | cons t ts =>
      obtain ⟨negative, atom⟩ := s
      obtain ⟨negative', atom'⟩ := t
      obtain ⟨hsign, hatom, hrest⟩ := SumForm.mk.inj h
      rw [show negative = negative' from hsign, show atom = atom' from hatom, hrest]

/-- Calls are determined by their forms if their arguments are. -/
theorem Call.form_inj {c d : Call}
    (ih : ∀ a ∈ c.args, ∀ b ∈ d.args, a.form = b.form → a = b) (h : c.form = d.form) : c = d := by
  rw [Call.form_eq, Call.form_eq] at h
  obtain ⟨hname, hargs⟩ := FactorForm.call.inj h
  obtain ⟨name, args⟩ := c
  obtain ⟨name', args'⟩ := d
  obtain rfl : args = args' := eq_of_map_eq_map ih hargs
  rw [show name = name' from hname]

/-- Factors are determined by their forms if their arguments are. -/
theorem Factor.form?_inj {f g : Factor}
    (ih : ∀ a ∈ f.args, ∀ b ∈ g.args, a.form = b.form → a = b) (h : f.form? = g.form?) :
    f = g := by
  cases f with
  | call c =>
    cases g with
    | call d => rw [Call.form_inj ih (Option.some.inj h)]
    | _ =>
      have h' := h.symm
      simp only [Factor.form?, Call.form_eq] at h'
      cases h'
  | _ =>
    cases g with
    | call d =>
      simp only [Factor.form?, Call.form_eq] at h
      cases h
    | _ =>
      cases h
      try rfl

/-- Terms are determined by their forms if their arguments are. -/
theorem Term.form_inj {t u : Term}
    (ih : ∀ a ∈ t.factor.args, ∀ b ∈ u.factor.args, a.form = b.form → a = b)
    (h : t.form = u.form) : t = u := by
  rw [Term.form_eq, Term.form_eq] at h
  obtain ⟨hsign, hatom⟩ := SummandForm.mk.inj h
  obtain ⟨hmagnitude, hfactor⟩ := AtomForm.ofMagnitude_inj hatom
  have hnegative : t.coeff.val < 0 ↔ u.coeff.val < 0 := decide_eq_decide.mp hsign
  have hcoeff : t.coeff = u.coeff := Coeff.ext (by omega)
  obtain ⟨c, f⟩ := t
  obtain ⟨d, g⟩ := u
  rw [show c = d from hcoeff, show f = g from Factor.form?_inj ih hfactor]

/-- The form of a term with a coefficient is not the form of the empty sum. -/
theorem Term.atom_form_ne_zero {t : Term} (h : t.coeff ≠ 0) : t.form.atom ≠ .number 0 := by
  rw [Term.form_eq]
  intro hatom
  obtain ⟨hzero, _⟩ := AtomForm.ofMagnitude_inj (g := none) hatom
  exact h (Coeff.eq_zero_iff.mpr (Int.natAbs_eq_zero.mp hzero))

/-- A normal expression is determined by its form. -/
theorem Expr.form_inj {e o : Expr} (he : e.Normal) (ho : o.Normal) (h : e.form = o.form) :
    e = o := by
  induction e using Expr.induction generalizing o with
  | step e ih =>
    obtain ⟨hmerged, hargs⟩ := Expr.normal_iff.mp he
    obtain ⟨hmerged', hargs'⟩ := Expr.normal_iff.mp ho
    have hinj : ∀ t ∈ e.terms, ∀ u ∈ o.terms, t.form = u.form → t = u :=
      fun t ht u hu => Term.form_inj fun a ha b hb =>
        ih t ht a ha (hargs t ht a ha) (hargs' u hu b hb)
    have hatom : ∀ s ∈ e.terms.map Term.form, s.atom ≠ .number 0 :=
      List.forall_mem_map.mpr fun t ht => Term.atom_form_ne_zero (hmerged.nonzero t ht)
    have hatom' : ∀ s ∈ o.terms.map Term.form, s.atom ≠ .number 0 :=
      List.forall_mem_map.mpr fun u hu => Term.atom_form_ne_zero (hmerged'.nonzero u hu)
    rw [Expr.form_eq, Expr.form_eq] at h
    have hterms := eq_of_map_eq_map hinj (SumForm.ofSummands_inj hatom hatom' h)
    obtain ⟨ts⟩ := e
    obtain ⟨us⟩ := o
    rw [show ts = us from hterms]

end AffineCalls
