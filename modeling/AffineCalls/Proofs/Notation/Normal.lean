import AffineCalls.Proofs.Expr.Normal
import AffineCalls.Proofs.Notation.Grammar

/-!
# What is read is normal

The value of a form is put together from single terms by signs and additions, which keep
expressions normal, so every form has a normal value, in the arguments of its calls too.
-/

namespace AffineCalls

/-- A normal expression stays normal behind a sign. -/
theorem Expr.normal_signed {e s : Expr} {negative : Bool} (he : e.Normal)
    (h : e.signed negative = .ok s) : s.Normal := by
  cases negative with
  | false =>
    cases h
    exact he
  | true =>
    change e.scale .minusOne = .ok s at h
    exact Expr.normal_scale he h

mutual

/-- The factor that a form stands for has normal arguments. -/
theorem FactorForm.normal_of_eval {f : FactorForm} {v : Factor} (h : f.eval = .ok v) :
    ∀ a ∈ v.args, a.Normal := by
  match f with
  | .position i =>
    cases h
    exact List.forall_mem_nil _
  | .symbol name =>
    cases h
    exact List.forall_mem_nil _
  | .call name args =>
    obtain ⟨es, hes, rfl⟩ := FactorForm.eval_call_eq_ok.mp h
    exact SumForm.normal_of_evalEach hes
termination_by structural f

/-- The value of an atom is normal. -/
theorem AtomForm.normal_of_eval {a : AtomForm} {e : Expr} (h : a.eval = .ok e) : e.Normal := by
  match a with
  | .multiple n f =>
    obtain ⟨c, _, v, hv, rfl⟩ := AtomForm.eval_multiple_eq_ok.mp h
    exact Expr.normal_ofTerm (FactorForm.normal_of_eval hv)
  | .number n =>
    obtain ⟨c, _, rfl⟩ := AtomForm.eval_number_eq_ok.mp h
    exact Expr.normal_ofTerm (List.forall_mem_nil _)
  | .factor f =>
    obtain ⟨v, hv, rfl⟩ := AtomForm.eval_factor_eq_ok.mp h
    exact Expr.normal_ofTerm (FactorForm.normal_of_eval hv)
  | .parens s =>
    rw [AtomForm.eval_parens] at h
    exact SumForm.normal_of_eval h
termination_by structural a

/-- The value of a form is normal. -/
theorem SumForm.normal_of_eval {s : SumForm} {e : Expr} (h : s.eval = .ok e) : e.Normal := by
  match s with
  | ⟨negative, a, ss⟩ =>
    obtain ⟨x, hx, y, hy, he⟩ := SumForm.eval_eq_ok.mp h
    have hfirst := Expr.normal_signed (AtomForm.normal_of_eval hx) hy
    exact SummandForm.normal_of_evalOnto hfirst he
termination_by structural s

/-- The values of arguments are normal. -/
theorem SumForm.normal_of_evalEach {ss : List SumForm} {es : List Expr}
    (h : SumForm.evalEach ss = .ok es) : ∀ e ∈ es, e.Normal := by
  match ss with
  | [] =>
    cases h
    exact List.forall_mem_nil _
  | s :: ss =>
    obtain ⟨e, he, es', hes, rfl⟩ := SumForm.evalEach_cons_eq_ok.mp h
    exact List.forall_mem_cons.mpr ⟨SumForm.normal_of_eval he, SumForm.normal_of_evalEach hes⟩
termination_by structural ss

/-- A normal expression stays normal when the values of summands are added. -/
theorem SummandForm.normal_of_evalOnto {ss : List SummandForm} {e x : Expr} (he : e.Normal)
    (h : SummandForm.evalOnto ss e = .ok x) : x.Normal := by
  match ss with
  | [] =>
    cases h
    exact he
  | ⟨negative, a⟩ :: ss =>
    obtain ⟨y, hy, sum, hsum, hx⟩ := SummandForm.evalOnto_cons_eq_ok.mp h
    obtain ⟨z, hz, hsigned⟩ := SummandForm.eval_eq_ok.mp hy
    have hsummand := Expr.normal_signed (AtomForm.normal_of_eval hz) hsigned
    exact SummandForm.normal_of_evalOnto (Expr.normal_add he hsummand hsum) hx
termination_by structural ss

end

/-- Every expression that is read is normal. -/
theorem Expr.normal_of_parse {s : String} {e : Expr} (h : Expr.parse s = .ok e) : e.Normal := by
  obtain ⟨d, _, he⟩ := Expr.parse_eq_ok_iff.mp h
  exact SumForm.normal_of_eval he

end AffineCalls
