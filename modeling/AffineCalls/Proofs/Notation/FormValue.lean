import AffineCalls.Proofs.Expr.Return
import AffineCalls.Proofs.Notation.Written

/-!
# What a written form stands for

The form in which an expression is written stands for the expression with its sums formed
again, which is the expression itself if it is normal. If some coefficient is the least
one, its absolute value is no coefficient, and the form stands for nothing.
-/

namespace AffineCalls

/-- A list of forms stands for what its members stand for. -/
theorem SumForm.evalEach_eq_mapM (ss : List SumForm) :
    SumForm.evalEach ss = ss.mapM SumForm.eval := by
  induction ss with
  | nil => rfl
  | cons s ss ih =>
    rw [SumForm.evalEach, ih, List.mapM_cons]

/-- The form of a factor stands for the factor with the sums inside formed again. -/
theorem Factor.eval_form {f : Factor} (ih : ∀ a ∈ f.args, a.form.eval = a.rebuild)
    {g : FactorForm} (hg : f.form? = some g) : g.eval = f.substitute .identity := by
  cases f with
  | one => exact nomatch hg
  | position i => cases hg; rfl
  | symbol name => cases hg; rfl
  | call c =>
    obtain ⟨name, args⟩ := c
    have hargs : SumForm.evalEach (args.map Expr.form) = Expr.substituteEach .identity args := by
      rw [SumForm.evalEach_eq_mapM, Expr.substituteEach_eq_mapM, List.mapM_map]
      exact mapM_congr ih
    rw [Factor.form?, Option.some.injEq, Call.form_eq] at hg
    subst hg
    rw [FactorForm.eval, hargs, Factor.substitute, Call.substituteArgs, bind_assoc]
    rfl

/-- The atom of a factor stands for its multiple if the absolute value is a coefficient. -/
theorem AtomForm.eval_ofMagnitude {f : Factor} (ih : ∀ a ∈ f.args, a.form.eval = a.rebuild)
    {n : Nat} {c : Coeff} (hc : Coeff.checked n = .ok c) :
    (AtomForm.ofMagnitude n f.form?).eval =
      f.substitute .identity >>= fun f' => .ok (.ofTerm ⟨c, f'⟩) := by
  cases hg : f.form? with
  | none =>
    obtain rfl : f = .one := by cases f <;> first | rfl | cases hg
    rw [ofMagnitude, AtomForm.eval, hc]
    rfl
  | some g =>
    have hfactor := Factor.eval_form ih hg
    rw [ofMagnitude]
    by_cases hn : n = 1
    · obtain rfl : c = 1 := by
        rw [← Coeff.val_inj, Coeff.checked_eq_ok_iff.mp hc, hn]
        rfl
      rw [if_pos hn, AtomForm.eval, hfactor]
      rfl
    · rw [if_neg hn, AtomForm.eval, hc, hfactor]
      rfl

/-- The sign turns the absolute value of a coefficient into the coefficient. -/
theorem Expr.signed_magnitude {c m : Coeff} (f : Factor) (hm : m.val = c.val.natAbs) :
    Expr.signed (c.val < 0) ⟨[⟨m, f⟩]⟩ = .ok ⟨[⟨c, f⟩]⟩ := by
  rw [Expr.signed]
  by_cases hneg : c.val < 0
  · have hproduct : m.mul .minusOne = .ok c := by
      rw [Coeff.mul, Coeff.checked_eq_ok_iff, Coeff.val_minusOne]
      omega
    rw [if_pos (decide_eq_true hneg), Expr.scale_eq, if_neg (by decide)]
    refine bind_eq_ok.mpr ⟨[⟨c, f⟩], ?_, rfl⟩
    rw [mapM_eq_ok, List.forall₂_cons]
    exact ⟨bind_eq_ok.mpr ⟨c, hproduct, rfl⟩, .nil⟩
  · obtain rfl : m = c := Coeff.ext (by omega)
    rw [if_neg (by simpa using hneg)]

/-- The form of a term stands for the sum of it alone, with the sums inside formed again. -/
theorem Term.eval_form {t : Term} (ih : ∀ a ∈ t.factor.args, a.form.eval = a.rebuild)
    (hzero : t.coeff ≠ 0) (hleast : t.coeff.val ≠ -9223372036854775808) :
    t.form.eval = t.substitute .identity >>= fun u => .ok ⟨[u]⟩ := by
  obtain ⟨c, f⟩ := t
  have hlower := c.lower
  have hupper := c.upper
  have hne : c.val ≠ 0 := fun h => hzero (Coeff.eq_zero_iff.mpr h)
  simp only at hleast
  obtain ⟨m, hm⟩ : ∃ m : Coeff, m.val = c.val.natAbs :=
    ⟨⟨c.val.natAbs, by omega, by omega⟩, rfl⟩
  have hmagnitude : m ≠ 0 := by
    intro h
    rw [Coeff.eq_zero_iff] at h
    omega
  rw [Term.form_eq, SummandForm.eval,
    AtomForm.eval_ofMagnitude ih (Coeff.checked_eq_ok_iff.mpr hm), Term.substitute, bind_assoc,
    bind_assoc]
  refine congrArg _ (funext fun f' => ?_)
  change (Expr.ofTerm ⟨m, f'⟩).signed (c.val < 0) = .ok ⟨[⟨c, f'⟩]⟩
  rw [Expr.ofTerm, if_neg hmagnitude]
  exact Expr.signed_magnitude f' hm

/-- Summands are added to an expression as their forms say. -/
theorem SummandForm.evalOnto_map {ts : List Term}
    (h : ∀ t ∈ ts, t.form.eval = t.substitute .identity >>= fun u => .ok ⟨[u]⟩) (e : Expr) :
    SummandForm.evalOnto (ts.map Term.form) e = Term.substituteOnto .identity ts e := by
  induction ts generalizing e with
  | nil => rfl
  | cons t ts ih =>
    obtain ⟨ht, hts⟩ := List.forall_mem_cons.mp h
    rw [List.map_cons, SummandForm.evalOnto, ht, bind_assoc, Term.substituteOnto]
    refine congrArg _ (funext fun u => ?_)
    have hadd : e.add ⟨[u]⟩ = e.addTerm u := by
      rw [Expr.add_eq, List.foldlM_cons]
      exact bind_pure _
    exact (congrArg (· >>= _) hadd).trans (congrArg _ (funext (ih hts)))

/-- The form of a sum stands for the sum of what the forms of its summands stand for. -/
theorem SumForm.eval_ofSummands {ts : List Term} (hzero : ∀ t ∈ ts, t.coeff ≠ 0)
    (h : ∀ t ∈ ts, t.form.eval = t.substitute .identity >>= fun u => .ok ⟨[u]⟩) :
    (SumForm.ofSummands (ts.map Term.form)).eval = Term.substituteOnto .identity ts 0 := by
  cases ts with
  | nil => rfl
  | cons t ts =>
    obtain ⟨ht, hts⟩ := List.forall_mem_cons.mp h
    have hnonzero := hzero t List.mem_cons_self
    have hfirst : (ofSummands ((t :: ts).map Term.form)).eval =
        t.form.eval >>= SummandForm.evalOnto (ts.map Term.form) := by
      rw [List.map_cons, Term.form_eq, ofSummands, SumForm.eval, SummandForm.eval, bind_assoc]
    rw [hfirst, ht, bind_assoc, Term.substituteOnto]
    refine eq_of_ok_iff fun e => ?_
    rw [bind_eq_ok, bind_eq_ok]
    refine exists_congr fun u => and_congr_right fun hu => ?_
    have hadd : Expr.addTerm 0 u = .ok ⟨[u]⟩ :=
      Expr.addTerm_eq_ok.mpr (.inr ⟨(Term.substitute_eq_ok.mp hu).1 ▸ hnonzero, rfl⟩)
    rw [hadd]
    change SummandForm.evalOnto (ts.map Term.form) ⟨[u]⟩ = .ok e ↔
      Term.substituteOnto .identity ts ⟨[u]⟩ = .ok e
    rw [SummandForm.evalOnto_map hts]

/-- The form of an expression without zero coefficients stands for it with its sums formed
again, if every coefficient is above the least. -/
theorem Expr.eval_form_eq {e : Expr} (hzero : ∀ t : Term, t.OccursIn e → t.coeff ≠ 0)
    (hleast : e.AboveLeast) : e.form.eval = e.rebuild := by
  induction e using Expr.induction with
  | step e ih =>
    obtain ⟨ts⟩ := e
    have hcoeffs := Term.forall_occursIn_iff.mp hzero
    have hterms := Expr.aboveLeast_iff.mp hleast
    rw [Expr.form_eq]
    refine SumForm.eval_ofSummands (fun t ht => (hcoeffs t ht).1) fun t ht => ?_
    exact Term.eval_form
      (fun a ha => ih t ht a ha ((hcoeffs t ht).2 a ha) ((hterms t ht).2 a ha))
      (hcoeffs t ht).1 (hterms t ht).1

/-- The form of a normal expression stands for it if every coefficient is above the least. -/
theorem Expr.eval_form {e : Expr} (he : e.Normal) (hleast : e.AboveLeast) :
    e.form.eval = .ok e := by
  have hzero : ∀ t : Term, t.OccursIn e → t.coeff ≠ 0 :=
    fun t ⟨a, ha, ht⟩ => he.nonzero a ha t ht
  rw [Expr.eval_form_eq hzero hleast]
  exact Expr.rebuild_of_normal he

/-- An atom stands for something only if the absolute value is a coefficient, or one,
and the forms of the arguments stand for something. -/
theorem AtomForm.eval_ofMagnitude_eq_ok {f : Factor} {n : Nat} {x : Expr}
    (h : (AtomForm.ofMagnitude n f.form?).eval = .ok x) :
    (∃ c, Coeff.checked n = .ok c) ∧ ∀ a ∈ f.args, ∃ y, a.form.eval = .ok y := by
  cases hg : f.form? with
  | none =>
    obtain rfl : f = .one := by cases f <;> first | rfl | cases hg
    rw [hg, ofMagnitude] at h
    obtain ⟨c, hc, _⟩ := AtomForm.eval_number_eq_ok.mp h
    refine ⟨⟨c, hc⟩, fun a ha => ?_⟩
    exact absurd ha List.not_mem_nil
  | some g =>
    have hargs : ∀ v, g.eval = .ok v → ∀ a ∈ f.args, ∃ y, a.form.eval = .ok y := by
      intro v hv a ha
      cases f with
      | call c =>
        rw [Factor.form?, Option.some.injEq, Call.form_eq] at hg
        subst hg
        obtain ⟨es, hes, _⟩ := FactorForm.eval_call_eq_ok.mp hv
        rw [SumForm.evalEach_eq_mapM] at hes
        exact exists_ok_of_mapM hes (List.mem_map_of_mem ha)
      | _ => exact absurd ha List.not_mem_nil
    rw [hg, ofMagnitude] at h
    by_cases hn : n = 1
    · rw [if_pos hn] at h
      obtain ⟨v, hv, _⟩ := AtomForm.eval_factor_eq_ok.mp h
      exact ⟨⟨1, Coeff.checked_eq_ok_iff.mpr (by rw [hn]; rfl)⟩, hargs v hv⟩
    · rw [if_neg hn] at h
      obtain ⟨c, hc, v, hv, _⟩ := AtomForm.eval_multiple_eq_ok.mp h
      exact ⟨⟨c, hc⟩, hargs v hv⟩

/-- A list of summands stands for something only if each of them does. -/
theorem SummandForm.exists_eval_of_evalOnto {ss : List SummandForm} {e x : Expr}
    (h : SummandForm.evalOnto ss e = .ok x) : ∀ s ∈ ss, ∃ y, s.eval = .ok y := by
  induction ss generalizing e with
  | nil => exact nofun
  | cons s ss ih =>
    obtain ⟨y, hy, e', _, h⟩ := SummandForm.evalOnto_cons_eq_ok.mp h
    exact List.forall_mem_cons.mpr ⟨⟨y, hy⟩, ih h⟩

/-- A sum stands for something only if each of its summands does. -/
theorem SumForm.exists_eval_of_ofSummands {ss : List SummandForm} {x : Expr}
    (h : (SumForm.ofSummands ss).eval = .ok x) : ∀ s ∈ ss, ∃ y, s.eval = .ok y := by
  cases ss with
  | nil => exact nofun
  | cons s ss =>
    rw [ofSummands] at h
    obtain ⟨e, he, e', he', h⟩ := SumForm.eval_eq_ok.mp h
    refine List.forall_mem_cons.mpr ⟨⟨e', ?_⟩, SummandForm.exists_eval_of_evalOnto h⟩
    exact SummandForm.eval_eq_ok.mpr ⟨e, he, he'⟩

/-- The form of an expression stands for something only if every coefficient is above
the least. -/
theorem Expr.aboveLeast_of_eval_form {e x : Expr} (h : e.form.eval = .ok x) : e.AboveLeast := by
  induction e using Expr.induction generalizing x with
  | step e ih =>
    rw [Expr.form_eq] at h
    have hterms := List.forall_mem_map.mp (SumForm.exists_eval_of_ofSummands h)
    refine Expr.aboveLeast_iff.mpr fun t ht => ?_
    obtain ⟨y, hy⟩ := hterms t ht
    rw [Term.form_eq] at hy
    obtain ⟨a, ha, _⟩ := SummandForm.eval_eq_ok.mp hy
    obtain ⟨⟨c, hc⟩, hargs⟩ := AtomForm.eval_ofMagnitude_eq_ok ha
    refine ⟨fun hleast => ?_, fun a ha => ?_⟩
    · have hval := Coeff.checked_eq_ok_iff.mp hc
      have hupper := c.upper
      omega
    · obtain ⟨y, hy⟩ := hargs a ha
      exact ih t ht a ha hy

end AffineCalls
