import AffineCalls.Proofs.Expr.Plain
import AffineCalls.Proofs.Notation.Form

/-!
# What is spelled can be spelled

The names and positions of a spelled form are those of the expression that it stands
for, up to summands that cancel. So the expression is lexical: each of its factors
has a spelling of its own.
-/

namespace AffineCalls

/-- A sum of lexical expressions is lexical. -/
theorem Expr.lexical_add {e o s : Expr} (he : e.Lexical) (ho : o.Lexical)
    (h : e.add o = .ok s) : s.Lexical :=
  Expr.lexical_iff.mpr (Expr.forall_factor_add (Q := fun f => f.Lexical ∧ ∀ a ∈ f.args, a.Lexical)
    (Expr.lexical_iff.mp he) (Expr.lexical_iff.mp ho) h)

/-- The sum of one lexical term is lexical. -/
theorem Expr.lexical_ofTerm {t : Term}
    (ht : t.factor.Lexical ∧ ∀ a ∈ t.factor.args, a.Lexical) : (Expr.ofTerm t).Lexical :=
  Expr.lexical_iff.mpr
    (Expr.forall_factor_ofTerm (Q := fun f => f.Lexical ∧ ∀ a ∈ f.args, a.Lexical) ht)

/-- A sign does not change the factors. -/
theorem Expr.lexical_signed {e s : Expr} {negative : Bool} (he : e.Lexical)
    (h : e.signed negative = .ok s) : s.Lexical := by
  cases negative with
  | false =>
    cases h
    exact he
  | true =>
    change e.scale .minusOne = .ok s at h
    exact Expr.lexical_iff.mpr (Expr.forall_factor_scale
      (Q := fun f => f.Lexical ∧ ∀ a ∈ f.args, a.Lexical) (Expr.lexical_iff.mp he) h)

mutual

/-- A spelled factor is lexical. -/
theorem FactorForm.Spelled.lexical {f : FactorForm} {v : Factor} {cs rest : List Char}
    (h : f.Spelled cs rest) (hv : f.eval = .ok v) :
    v.Lexical ∧ ∀ a ∈ v.args, a.Lexical := by
  match f, h with
  | .position i, .position _ hword =>
    cases hv
    obtain ⟨_, _, _, _, _, hbound⟩ := hword
    exact ⟨hbound, nofun⟩
  | .symbol name, .symbol _ hname =>
    cases hv
    exact ⟨hname, nofun⟩
  | .call name args, .call _ hname _ hargs _ =>
    obtain ⟨es, hes, rfl⟩ := FactorForm.eval_call_eq_ok.mp hv
    exact ⟨hname, SumForm.SpelledEach.lexical hargs hes⟩
termination_by structural f

/-- A spelled atom is lexical. -/
theorem AtomForm.Spelled.lexical {a : AtomForm} {e : Expr} {cs rest : List Char}
    (h : a.Spelled cs rest) (he : a.eval = .ok e) : e.Lexical := by
  match a, h with
  | .multiple n f, .multiple _ _ _ _ hf =>
    obtain ⟨c, _, v, hv, rfl⟩ := AtomForm.eval_multiple_eq_ok.mp he
    exact Expr.lexical_ofTerm (FactorForm.Spelled.lexical hf hv)
  | .number n, .number _ _ =>
    obtain ⟨c, _, rfl⟩ := AtomForm.eval_number_eq_ok.mp he
    exact Expr.lexical_ofTerm ⟨trivial, nofun⟩
  | .factor f, .factor hf =>
    obtain ⟨v, hv, rfl⟩ := AtomForm.eval_factor_eq_ok.mp he
    exact Expr.lexical_ofTerm (FactorForm.Spelled.lexical hf hv)
  | .parens s, .parens _ _ hs _ =>
    rw [AtomForm.eval_parens] at he
    exact SumForm.Spelled.lexical hs he
termination_by structural a

/-- A spelled expression is lexical. -/
theorem SumForm.Spelled.lexical {s : SumForm} {e : Expr} {cs rest : List Char}
    (h : s.Spelled cs rest) (he : s.eval = .ok e) : e.Lexical := by
  match s, h with
  | ⟨false, a, ss⟩, .positive ha hss =>
    obtain ⟨first, hfirst, first', hsigned, he⟩ := SumForm.eval_eq_ok.mp he
    have hlexical := Expr.lexical_signed (AtomForm.Spelled.lexical ha hfirst) hsigned
    exact SummandForm.SpelledEach.lexical hss hlexical he
  | ⟨true, a, ss⟩, .negative _ _ ha hss =>
    obtain ⟨first, hfirst, first', hsigned, he⟩ := SumForm.eval_eq_ok.mp he
    have hlexical := Expr.lexical_signed (AtomForm.Spelled.lexical ha hfirst) hsigned
    exact SummandForm.SpelledEach.lexical hss hlexical he
termination_by structural s

/-- Spelled arguments are lexical. -/
theorem SumForm.SpelledEach.lexical {ss : List SumForm} {es : List Expr} {cs rest : List Char}
    (h : SumForm.SpelledEach ss cs rest) (hes : SumForm.evalEach ss = .ok es) :
    ∀ e ∈ es, e.Lexical := by
  match ss, h with
  | [], .nil =>
    cases hes
    exact nofun
  | s :: ss, .cons hs hss =>
    obtain ⟨e, he, es', hes', rfl⟩ := SumForm.evalEach_cons_eq_ok.mp hes
    have hfirst := SumForm.Spelled.lexical hs he
    exact List.forall_mem_cons.mpr ⟨hfirst, SumForm.SpelledMore.lexical hss hes'⟩
termination_by structural ss

/-- Further spelled arguments are lexical. -/
theorem SumForm.SpelledMore.lexical {ss : List SumForm} {es : List Expr} {cs rest : List Char}
    (h : SumForm.SpelledMore ss cs rest) (hes : SumForm.evalEach ss = .ok es) :
    ∀ e ∈ es, e.Lexical := by
  match ss, h with
  | [], .nil =>
    cases hes
    exact nofun
  | s :: ss, .cons _ _ hs hss =>
    obtain ⟨e, he, es', hes', rfl⟩ := SumForm.evalEach_cons_eq_ok.mp hes
    have hfirst := SumForm.Spelled.lexical hs he
    exact List.forall_mem_cons.mpr ⟨hfirst, SumForm.SpelledMore.lexical hss hes'⟩
termination_by structural ss

/-- A lexical expression stays lexical when spelled summands are added. -/
theorem SummandForm.SpelledEach.lexical {ss : List SummandForm} {e x : Expr}
    {cs rest : List Char} (h : SummandForm.SpelledEach ss cs rest) (he : e.Lexical)
    (hx : SummandForm.evalOnto ss e = .ok x) : x.Lexical := by
  match ss, h with
  | [], .nil =>
    cases hx
    exact he
  | ⟨negative, a⟩ :: ss, .cons _ _ ha hss =>
    obtain ⟨y', hy', sum, hsum, hx⟩ := SummandForm.evalOnto_cons_eq_ok.mp hx
    obtain ⟨y, hy, hsigned⟩ := SummandForm.eval_eq_ok.mp hy'
    have hsummand := Expr.lexical_signed (AtomForm.Spelled.lexical ha hy) hsigned
    exact SummandForm.SpelledEach.lexical hss (Expr.lexical_add he hsummand hsum) hx
termination_by structural ss

end

end AffineCalls
