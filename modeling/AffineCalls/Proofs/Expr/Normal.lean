import AffineCalls.Proofs.Expr.Substitute

/-!
# What keeps expressions normal

Sums are formed term by term, and every such sum is merged; its factors are among those of
the terms. So whatever is formed from normal arguments is normal. Substitution forms all
the sums inside an expression anew: its result is normal even if the expression was not.
-/

namespace AffineCalls

namespace Expr

variable {c : Coeff} {e o s : Expr} {t : Term}

/-- The empty sum is normal. -/
theorem normal_zero : Normal 0 :=
  normal_iff.mpr ⟨.nil, nofun⟩

/-- The sum of one term with normal arguments is normal. -/
theorem normal_ofTerm (ht : ∀ a ∈ t.factor.args, a.Normal) : (ofTerm t).Normal :=
  normal_iff.mpr ⟨merged_ofTerm t, forall_factor_ofTerm (Q := fun f => ∀ a ∈ f.args, a.Normal) ht⟩

/-- A normal expression stays normal when a term with normal arguments is added. -/
theorem normal_addTerm (he : e.Normal) (ht : ∀ a ∈ t.factor.args, a.Normal)
    (h : e.addTerm t = .ok s) : s.Normal := by
  obtain ⟨hmerged, hargs⟩ := normal_iff.mp he
  exact normal_iff.mpr ⟨merged_addTerm hmerged h,
    forall_factor_addTerm (Q := fun f => ∀ a ∈ f.args, a.Normal) hargs ht h⟩

/-- The sum of terms with normal arguments is normal. -/
theorem normal_of_sum {ts : List Term} (hts : ∀ t ∈ ts, ∀ a ∈ t.factor.args, a.Normal)
    (h : sum ts = .ok e) : e.Normal := by
  refine normal_iff.mpr ⟨merged_of_sum h, fun v hv => ?_⟩
  obtain ⟨t, ht, hfactor⟩ := mem_factors_of_sum h hv
  exact hfactor ▸ hts t ht

/-- A sum of normal expressions is normal. -/
theorem normal_add (he : e.Normal) (ho : o.Normal) (h : e.add o = .ok s) : s.Normal := by
  obtain ⟨hmerged, hargs⟩ := normal_iff.mp he
  obtain ⟨_, hargs'⟩ := normal_iff.mp ho
  exact normal_iff.mpr ⟨merged_add hmerged h,
    forall_factor_add (Q := fun f => ∀ a ∈ f.args, a.Normal) hargs hargs' h⟩

/-- A multiple of a normal expression is normal. -/
theorem normal_scale (he : e.Normal) (h : e.scale c = .ok s) : s.Normal := by
  obtain ⟨hmerged, hargs⟩ := normal_iff.mp he
  exact normal_iff.mpr ⟨merged_scale hmerged h,
    forall_factor_scale (Q := fun f => ∀ a ∈ f.args, a.Normal) hargs h⟩

end Expr

/-! ## Substitution -/

/-- What takes the place of factors of one kind is normal and made of factors of another kind,
provided that the arguments of a call are so already. -/
structure Substitution.Takes (σ : Substitution (Except Overflow)) (P Q : Factor → Prop) : Prop where
  /-- The number one stays what it is. -/
  one : P .one → Q .one
  /-- A position stays what it is. -/
  position : ∀ i, P (.position i) → Q (.position i)
  /-- What takes the place of a symbol. -/
  symbol : ∀ n g, P (.symbol n) → σ.symbol n = .ok g →
    Q g ∧ ∀ a ∈ g.args, a.Normal ∧ ∀ f : Factor, f.OccursIn a → Q f
  /-- What takes the place of a call, after its arguments are done. -/
  call : ∀ c d g, P (.call c) → d.name = c.name →
    (∀ a ∈ d.args, a.Normal ∧ ∀ f : Factor, f.OccursIn a → Q f) → σ.call d = .ok g →
      Q g ∧ ∀ a ∈ g.args, a.Normal ∧ ∀ f : Factor, f.OccursIn a → Q f

/-- What takes the place of a symbol has normal arguments, and so has what takes the place of
a call with normal arguments. -/
structure Substitution.KeepsNormal (σ : Substitution (Except Overflow)) : Prop where
  /-- What takes the place of a symbol has normal arguments. -/
  symbol : ∀ n g, σ.symbol n = .ok g → ∀ a ∈ g.args, a.Normal
  /-- What takes the place of a call with normal arguments has normal arguments. -/
  call : ∀ c g, (∀ a ∈ c.args, a.Normal) → σ.call c = .ok g → ∀ a ∈ g.args, a.Normal

variable {σ : Substitution (Except Overflow)} {P Q : Factor → Prop}

/-- Substitution in factors of one kind gives a normal expression of factors of another kind. -/
theorem Substitution.Takes.expr (hσ : σ.Takes P Q) {e r : Expr}
    (he : ∀ f : Factor, f.OccursIn e → P f) (h : e.substitute σ = .ok r) :
    r.Normal ∧ ∀ f : Factor, f.OccursIn r → Q f := by
  induction e using Expr.induction generalizing r with
  | step e ih =>
    refine Expr.normal_and_factors_iff.mpr ⟨Expr.merged_of_substitute h, fun v hv => ?_⟩
    obtain ⟨t, ht, hstep⟩ := Expr.exists_of_mem_substitute h hv
    have hP := he t.factor (.summand ht)
    cases hf : t.factor with
    | one =>
      rw [hf] at hstep hP
      rw [← Except.ok.inj hstep]
      exact ⟨hσ.one hP, nofun⟩
    | position i =>
      rw [hf] at hstep hP
      rw [← Except.ok.inj hstep]
      exact ⟨hσ.position i hP, nofun⟩
    | symbol n =>
      rw [hf] at hstep hP
      exact hσ.symbol n _ hP hstep
    | call c =>
      rw [hf] at hstep hP
      obtain ⟨d, hd, hcall⟩ := Factor.substitute_call_eq_ok.mp hstep
      obtain ⟨hname, _⟩ := Call.substituteArgs_eq_ok.mp hd
      refine hσ.call c d _ hP hname (fun b hb => ?_) hcall
      obtain ⟨a, ha, hab⟩ := Call.exists_of_mem_substituteArgs hd hb
      have ha' : a ∈ t.factor.args := hf ▸ ha
      exact ih t ht a ha' (fun f hf => he f (hf.arg ht ha')) hab

/-- What keeps arguments normal takes any factors to any factors. -/
theorem Substitution.KeepsNormal.takes (hσ : σ.KeepsNormal) :
    σ.Takes (fun _ => True) (fun _ => True) where
  one _ := trivial
  position _ _ := trivial
  symbol n g _ h := ⟨trivial, fun a ha => ⟨hσ.symbol n g h a ha, fun _ _ => trivial⟩⟩
  call _ d g _ _ hd h :=
    ⟨trivial, fun a ha => ⟨hσ.call d g (fun b hb => (hd b hb).1) h a ha, fun _ _ => trivial⟩⟩

/-- Substitution in any expression gives a normal one. -/
theorem Expr.normal_of_substitute (hσ : σ.KeepsNormal) {e r : Expr}
    (h : e.substitute σ = .ok r) : r.Normal :=
  (hσ.takes.expr (fun _ _ => trivial) h).1

/-- Substitution in the arguments of a call makes them normal. -/
theorem Call.normal_of_substituteArgs (hσ : σ.KeepsNormal) {c d : Call}
    (h : c.substituteArgs σ = .ok d) : ∀ a ∈ d.args, a.Normal := by
  intro b hb
  obtain ⟨a, _, hab⟩ := Call.exists_of_mem_substituteArgs h hb
  exact Expr.normal_of_substitute hσ hab

end AffineCalls
