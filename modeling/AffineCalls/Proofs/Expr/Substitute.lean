import AffineCalls.Expr.Substitute
import AffineCalls.Proofs.Expr.Plain
import Mathlib.Data.List.Nodup

/-!
# Substitution without effects

A substitution that has no effect but overflow may first substitute in all the
terms and then add up the results. Hence it succeeds exactly when it does so on
every summand and the new terms have a sum.
-/

namespace AffineCalls

variable {σ τ : Substitution (Except Overflow)}

/-- Substituting in a list of expressions is substituting in each of them. -/
theorem Expr.substituteEach_eq_mapM (es : List Expr) :
    Expr.substituteEach σ es = es.mapM (·.substitute σ) := by
  induction es with
  | nil => rfl
  | cons e es ih =>
    rw [List.mapM_cons, ← ih]
    rfl

/-- Substituting in a call gives a call of the same function. -/
theorem Call.substituteArgs_eq (c : Call) :
    c.substituteArgs σ = c.args.mapM (·.substitute σ) >>= fun args => .ok ⟨c.name, args⟩ := by
  obtain ⟨name, args⟩ := c
  rw [← Expr.substituteEach_eq_mapM]
  rfl

/-- Substituting in a call succeeds if it does in each argument. -/
theorem Call.substituteArgs_eq_ok {c d : Call} :
    c.substituteArgs σ = .ok d ↔
      d.name = c.name ∧ List.Forall₂ (fun a b => a.substitute σ = .ok b) c.args d.args := by
  rw [Call.substituteArgs_eq, bind_eq_ok]
  constructor
  · rintro ⟨args, hargs, h⟩
    cases h
    exact ⟨rfl, mapM_eq_ok.mp hargs⟩
  · obtain ⟨name, args⟩ := d
    rintro ⟨rfl, hargs⟩
    exact ⟨args, mapM_eq_ok.mpr hargs, rfl⟩

/-- Every new argument of a call takes the place of one of its arguments. -/
theorem Call.exists_of_mem_substituteArgs {c d : Call} (h : c.substituteArgs σ = .ok d) {b : Expr}
    (hb : b ∈ d.args) : ∃ a ∈ c.args, a.substitute σ = .ok b := by
  obtain ⟨_, hargs⟩ := Call.substituteArgs_eq_ok.mp h
  exact exists_of_forall₂ hargs.flip hb

/-- What takes the place of a call is determined by its new arguments. -/
theorem Factor.substitute_call_eq_ok {c : Call} {f : Factor} :
    (Factor.call c).substitute σ = .ok f ↔
      ∃ d, c.substituteArgs σ = .ok d ∧ σ.call d = .ok f :=
  bind_eq_ok

/-- Substituting in a term keeps the coefficient. -/
theorem Term.substitute_eq_ok {t u : Term} :
    t.substitute σ = .ok u ↔ u.coeff = t.coeff ∧ t.factor.substitute σ = .ok u.factor := by
  obtain ⟨c, f⟩ := t
  obtain ⟨d, g⟩ := u
  have hbind : (⟨c, f⟩ : Term).substitute σ = f.substitute σ >>= fun f' => .ok ⟨c, f'⟩ := rfl
  rw [hbind, bind_eq_ok]
  constructor
  · rintro ⟨f', hf, h⟩
    cases h
    exact ⟨rfl, hf⟩
  · rintro ⟨rfl, hf⟩
    exact ⟨g, hf, rfl⟩

/-- Terms may all be substituted in before any of them is added. -/
theorem Term.substituteOnto_eq_ok {ts : List Term} {e s : Expr} :
    Term.substituteOnto σ ts e = .ok s ↔
      ∃ us, List.Forall₂ (fun t u => t.substitute σ = .ok u) ts us ∧
        us.foldlM Expr.addTerm e = .ok s := by
  induction ts generalizing e with
  | nil =>
    simp only [List.forall₂_nil_left_iff, exists_eq_left]
    exact Iff.rfl
  | cons t ts ih =>
    have hbind : Term.substituteOnto σ (t :: ts) e = t.substitute σ >>= fun u =>
      e.addTerm u >>= fun e' => Term.substituteOnto σ ts e' := rfl
    rw [hbind, bind_eq_ok]
    constructor
    · rintro ⟨u, hu, h⟩
      obtain ⟨e', he', h⟩ := bind_eq_ok.mp h
      obtain ⟨us, hus, h⟩ := ih.mp h
      exact ⟨u :: us, .cons hu hus, bind_eq_ok.mpr ⟨e', he', h⟩⟩
    · rintro ⟨vs, hvs, h⟩
      obtain ⟨u, us, hu, hus, rfl⟩ := List.forall₂_cons_left_iff.mp hvs
      obtain ⟨e', he', h⟩ := bind_eq_ok.mp h
      exact ⟨u, hu, bind_eq_ok.mpr ⟨e', he', ih.mpr ⟨us, hus, h⟩⟩⟩

/-- Terms may be added in two parts. -/
theorem Term.substituteOnto_append (us ts : List Term) (e : Expr) :
    Term.substituteOnto σ (us ++ ts) e =
      Term.substituteOnto σ us e >>= Term.substituteOnto σ ts := by
  induction us generalizing e with
  | nil => rfl
  | cons u us ih =>
    rw [List.cons_append]
    unfold Term.substituteOnto
    rw [bind_assoc]
    refine congrArg _ (funext fun u' => ?_)
    rw [bind_assoc]
    exact congrArg _ (funext ih)

namespace Expr

/-- Substitution succeeds if it does in every summand and the new terms have a sum. -/
theorem substitute_eq_ok {e s : Expr} :
    e.substitute σ = .ok s ↔
      ∃ us, List.Forall₂ (fun t u => t.substitute σ = .ok u) e.terms us ∧ sum us = .ok s := by
  obtain ⟨ts⟩ := e
  exact Term.substituteOnto_eq_ok

/-- Substitution gives a merged sum. -/
theorem merged_of_substitute {e s : Expr} (h : e.substitute σ = .ok s) :
    Term.Merged s.terms := by
  obtain ⟨us, _, hsum⟩ := substitute_eq_ok.mp h
  exact merged_of_sum hsum

/-- Every factor of the new sum takes the place of a factor of the old one. -/
theorem exists_of_mem_substitute {e s : Expr} (h : e.substitute σ = .ok s) {v : Term}
    (hv : v ∈ s.terms) : ∃ t ∈ e.terms, t.factor.substitute σ = .ok v.factor := by
  obtain ⟨us, hus, hsum⟩ := substitute_eq_ok.mp h
  obtain ⟨u, hu, hfactor⟩ := mem_factors_of_sum hsum hv
  obtain ⟨t, ht, htu⟩ := exists_of_forall₂ hus.flip hu
  exact ⟨t, ht, hfactor ▸ (Term.substitute_eq_ok.mp htu).2⟩

/-- Substitution is substitution in every summand, followed by summation. -/
theorem substitute_eq (e : Expr) :
    e.substitute σ = e.terms.mapM (·.substitute σ) >>= sum := by
  refine eq_of_ok_iff fun s => ?_
  rw [substitute_eq_ok, bind_eq_ok]
  simp only [mapM_eq_ok]

/-- Substitution depends on what it does to the symbols and calls inside only. -/
theorem substitute_congr {e : Expr}
    (hsymbol : ∀ name, (Factor.symbol name).OccursIn e → σ.symbol name = τ.symbol name)
    (hcall : σ.call = τ.call) : e.substitute σ = e.substitute τ := by
  induction e using Expr.induction with
  | step e ih =>
    rw [substitute_eq, substitute_eq]
    have hterm : ∀ t ∈ e.terms, t.substitute σ = t.substitute τ := by
      rintro ⟨c, f⟩ ht
      have hfactor : f.substitute σ = f.substitute τ := by
        cases f with
        | one => rfl
        | position i => rfl
        | symbol name => exact hsymbol name (.summand ht)
        | call d =>
          have hargs : d.args.mapM (·.substitute σ) = d.args.mapM (·.substitute τ) :=
            mapM_congr fun a ha => ih _ ht a ha fun name h => hsymbol name (h.arg ht ha)
          have hd : d.substituteArgs σ = d.substituteArgs τ := by
            rw [Call.substituteArgs_eq, Call.substituteArgs_eq, hargs]
          change d.substituteArgs σ >>= σ.call = d.substituteArgs τ >>= τ.call
          rw [hd, hcall]
      refine eq_of_ok_iff fun u => ?_
      rw [Term.substitute_eq_ok, Term.substitute_eq_ok, hfactor]
    rw [mapM_congr hterm]

/-- A substitution that can be undone in each factor of a merged sum merges nothing, and
it can be undone in the sum. -/
theorem substitute_inverse {e : Expr} (he : Term.Merged e.terms)
    (h : ∀ t ∈ e.terms, ∃ g, t.factor.substitute σ = .ok g ∧ g.substitute τ = .ok t.factor) :
    ∃ r, e.substitute σ = .ok r ∧ r.substitute τ = .ok e ∧
      List.Forall₂ (fun t u => t.substitute σ = .ok u) e.terms r.terms := by
  have hpairs : ∀ t ∈ e.terms, ∃ u : Term, u.coeff = t.coeff ∧
      t.factor.substitute σ = .ok u.factor ∧ u.factor.substitute τ = .ok t.factor := by
    intro t ht
    obtain ⟨g, hg, hback⟩ := h t ht
    exact ⟨⟨t.coeff, g⟩, rfl, hg, hback⟩
  obtain ⟨us, hus⟩ := exists_forall₂ hpairs
  have hforth : List.Forall₂ (fun t u => t.substitute σ = .ok u) e.terms us :=
    hus.imp fun t u h => Term.substitute_eq_ok.mpr ⟨h.1, h.2.1⟩
  have hback : List.Forall₂ (fun u t => u.substitute τ = .ok t) us e.terms :=
    (hus.imp fun t u h => Term.substitute_eq_ok.mpr ⟨h.1.symm, h.2.2⟩).flip
  have hnonzero : ∀ u ∈ us, u.coeff ≠ 0 := by
    intro u hu
    obtain ⟨t, ht, hcoeff, _⟩ := exists_of_forall₂ hus.flip hu
    rw [hcoeff]
    exact he.nonzero t ht
  -- The two substitutions pair the factors, so the new ones are distinct as the old ones are.
  have hunique : Relator.BiUnique fun f g : Factor =>
      f.substitute σ = .ok g ∧ g.substitute τ = .ok f :=
    ⟨fun _ _ _ h h' => Except.ok.inj (h.2.symm.trans h'.2),
      fun _ _ _ h h' => Except.ok.inj (h.1.symm.trans h'.1)⟩
  have hdistinct : (us.map (·.factor)).Nodup := by
    refine (List.rel_nodup hunique ?_).mp he.distinct
    rw [List.forall₂_map_left_iff, List.forall₂_map_right_iff]
    exact hus.imp fun _ _ h => h.2
  have hsum : sum us = .ok ⟨us⟩ := sum_of_merged (e := ⟨us⟩) ⟨hnonzero, hdistinct⟩
  exact ⟨⟨us⟩, substitute_eq_ok.mpr ⟨us, hforth, hsum⟩,
    substitute_eq_ok.mpr ⟨e.terms, hback, sum_of_merged he⟩, hforth⟩

end Expr

/-- Substitution in a call depends on what it does to the symbols inside only. -/
theorem Call.substituteArgs_congr {c : Call}
    (hsymbol : ∀ a ∈ c.args, ∀ name, (Factor.symbol name).OccursIn a →
      σ.symbol name = τ.symbol name)
    (hcall : σ.call = τ.call) : c.substituteArgs σ = c.substituteArgs τ := by
  have hargs : c.args.mapM (·.substitute σ) = c.args.mapM (·.substitute τ) :=
    mapM_congr fun a ha => Expr.substitute_congr (hsymbol a ha) hcall
  rw [Call.substituteArgs_eq, Call.substituteArgs_eq, hargs]

end AffineCalls
