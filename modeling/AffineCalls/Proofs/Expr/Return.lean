import AffineCalls.Proofs.Expr.Relabel
import AffineCalls.Proofs.Expr.Substitute

/-!
# Relabelling and back

Where positions have been replaced by other factors, summands may merge when the sums are
formed again, and once more when a substitution is to bring the positions back. A sum has
no more summands than terms were added, so an expression comes back only if nothing merges
on the way, and then each of its positions comes back by itself.
-/

namespace AffineCalls

/-! ## Sums that merge nothing -/

/-- A sum has no more summands than terms were added, and as many only if the terms are
the summands. -/
theorem Expr.length_foldlM_addTerm {ts : List Term} {e s : Expr}
    (h : ts.foldlM addTerm e = .ok s) :
    s.terms.length ≤ e.terms.length + ts.length ∧
      (e.terms.length + ts.length ≤ s.terms.length → s.terms = e.terms ++ ts) := by
  induction ts generalizing e with
  | nil =>
    cases h
    exact ⟨Nat.le_refl _, fun _ => (List.append_nil _).symm⟩
  | cons t ts ih =>
    rw [List.foldlM_cons, bind_eq_ok] at h
    obtain ⟨e', he', h⟩ := h
    obtain ⟨hle, hterms⟩ := ih h
    rw [List.length_cons]
    rcases sublist_factors_addTerm he' with hsub | ⟨_, _, hlast⟩
    · have hshort : e'.terms.length ≤ e.terms.length := by
        simpa only [List.length_map] using hsub.length_le
      exact ⟨by omega, fun hlong => by omega⟩
    · have hlength : e'.terms.length = e.terms.length + 1 := by rw [hlast, List.length_append]; rfl
      refine ⟨by omega, fun hlong => ?_⟩
      rw [hterms (by omega), hlast, List.append_assoc, List.singleton_append]

variable {σ : Substitution (Except Overflow)} {ρ : Nat → Factor}

/-- Substitution gives no more summands than there were, and as many only if it replaces
each of them by itself. -/
theorem Expr.length_substitute {e s : Expr} (h : e.substitute σ = .ok s) :
    s.terms.length ≤ e.terms.length ∧ (e.terms.length ≤ s.terms.length →
      List.Forall₂ (fun t u => t.substitute σ = .ok u) e.terms s.terms) := by
  obtain ⟨us, hus, hsum⟩ := substitute_eq_ok.mp h
  obtain ⟨hle, hterms⟩ := length_foldlM_addTerm hsum
  rw [terms_zero, List.length_nil, Nat.zero_add, ← hus.length_eq] at hle hterms
  refine ⟨hle, fun hlong => ?_⟩
  rw [hterms hlong, List.nil_append]
  exact hus

/-! ## The identity -/

/-- The substitution that leaves symbols and calls as they are. -/
def Substitution.identity : Substitution (Except Overflow) := {}

/-- The expression with all sums inside it formed again. -/
def Expr.rebuild (e : Expr) : Except Overflow Expr := e.substitute .identity

/-- A factor is not changed if the sums inside it are not. -/
theorem Factor.substitute_identity {f : Factor} (h : ∀ a ∈ f.args, a.rebuild = .ok a) :
    f.substitute .identity = .ok f := by
  cases f with
  | call c =>
    refine substitute_call_eq_ok.mpr ⟨c, ?_, rfl⟩
    rw [Call.substituteArgs_eq_ok, List.forall₂_same]
    exact ⟨rfl, h⟩
  | _ => rfl

/-- A normal expression is not changed by forming its sums again. -/
theorem Expr.rebuild_of_normal {e : Expr} (he : e.Normal) : e.rebuild = .ok e := by
  induction e using Expr.induction with
  | step e ih =>
    obtain ⟨hmerged, hargs⟩ := normal_iff.mp he
    refine substitute_eq_ok.mpr ⟨e.terms, ?_, sum_of_merged hmerged⟩
    rw [List.forall₂_same]
    exact fun t ht => Term.substitute_eq_ok.mpr
      ⟨rfl, Factor.substitute_identity fun a ha => ih t ht a ha (hargs t ht a ha)⟩

/-! ## Back again -/

/-- If a relabelled call is formed again and a substitution gives the call back, then it
gives back each argument. -/
theorem Call.args_of_relabel {c d : Call} (hd : (c.relabel ρ).substituteArgs .identity = .ok d)
    (hc : d.substituteArgs σ = .ok c) :
    ∀ a ∈ c.args, ∃ x, (a.relabel ρ).rebuild = .ok x ∧ x.substitute σ = .ok a := by
  have hforth := (substituteArgs_eq_ok.mp hd).2
  have hback := (substituteArgs_eq_ok.mp hc).2
  rw [relabel_eq, List.forall₂_map_left_iff] at hforth
  have hargs := forall₂_comp_iff.mp ⟨d.args, hforth, hback⟩
  rw [List.forall₂_same] at hargs
  exact hargs

/-- If a relabelled expression is formed again and a substitution gives the expression back,
then it gives back each summand. -/
theorem Expr.terms_of_relabel {e x : Expr} (hx : (e.relabel ρ).rebuild = .ok x)
    (he : x.substitute σ = .ok e) :
    ∀ t ∈ e.terms, ∃ g, (t.factor.relabel ρ).substitute .identity = .ok g ∧
      g.substitute σ = .ok t.factor := by
  obtain ⟨hle, hpairs⟩ := length_substitute hx
  obtain ⟨hle', hpairs'⟩ := length_substitute he
  have hlength : (e.relabel ρ).terms.length = e.terms.length := by
    rw [relabel_eq, List.length_map]
  have hforth := hpairs (by omega)
  rw [relabel_eq, List.forall₂_map_left_iff] at hforth
  have hterms := forall₂_comp_iff.mp ⟨x.terms, hforth, hpairs' (by omega)⟩
  rw [List.forall₂_same] at hterms
  intro t ht
  obtain ⟨u, hu, ht'⟩ := hterms t ht
  rw [Term.relabel_eq] at hu
  exact ⟨u.factor, (Term.substitute_eq_ok.mp hu).2, (Term.substitute_eq_ok.mp ht').2⟩

/-- A substitution that gives a relabelled expression back gives back every position. -/
theorem Expr.position_of_relabel (hρ : ∀ i, (ρ i).args = [])
    (hcall : ∀ c, σ.call c = .ok (.call c)) {e x : Expr}
    (hx : (e.relabel ρ).rebuild = .ok x) (he : x.substitute σ = .ok e) :
    ∀ f : Factor, f.OccursIn e → ∀ i, f = .position i →
      (ρ i).substitute σ = .ok (.position i) := by
  induction e using Expr.induction generalizing x with
  | step e ih =>
    refine Factor.forall_occursIn_iff.mpr fun t ht => ?_
    obtain ⟨g, hforth, hback⟩ := terms_of_relabel hx he t ht
    constructor
    · intro i hi
      have hsame : (ρ i).substitute .identity = .ok (ρ i) :=
        Factor.substitute_identity fun a ha => absurd (hρ i ▸ ha) List.not_mem_nil
      rw [hi, Factor.relabel, hsame] at hforth
      rw [hi, ← Except.ok.inj hforth] at hback
      exact hback
    · intro a ha
      obtain ⟨c, hc, hac⟩ := Factor.exists_call_of_mem_args ha
      rw [hc, Factor.relabel] at hforth
      rw [hc] at hback
      obtain ⟨d, hd, hg⟩ := Factor.substitute_call_eq_ok.mp hforth
      rw [← Except.ok.inj hg] at hback
      obtain ⟨d', hd', hc'⟩ := Factor.substitute_call_eq_ok.mp hback
      rw [hcall] at hc'
      obtain rfl := Factor.call.inj (Except.ok.inj hc')
      obtain ⟨y, hy, ha'⟩ := Call.args_of_relabel hd hd' a hac
      exact ih t ht a ha hy ha'

/-- A substitution that gives back a position, a symbol and relabelled arguments gives back a
factor. -/
theorem Factor.substitute_relabel (hcall : ∀ c, σ.call c = .ok (.call c)) {f : Factor}
    (hposition : ∀ i, f = .position i → (ρ i).substitute σ = .ok (.position i))
    (hsymbol : ∀ name, f = .symbol name → σ.symbol name = .ok (.symbol name))
    (hargs : ∀ a ∈ f.args, (a.relabel ρ).substitute σ = .ok a) :
    (f.relabel ρ).substitute σ = .ok f := by
  cases f with
  | one => rfl
  | position i => exact hposition i rfl
  | symbol name => exact hsymbol name rfl
  | call c =>
    refine substitute_call_eq_ok.mpr ⟨c, ?_, hcall c⟩
    rw [Call.substituteArgs_eq_ok, Call.relabel_eq, List.forall₂_map_left_iff, List.forall₂_same]
    exact ⟨rfl, hargs⟩

/-- If a substitution gives back every factor of a merged sum, the relabelled sum is merged: its
factors are brought back to distinct ones. -/
theorem Expr.merged_relabel {e : Expr} (he : Term.Merged e.terms)
    (hfactor : ∀ t ∈ e.terms, (t.factor.relabel ρ).substitute σ = .ok t.factor) :
    Term.Merged (e.relabel ρ).terms := by
  constructor
  · rw [relabel_eq, List.forall_mem_map]
    intro t ht
    rw [Term.relabel_eq]
    exact he.nonzero t ht
  · have hmap : (e.relabel ρ).terms.map (·.factor) =
        (e.terms.map (·.factor)).map (·.relabel ρ) := by
      rw [relabel_eq, List.map_map, List.map_map]
      exact List.map_congr_left fun t _ => congrArg Term.factor t.relabel_eq
    rw [hmap]
    refine List.Nodup.map_on (fun f hf g hg hsame => ?_) he.distinct
    obtain ⟨t, ht, rfl⟩ := List.mem_map.mp hf
    obtain ⟨u, hu, rfl⟩ := List.mem_map.mp hg
    exact Except.ok.inj ((hfactor t ht).symm.trans (hsame ▸ hfactor u hu))

/-- A relabelled normal expression is normal, and a substitution that gives back every
position and every symbol gives it back. -/
theorem Expr.substitute_relabel (hρ : ∀ i, (ρ i).args = [])
    (hcall : ∀ c, σ.call c = .ok (.call c)) {e : Expr} (he : e.Normal)
    (hposition : ∀ i, (Factor.position i).OccursIn e → (ρ i).substitute σ = .ok (.position i))
    (hsymbol : ∀ name, (Factor.symbol name).OccursIn e → σ.symbol name = .ok (.symbol name)) :
    (e.relabel ρ).Normal ∧ (e.relabel ρ).substitute σ = .ok e := by
  induction e using Expr.induction with
  | step e ih =>
    obtain ⟨hmerged, hargs⟩ := normal_iff.mp he
    have hinside : ∀ t ∈ e.terms, ∀ a ∈ t.factor.args,
        (a.relabel ρ).Normal ∧ (a.relabel ρ).substitute σ = .ok a :=
      fun t ht a ha => ih t ht a ha (hargs t ht a ha)
        (fun i hi => hposition i (hi.arg ht ha)) fun name h => hsymbol name (h.arg ht ha)
    have hfactor : ∀ t ∈ e.terms, (t.factor.relabel ρ).substitute σ = .ok t.factor := by
      intro t ht
      have hoccurs := Factor.OccursIn.summand ht
      exact Factor.substitute_relabel hcall (fun i hi => hposition i (hi ▸ hoccurs))
        (fun name hname => hsymbol name (hname ▸ hoccurs)) fun a ha => (hinside t ht a ha).2
    constructor
    · refine normal_iff.mpr ⟨merged_relabel hmerged hfactor, ?_⟩
      rw [relabel_eq, List.forall_mem_map]
      intro t ht
      rw [Term.relabel_eq, Factor.args_relabel hρ, List.forall_mem_map]
      exact fun a ha => (hinside t ht a ha).1
    · refine substitute_eq_ok.mpr ⟨e.terms, ?_, sum_of_merged hmerged⟩
      rw [relabel_eq, List.forall₂_map_left_iff, List.forall₂_same]
      intro t ht
      rw [Term.relabel_eq]
      exact Term.substitute_eq_ok.mpr ⟨rfl, hfactor t ht⟩

end AffineCalls
