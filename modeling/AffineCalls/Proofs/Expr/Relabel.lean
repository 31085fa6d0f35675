import AffineCalls.Proofs.Expr.Depth

/-!
# Relabelling positions

Positions may be spelled like other factors, and a text then says what is spelled. The
expression that a text says is the original one with other factors in the places of the
positions, at every depth. Summands stay apart even where their factors become equal.
-/

namespace AffineCalls

mutual

/-- The factor with other factors in place of positions. -/
def Factor.relabel (ρ : Nat → Factor) : Factor → Factor
  | .one => .one
  | .position i => ρ i
  | .symbol name => .symbol name
  | .call c => .call (c.relabel ρ)
termination_by structural f => f

/-- The call with other factors in place of positions. -/
def Call.relabel (ρ : Nat → Factor) : Call → Call
  | ⟨name, args⟩ => ⟨name, Expr.relabelEach ρ args⟩
termination_by structural c => c

/-- The members of a list of expressions with other factors in place of positions. -/
def Expr.relabelEach (ρ : Nat → Factor) : List Expr → List Expr
  | [] => []
  | e :: es => e.relabel ρ :: Expr.relabelEach ρ es
termination_by structural es => es

/-- The expression with other factors in place of positions. -/
def Expr.relabel (ρ : Nat → Factor) : Expr → Expr
  | ⟨ts⟩ => ⟨Term.relabelEach ρ ts⟩
termination_by structural e => e

/-- The members of a list of terms with other factors in place of positions. -/
def Term.relabelEach (ρ : Nat → Factor) : List Term → List Term
  | [] => []
  | t :: ts => t.relabel ρ :: Term.relabelEach ρ ts
termination_by structural ts => ts

/-- The term with other factors in place of positions. -/
def Term.relabel (ρ : Nat → Factor) : Term → Term
  | ⟨c, f⟩ => ⟨c, f.relabel ρ⟩
termination_by structural t => t

end

variable {ρ : Nat → Factor}

theorem Expr.relabelEach_eq_map (es : List Expr) :
    Expr.relabelEach ρ es = es.map (·.relabel ρ) := by
  induction es with
  | nil => rfl
  | cons e es ih => rw [Expr.relabelEach, ih, List.map_cons]

theorem Term.relabelEach_eq_map (ts : List Term) :
    Term.relabelEach ρ ts = ts.map (·.relabel ρ) := by
  induction ts with
  | nil => rfl
  | cons t ts ih => rw [Term.relabelEach, ih, List.map_cons]

/-- Relabelling a sum relabels each summand. -/
theorem Expr.relabel_eq (e : Expr) : e.relabel ρ = ⟨e.terms.map (·.relabel ρ)⟩ := by
  obtain ⟨ts⟩ := e
  rw [Expr.relabel, Term.relabelEach_eq_map]

/-- Relabelling a call relabels each argument. -/
theorem Call.relabel_eq (c : Call) : c.relabel ρ = ⟨c.name, c.args.map (·.relabel ρ)⟩ := by
  obtain ⟨name, args⟩ := c
  rw [Call.relabel, Expr.relabelEach_eq_map]

/-- Relabelling a term relabels the factor. -/
theorem Term.relabel_eq (t : Term) : t.relabel ρ = ⟨t.coeff, t.factor.relabel ρ⟩ := by
  obtain ⟨c, f⟩ := t
  rw [Term.relabel]

/-- Positions that stay in their places change nothing. -/
theorem Expr.relabel_position (e : Expr) : e.relabel .position = e := by
  induction e using Expr.induction with
  | step e ih =>
    obtain ⟨ts⟩ := e
    have hterm : ∀ t ∈ ts, t.relabel .position = t := by
      rintro ⟨c, f⟩ ht
      cases f with
      | call d =>
        obtain ⟨name, args⟩ := d
        have hargs : args.map (·.relabel .position) = args :=
          (List.map_congr_left (ih _ ht)).trans (List.map_id _)
        rw [Term.relabel, Factor.relabel, Call.relabel, Expr.relabelEach_eq_map, hargs]
      | _ => rfl
    have hterms : ts.map (·.relabel .position) = ts :=
      (List.map_congr_left hterm).trans (List.map_id _)
    rw [Expr.relabel, Term.relabelEach_eq_map, hterms]

/-- Positions that stay in their places change no call. -/
theorem Call.relabel_position (c : Call) : c.relabel .position = c := by
  obtain ⟨name, args⟩ := c
  have hargs : args.map (·.relabel .position) = args :=
    (List.map_congr_left fun a _ => a.relabel_position).trans (List.map_id _)
  rw [Call.relabel, Expr.relabelEach_eq_map, hargs]

/-- What stands inside a relabelled factor is relabelled if nothing stands inside the
new factors themselves. -/
theorem Factor.args_relabel (hρ : ∀ i, (ρ i).args = []) (f : Factor) :
    (f.relabel ρ).args = f.args.map (·.relabel ρ) := by
  cases f with
  | position i => exact hρ i
  | call c => rw [Factor.relabel, Factor.args, Call.relabel_eq, Factor.args]
  | _ => rfl

/-- The coefficients at every depth stay the same. -/
theorem Expr.forall_coeff_relabel (hρ : ∀ i, (ρ i).args = []) {P : Coeff → Prop} {e : Expr} :
    (∀ t : Term, t.OccursIn (e.relabel ρ) → P t.coeff) ↔ ∀ t : Term, t.OccursIn e → P t.coeff := by
  induction e using Expr.induction with
  | step e ih =>
    rw [Term.forall_occursIn_iff (P := fun t => P t.coeff),
      Term.forall_occursIn_iff (P := fun t => P t.coeff), Expr.relabel_eq, List.forall_mem_map]
    refine forall₂_congr fun t ht => ?_
    rw [Term.relabel_eq, Factor.args_relabel hρ, List.forall_mem_map]
    exact and_congr_right fun _ => forall₂_congr fun a ha => ih t ht a ha

end AffineCalls
