import AffineCalls.Proofs.Expr.Return
import AffineCalls.Proofs.Expr.Value
import AffineCalls.Proofs.TupleSet.Settled

/-!
# What resolved constraints mean

Inside a set, the name of a coordinate means the value of the first position with that name.
Resolving names makes this explicit: the constraints compare the same values as before, and
none of their symbols is the name of a coordinate. So nothing is left to resolve, and as the
sums have been formed anew, resolving the names again changes nothing.
-/

namespace AffineCalls

/-- The interpretation inside a set: the name of a coordinate has the value of the first
position with that name. -/
def Interpretation.within (I : Interpretation) (tuple : List Coordinate) : Interpretation :=
  { I with symbol := fun name =>
      match tuple.idxOf? (.name name) with
      | some i => I.position i
      | none => I.symbol name }

variable {tuple : List Coordinate} {e r : Expr}

/-- Inside a set, a symbol has the value of the factor that it stands for. -/
theorem Coordinate.value_factorOf (tuple : List Coordinate) (name : String) (I : Interpretation) :
    (factorOf tuple name).value I = (I.within tuple).symbol name := by
  have hsame : tuple.idxOf? (.name name) = tuple.findIdx? (· = .name name) := rfl
  change _ = match tuple.idxOf? (.name name) with
    | some i => I.position i
    | none => I.symbol name
  rw [hsame, factorOf]
  cases tuple.findIdx? (· = .name name) with
  | none => rfl
  | some i => rfl

/-- A symbol that is not the name of a coordinate keeps its value inside a set. -/
theorem Interpretation.symbol_within_of_notMem (I : Interpretation) {name : String}
    (h : .name name ∉ tuple) : (I.within tuple).symbol name = I.symbol name := by
  rw [← Coordinate.value_factorOf, Coordinate.factorOf_of_notMem h]
  rfl

namespace Expr

/-- No symbol at any depth is the name of a coordinate. -/
def Resolved (tuple : List Coordinate) (e : Expr) : Prop :=
  ∀ n, (Factor.symbol n).OccursIn e → .name n ∉ tuple

/-- Resolving names leaves no name of a coordinate. -/
theorem resolved_of_resolve (h : e.resolve tuple = .ok r) : r.Resolved tuple := by
  have htakes : (Coordinate.resolution tuple).Takes (fun _ => True)
      fun f => ∀ n, f = .symbol n → .name n ∉ tuple := by
    refine ⟨fun _ => nofun, fun _ _ => nofun, fun n g _ hg => ?_, fun c d g _ _ hd hg => ?_⟩
    · cases hg
      rcases Coordinate.factorOf_cases tuple n with ⟨i, hi, _⟩ | ⟨hsymbol, hnot⟩
      · rw [hi]
        exact ⟨nofun, nofun⟩
      · rw [hsymbol]
        refine ⟨fun m hm => ?_, nofun⟩
        cases hm
        exact hnot
    · cases hg
      exact ⟨nofun, hd⟩
  obtain ⟨_, hfactors⟩ := htakes.expr (fun _ _ => trivial) h
  exact fun n hn => hfactors _ hn n rfl

/-- Where no symbol is the name of a coordinate, the interpretation inside a set is the one
outside. -/
theorem Resolved.value_within (he : e.Resolved tuple) (I : Interpretation) :
    e.value (I.within tuple) = e.value I :=
  value_congr rfl rfl fun n hn => I.symbol_within_of_notMem (he n hn)

/-- A resolved expression has the value that the expression has inside the set. -/
theorem value_resolve (h : e.resolve tuple = .ok r) (I : Interpretation) :
    r.value I = e.value (I.within tuple) := by
  rw [← (resolved_of_resolve h).value_within I]
  refine value_substitute (fun n f hf => ?_) (fun c d f _ _ hf => ?_) h
  · cases hf
    -- Positions mean the same inside and outside, so only names that stay symbols remain.
    rw [← Coordinate.value_factorOf]
    rcases Coordinate.factorOf_cases tuple n with ⟨i, hi, _⟩ | ⟨hsymbol, hnot⟩
    · rw [hi]
      rfl
    · rw [hsymbol]
      exact I.symbol_within_of_notMem hnot
  · cases hf
    rfl

/-- A normal expression without names of coordinates is not changed by resolving names. -/
theorem Resolved.resolve_eq_ok (he : e.Resolved tuple) (hnormal : e.Normal) :
    e.resolve tuple = .ok e := by
  have hidentity : e.resolve tuple = e.rebuild :=
    substitute_congr (fun n hn => congrArg Except.ok (Coordinate.factorOf_of_notMem (he n hn))) rfl
  rw [hidentity, rebuild_of_normal hnormal]

end Expr

/-- The two constraints make the same comparison, and under every interpretation each side of
the second one has the value that this side of the first one has inside the set. -/
def Constraint.SameWithin (tuple : List Coordinate) (c d : Constraint) : Prop :=
  d.comparison = c.comparison ∧ ∀ I : Interpretation,
    d.lhs.value I = c.lhs.value (I.within tuple) ∧ d.rhs.value I = c.rhs.value (I.within tuple)

/-- A resolved constraint compares the values that the constraint compares inside the set. -/
theorem Constraint.sameWithin_of_resolve {c d : Constraint} (h : c.resolve tuple = .ok d) :
    c.SameWithin tuple d := by
  obtain ⟨hl, hcomparison, hr⟩ := resolve_eq_ok.mp h
  exact ⟨hcomparison, fun I => ⟨Expr.value_resolve hl I, Expr.value_resolve hr I⟩⟩

namespace TupleSet

/-- A set whose sides are normal and without names of coordinates is what it makes of its own
constraints. -/
theorem ofConstraints_eq_self {s : TupleSet} (hnormal : ∀ e ∈ s.sides, e.Normal)
    (hresolved : ∀ e ∈ s.sides, e.Resolved s.tuple) : ofConstraints s.tuple s.constraints = .ok s := by
  have hsides : ∀ e ∈ s.sides, e.resolve s.tuple = .ok e := fun e he =>
    (hresolved e he).resolve_eq_ok (hnormal e he)
  refine ofConstraints_eq_ok.mpr ⟨rfl, List.forall₂_same.mpr fun c hc => ?_⟩
  obtain ⟨hl, hr⟩ := forall_sides_iff.mp hsides c hc
  exact Constraint.resolve_eq_ok.mpr ⟨hl, rfl, hr⟩

/-- A set that is made from constraints keeps the tuple and has one constraint for each of
them, in order, with the same comparison. No symbol at any depth is the name of a coordinate.
Under every interpretation, each side has the value that it had before if the name of a
coordinate is read as the first position with that name. And if the set is made again from
its own constraints, it is the same set. -/
theorem names_resolved {tuple : List Coordinate} {cs : List Constraint} {s : TupleSet}
    (h : ofConstraints tuple cs = .ok s) :
    s.tuple = tuple ∧
    (∀ e ∈ s.sides, ∀ n, (Factor.symbol n).OccursIn e → .name n ∉ s.tuple) ∧
    List.Forall₂ (Constraint.SameWithin tuple) cs s.constraints ∧
    ofConstraints s.tuple s.constraints = .ok s := by
  have hnormal := normal_of_ofConstraints h
  have hresolved := forall_sides_of_ofConstraints h fun _ _ => Expr.resolved_of_resolve
  obtain ⟨rfl, hresolve⟩ := ofConstraints_eq_ok.mp h
  refine ⟨rfl, hresolved, ?_, ofConstraints_eq_self hnormal hresolved⟩
  exact hresolve.imp fun _ _ => Constraint.sameWithin_of_resolve

/-- With two coordinates `i`, the calls in `f(i) - f(__tv0) + j = 0` become equal and cancel.
The name `i` is read as the first position, so that this keeps the values. -/
theorem names_resolved_cancelled :
    let tuple : List Coordinate := [.name "i", .fixed 0, .name "i"]
    let named : Call := ⟨"f", [⟨[⟨1, .symbol "i"⟩]⟩]⟩
    let placed : Call := ⟨"f", [⟨[⟨1, .position 0⟩]⟩]⟩
    let c : Constraint :=
      ⟨⟨[⟨1, .call named⟩, ⟨.minusOne, .call placed⟩, ⟨1, .symbol "j"⟩]⟩, .eq, 0⟩
    ∃ s, ofConstraints tuple [c] = .ok s ∧ s.text = "\x7b [i, 0, i] : j = 0 \x7d" ∧
      List.Forall₂ (Constraint.SameWithin tuple) [c] s.constraints ∧
      ofConstraints s.tuple s.constraints = .ok s := by
  intro tuple named placed c
  have hset : ofConstraints tuple [c] = .ok ⟨tuple, [⟨⟨[⟨1, .symbol "j"⟩]⟩, .eq, 0⟩]⟩ := rfl
  obtain ⟨_, _, hsame, hagain⟩ := names_resolved hset
  exact ⟨_, hset, rfl, hsame, hagain⟩

end TupleSet

end AffineCalls
