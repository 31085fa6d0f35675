import AffineCalls.Proofs.Notation.Lexical
import AffineCalls.Proofs.TupleSet.Grammar
import AffineCalls.Proofs.TupleSet.Resolve

/-!
# Settled sets

A set is settled if its coordinates can be spelled and its constraints are settled. Every
set that is read is settled: what is spelled can be spelled, and the names in constraints
have been resolved.
-/

namespace AffineCalls

/-- Whether a coordinate has a spelling of its own: its name is an identifier, or the
absolute value of its number is a coefficient. -/
def Coordinate.Lexical : Coordinate → Prop
  | .name n => Text.IsIdentifier n.toList
  | .fixed c => c.val ≠ -9223372036854775808

/-- The expressions on the two sides of the constraints. -/
def TupleSet.sides (s : TupleSet) : List Expr := s.constraints.flatMap fun c => [c.lhs, c.rhs]

/-- A set whose coordinates have spellings and whose constraints are settled. -/
structure TupleSet.Settled (s : TupleSet) : Prop where
  /-- Every coordinate has a spelling of its own. -/
  coordinates : ∀ x ∈ s.tuple, x.Lexical
  /-- Every side of a constraint is settled. -/
  sides : ∀ e ∈ s.sides, e.Settled s.tuple

/-- What holds of all sides holds of the two sides of each constraint. -/
theorem TupleSet.forall_sides_iff {P : Expr → Prop} {s : TupleSet} :
    (∀ e ∈ s.sides, P e) ↔ ∀ c ∈ s.constraints, P c.lhs ∧ P c.rhs := by
  rw [TupleSet.sides, List.forall_mem_flatMap]
  exact forall₂_congr fun c _ => by
    rw [List.forall_mem_cons, List.forall_mem_singleton]

/-- What resolving names gives to every expression holds of the sides of a set. -/
theorem TupleSet.forall_sides_of_ofConstraints {P : Expr → Prop} {tuple : List Coordinate}
    {cs : List Constraint} {s : TupleSet} (h : ofConstraints tuple cs = .ok s)
    (hP : ∀ x e : Expr, x.resolve tuple = .ok e → P e) : ∀ e ∈ s.sides, P e := by
  obtain ⟨_, hresolve⟩ := ofConstraints_eq_ok.mp h
  refine forall_sides_iff.mpr fun d hd => ?_
  obtain ⟨c, _, hcd⟩ := exists_of_forall₂ hresolve.flip hd
  obtain ⟨hl, _, hr⟩ := Constraint.resolve_eq_ok.mp hcd
  exact ⟨hP _ _ hl, hP _ _ hr⟩

/-- The sides of the constraints of a set are normal. -/
theorem TupleSet.normal_of_ofConstraints {tuple : List Coordinate} {cs : List Constraint}
    {s : TupleSet} (h : ofConstraints tuple cs = .ok s) : ∀ e ∈ s.sides, e.Normal :=
  forall_sides_of_ofConstraints h fun _ _ => Expr.normal_of_resolve

/-- A coordinate that is spelled has a spelling of its own. -/
theorem CoordinateForm.Spelled.lexical {a : CoordinateForm} {x : Coordinate} {cs rest : List Char}
    (h : a.Spelled cs rest) (hx : a.eval = .ok x) : x.Lexical := by
  cases h with
  | name _ hname =>
    cases hx
    exact hname
  | number _ _ =>
    obtain ⟨c, hc, rfl⟩ := CoordinateForm.eval_number_eq_ok.mp hx
    have hval := Coeff.checked_eq_ok_iff.mp hc
    change c.val ≠ _
    omega
  | negated _ _ _ =>
    obtain ⟨c, _, c', hc', rfl⟩ := CoordinateForm.eval_negated_eq_ok.mp hx
    have hval := Coeff.checked_eq_ok_iff.mp hc'
    have hupper := c.upper
    change c'.val ≠ _
    omega

/-- What holds of the expressions in a chain holds of the sides of its constraints. -/
theorem Constraint.forall_ofChain {P : Expr → Prop} {first : Expr}
    {links : List (Comparison × Expr)} (hfirst : P first) (hlinks : ∀ l ∈ links, P l.2) :
    ∀ c ∈ Constraint.ofChain first links, P c.lhs ∧ P c.rhs := by
  induction links generalizing first with
  | nil => exact nofun
  | cons l links ih =>
    obtain ⟨hl, hlinks⟩ := List.forall_mem_cons.mp hlinks
    exact List.forall_mem_cons.mpr ⟨⟨hfirst, hl⟩, ih hl hlinks⟩

/-- The constraints of a chain that is spelled are lexical. -/
theorem ChainForm.Spelled.lexical {c : ChainForm} {ds : List Constraint} {cs rest : List Char}
    (h : c.Spelled cs rest) (hds : c.eval = .ok ds) :
    ∀ d ∈ ds, d.lhs.Lexical ∧ d.rhs.Lexical := by
  obtain ⟨mid, hfirst, hlinks⟩ := h
  obtain ⟨first, hvalue, links, hvalues, rfl⟩ := ChainForm.eval_eq_ok.mp hds
  refine Constraint.forall_ofChain (hfirst.lexical hvalue) fun x hx => ?_
  obtain ⟨l, hl, hlx⟩ := exists_of_mem_mapM hvalues hx
  obtain ⟨e, he, rfl⟩ := LinkForm.eval_eq_ok.mp hlx
  obtain ⟨_, _, _, _, _, _, hspelled⟩ := hlinks.exists_spelled l hl
  exact hspelled.lexical he

/-- A set that is read is settled. -/
theorem TupleSet.settled_of_parse {t : String} {s : TupleSet} (h : TupleSet.parse t = .ok s) :
    s.Settled := by
  obtain ⟨⟨forms, body⟩, ⟨_, _, _, _, _, htuple, hbody⟩, hs⟩ := TupleSet.parse_eq_ok_iff.mp h
  obtain ⟨tuple, hcoordinates, chains, hchains, hset⟩ := SetForm.eval_eq_ok.mp hs
  obtain ⟨rfl, hresolve⟩ := TupleSet.ofConstraints_eq_ok.mp hset
  constructor
  · intro x hx
    obtain ⟨a, ha, hax⟩ := exists_of_mem_mapM hcoordinates hx
    obtain ⟨_, _, hspelled⟩ := htuple.exists_spelled a ha
    exact hspelled.lexical hax
  · have hspelled : ∀ c ∈ body.getD [], ∃ ds es, c.Spelled ds es := by
      cases body with
      | none => exact nofun
      | some body =>
        obtain ⟨_, _, hchains⟩ := hbody
        exact hchains.exists_spelled
    rw [TupleSet.forall_sides_iff]
    intro d hd
    obtain ⟨c, hc, hcd⟩ := exists_of_forall₂ hresolve.flip hd
    obtain ⟨ds, hds, hc⟩ := List.mem_flatten.mp hc
    obtain ⟨chain, hchain, heval⟩ := exists_of_mem_mapM hchains hds
    obtain ⟨_, _, hchain⟩ := hspelled chain hchain
    obtain ⟨hl, hr⟩ := hchain.lexical heval c hc
    obtain ⟨hlhs, _, hrhs⟩ := Constraint.resolve_eq_ok.mp hcd
    exact ⟨Expr.settled_of_resolve hl hlhs, Expr.settled_of_resolve hr hrhs⟩

end AffineCalls
