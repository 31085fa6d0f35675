import AffineCalls.Proofs.Expr.Normal
import AffineCalls.TupleSet.Basic

/-!
# Resolved names

A name in a constraint stands for the first coordinate that carries it. Once names are
resolved, no symbol is the name of a coordinate, and a position is either one that was
written as such or that of a named coordinate. The sums are formed anew, so they are
normal whatever they were before.
-/

namespace AffineCalls

/-- The substitution by which the names of coordinates are resolved. -/
def Coordinate.resolution (tuple : List Coordinate) : Substitution (Except Overflow) :=
  { symbol := fun name => pure (Coordinate.factorOf tuple name) }

/-- Resolving names is a substitution. -/
theorem Expr.resolve_eq (tuple : List Coordinate) (e : Expr) :
    e.resolve tuple = e.substitute (Coordinate.resolution tuple) := rfl

/-- A constraint is resolved on both sides. -/
theorem Constraint.resolve_eq_ok {tuple : List Coordinate} {c d : Constraint} :
    c.resolve tuple = .ok d ↔ c.lhs.resolve tuple = .ok d.lhs ∧ d.comparison = c.comparison ∧
      c.rhs.resolve tuple = .ok d.rhs := by
  obtain ⟨lhs, comparison, rhs⟩ := d
  rw [Constraint.resolve, bind_eq_ok]
  constructor
  · rintro ⟨l, hl, h⟩
    obtain ⟨r, hr, h⟩ := bind_eq_ok.mp h
    cases h
    exact ⟨hl, rfl, hr⟩
  · rintro ⟨hl, rfl, hr⟩
    exact ⟨lhs, hl, bind_eq_ok.mpr ⟨rhs, hr, rfl⟩⟩

/-- The sets with given coordinates are those whose constraints can be resolved. -/
theorem TupleSet.ofConstraints_eq_ok {tuple : List Coordinate} {cs : List Constraint}
    {s : TupleSet} :
    TupleSet.ofConstraints tuple cs = .ok s ↔ s.tuple = tuple ∧
      List.Forall₂ (fun c d => c.resolve tuple = .ok d) cs s.constraints := by
  obtain ⟨tuple', constraints⟩ := s
  rw [TupleSet.ofConstraints, bind_eq_ok]
  constructor
  · rintro ⟨ds, hds, h⟩
    cases h
    exact ⟨rfl, mapM_eq_ok.mp hds⟩
  · rintro ⟨rfl, hds⟩
    exact ⟨constraints, mapM_eq_ok.mpr hds, rfl⟩

namespace Coordinate

variable {tuple : List Coordinate}

/-- The first coordinate with a name is where the name stands and stands nowhere before. -/
theorem findIdx?_name_eq_some {name : String} {i : Nat} :
    tuple.findIdx? (· = .name name) = some i ↔
      tuple[i]? = some (.name name) ∧ ∀ j < i, tuple[j]? ≠ some (.name name) := by
  rw [List.findIdx?_eq_some_iff_getElem]
  constructor
  · rintro ⟨hi, hname, hfirst⟩
    refine ⟨List.getElem?_eq_some_iff.mpr ⟨hi, of_decide_eq_true hname⟩, fun j hj hj' => ?_⟩
    obtain ⟨_, hj'⟩ := List.getElem?_eq_some_iff.mp hj'
    exact hfirst j hj (decide_eq_true hj')
  · rintro ⟨hname, hfirst⟩
    obtain ⟨hi, hname⟩ := List.getElem?_eq_some_iff.mp hname
    refine ⟨hi, decide_eq_true hname, fun j hj hj' => hfirst j hj ?_⟩
    exact List.getElem?_eq_some_iff.mpr ⟨_, of_decide_eq_true hj'⟩

/-- A name stands for a position exactly if it is the first one with that name. -/
theorem factorOf_eq_position {name : String} {i : Nat} :
    factorOf tuple name = .position i ↔
      tuple[i]? = some (.name name) ∧ ∀ j < i, tuple[j]? ≠ some (.name name) := by
  rw [← findIdx?_name_eq_some, factorOf]
  cases tuple.findIdx? (· = .name name) with
  | none => exact ⟨nofun, nofun⟩
  | some k =>
    rw [Option.some.injEq]
    exact ⟨Factor.position.inj, congrArg Factor.position⟩

/-- A name that no coordinate carries stands for itself. -/
theorem factorOf_of_notMem {name : String} (h : .name name ∉ tuple) :
    factorOf tuple name = .symbol name := by
  have hnone : tuple.findIdx? (· = .name name) = none :=
    List.findIdx?_eq_none_iff.mpr fun x hx => decide_eq_false fun hname => h (hname ▸ hx)
  rw [factorOf, hnone]

/-- A name stands for a position that carries it, or for itself if none does. -/
theorem factorOf_cases (tuple : List Coordinate) (name : String) :
    (∃ i, factorOf tuple name = .position i ∧ tuple[i]? = some (.name name)) ∨
      (factorOf tuple name = .symbol name ∧ .name name ∉ tuple) := by
  cases hfind : tuple.findIdx? (· = .name name) with
  | none =>
    have hnot : .name name ∉ tuple := fun hmem =>
      of_decide_eq_false (List.findIdx?_eq_none_iff.mp hfind _ hmem) rfl
    exact .inr ⟨factorOf_of_notMem hnot, hnot⟩
  | some i =>
    have hfirst := findIdx?_name_eq_some.mp hfind
    exact .inl ⟨i, factorOf_eq_position.mpr hfirst, hfirst.1⟩

end Coordinate

/-- Resolving names keeps arguments normal. -/
theorem Coordinate.keepsNormal_resolution (tuple : List Coordinate) :
    (resolution tuple).KeepsNormal where
  symbol n g h := by
    cases h
    rcases factorOf_cases tuple n with ⟨i, hi, _⟩ | ⟨hn, _⟩
    · rw [hi]
      exact List.forall_mem_nil _
    · rw [hn]
      exact List.forall_mem_nil _
  call c g hc h := by
    cases h
    exact hc

/-- Resolving names in any expression gives a normal one. -/
theorem Expr.normal_of_resolve {tuple : List Coordinate} {x e : Expr}
    (h : x.resolve tuple = .ok e) : e.Normal :=
  normal_of_substitute (Coordinate.keepsNormal_resolution tuple) h

/-- Whether a factor, apart from its arguments, may stand in the constraints of a set: a
symbol is a name that no coordinate carries, and a position can be written or is named. -/
def Factor.Settled (tuple : List Coordinate) : Factor → Prop
  | .one => True
  | .position i => i < Reader.positionBound ∨ ∃ name, tuple[i]? = some (.name name)
  | .symbol name => Text.IsName name ∧ .name name ∉ tuple
  | .call c => Text.IsName c.name

/-- A normal expression in which names have been resolved. -/
structure Expr.Settled (tuple : List Coordinate) (e : Expr) : Prop extends e.Normal where
  /-- Every factor at every depth may stand in the constraints of a set. -/
  factors : ∀ f : Factor, f.OccursIn e → f.Settled tuple

/-- Resolving names takes factors with spellings to settled ones. -/
theorem Coordinate.takes_resolution (tuple : List Coordinate) :
    (resolution tuple).Takes Factor.Lexical (Factor.Settled tuple) where
  one _ := trivial
  position _ h := .inl h
  symbol name g hname h := by
    cases h
    rcases factorOf_cases tuple name with ⟨i, hi, hcoordinate⟩ | ⟨hsymbol, hnot⟩
    · rw [hi]
      exact ⟨.inr ⟨name, hcoordinate⟩, nofun⟩
    · rw [hsymbol]
      exact ⟨⟨hname, hnot⟩, nofun⟩
  call c d g hc hname hargs h := by
    cases h
    refine ⟨?_, hargs⟩
    change Text.IsName d.name
    rw [hname]
    exact hc

/-- Resolving names in a lexical expression settles it. -/
theorem Expr.settled_of_resolve {tuple : List Coordinate} {x e : Expr} (hx : x.Lexical)
    (h : x.resolve tuple = .ok e) : e.Settled tuple := by
  rw [Expr.resolve_eq] at h
  obtain ⟨hnormal, hfactors⟩ := (Coordinate.takes_resolution tuple).expr hx h
  exact ⟨hnormal, hfactors⟩

end AffineCalls
