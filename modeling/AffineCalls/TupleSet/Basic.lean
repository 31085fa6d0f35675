import AffineCalls.Expr.Substitute

/-!
# Sets of tuples

A set describes tuples by their coordinates, each a name or a fixed integer, and
by constraints that compare expressions. Inside the constraints a coordinate is
referred to by its position. Where a set is built from constraints that use
names, a name means the first coordinate that carries it, also inside the
arguments of calls.
-/

namespace AffineCalls

/-- One coordinate of the tuples of a set. -/
inductive Coordinate where
  /-- A coordinate that constraints refer to by name. -/
  | name (name : String)
  /-- A coordinate with a fixed value. -/
  | fixed (value : Coeff)
  deriving DecidableEq

/-- How the two sides of a constraint compare. -/
inductive Comparison where
  /-- The sides are equal. -/
  | eq
  /-- The left side is at most the right side. -/
  | le
  /-- The left side is less than the right side. -/
  | lt
  /-- The left side is at least the right side. -/
  | ge
  /-- The left side is greater than the right side. -/
  | gt
  deriving DecidableEq

/-- A comparison of two expressions. -/
structure Constraint where
  /-- The left side. -/
  lhs : Expr
  /-- How the sides compare. -/
  comparison : Comparison
  /-- The right side. -/
  rhs : Expr
  deriving DecidableEq

/-- The tuples of a given shape that satisfy every constraint. -/
structure TupleSet where
  /-- The shape of the tuples. -/
  tuple : List Coordinate
  /-- The constraints, all of which hold of a member. -/
  constraints : List Constraint
  deriving DecidableEq

/-- Comparisons are ordered as they are listed. -/
def Comparison.rank : Comparison → Nat
  | .eq => 0
  | .le => 1
  | .lt => 2
  | .ge => 3
  | .gt => 4

instance : Ord Comparison := ⟨fun a b => Ord.compare a.rank b.rank⟩

/-- The factor that a name stands for under a tuple: the first position with
that name, or else the symbol itself. -/
def Coordinate.factorOf (tuple : List Coordinate) (name : String) : Factor :=
  match tuple.findIdx? (· = .name name) with
  | some i => .position i
  | none => .symbol name

/-- An expression with the names of coordinates replaced by their positions. -/
def Expr.resolve (tuple : List Coordinate) (e : Expr) : Except Overflow Expr :=
  e.substitute { symbol := fun name => pure (Coordinate.factorOf tuple name) }

/-- A constraint with the names of coordinates replaced, first on its left. -/
def Constraint.resolve (tuple : List Coordinate) (c : Constraint) :
    Except Overflow Constraint := do
  let lhs ← c.lhs.resolve tuple
  let rhs ← c.rhs.resolve tuple
  return ⟨lhs, c.comparison, rhs⟩

namespace TupleSet

/-- The set with a given shape and given constraints, names resolved. -/
def ofConstraints (tuple : List Coordinate) (cs : List Constraint) :
    Except Overflow TupleSet := do
  let constraints ← cs.mapM (Constraint.resolve tuple)
  return ⟨tuple, constraints⟩

/-- The unconstrained set over coordinates with given names. -/
def ofNames (names : List String) : TupleSet := ⟨names.map .name, []⟩

/-- The number of coordinates. -/
def arity (s : TupleSet) : Nat := s.tuple.length

end TupleSet

end AffineCalls
