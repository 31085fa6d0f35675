import AffineCalls.Expr.Render
import AffineCalls.TupleSet.Basic

/-!
# The text of sets

A set is written in braces, its tuple in brackets and its constraints after a
colon. Inside a set a position is spelled by the name of its coordinate; a
position that has no name, and any position of a constraint that stands alone,
is spelled `__tv` and its index.
-/

namespace AffineCalls

/-- The spelling of positions inside a set. -/
def Spelling.within (tuple : List Coordinate) : Spelling := fun n =>
  match tuple[n]? with
  | some (.name name) => name.toList
  | _ => Spelling.plain n

/-- The sign of a comparison. -/
def Comparison.render : Comparison → List Char
  | .eq => ['=']
  | .le => ['<', '=']
  | .lt => ['<']
  | .ge => ['>', '=']
  | .gt => ['>']

/-- The text of a constraint. -/
def Constraint.render (σ : Spelling) (c : Constraint) : List Char :=
  c.lhs.render σ ++ ' ' :: (c.comparison.render ++ ' ' :: c.rhs.render σ)

/-- The text of a coordinate. -/
def Coordinate.render : Coordinate → List Char
  | .name n => n.toList
  | .fixed c => Text.integer c.val

/-- The text of a set. -/
def TupleSet.render (s : TupleSet) : List Char :=
  let shape := ", ".toList.intercalate (s.tuple.map Coordinate.render)
  let body :=
    if s.constraints.isEmpty then []
    else
      let each := s.constraints.map (Constraint.render (.within s.tuple))
      " : ".toList ++ " && ".toList.intercalate each
  "\x7b [".toList ++ shape ++ ']' :: (body ++ " \x7d".toList)

/-- The text of a constraint outside of a set. -/
def Constraint.text (c : Constraint) : String := String.ofList (c.render .plain)

/-- The text of a set. -/
def TupleSet.text (s : TupleSet) : String := String.ofList s.render

instance : ToString Constraint := ⟨Constraint.text⟩

instance : ToString TupleSet := ⟨TupleSet.text⟩

end AffineCalls
