import AffineCalls.Expr.Reader
import AffineCalls.TupleSet.Basic

/-!
# Reading sets

The grammar of sets. A chain of comparisons such as `0 <= i < n` stands for the
constraints between neighbours. The constraints follow a colon and may be absent,
with the colon or without it.
-/

namespace AffineCalls

open Reader (literal blanks comma many many1 sepBy inRange number identifier)

/-- Reads the sign of a comparison. -/
def Comparison.reader : Reader Comparison :=
  (do literal "<="; return .le) <|>
  (do literal ">="; return .ge) <|>
  (do literal "<"; return .lt) <|>
  (do literal ">"; return .gt) <|>
  (do literal "="; return .eq)

/-- The constraints between the neighbours in a chain of comparisons. -/
def Constraint.ofChain (first : Expr) : List (Comparison × Expr) → List Constraint
  | [] => []
  | (comparison, next) :: rest => ⟨first, comparison, next⟩ :: ofChain next rest

/-- Reads a chain of comparisons. -/
def Constraint.chainReader : Reader (List Constraint) := do
  let first ← Expr.reader
  let rest ← many1 (do
    blanks
    let comparison ← Comparison.reader
    blanks
    let e ← Expr.reader
    return (comparison, e))
  return ofChain first rest

/-- Reads a coordinate. -/
def Coordinate.reader : Reader Coordinate :=
  (do
    let n ← number
    return .fixed n) <|>
  (do
    literal "-"
    blanks
    let n ← number
    let c ← inRange (Coeff.checked (-n.val))
    return .fixed c) <|>
  (do
    let name ← identifier
    return .name name)

/-- Reads the constraints of a set. -/
def Constraint.listReader : Reader (List Constraint) := do
  literal ":"
  blanks
  let chains ← sepBy chainReader (do blanks; literal "&&"; blanks)
  return chains.flatten

namespace TupleSet

/-- Reads a set. -/
def reader : Reader TupleSet := do
  literal "\x7b"
  blanks
  literal "["
  blanks
  let tuple ← sepBy Coordinate.reader comma
  blanks
  literal "]"
  blanks
  let constraints ← Constraint.listReader <|> pure []
  blanks
  literal "\x7d"
  inRange (ofConstraints tuple constraints)

/-- The set that a text spells, or why and where it spells none. -/
def parse (s : String) : Except SyntaxError TupleSet :=
  reader.readAll (Text.trim s.toList)

end TupleSet

end AffineCalls
