import AffineCalls.Expr.Sum
import AffineCalls.Reader.Lexeme
import AffineCalls.Reader.Report

/-!
# Reading expressions

The grammar of expressions. A factor is a tuple position, a call whose opening
parenthesis follows the name at once, or a symbol; an atom is a multiple of a
factor, an integer, a factor or an expression in parentheses; an expression adds
and subtracts atoms from left to right. The value is computed with checked
arithmetic while reading, and an overflow is a failure to read at that place.
-/

namespace AffineCalls

namespace Expr

open Reader (literal blanks comma many sepBy inRange number position identifier)

/-- Reads a factor, given how expressions are read. -/
def factorRule (expr : Reader Expr) : Reader Factor :=
  (do
    let i ← position
    return .position i) <|>
  (do
    let name ← identifier
    literal "("
    blanks
    let args ← sepBy expr comma
    blanks
    literal ")"
    return .call ⟨name, args⟩) <|>
  (do
    let name ← identifier
    return .symbol name)

/-- Reads an atom, given how expressions are read. -/
def atomRule (expr : Reader Expr) : Reader Expr :=
  (do
    let n ← number
    blanks
    literal "*"
    blanks
    let f ← factorRule expr
    return ofTerm ⟨n, f⟩) <|>
  (do
    let n ← number
    return ofCoeff n) <|>
  (do
    let f ← factorRule expr
    return ofTerm (.ofFactor f)) <|>
  (do
    literal "("
    blanks
    let e ← expr
    blanks
    literal ")"
    return e)

/-- Reads an atom after a minus sign and negates it. -/
def negatedRule (expr : Reader Expr) : Reader Expr := do
  literal "-"
  blanks
  let e ← atomRule expr
  inRange (e.scale .minusOne)

/-- Reads a signed atom that follows others. -/
def summandRule (expr : Reader Expr) : Reader Expr :=
  (do
    literal "+"
    blanks
    atomRule expr) <|>
  negatedRule expr

/-- Reads atoms with signs between them and adds them from left to right. -/
def sumRule (expr : Reader Expr) : Reader Expr := do
  let first ← negatedRule expr <|> atomRule expr
  let rest ← many (do blanks; summandRule expr)
  inRange (rest.foldlM add first)

/-- Reads an expression. -/
def reader : Reader Expr := Reader.fix sumRule

/-- The expression that a text spells, or why and where it spells none. -/
def parse (s : String) : Except SyntaxError Expr :=
  reader.readAll (Text.trim s.toList)

end Expr

end AffineCalls
