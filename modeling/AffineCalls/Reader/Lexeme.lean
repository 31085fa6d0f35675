import AffineCalls.Coeff
import AffineCalls.Reader.Basic
import AffineCalls.Text.Blank
import AffineCalls.Text.Decimal
import AffineCalls.Text.Identifier

/-!
# Words of the notation

The notation is made of identifiers, integers, tuple positions `__tv0`, `__tv1`,
… and punctuation, with separators between them. An identifier and an integer are
expected as a whole; after the letters `__tv` each further digit is expected by
itself.
-/

namespace AffineCalls

namespace Reader

/-- Skips separators. -/
def blanks : Reader Unit := do
  let _ ← span Text.isSeparator
  return ()

/-- Reads a comma, with the separators around it. -/
def comma : Reader Unit := do
  blanks
  literal ","
  blanks

/-- Reads an identifier, as long as possible. -/
def identifier : Reader String :=
  startingWith Text.isIdentStart .identifier do
    let cs ← span Text.isIdentChar
    return String.ofList cs

/-- Reads an unsigned integer in the range of coefficients. -/
def number : Reader Coeff :=
  startingWith Char.isDigit .integer do
    let ds ← span Char.isDigit
    ofOption .integer (Coeff.ofInt? (Text.value ds))

/-- Reads a run of digits, at least one. The place where it ends expects one more. -/
def digitRun : Reader (List Char) where
  reply k :=
    let ds := k.rest.takeWhile Char.isDigit
    let k' := k.drop ds.length
    ⟨if ds.isEmpty then none else some (ds, k'), .note k' .digit⟩

/-- The number of indices that a text can name, `2 ^ 64`. -/
def positionBound : Nat := 18446744073709551616

/-- Reads a tuple position: `__tv` and digits that no identifier goes on from. -/
def position : Reader Nat := do
  literal "__tv"
  let ds ← digitRun
  notBefore Text.isIdentChar
  let n := Text.value ds
  ofOption .position (if n < positionBound then some n else none)

end Reader

end AffineCalls
