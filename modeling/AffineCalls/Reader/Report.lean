import AffineCalls.Reader.Basic
import AffineCalls.Text.Place

/-!
# Reports of failed readings

A text is trimmed and read to its end. If that fails, the report gives the
furthest place at which something was expected, by line, column and byte, and
the sorted names of all that was expected there.
-/

namespace AffineCalls

/-- Why and where a text could not be read. -/
structure SyntaxError where
  /-- The line, counted from one. -/
  line : Nat
  /-- The column, in characters and counted from one. -/
  column : Nat
  /-- The number of bytes before the place. -/
  offset : Nat
  /-- What would have let the reading go on, sorted and without repetition. -/
  expected : List String
  deriving DecidableEq

namespace SyntaxError

/-- The names of expectations, sorted and without repetition. -/
def labels (es : List Expectation) : List String :=
  (es.map Expectation.label).eraseDups.mergeSort fun s t => decide (s ≤ t)

/-- The report for a place after a given part of the text. -/
def after (read : List Char) (es : List Expectation) : SyntaxError where
  line := Text.line read
  column := Text.column read
  offset := Text.byteLength read
  expected := labels es

/-- The wording of a report. -/
def message (e : SyntaxError) : String :=
  let place := "error at " ++ toString e.line ++ ":" ++ toString e.column ++ ": expected "
  match e.expected with
  | [label] => place ++ label
  | labels => place ++ "one of " ++ ", ".intercalate labels

end SyntaxError

namespace Reader

variable {α : Type}

/-- Reads a value at whose end the text ends. -/
def complete (p : Reader α) : Reader α := do
  let a ← p
  endOfText
  return a

/-- Reads a whole text. -/
def readAll (p : Reader α) (cs : List Char) : Except SyntaxError α :=
  let r := p.complete.reply (.before cs)
  match r.result with
  | some (a, _) => .ok a
  | none =>
    .error (.after (cs.take (cs.length - r.furthest.left)) r.furthest.expected)

end Reader

end AffineCalls
