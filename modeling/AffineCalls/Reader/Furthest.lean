import AffineCalls.Reader.Cursor

/-!
# What was expected furthest on

Wherever a reader fails to find something, it notes what it expected and how much
text was left there. Of two such notes the one with less text left counts, and
notes of the same place are united, so the note of a whole run says what would
have let the reading go on at the furthest place that it reached.
-/

namespace AffineCalls

/-- What a reader may expect at a place. -/
inductive Expectation where
  /-- A fixed piece of text. -/
  | literal (text : String)
  /-- A decimal digit. -/
  | digit
  /-- A name. -/
  | identifier
  /-- An integer in the range of coefficients. -/
  | integer
  /-- The index of a tuple position, in range. -/
  | position
  /-- An operation whose coefficients stay in range. -/
  | coefficientInRange
  /-- The end of the text. -/
  | endOfText
  deriving DecidableEq

/-- How an expectation is named in a report. -/
def Expectation.label : Expectation → String
  | .literal text => "\"" ++ text ++ "\""
  | .digit => "['0'..='9']"
  | .identifier => "identifier"
  | .integer => "integer"
  | .position => "tuple variable index"
  | .coefficientInRange => "coefficient in range"
  | .endOfText => "EOF"

/-- The expectations at the furthest place that was noted. -/
structure Furthest where
  /-- The number of characters left at that place. -/
  left : Nat
  /-- What was expected there; empty when nothing was noted. -/
  expected : List Expectation

namespace Furthest

/-- Nothing was noted. -/
def none : Furthest := ⟨0, []⟩

/-- The note of one expectation. -/
def note (k : Cursor) (e : Expectation) : Furthest := ⟨k.left, [e]⟩

/-- The note of two runs together. -/
def join (v w : Furthest) : Furthest :=
  if v.expected.isEmpty then w
  else if w.expected.isEmpty then v
  else if v.left < w.left then v
  else if w.left < v.left then w
  else ⟨v.left, w.expected.foldl (fun es e => es.insert e) v.expected⟩

end Furthest

end AffineCalls
