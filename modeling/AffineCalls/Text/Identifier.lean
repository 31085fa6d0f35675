/-!
# Characters of identifiers

An identifier starts with an ASCII letter or an underscore and goes on with ASCII
letters, digits and underscores.
-/

namespace AffineCalls.Text

/-- Whether an identifier may start with a character. -/
def isIdentStart (c : Char) : Bool := c.isAlpha || c == '_'

/-- Whether an identifier may contain a character. -/
def isIdentChar (c : Char) : Bool := isIdentStart c || c.isDigit

/-- The first character of an identifier is a character of identifiers. -/
theorem isIdentChar_of_isIdentStart {c : Char} (h : isIdentStart c) : isIdentChar c := by
  rw [isIdentChar, h, Bool.true_or]

/-- A digit is a character of identifiers. -/
theorem isIdentChar_of_isDigit {c : Char} (h : c.isDigit) : isIdentChar c := by
  rw [isIdentChar, h, Bool.or_true]

end AffineCalls.Text
