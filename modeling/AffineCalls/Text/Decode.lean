import AffineCalls.Text.Escape
import AffineCalls.Text.Place

/-!
# Escaping of strings

The two directions of escaping on strings. A word that is not an escaped text is
refused with the byte at which reading stops and with the reason: an underscore
that starts no escape, or a character that never stands for itself.
-/

namespace AffineCalls

/-- Why and at which byte a word is not the escaped form of a text. -/
inductive DecodeError where
  /-- An underscore starts no escape. -/
  | invalidEscape (offset : Nat)
  /-- A character never stands for itself. -/
  | invalidChar (offset : Nat)
  deriving DecidableEq

namespace DecodeError

/-- The byte at which reading stops. -/
def offset : DecodeError → Nat
  | .invalidEscape i | .invalidChar i => i

/-- The wording of a refusal. -/
def message : DecodeError → String
  | .invalidEscape i => "invalid escape sequence at offset " ++ toString i
  | .invalidChar i => "unescaped character at offset " ++ toString i

end DecodeError

namespace Text

/-- The refusal of a word at which reading stops before a given part. -/
def refusal (word part : List Char) : DecodeError :=
  let offset := byteLength word - byteLength part
  if part.head? = some '_' then .invalidEscape offset else .invalidChar offset

/-- Escapes a string into an identifier, dropping its spaces. -/
def encode (s : String) : String := String.ofList (escape s.toList)

/-- The string without spaces whose escaped form is given. -/
def decode (s : String) : Except DecodeError String :=
  match unescape s.toList with
  | .ok cs => .ok (String.ofList cs)
  | .error part => .error (refusal s.toList part)

end Text

end AffineCalls
