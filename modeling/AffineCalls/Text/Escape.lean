/-!
# Texts as identifiers

A text is escaped into a word of ASCII letters, digits and underscores. Letters
and digits stand for themselves, spaces are dropped, and every other character is
an underscore followed by its mnemonic or, where it has none, by `u`, its code
point in hexadecimal and a closing underscore. Reading a word back accepts only
what escaping produces, so each text without spaces has one escaped form.
-/

namespace AffineCalls.Text

/-- The characters whose escape is an underscore and one more character. -/
def mnemonics : List (Char × Char) :=
  [('_', '_'), ('+', 'P'), ('-', 'M'), ('*', 'T'), ('(', 'L'), (')', 'R'), (',', 'C'),
    ('[', 'B'), (']', 'E')]

/-- The character that stands for another one after an underscore. -/
def mnemonicOf? (c : Char) : Option Char :=
  (mnemonics.find? (·.1 = c)).map (·.2)

/-- The character that one stands for after an underscore. -/
def meaningOf? (m : Char) : Option Char :=
  (mnemonics.find? (·.2 = m)).map (·.1)

/-- A code point in lower-case hexadecimal, without leading zeros. -/
def hexDigits (n : Nat) : List Char := Nat.toDigits 16 n

/-- The value of a lower-case hexadecimal digit. -/
def hexDigitValue (c : Char) : Nat :=
  if c.isDigit then c.toNat - '0'.toNat else c.toNat - 'a'.toNat + 10

/-- The number that lower-case hexadecimal digits spell. -/
def hexValue (ds : List Char) : Nat :=
  ds.foldl (fun n d => 16 * n + hexDigitValue d) 0

/-- The escaped form of a character. -/
def escapeChar (c : Char) : List Char :=
  if c = ' ' then []
  else
    match mnemonicOf? c with
    | some m => ['_', m]
    | none => if c.isAlphanum then [c] else '_' :: 'u' :: (hexDigits c.toNat ++ ['_'])

/-- The escaped form of a text. -/
def escape (cs : List Char) : List Char := cs.flatMap escapeChar

/-- The character whose escape carries the given hexadecimal digits. -/
def coded? (ds : List Char) : Option Char :=
  let c := Char.ofNat (hexValue ds)
  if escapeChar c = '_' :: 'u' :: (ds ++ ['_']) then some c else none

/-- The character that an underscore and what follows it stand for, and the rest. -/
def escaped? : List Char → Option (Char × List Char)
  | [] => none
  | m :: cs =>
    if m = 'u' then
      match cs.dropWhile (· != '_') with
      | [] => none
      | _ :: rest => (coded? (cs.takeWhile (· != '_'))).map (·, rest)
    else (meaningOf? m).map (·, cs)

/-- The character that the front of a word stands for, and the rest of the word. -/
def unit? : List Char → Option (Char × List Char)
  | [] => none
  | c :: cs =>
    if c = '_' then escaped? cs
    else if c.isAlphanum then some (c, cs)
    else none

/-- What follows an escape is shorter than what follows its underscore. -/
theorem length_lt_of_escaped? {cs rest : List Char} {c : Char}
    (h : escaped? cs = some (c, rest)) : rest.length < cs.length := by
  cases cs with
  | nil => exact nomatch h
  | cons m cs =>
    rw [List.length_cons]
    by_cases hm : m = 'u'
    · rw [escaped?, if_pos hm] at h
      have hdrop := (List.dropWhile_suffix (· != '_') (l := cs)).length_le
      cases hd : cs.dropWhile (· != '_') with
      | nil => simp [hd] at h
      | cons _ tail =>
        simp only [hd, Option.map_eq_some_iff, Prod.mk.injEq] at h
        obtain ⟨_, _, _, rfl⟩ := h
        rw [hd, List.length_cons] at hdrop
        omega
    · simp only [escaped?, if_neg hm, Option.map_eq_some_iff, Prod.mk.injEq] at h
      obtain ⟨_, _, _, rfl⟩ := h
      omega

/-- Reading one character takes some of the word. -/
theorem length_lt_of_unit? {cs rest : List Char} {c : Char} (h : unit? cs = some (c, rest)) :
    rest.length < cs.length := by
  cases cs with
  | nil => exact nomatch h
  | cons a cs =>
    rw [List.length_cons]
    by_cases ha : a = '_'
    · rw [unit?, if_pos ha] at h
      have hshorter := length_lt_of_escaped? h
      omega
    · rw [unit?, if_neg ha] at h
      by_cases halnum : a.isAlphanum
      · rw [if_pos halnum, Option.some.injEq, Prod.mk.injEq] at h
        obtain ⟨_, rfl⟩ := h
        omega
      · rw [if_neg halnum] at h
        exact nomatch h

/-- The text that a word stands for, or the part of the word, starting with a
character that cannot be read back, at which reading stops. -/
def unescape (cs : List Char) : Except (List Char) (List Char) :=
  match _h : unit? cs with
  | some (c, rest) => (unescape rest).map (c :: ·)
  | none => if cs.isEmpty then .ok [] else .error cs
termination_by cs.length
decreasing_by exact length_lt_of_unit? _h

end AffineCalls.Text
