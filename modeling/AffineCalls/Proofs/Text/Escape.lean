import AffineCalls.Text.Decode
import AffineCalls.Text.Identifier

/-!
# Escaping keeps all but the spaces

Each character other than the space is escaped into a nonempty piece from which it
can be read back, whatever follows. So an escaped text determines the text up to its
spaces, is at least as long as a text without spaces, and consists of characters of
identifiers.
-/

namespace AffineCalls.Text

/-- A text without its spaces. -/
def withoutSpaces (cs : List Char) : List Char := cs.filter (· != ' ')

theorem withoutSpaces_cons_of_ne {c : Char} (hc : c ≠ ' ') (cs : List Char) :
    withoutSpaces (c :: cs) = c :: withoutSpaces cs :=
  List.filter_cons_of_pos (bne_iff_ne.mpr hc)

/-! ## Hexadecimal digits -/

/-- Hexadecimal digits are the digit characters of the numbers below sixteen. -/
theorem exists_digitChar_of_mem_hexDigits {n : Nat} {c : Char} (h : c ∈ hexDigits n) :
    ∃ d < 16, c = Nat.digitChar d := by
  induction n using Nat.strongRecOn with
  | _ n ih =>
    by_cases hn : n < 16
    · rw [hexDigits, Nat.toDigits_of_lt_base hn, List.mem_singleton] at h
      exact ⟨n, hn, h⟩
    · rw [hexDigits, Nat.toDigits_of_base_le (by decide) (by omega), List.mem_append,
        List.mem_singleton] at h
      rcases h with h | h
      · exact ih (n / 16) (by omega) h
      · exact ⟨n % 16, Nat.mod_lt _ (by decide), h⟩

/-- A hexadecimal digit may stand in an identifier, is no underscore and has its value. -/
theorem digitChar_spec : ∀ d < 16, isIdentChar (Nat.digitChar d) ∧ Nat.digitChar d ≠ '_' ∧
    hexDigitValue (Nat.digitChar d) = d := by
  decide

/-- Hexadecimal digits spell the number that they were made from. -/
theorem hexValue_hexDigits (n : Nat) : hexValue (hexDigits n) = n := by
  induction n using Nat.strongRecOn with
  | _ n ih =>
    by_cases hn : n < 16
    · rw [hexDigits, Nat.toDigits_of_lt_base hn, hexValue, List.foldl_cons, List.foldl_nil,
        (digitChar_spec n hn).2.2, Nat.mul_zero, Nat.zero_add]
    · have hlast := (digitChar_spec (n % 16) (Nat.mod_lt _ (by decide))).2.2
      have hinit : hexValue (Nat.toDigits 16 (n / 16)) = n / 16 := ih (n / 16) (by omega)
      unfold hexValue at hinit
      rw [hexDigits, Nat.toDigits_of_base_le (by decide) (by omega), hexValue,
        List.foldl_append, hinit, List.foldl_cons, List.foldl_nil, hlast]
      omega

/-! ## One character -/

/-- A mnemonic stands for the character that it was made from, and is not the mark of
a hexadecimal escape. -/
theorem meaningOf?_of_mnemonicOf? {c m : Char} (h : mnemonicOf? c = some m) :
    meaningOf? m = some c ∧ m ≠ 'u' ∧ isIdentChar m := by
  obtain ⟨p, hp, rfl⟩ := Option.map_eq_some_iff.mp h
  have hc : p.1 = c := by simpa using List.find?_some hp
  have hall : ∀ p ∈ mnemonics, meaningOf? p.2 = some p.1 ∧ p.2 ≠ 'u' ∧ isIdentChar p.2 := by
    decide
  exact hc ▸ hall p (List.mem_of_find?_eq_some hp)

/-- A character other than the space is escaped by a mnemonic, stands for itself or
is written in hexadecimal. -/
theorem escapeChar_cases {c : Char} (hc : c ≠ ' ') :
    (∃ m, mnemonicOf? c = some m ∧ escapeChar c = ['_', m]) ∨
      (c ≠ '_' ∧ c.isAlphanum ∧ escapeChar c = [c]) ∨
      escapeChar c = '_' :: 'u' :: (hexDigits c.toNat ++ ['_']) := by
  rw [escapeChar, if_neg hc]
  cases hm : mnemonicOf? c with
  | some m => exact .inl ⟨m, rfl, rfl⟩
  | none =>
    by_cases halnum : c.isAlphanum
    · refine .inr (.inl ⟨?_, halnum, if_pos halnum⟩)
      rintro rfl
      exact absurd hm (by decide)
    · exact .inr (.inr (if_neg halnum))

/-- The escaped form of a character is read back as the character, whatever follows. -/
theorem unit?_escapeChar {c : Char} (hc : c ≠ ' ') (rest : List Char) :
    unit? (escapeChar c ++ rest) = some (c, rest) := by
  rcases escapeChar_cases hc with ⟨m, hm, h⟩ | ⟨hne, halnum, h⟩ | h
  · obtain ⟨hmeaning, hu, _⟩ := meaningOf?_of_mnemonicOf? hm
    rw [h, List.cons_append, List.singleton_append, unit?, if_pos rfl, escaped?, if_neg hu,
      hmeaning, Option.map_some]
  · rw [h, List.singleton_append, unit?, if_neg hne, if_pos halnum]
  · have hdigits : ∀ d ∈ hexDigits c.toNat, (d != '_') = true := by
      intro d hd
      obtain ⟨n, hn, rfl⟩ := exists_digitChar_of_mem_hexDigits hd
      exact bne_iff_ne.mpr (digitChar_spec n hn).2.1
    have hcoded : coded? (hexDigits c.toNat) = some c := by
      rw [coded?, hexValue_hexDigits, Char.ofNat_toNat]
      exact if_pos h
    have hword : escapeChar c ++ rest =
        '_' :: 'u' :: (hexDigits c.toNat ++ '_' :: rest) := by
      rw [h]
      simp
    rw [hword, unit?, if_pos rfl, escaped?, if_pos rfl,
      List.dropWhile_append_of_pos hdigits, List.takeWhile_append_of_pos hdigits]
    simp [hcoded]

/-- The escaped form of a character other than the space is not empty. -/
theorem escapeChar_ne_nil {c : Char} (hc : c ≠ ' ') : escapeChar c ≠ [] := by
  intro h
  have hunit := unit?_escapeChar hc []
  rw [h] at hunit
  exact nomatch hunit

/-- The escaped form of a character consists of characters of identifiers. -/
theorem isIdentChar_of_mem_escapeChar {c d : Char} (h : d ∈ escapeChar c) : isIdentChar d := by
  by_cases hc : c = ' '
  · subst hc
    exact nomatch h
  · rcases escapeChar_cases hc with ⟨m, hm, heq⟩ | ⟨_, halnum, heq⟩ | heq
    · rw [heq, List.mem_cons, List.mem_singleton] at h
      rcases h with rfl | rfl
      · decide
      · exact (meaningOf?_of_mnemonicOf? hm).2.2
    · rw [heq, List.mem_singleton] at h
      subst h
      rw [Char.isAlphanum, Bool.or_eq_true] at halnum
      rw [isIdentChar, isIdentStart, Bool.or_eq_true, Bool.or_eq_true]
      exact halnum.imp_left .inl
    · rw [heq] at h
      simp only [List.mem_cons, List.mem_append, List.not_mem_nil, or_false] at h
      rcases h with rfl | rfl | h | rfl
      · decide
      · decide
      · obtain ⟨n, hn, rfl⟩ := exists_digitChar_of_mem_hexDigits h
        exact (digitChar_spec n hn).1
      · decide

/-! ## Texts -/

theorem escape_cons (c : Char) (cs : List Char) : escape (c :: cs) = escapeChar c ++ escape cs :=
  List.flatMap_cons

theorem escape_append (cs ds : List Char) : escape (cs ++ ds) = escape cs ++ escape ds :=
  List.flatMap_append

/-- A word is read from its first character on. -/
theorem unescape_of_unit? {cs rest : List Char} {c : Char} (h : unit? cs = some (c, rest)) :
    unescape cs = (unescape rest).map (c :: ·) := by
  rw [unescape]
  split
  · next c' rest' h' =>
    rw [h, Option.some.injEq, Prod.mk.injEq] at h'
    obtain ⟨rfl, rfl⟩ := h'
    rfl
  · next h' =>
    rw [h] at h'
    cases h'

/-- An escaped text in front of a word is read back as the text without its spaces, and then the
word is read. -/
theorem unescape_escape_append (cs rest : List Char) :
    unescape (escape cs ++ rest) = (unescape rest).map (withoutSpaces cs ++ ·) := by
  induction cs with
  | nil => cases h : unescape rest <;> simp [escape, withoutSpaces, h, Except.map]
  | cons c cs ih =>
    by_cases hc : c = ' '
    · subst hc
      exact ih
    · rw [escape_cons, List.append_assoc, unescape_of_unit? (unit?_escapeChar hc _), ih,
        withoutSpaces_cons_of_ne hc]
      cases unescape rest <;> rfl

/-- The escaped form of a text is read back as the text without its spaces. -/
theorem unescape_escape (cs : List Char) : unescape (escape cs) = .ok (withoutSpaces cs) := by
  have hread := unescape_escape_append cs []
  have hnil : unescape [] = .ok [] := by
    rw [unescape]
    rfl
  rw [List.append_nil, hnil] at hread
  simpa [Except.map] using hread

/-- Spaces leave no trace in an escaped text. -/
theorem escape_withoutSpaces (cs : List Char) : escape (withoutSpaces cs) = escape cs := by
  induction cs with
  | nil => rfl
  | cons c cs ih =>
    by_cases hc : c = ' '
    · subst hc
      exact ih
    · rw [withoutSpaces_cons_of_ne hc, escape_cons, escape_cons, ih]

/-- Two texts have the same escaped form exactly when they agree up to spaces. -/
theorem escape_eq_escape_iff {cs ds : List Char} :
    escape cs = escape ds ↔ withoutSpaces cs = withoutSpaces ds := by
  constructor
  · intro h
    have hread := unescape_escape cs
    rw [h, unescape_escape ds] at hread
    exact (Except.ok.inj hread).symm
  · intro h
    rw [← escape_withoutSpaces cs, h, escape_withoutSpaces]

/-- An escaped text consists of characters of identifiers. -/
theorem isIdentChar_of_mem_escape {cs : List Char} {d : Char} (h : d ∈ escape cs) :
    isIdentChar d := by
  obtain ⟨c, _, hd⟩ := List.mem_flatMap.mp h
  exact isIdentChar_of_mem_escapeChar hd

/-- Escaping makes no text without spaces shorter. -/
theorem length_le_length_escape {cs : List Char} (h : ' ' ∉ cs) :
    cs.length ≤ (escape cs).length := by
  induction cs with
  | nil => exact Nat.le_refl 0
  | cons c cs ih =>
    rw [List.mem_cons, not_or] at h
    have hpos := List.length_pos_iff.mpr (escapeChar_ne_nil (Ne.symm h.1))
    have hrest := ih h.2
    rw [escape_cons, List.length_cons, List.length_append]
    omega

/-- Two strings have the same escaped form exactly when they agree up to spaces. -/
theorem encode_eq_encode_iff {s t : String} :
    encode s = encode t ↔ withoutSpaces s.toList = withoutSpaces t.toList := by
  rw [encode, encode, String.ofList_inj, escape_eq_escape_iff]

end AffineCalls.Text
