import AffineCalls.Proofs.Text.Escape

/-!
# Only escaped texts are read back

Each step of reading a word takes exactly the escaped form of the character that it
gives: a mnemonic that the character has, the character itself if it is a letter or a
digit, or the hexadecimal digits that escaping would write. So a word is read as a text
exactly when it is the escaped form of this text, which then has no spaces.
-/

namespace AffineCalls.Text

/-! ## One step of reading -/

/-- A character that a mnemonic stands for is escaped by this mnemonic. -/
theorem escapeChar_of_meaningOf? {m c : Char} (h : meaningOf? m = some c) :
    escapeChar c = ['_', m] := by
  obtain ⟨p, hp, rfl⟩ := Option.map_eq_some_iff.mp h
  have hm : p.2 = m := by simpa using List.find?_some hp
  have hall : ∀ p ∈ mnemonics, escapeChar p.1 = ['_', p.2] := by decide
  exact hm ▸ hall p (List.mem_of_find?_eq_some hp)

/-- A letter or a digit stands for itself. -/
theorem escapeChar_of_isAlphanum {c : Char} (h : c.isAlphanum) : escapeChar c = [c] := by
  have hspace : c ≠ ' ' := by
    rintro rfl
    exact absurd h (by decide)
  have hmnemonic : mnemonicOf? c = none := by
    have hall : ∀ p ∈ mnemonics, ¬p.1.isAlphanum := by decide
    rw [mnemonicOf?, Option.map_eq_none_iff, List.find?_eq_none]
    intro p hp hpc
    have hpc : p.1 = c := by simpa using hpc
    exact hall p hp (hpc ▸ h)
  rw [escapeChar, if_neg hspace, hmnemonic]
  exact if_pos h

/-- A character is read from hexadecimal digits only if escaping would write them. -/
theorem escapeChar_of_coded? {ds : List Char} {c : Char} (h : coded? ds = some c) :
    escapeChar c = '_' :: 'u' :: (ds ++ ['_']) := by
  obtain ⟨hescape, hc⟩ := Option.ite_none_right_eq_some.mp h
  exact Option.some.inj hc ▸ hescape

/-- Behind an underscore, what is read is the remainder of the character's escaped form. -/
theorem cons_eq_of_escaped? {cs rest : List Char} {c : Char}
    (h : escaped? cs = some (c, rest)) : '_' :: cs = escapeChar c ++ rest := by
  cases cs with
  | nil => cases h
  | cons m cs =>
    by_cases hm : m = 'u'
    · rw [escaped?, if_pos hm] at h
      have hsplit := List.takeWhile_append_dropWhile (p := (· != '_')) (l := cs)
      cases hdrop : cs.dropWhile (· != '_') with
      | nil =>
        rw [hdrop] at h
        cases h
      | cons d tail =>
        rw [hdrop] at h hsplit
        obtain ⟨c', hc', heq⟩ := Option.map_eq_some_iff.mp h
        cases heq
        have hd : d = '_' := by
          have hhead := List.head?_dropWhile_not (· != '_') cs
          rw [hdrop] at hhead
          simpa using hhead
        conv => lhs; rw [hm, ← hsplit, hd]
        rw [escapeChar_of_coded? hc']
        simp
    · rw [escaped?, if_neg hm] at h
      obtain ⟨c', hc', heq⟩ := Option.map_eq_some_iff.mp h
      cases heq
      rw [escapeChar_of_meaningOf? hc']
      rfl

/-- What is read from the front of a word is the escaped form of the character. -/
theorem eq_append_of_unit? {cs rest : List Char} {c : Char} (h : unit? cs = some (c, rest)) :
    cs = escapeChar c ++ rest := by
  cases cs with
  | nil => exact nomatch h
  | cons a cs =>
    rw [unit?] at h
    by_cases ha : a = '_'
    · rw [if_pos ha] at h
      rw [ha]
      exact cons_eq_of_escaped? h
    · rw [if_neg ha] at h
      obtain ⟨halnum, heq⟩ := Option.ite_none_right_eq_some.mp h
      cases heq
      rw [escapeChar_of_isAlphanum halnum]
      rfl

/-- No space is read. -/
theorem ne_space_of_unit? {cs rest : List Char} {c : Char} (h : unit? cs = some (c, rest)) :
    c ≠ ' ' := by
  rintro rfl
  have hlength := length_lt_of_unit? h
  rw [eq_append_of_unit? h] at hlength
  exact Nat.lt_irrefl _ hlength

/-! ## Words and texts -/

/-- A word of which nothing can be read is read to its end only if it is empty. -/
theorem unescape_of_eq_none {cs : List Char} (h : unit? cs = none) :
    unescape cs = if cs.isEmpty then .ok [] else .error cs := by
  rw [unescape]
  split
  · next h' =>
    rw [h] at h'
    exact nomatch h'
  · rfl

/-- What is read from a word has no spaces, and its escaped form is the word. -/
theorem escape_of_unescape {cs ds : List Char} (h : unescape cs = .ok ds) :
    ' ' ∉ ds ∧ escape ds = cs := by
  fun_induction unescape cs generalizing ds with
  | case1 cs c rest hunit ih =>
    cases hrest : unescape rest with
    | error part =>
      rw [hrest] at h
      cases h
    | ok es =>
      rw [hrest] at h
      cases h
      obtain ⟨hspace, hescape⟩ := ih hrest
      rw [List.mem_cons, not_or, escape_cons, hescape, ← eq_append_of_unit? hunit]
      exact ⟨⟨(ne_space_of_unit? hunit).symm, hspace⟩, rfl⟩
  | case2 cs hunit hempty =>
    cases h
    rw [List.isEmpty_iff.mp hempty]
    exact ⟨List.not_mem_nil, rfl⟩
  | case3 cs hunit hempty => cases h

/-- Dropping spaces does not change a text without spaces. -/
theorem withoutSpaces_eq_self {cs : List Char} (h : ' ' ∉ cs) : withoutSpaces cs = cs := by
  rw [withoutSpaces, List.filter_eq_self]
  intro c hc
  rw [bne_iff_ne]
  rintro rfl
  exact h hc

/-- A word is read as a text exactly when it is the escaped form of this text and the
text has no spaces. -/
theorem unescape_eq_ok_iff {cs ds : List Char} :
    unescape cs = .ok ds ↔ ' ' ∉ ds ∧ escape ds = cs := by
  constructor
  · intro h
    exact escape_of_unescape h
  · rintro ⟨hspace, rfl⟩
    rw [unescape_escape, withoutSpaces_eq_self hspace]

/-- A string is read back as what its characters are read back as. -/
theorem decode_eq_ok_iff {t s : String} :
    decode t = .ok s ↔ unescape t.toList = .ok s.toList := by
  rw [decode]
  cases unescape t.toList with
  | error part => exact ⟨nofun, nofun⟩
  | ok cs =>
    rw [Except.ok.injEq, Except.ok.injEq, ← String.toList_inj, String.toList_ofList]

/-- Reading back accepts exactly the escaped forms: a string is read back as another one
exactly when it is the escaped form of the latter, which has no spaces. So a string that
was escaped is read back without its spaces, and two strings have the same escaped form
exactly when they agree up to spaces. -/
theorem decode_encode :
    (∀ t s : String, decode t = .ok s ↔ ' ' ∉ s.toList ∧ encode s = t) ∧
    (∀ u : String, decode (encode u) = .ok (String.ofList (withoutSpaces u.toList))) ∧
    ∀ u v : String, encode u = encode v ↔
      withoutSpaces u.toList = withoutSpaces v.toList := by
  refine ⟨fun t s => ?_, fun u => ?_, fun u v => encode_eq_encode_iff⟩
  · rw [decode_eq_ok_iff, unescape_eq_ok_iff, ← String.toList_inj, encode, String.toList_ofList]
  · rw [decode_eq_ok_iff, encode, String.toList_ofList, String.toList_ofList, unescape_escape]

end AffineCalls.Text
