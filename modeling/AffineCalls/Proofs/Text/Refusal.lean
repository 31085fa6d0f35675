import AffineCalls.Proofs.Text.Decode

/-!
# Where a word is refused

Reading a word stops at the first character that starts no unit, that is, the escaped form
of no character. The front of the word before it is an escaped text and can be read alone. No
longer front can: behind the same units it would go on with a further one, which the word would
then have there too, as a unit is read in the same way whatever follows.
-/

namespace AffineCalls.Text

/-! ## Units -/

/-- A unit is read in the same way whatever follows. -/
theorem unit?_append {cs rest : List Char} {c : Char} (h : unit? cs = some (c, rest))
    (ds : List Char) : unit? (cs ++ ds) = some (c, rest ++ ds) := by
  rw [eq_append_of_unit? h, List.append_assoc]
  exact unit?_escapeChar (ne_space_of_unit? h) (rest ++ ds)

/-- What starts no unit is an underscore or no letter or digit. -/
theorem not_isAlphanum_of_unit? {c : Char} {cs : List Char} (h : unit? (c :: cs) = none)
    (hc : c ≠ '_') : c.isAlphanum = false := by
  rw [unit?, if_neg hc] at h
  simpa using h

/-- Of a word that starts with no unit, only the empty front can be read. -/
theorem eq_nil_of_unescape {cs ds es : List Char} (h : unit? (cs ++ ds) = none)
    (hread : unescape cs = .ok es) : cs = [] := by
  cases hunit : unit? cs with
  | some x => exact nomatch (unit?_append hunit ds).symm.trans h
  | none =>
    rw [unescape_of_eq_none hunit] at hread
    cases cs with
    | nil => rfl
    | cons c cs => cases hread

/-! ## Words -/

/-- Reading stops behind an escaped text, where no unit starts. -/
theorem unescape_eq_error_iff {cs part : List Char} :
    unescape cs = .error part ↔
      (∃ ds, cs = escape ds ++ part) ∧ part ≠ [] ∧ unit? part = none := by
  constructor
  · intro h
    fun_induction unescape cs with
    | case1 cs c rest hunit ih =>
      cases hrest : unescape rest with
      | ok es =>
        rw [hrest] at h
        cases h
      | error part' =>
        rw [hrest] at h
        cases h
        obtain ⟨⟨ds, hds⟩, hpart⟩ := ih hrest
        refine ⟨⟨c :: ds, ?_⟩, hpart⟩
        rw [escape_cons, List.append_assoc, ← hds]
        exact eq_append_of_unit? hunit
    | case2 cs hunit hempty => cases h
    | case3 cs hunit hempty =>
      cases h
      refine ⟨⟨[], ?_⟩, ?_, hunit⟩
      · simp [escape]
      · simpa using hempty
  · rintro ⟨⟨ds, rfl⟩, hne, hunit⟩
    rw [unescape_escape_append, unescape_of_eq_none hunit, if_neg (by simpa using hne)]
    rfl

/-- Behind an escaped text no unit starts exactly if no longer front of the word can be read. -/
theorem unit?_eq_none_iff (ds : List Char) {part : List Char} :
    unit? part = none ↔
      ∀ qs rest, part = qs ++ rest → qs ≠ [] → ∀ es, unescape (escape ds ++ qs) ≠ .ok es := by
  constructor
  · rintro h qs rest rfl hne es hread
    rw [unescape_escape_append] at hread
    cases hqs : unescape qs with
    | ok fs =>
      apply hne
      exact eq_nil_of_unescape h hqs
    | error part =>
      rw [hqs] at hread
      cases hread
  · intro h
    cases hpart : unit? part with
    | none => rfl
    | some x =>
      obtain ⟨c, rest⟩ := x
      have hread := unescape_escape (ds ++ [c])
      rw [escape_append, escape, escape, List.flatMap_singleton] at hread
      have hne := escapeChar_ne_nil (ne_space_of_unit? hpart)
      exact absurd hread (h _ rest (eq_append_of_unit? hpart) hne _)

/-! ## Bytes -/

/-- Of two fronts of a word, the one with more bytes starts with the other one. -/
theorem exists_append_of_byteLength_lt {as bs cs ds : List Char} (h : as ++ bs = cs ++ ds)
    (hlt : byteLength as < byteLength cs) : ∃ es, es ≠ [] ∧ cs = as ++ es ∧ bs = es ++ ds := by
  rcases List.append_eq_append_iff.mp h with ⟨es, rfl, rfl⟩ | ⟨es, rfl, rfl⟩
  · refine ⟨es, ?_, rfl, rfl⟩
    rintro rfl
    simp at hlt
  · rw [byteLength_append] at hlt
    omega

/-- A text that is not empty has a byte. -/
theorem byteLength_pos {cs : List Char} (h : cs ≠ []) : 0 < byteLength cs := by
  have hlength := List.length_pos_iff.mpr h
  have hbytes := length_le_byteLength cs
  omega

/-- A word is refused at the byte behind the front that is read, as a bad escape exactly if the
next character is an underscore. -/
theorem refusal_append_eq_iff {front rest : List Char} {c : Char} {e : DecodeError} :
    refusal (front ++ c :: rest) (c :: rest) = e ↔ e.offset = byteLength front ∧
      (e = .invalidEscape e.offset ↔ c = '_') ∧ (e = .invalidChar e.offset ↔ c ≠ '_') := by
  by_cases hc : c = '_' <;> cases e <;> simp [refusal, DecodeError.offset, hc, eq_comm]

/-- A string is refused behind a front that is read back, where no unit starts. -/
theorem decode_eq_error_iff {t : String} {e : DecodeError} :
    decode t = .error e ↔ ∃ (p : String) (c : Char) (cs : List Char),
      t = p ++ String.ofList (c :: cs) ∧ (∃ s, decode p = .ok s) ∧ unit? (c :: cs) = none ∧
      e.offset = p.utf8ByteSize ∧
      (e = .invalidEscape e.offset ↔ c = '_') ∧ (e = .invalidChar e.offset ↔ c ≠ '_') := by
  have hstops : decode t = .error e ↔
      ∃ part, unescape t.toList = .error part ∧ refusal t.toList part = e := by
    rw [decode]
    cases unescape t.toList <;> simp
  rw [hstops]
  constructor
  · rintro ⟨part, hstop, he⟩
    obtain ⟨⟨ds, ht⟩, hne, hunit⟩ := unescape_eq_error_iff.mp hstop
    obtain ⟨c, cs, rfl⟩ := List.exists_cons_of_ne_nil hne
    rw [ht, refusal_append_eq_iff, ← utf8ByteSize_ofList] at he
    refine ⟨String.ofList (escape ds), c, cs, ?_, ?_, hunit, he⟩
    · rw [← String.toList_inj, ht]
      simp
    · refine ⟨String.ofList (withoutSpaces ds), ?_⟩
      rw [decode_eq_ok_iff, String.toList_ofList, String.toList_ofList, unescape_escape]
  · rintro ⟨p, c, cs, rfl, ⟨s, hs⟩, hunit, he⟩
    obtain ⟨_, hp⟩ := unescape_eq_ok_iff.mp (decode_eq_ok_iff.mp hs)
    have hword : (p ++ String.ofList (c :: cs)).toList = p.toList ++ c :: cs := by simp
    rw [hword]
    refine ⟨c :: cs, unescape_eq_error_iff.mpr ⟨⟨s.toList, ?_⟩, ?_, hunit⟩, ?_⟩
    · rw [hp]
    · simp
    · rw [refusal_append_eq_iff, byteLength_toList]
      exact he

/-- Behind a front that is read back no unit starts exactly if no front with more bytes is. -/
theorem unit?_eq_none_iff_longest {p : String} {part : List Char} (hp : ∃ s, decode p = .ok s) :
    unit? part = none ↔
      ∀ p' q' : String, p ++ String.ofList part = p' ++ q' → p.utf8ByteSize < p'.utf8ByteSize →
        ∀ s, decode p' ≠ .ok s := by
  obtain ⟨s, hs⟩ := hp
  obtain ⟨_, hp⟩ := unescape_eq_ok_iff.mp (decode_eq_ok_iff.mp hs)
  rw [unit?_eq_none_iff s.toList, hp]
  constructor
  · intro h p' q' ht hlt s' hs'
    have hlist : p.toList ++ part = p'.toList ++ q'.toList := by
      simpa using congrArg String.toList ht
    rw [← byteLength_toList, ← byteLength_toList] at hlt
    obtain ⟨qs, hne, hp', hpart⟩ := exists_append_of_byteLength_lt hlist hlt
    rw [decode_eq_ok_iff, hp'] at hs'
    exact h qs _ hpart hne _ hs'
  · rintro h qs rest rfl hne es hread
    apply h (p ++ String.ofList qs) (String.ofList rest) _ _ (String.ofList es)
    · rw [decode_eq_ok_iff]
      simpa using hread
    · rw [String.append_assoc, String.ofList_append]
    · have hbytes := byteLength_pos hne
      rw [String.utf8ByteSize_append, utf8ByteSize_ofList]
      omega

/-- Reading a string back fails exactly at the first unit that cannot be read. The reported offset
is the number of bytes of a front of the string that is not the whole of it; this front is read
back, but no front with more bytes is. What is reported is a bad escape exactly if the next
character is an underscore, and a bad character exactly if it is not, and then it is no letter or
digit either. -/
theorem decode_stops_first (t : String) (e : DecodeError) :
    decode t = .error e ↔ ∃ (p : String) (c : Char) (cs : List Char),
      t = p ++ String.ofList (c :: cs) ∧ e.offset = p.utf8ByteSize ∧
      e.offset < t.utf8ByteSize ∧ (∃ s, decode p = .ok s) ∧
      (∀ p' q' : String, t = p' ++ q' → e.offset < p'.utf8ByteSize → ∀ s, decode p' ≠ .ok s) ∧
      (e = .invalidEscape e.offset ↔ c = '_') ∧ (e = .invalidChar e.offset ↔ c ≠ '_') ∧
      (c ≠ '_' → c.isAlphanum = false) := by
  rw [decode_eq_error_iff]
  constructor
  · rintro ⟨p, c, cs, rfl, hp, hunit, hoffset, hescape, hchar⟩
    have hlongest := (unit?_eq_none_iff_longest hp).mp hunit
    rw [← hoffset] at hlongest
    refine ⟨p, c, cs, rfl, hoffset, ?_, hp, hlongest, hescape, hchar,
      not_isAlphanum_of_unit? hunit⟩
    have hbytes := byteLength_pos (List.cons_ne_nil c cs)
    rw [hoffset, String.utf8ByteSize_append, utf8ByteSize_ofList]
    omega
  · rintro ⟨p, c, cs, rfl, hoffset, _, hp, hlongest, hescape, hchar, _⟩
    rw [hoffset] at hlongest
    exact ⟨p, c, cs, rfl, hp, (unit?_eq_none_iff_longest hp).mpr hlongest, hoffset, hescape, hchar⟩

/-- An escape that is not closed is reported where it starts, whatever it goes on with; `λ` is
reported behind the three bytes of `x__`. -/
example : decode "x_u3bbλ" = .error (.invalidEscape 1) ∧
    decode "x__λ" = .error (.invalidChar 3) := by
  constructor <;> cbv

end AffineCalls.Text
