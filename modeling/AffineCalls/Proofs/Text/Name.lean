import AffineCalls.Reader.Lexeme

/-!
# Names

A name is an identifier that is not spelled like a tuple position. The letters
`__tv` and digits spell a position only while the index is a 64-bit number, so a
longer run of digits makes a name again.
-/

namespace AffineCalls.Text

/-- The text is `__tv` and a run of digits that spells the given 64-bit index. -/
def SpellsPosition (cs : List Char) (i : Nat) : Prop :=
  ∃ ds : List Char, cs = "__tv".toList ++ ds ∧ ds ≠ [] ∧ (∀ d ∈ ds, d.isDigit) ∧
    value ds = i ∧ i < Reader.positionBound

/-- The text starts like an identifier and consists of characters of identifiers. -/
structure IsIdentifier (cs : List Char) : Prop where
  /-- The first character is a letter or an underscore. -/
  start : cs.head?.any isIdentStart = true
  /-- Every character is a letter, a digit or an underscore. -/
  chars : ∀ c ∈ cs, isIdentChar c

/-- The text is an identifier and spells no tuple position. -/
structure IsName (s : String) : Prop where
  /-- The text is an identifier. -/
  identifier : IsIdentifier s.toList
  /-- The text spells no tuple position. -/
  notPosition : ∀ i, ¬SpellsPosition s.toList i

/-- An identifier has a first character, which may start an identifier. -/
theorem IsIdentifier.exists_cons {cs : List Char} (h : IsIdentifier cs) :
    ∃ c ds, cs = c :: ds ∧ isIdentStart c ∧ ∀ d ∈ ds, isIdentChar d := by
  cases cs with
  | nil => exact nomatch h.start
  | cons c ds => exact ⟨c, ds, rfl, by simpa using h.start, (List.forall_mem_cons.mp h.chars).2⟩

/-- No identifier starts with a character that may not start one. -/
theorem IsIdentifier.ne_cons {name cs cs₁ : List Char} {c : Char} (h : IsIdentifier name)
    (hc : isIdentStart c = false) : name ++ cs ≠ c :: cs₁ := by
  intro heq
  obtain ⟨d, ds, rfl, hd, _⟩ := h.exists_cons
  obtain rfl : d = c := (List.cons.inj heq).1
  exact Bool.eq_false_iff.mp hc hd

/-- A text spells a position if the digits behind the mark spell a 64-bit number. -/
theorem exists_spellsPosition_iff {cs : List Char} :
    (∃ i, SpellsPosition cs i) ↔ "__tv".toList <+: cs ∧ cs.drop 4 ≠ [] ∧
      (cs.drop 4).all Char.isDigit ∧ value (cs.drop 4) < Reader.positionBound := by
  constructor
  · rintro ⟨i, ds, rfl, hne, hdigits, rfl, hbound⟩
    exact ⟨List.prefix_append _ _, hne, List.all_eq_true.mpr hdigits, hbound⟩
  · rintro ⟨⟨ds, rfl⟩, hne, hdigits, hbound⟩
    exact ⟨value ds, ds, rfl, hne, List.all_eq_true.mp hdigits, rfl, hbound⟩

instance (cs : List Char) : Decidable (IsIdentifier cs) :=
  decidable_of_iff (cs.head?.any isIdentStart ∧ cs.all isIdentChar)
    ⟨fun h => ⟨h.1, List.all_eq_true.mp h.2⟩, fun h => ⟨h.start, List.all_eq_true.mpr h.chars⟩⟩

instance (s : String) : Decidable (IsName s) :=
  decidable_of_iff (IsIdentifier s.toList ∧ ¬("__tv".toList <+: s.toList ∧ s.toList.drop 4 ≠ [] ∧
      (s.toList.drop 4).all Char.isDigit ∧ value (s.toList.drop 4) < Reader.positionBound))
    ⟨fun h => ⟨h.1, not_exists.mp ((not_congr exists_spellsPosition_iff).mpr h.2)⟩,
      fun h => ⟨h.identifier,
        (not_congr exists_spellsPosition_iff).mp (not_exists.mpr h.notPosition)⟩⟩

/-- The characters of identifiers are not separators. -/
theorem not_isSeparator_of_isIdentChar {c : Char} (h : isIdentChar c) : ¬isSeparator c := by
  intro hsep
  unfold isSeparator at hsep
  simp only [Bool.or_eq_true, beq_iff_eq] at hsep
  rcases hsep with ((rfl | rfl) | rfl) | rfl <;> exact absurd h (by decide)

/-- The code points of the characters that may start an identifier lie between those of
`A` and `z`. -/
theorem toNat_of_isIdentStart {c : Char} (h : isIdentStart c) : 65 ≤ c.toNat ∧ c.toNat ≤ 122 := by
  rcases Bool.or_eq_true_iff.mp h with hletter | hmark
  · rcases Bool.or_eq_true_iff.mp hletter with hupper | hlower
    · have hbounds : 'A'.val ≤ c.val ∧ c.val ≤ 'Z'.val := of_decide_eq_true hupper
      have hleast : 65 ≤ c.toNat := UInt32.le_iff_toNat_le.mp hbounds.1
      have hmost : c.toNat ≤ 90 := UInt32.le_iff_toNat_le.mp hbounds.2
      omega
    · obtain ⟨hleast, hmost⟩ := Bool.and_eq_true_iff.mp hlower
      have hleast' : 97 ≤ c.toNat := UInt32.le_iff_toNat_le.mp (of_decide_eq_true hleast)
      have hmost' : c.toNat ≤ 122 := UInt32.le_iff_toNat_le.mp (of_decide_eq_true hmost)
      omega
  · rw [beq_iff_eq.mp hmark]
    decide

/-- The code points of digits lie between those of `0` and `9`. -/
theorem toNat_of_isDigit {c : Char} (h : c.isDigit) : 48 ≤ c.toNat ∧ c.toNat ≤ 57 :=
  Char.isDigit_iff_toNat.mp h

/-- No character may both start an identifier and be a digit. -/
theorem not_isDigit_of_isIdentStart {c : Char} (h : isIdentStart c) : ¬c.isDigit := by
  intro hdigit
  have hstart := toNat_of_isIdentStart h
  have hcode := toNat_of_isDigit hdigit
  omega

/-- The code points of the characters of identifiers lie between those of `0` and `z`. -/
theorem toNat_of_isIdentChar {c : Char} (h : isIdentChar c) : 48 ≤ c.toNat ∧ c.toNat ≤ 122 := by
  rcases Bool.or_eq_true_iff.mp h with hstart | hdigit
  · have hcode := toNat_of_isIdentStart hstart
    omega
  · have hcode := toNat_of_isDigit hdigit
    omega

end AffineCalls.Text
