import AffineCalls.Proofs.Text.Scan

/-!
# Trimming

A text that neither starts nor ends with a blank is not changed by trimming. The
characters of identifiers are no blanks.
-/

namespace AffineCalls.Text

/-- The text ends with a character that is no blank. -/
def EndsVisibly (cs : List Char) : Prop := ∃ ds d, cs = ds ++ [d] ∧ ¬isBlank d

/-- The characters of identifiers are no blanks. -/
theorem not_isBlank_of_isIdentChar {c : Char} (h : isIdentChar c) : ¬isBlank c := by
  intro hblank
  have hcodes : ∀ n ∈ blankCodes, n < 48 ∨ 122 < n := by decide
  have hrange := toNat_of_isIdentChar h
  have hcode := hcodes c.toNat (List.contains_iff_mem.mp hblank)
  omega

/-- A text ends visibly if its last part does. -/
theorem EndsVisibly.append {cs : List Char} (h : EndsVisibly cs) (bs : List Char) :
    EndsVisibly (bs ++ cs) := by
  obtain ⟨ds, d, rfl, hd⟩ := h
  exact ⟨bs ++ ds, d, (List.append_assoc _ _ _).symm, hd⟩

/-- A word ends visibly. -/
theorem endsVisibly_of_word {cs : List Char} (hne : cs ≠ []) (h : ∀ c ∈ cs, isIdentChar c) :
    EndsVisibly cs :=
  ⟨cs.dropLast, cs.getLast hne, (List.dropLast_concat_getLast hne).symm,
    not_isBlank_of_isIdentChar (h _ (List.getLast_mem hne))⟩

/-- A text ends visibly also when some of its spaces are dropped. -/
theorem EndsVisibly.filter {cs : List Char} (h : EndsVisibly cs) {p : Char → Bool}
    (hp : ∀ c, c ≠ ' ' → p c = true) : EndsVisibly (cs.filter p) := by
  obtain ⟨ds, d, rfl, hd⟩ := h
  have hspace : d ≠ ' ' := by
    rintro rfl
    exact hd (by decide)
  rw [List.filter_append, List.filter_cons_of_pos (hp d hspace), List.filter_nil]
  exact ⟨ds.filter p, d, rfl, hd⟩

/-- Nothing is dropped where the class does not start. -/
theorem Stops.dropWhile_eq {p : Char → Bool} {cs : List Char} (h : Stops p cs) :
    cs.dropWhile p = cs :=
  @dropWhile_append_of_stops p [] cs nofun h

/-- A text without blanks at its two ends is not changed by trimming. -/
theorem trim_eq_self {cs : List Char} (hfirst : Stops isBlank cs) (hlast : EndsVisibly cs) :
    trim cs = cs := by
  obtain ⟨ds, d, rfl, hd⟩ := hlast
  have hback : Stops isBlank (d :: ds.reverse) := stops_cons.mpr (Bool.eq_false_iff.mpr hd)
  rw [trim, hfirst.dropWhile_eq, List.reverse_append, List.reverse_singleton,
    List.singleton_append, hback.dropWhile_eq, List.reverse_cons, List.reverse_reverse]

end AffineCalls.Text
