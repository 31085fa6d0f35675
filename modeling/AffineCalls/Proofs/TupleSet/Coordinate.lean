import AffineCalls.Proofs.Notation.Rules
import AffineCalls.Proofs.TupleSet.Form

/-!
# Reading coordinates

A coordinate is read as its form says. Its first character tells a name, a number and a
negated number apart, and its end is where no character of an identifier follows, so a
text starts with one coordinate at most.
-/

namespace AffineCalls

open Reader (taken_bind_eq_some taken_bind_of_eq_none taken_orElse_eq_some
  taken_inRange_eq_some taken_eq_none_iff taken_blanks_bind taken_literal_eq_some
  taken_identifier_eq_some taken_number_eq_some)

/-- What is read as a coordinate is spelled by a form. -/
theorem CoordinateForm.derives_of_taken {cs rest : List Char} {x : Coordinate}
    (h : Coordinate.reader.taken cs = some (x, rest)) :
    ∃ a : CoordinateForm, a.Spelled cs rest ∧ a.eval = .ok x := by
  unfold Coordinate.reader at h
  rcases taken_orElse_eq_some.mp h with h | ⟨_, h⟩
  · obtain ⟨c, cs₁, hc, h⟩ := taken_bind_eq_some.mp h
    cases h
    obtain ⟨ds, n, hcs, hds, _, hn⟩ := taken_number_eq_some.mp hc
    exact ⟨.number n, .number hcs hds, CoordinateForm.eval_number_eq_ok.mpr ⟨c, hn, rfl⟩⟩
  rcases taken_orElse_eq_some.mp h with h | ⟨_, h⟩
  · obtain ⟨_, cs₁, hminus, h⟩ := taken_bind_eq_some.mp h
    rw [taken_blanks_bind] at h
    obtain ⟨c, cs₂, hc, h⟩ := taken_bind_eq_some.mp h
    obtain ⟨c', cs₃, hc', h⟩ := taken_bind_eq_some.mp h
    cases h
    obtain ⟨hchecked, rfl⟩ := taken_inRange_eq_some.mp hc'
    obtain ⟨ds, n, hcs, hds, _, hn⟩ := taken_number_eq_some.mp hc
    exact ⟨.negated n,
      .negated (taken_literal_eq_some.mp hminus) (hcs ▸ Text.skip_dropWhile cs₁) hds,
      CoordinateForm.eval_negated_eq_ok.mpr ⟨c, hn, c', hchecked, rfl⟩⟩
  · obtain ⟨name, cs₁, hname, h⟩ := taken_bind_eq_some.mp h
    cases h
    obtain ⟨hcs, hident, _⟩ := taken_identifier_eq_some.mp hname
    exact ⟨.name name, .name hcs hident, rfl⟩

/-- A coordinate starts with a character of identifiers or a minus sign. -/
theorem CoordinateForm.Spelled.exists_cons {a : CoordinateForm} {cs rest : List Char}
    (h : a.Spelled cs rest) : ∃ c ds, cs = c :: ds ∧ (Text.isIdentChar c ∨ c = '-') := by
  cases h with
  | name hcs hname =>
    obtain ⟨c, ds, hname, hc, _⟩ := hname.exists_cons
    exact ⟨c, _, by rw [hcs, hname]; rfl, .inl (Text.isIdentChar_of_isIdentStart hc)⟩
  | number hcs hds =>
    obtain ⟨d, es, rfl, hd⟩ := hds.exists_cons
    exact ⟨d, _, hcs, .inl (Text.isIdentChar_of_isDigit hd)⟩
  | negated hcs _ _ => exact ⟨'-', _, hcs, .inr rfl⟩

/-- No number starts with a separator. -/
theorem Text.SpellsNumber.stops {ds cs : List Char} {n : Nat} (hds : SpellsNumber ds n) :
    Stops isSeparator (ds ++ cs) := by
  obtain ⟨d, es, rfl, hd⟩ := hds.exists_cons
  exact stops_cons.mpr
    (Bool.eq_false_iff.mpr (not_isSeparator_of_isIdentChar (isIdentChar_of_isDigit hd)))

/-- No number starts as an identifier does. -/
theorem Text.IsIdentifier.ne_number {name ds cs cs₁ : List Char} {n : Nat}
    (hname : IsIdentifier name) (hds : SpellsNumber ds n) : name ++ cs ≠ ds ++ cs₁ := by
  intro h
  obtain ⟨c, _, rfl, hc, _⟩ := hname.exists_cons
  obtain ⟨d, _, rfl, hd⟩ := hds.exists_cons
  obtain rfl : c = d := (List.cons.inj h).1
  exact Text.not_isDigit_of_isIdentStart hc hd

/-- A coordinate is read as what its form stands for. -/
theorem CoordinateForm.Spelled.taken {a : CoordinateForm} {x : Coordinate} {cs rest : List Char}
    (h : a.Spelled cs rest) (hx : a.eval = .ok x) (hrest : Text.AtomEnd rest) :
    Coordinate.reader.taken cs = some (x, rest) := by
  unfold Coordinate.reader
  cases h with
  | @number n ds _ _ hcs hds =>
    obtain ⟨c, hc, rfl⟩ := CoordinateForm.eval_number_eq_ok.mp hx
    have hnumber := taken_number_eq_some.mpr ⟨ds, n, hcs, hds, hrest.stops_isDigit, hc⟩
    exact taken_orElse_eq_some.mpr (.inl (taken_bind_eq_some.mpr ⟨c, rest, hnumber, rfl⟩))
  | @negated n ds _ cs₁ _ hcs hgap hds =>
    obtain ⟨c, hc, c', hc', rfl⟩ := CoordinateForm.eval_negated_eq_ok.mp hx
    have hnone : Reader.number.taken cs = none := by
      refine Text.taken_number_eq_none fun d ds hd => ?_
      obtain rfl : '-' = d := (List.cons.inj (hcs.symm.trans hd)).1
      decide
    have hcs₁ := hgap.dropWhile_eq_of_stops hds.stops
    have hnumber := taken_number_eq_some.mpr ⟨ds, n, hcs₁, hds, hrest.stops_isDigit, hc⟩
    have hminus : (Reader.literal "-").taken cs = some ((), cs₁) := taken_literal_eq_some.mpr hcs
    refine taken_orElse_eq_some.mpr (.inr ⟨taken_bind_of_eq_none hnone, ?_⟩)
    refine taken_orElse_eq_some.mpr (.inl (taken_bind_eq_some.mpr ⟨(), cs₁, hminus, ?_⟩))
    rw [taken_blanks_bind]
    refine taken_bind_eq_some.mpr ⟨c, rest, hnumber, ?_⟩
    exact taken_bind_eq_some.mpr ⟨c', rest, taken_inRange_eq_some.mpr ⟨hc', rfl⟩, rfl⟩
  | @name n _ _ hcs hname =>
    cases hx
    have hnumber : Reader.number.taken cs = none := by
      refine taken_eq_none_iff.mpr fun c rest' hc => ?_
      obtain ⟨ds, m, hds, hm, _⟩ := taken_number_eq_some.mp hc
      exact hname.ne_number hm (hcs.symm.trans hds)
    have hminus : (Reader.literal "-").taken cs = none :=
      Text.taken_literal_eq_none rfl fun ds hds => hname.ne_cons rfl (hcs.symm.trans hds)
    have hident := taken_identifier_eq_some.mpr ⟨hcs, hname, hrest.stops_isIdentChar⟩
    refine taken_orElse_eq_some.mpr (.inr ⟨taken_bind_of_eq_none hnumber, ?_⟩)
    refine taken_orElse_eq_some.mpr (.inr ⟨taken_bind_of_eq_none hminus, ?_⟩)
    exact taken_bind_eq_some.mpr ⟨n, rest, hident, rfl⟩

/-- A text starts with one coordinate at most. -/
theorem CoordinateForm.Spelled.unique {a b : CoordinateForm} {cs rest rest' : List Char}
    (ha : a.Spelled cs rest) (hb : b.Spelled cs rest') (hrest : Text.AtomEnd rest)
    (hrest' : Text.AtomEnd rest') : a = b ∧ rest = rest' := by
  cases ha with
  | name hcs hname =>
    cases hb with
    | name hcs' hname' =>
      obtain ⟨hnames, rfl⟩ := Text.word_unique hname.chars hname'.chars hrest.stops_isIdentChar
        hrest'.stops_isIdentChar (hcs.symm.trans hcs')
      exact ⟨congrArg _ (String.toList_inj.mp hnames), rfl⟩
    | number hcs' hds' => exact absurd (hcs.symm.trans hcs') (hname.ne_number hds')
    | negated hcs' _ _ => exact absurd (hcs.symm.trans hcs') (hname.ne_cons rfl)
  | number hcs hds =>
    cases hb with
    | name hcs' hname' => exact absurd (hcs'.symm.trans hcs) (hname'.ne_number hds)
    | number hcs' hds' =>
      obtain ⟨rfl, rfl⟩ := hds.unique hds' hrest.stops_isDigit hrest'.stops_isDigit
        (hcs.symm.trans hcs')
      exact ⟨rfl, rfl⟩
    | negated hcs' _ _ => exact absurd (hcs.symm.trans hcs') (hds.ne_cons rfl)
  | negated hcs hgap hds =>
    cases hb with
    | name hcs' hname' => exact absurd (hcs'.symm.trans hcs) (hname'.ne_cons rfl)
    | number hcs' hds' => exact absurd (hcs'.symm.trans hcs) (hds'.ne_cons rfl)
    | negated hcs' hgap' hds' =>
      obtain rfl := (List.cons.inj (hcs.symm.trans hcs')).2
      obtain ⟨rfl, rfl⟩ := hds.unique hds' hrest.stops_isDigit hrest'.stops_isDigit
        (hgap.unique hgap' hds.stops hds'.stops)
      exact ⟨rfl, rfl⟩

/-- A coordinate takes some text. -/
theorem CoordinateForm.Spelled.length_lt {a : CoordinateForm} {cs rest : List Char}
    (h : a.Spelled cs rest) : rest.length < cs.length := by
  cases h with
  | name hcs hname =>
    obtain ⟨c, ds, hname, _⟩ := hname.exists_cons
    rw [hcs, hname, List.length_append, List.length_cons]
    omega
  | number hcs hds =>
    obtain ⟨d, es, rfl, _⟩ := hds.exists_cons
    rw [hcs, List.length_append, List.length_cons]
    omega
  | negated hcs hgap hds =>
    have hle := hgap.length_le
    rw [List.length_append] at hle
    rw [hcs, List.length_cons]
    omega

/-- Coordinates are read in front of what ends an atom. -/
theorem CoordinateForm.reads :
    Coordinate.reader.Reads CoordinateForm.Spelled CoordinateForm.eval Text.AtomEnd where
  sound := CoordinateForm.derives_of_taken
  complete := CoordinateForm.Spelled.taken
  unique := CoordinateForm.Spelled.unique
  length_lt := CoordinateForm.Spelled.length_lt

/-- Commas and the closing bracket end coordinates. -/
theorem CoordinateForm.marks : Text.Marks CoordinateForm.Spelled Text.AtomEnd ',' ']' where
  mark_visible := by decide
  close_visible := by decide
  mark_ne_close := by decide
  start := by
    intro a cs rest ha
    obtain ⟨c, ds, rfl, hc⟩ := ha.exists_cons
    refine ⟨c, ds, rfl, ?_⟩
    rcases hc with hc | rfl
    · refine ⟨Bool.eq_false_iff.mpr (Text.not_isSeparator_of_isIdentChar hc), ?_⟩
      rintro rfl
      exact absurd hc (by decide)
    · decide
  ends := by
    intro c cs ds hc h d hd
    rw [h.next?_eq] at hd
    rcases hc with rfl | rfl <;> cases hd <;> decide

end AffineCalls
