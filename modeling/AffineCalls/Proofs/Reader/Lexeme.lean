import AffineCalls.Proofs.Reader.Combinators
import AffineCalls.Proofs.Text.Scan

/-!
# What the words of the notation take

Each kind of word is taken exactly where it stands and ends: an identifier before a
character of another class, a number before anything but a digit, a tuple position
before anything that does not go on with an identifier.
-/

namespace AffineCalls.Reader

/-- Separators are skipped as far as they go. -/
@[simp] theorem taken_blanks (cs : List Char) :
    blanks.taken cs = some ((), cs.dropWhile Text.isSeparator) := by
  rw [blanks, taken_bind, taken_span, Option.bind_some, taken_pure]

/-- A reader behind a gap starts at the end of the gap. -/
theorem taken_blanks_bind {α : Type} (p : Reader α) (cs : List Char) :
    (do blanks; p).taken cs = p.taken (cs.dropWhile Text.isSeparator) := by
  rw [taken_bind, taken_blanks, Option.bind_some]

/-- A mark behind a gap is taken exactly where it stands. -/
theorem taken_literal_behind_gap {s : String} {c : Char} {cs rest : List Char} {u : Unit}
    (hs : s.toList = [c]) (hc : Text.isSeparator c = false) :
    (literal s).taken (cs.dropWhile Text.isSeparator) = some (u, rest) ↔
      Text.Skip cs (c :: rest) := by
  rw [taken_literal_eq_some, hs, List.singleton_append]
  constructor
  · intro h
    rw [← h]
    exact Text.skip_dropWhile cs
  · intro h
    exact h.dropWhile_eq_of_stops (Text.stops_cons.mpr hc)

/-- A mark is taken with the separators around it. -/
theorem taken_mark_eq_some {s : String} {cs rest : List Char} {u : Unit} :
    (do blanks; literal s; blanks : Reader Unit).taken cs = some (u, rest) ↔
      ∃ ds, cs.dropWhile Text.isSeparator = s.toList ++ ds ∧
        ds.dropWhile Text.isSeparator = rest := by
  rw [taken_blanks_bind, taken_bind_eq_some]
  constructor
  · rintro ⟨_, ds, hmark, h⟩
    rw [taken_blanks, Option.some.injEq, Prod.mk.injEq] at h
    exact ⟨ds, taken_literal_eq_some.mp hmark, h.2⟩
  · rintro ⟨ds, hmark, rfl⟩
    exact ⟨(), ds, taken_literal_eq_some.mpr hmark, taken_blanks ds⟩

/-- A comma is taken with the separators around it. -/
theorem taken_comma_eq_some {cs rest : List Char} {u : Unit} :
    comma.taken cs = some (u, rest) ↔
      ∃ ds, cs.dropWhile Text.isSeparator = ',' :: ds ∧ ds.dropWhile Text.isSeparator = rest :=
  taken_mark_eq_some

/-- A reader with a condition on the next character reads under this condition only. -/
theorem taken_startingWith_eq_some {α : Type} {p : Char → Bool} {e : Expectation} {q : Reader α}
    {cs rest : List Char} {a : α} :
    (startingWith p e q).taken cs = some (a, rest) ↔
      cs.head?.any p ∧ q.taken cs = some (a, rest) := by
  rw [taken_startingWith, Option.ite_none_right_eq_some]

/-- A check that a text stops takes nothing. -/
theorem taken_notBefore_eq_some {p : Char → Bool} {cs rest : List Char} {u : Unit} :
    (notBefore p).taken cs = some (u, rest) ↔ Text.Stops p cs ∧ cs = rest := by
  rw [taken_notBefore, Option.ite_none_left_eq_some, Option.some.injEq, Prod.mk.injEq,
    Text.Stops, Bool.eq_false_iff]
  exact and_congr_right fun _ => and_iff_right rfl

/-- What stops behind the longest run. -/
theorem stops_dropWhile (p : Char → Bool) (cs : List Char) : Text.Stops p (cs.dropWhile p) := by
  induction cs with
  | nil => rfl
  | cons c cs ih =>
    by_cases hc : p c
    · rw [List.dropWhile_cons_of_pos hc]
      exact ih
    · rw [List.dropWhile_cons_of_neg hc]
      exact Text.stops_cons.mpr (Bool.eq_false_iff.mpr hc)

/-- A text is its longest run and what stops behind it in one way only. -/
theorem span_eq_iff {p : Char → Bool} {cs ds rest : List Char} :
    cs.takeWhile p = ds ∧ cs.dropWhile p = rest ↔
      cs = ds ++ rest ∧ (∀ d ∈ ds, p d) ∧ Text.Stops p rest := by
  constructor
  · rintro ⟨rfl, rfl⟩
    exact ⟨List.takeWhile_append_dropWhile.symm, List.all_eq_true.mp List.all_takeWhile,
      stops_dropWhile p cs⟩
  · rintro ⟨rfl, hds, hrest⟩
    exact ⟨Text.takeWhile_append_of_stops hds hrest, Text.dropWhile_append_of_stops hds hrest⟩

/-- A run is taken as a whole. -/
theorem taken_span_eq_some {p : Char → Bool} {cs ds rest : List Char} :
    (span p).taken cs = some (ds, rest) ↔
      cs = ds ++ rest ∧ (∀ d ∈ ds, p d) ∧ Text.Stops p rest := by
  rw [taken_span, Option.some.injEq, Prod.mk.injEq, span_eq_iff]

/-- A run of digits is taken as a whole if it is not empty. -/
theorem taken_digitRun_eq_some {cs ds rest : List Char} :
    digitRun.taken cs = some (ds, rest) ↔
      cs = ds ++ rest ∧ ds ≠ [] ∧ (∀ d ∈ ds, d.isDigit) ∧ Text.Stops Char.isDigit rest := by
  have hrun : digitRun.taken cs = if (cs.takeWhile Char.isDigit).isEmpty then none
      else (span Char.isDigit).taken cs := by
    change (if (cs.takeWhile Char.isDigit).isEmpty then none
      else some (_, (Cursor.before cs).drop (cs.takeWhile Char.isDigit).length)).map _ = _
    by_cases hempty : (cs.takeWhile Char.isDigit).isEmpty
    · rw [if_pos hempty, if_pos hempty, Option.map_none]
    · rw [if_neg hempty, if_neg hempty]
      rfl
  rw [hrun, Option.ite_none_left_eq_some, taken_span_eq_some]
  constructor
  · rintro ⟨hne, hds⟩
    rw [(span_eq_iff.mpr hds).1, List.isEmpty_iff] at hne
    exact ⟨hds.1, hne, hds.2⟩
  · rintro ⟨hcs, hne, hds⟩
    rw [(span_eq_iff.mpr ⟨hcs, hds⟩).1, List.isEmpty_iff]
    exact ⟨hne, hcs, hds⟩

/-- An identifier is taken as a whole. -/
theorem taken_identifier_eq_some {cs rest : List Char} {s : String} :
    identifier.taken cs = some (s, rest) ↔
      cs = s.toList ++ rest ∧ Text.IsIdentifier s.toList ∧ Text.Stops Text.isIdentChar rest := by
  rw [identifier, taken_startingWith_eq_some, taken_bind_eq_some]
  constructor
  · rintro ⟨hstart, ds, mid, hword, h⟩
    rw [taken_pure, Option.some.injEq, Prod.mk.injEq] at h
    obtain ⟨rfl, rfl⟩ := h
    obtain ⟨rfl, hchars, hstop⟩ := taken_span_eq_some.mp hword
    have hstop' := hstop.mono fun _ => Text.isIdentChar_of_isIdentStart
    rw [String.toList_ofList]
    exact ⟨rfl, ⟨hstop'.any_head? hstart, hchars⟩, hstop⟩
  · rintro ⟨rfl, hident, hstop⟩
    have hstart : (s.toList ++ rest).head?.any Text.isIdentStart = true := by
      obtain ⟨c, ds, hs, hc, _⟩ := hident.exists_cons
      rw [hs]
      exact hc
    have hword := taken_span_eq_some.mpr ⟨rfl, hident.chars, hstop⟩
    refine ⟨hstart, s.toList, rest, hword, ?_⟩
    rw [taken_pure, String.ofList_toList]

/-- A number is taken as a whole if it is in the range of coefficients. -/
theorem taken_number_eq_some {cs rest : List Char} {c : Coeff} :
    number.taken cs = some (c, rest) ↔
      ∃ ds n, cs = ds ++ rest ∧ Text.SpellsNumber ds n ∧ Text.Stops Char.isDigit rest ∧
        Coeff.checked n = .ok c := by
  rw [number, taken_startingWith_eq_some, taken_bind_eq_some]
  constructor
  · rintro ⟨hstart, ds, mid, hword, h⟩
    obtain ⟨hc, rfl⟩ := taken_ofOption_eq_some.mp h
    obtain ⟨rfl, hdigits, hstop⟩ := taken_span_eq_some.mp hword
    have hne : ds ≠ [] := by
      rintro rfl
      exact Bool.false_ne_true (hstop.any_head? hstart)
    rw [Coeff.ofInt?_eq_some_iff, ← Coeff.checked_eq_ok_iff] at hc
    exact ⟨ds, Text.value ds, rfl, ⟨hne, hdigits, rfl⟩, hstop, hc⟩
  · rintro ⟨ds, n, rfl, hds, hstop, hc⟩
    have hstart : (ds ++ rest).head?.any Char.isDigit = true := by
      obtain ⟨d, es, rfl, hd⟩ := hds.exists_cons
      exact hd
    have hword := taken_span_eq_some.mpr ⟨rfl, hds.digits, hstop⟩
    rw [Coeff.checked_eq_ok_iff, ← Coeff.ofInt?_eq_some_iff, ← hds.value_eq] at hc
    exact ⟨hstart, ds, rest, hword, taken_ofOption_eq_some.mpr ⟨hc, rfl⟩⟩

/-- A tuple position is taken where no identifier goes on from it. -/
theorem taken_position_eq_some {cs rest : List Char} {i : Nat} :
    position.taken cs = some (i, rest) ↔
      ∃ word, cs = word ++ rest ∧ Text.SpellsPosition word i ∧
        Text.Stops Text.isIdentChar rest := by
  rw [position, taken_bind_eq_some]
  constructor
  · rintro ⟨_, cs₁, hmark, h⟩
    obtain ⟨ds, cs₂, hrun, h⟩ := taken_bind_eq_some.mp h
    obtain ⟨_, cs₃, hend, h⟩ := taken_bind_eq_some.mp h
    obtain ⟨hcs₁, hne, hdigits, _⟩ := taken_digitRun_eq_some.mp hrun
    obtain ⟨hstop, rfl⟩ := taken_notBefore_eq_some.mp hend
    obtain ⟨hindex, rfl⟩ := taken_ofOption_eq_some.mp h
    obtain ⟨hbound, hvalue⟩ := Option.ite_none_right_eq_some.mp hindex
    obtain rfl := Option.some.inj hvalue
    refine ⟨"__tv".toList ++ ds, ?_, ⟨ds, rfl, hne, hdigits, rfl, hbound⟩, hstop⟩
    rw [List.append_assoc, ← hcs₁]
    exact taken_literal_eq_some.mp hmark
  · rintro ⟨word, rfl, ⟨ds, rfl, hne, hdigits, rfl, hbound⟩, hstop⟩
    have hmark : (literal "__tv").taken ("__tv".toList ++ ds ++ rest) = some ((), ds ++ rest) :=
      taken_literal_eq_some.mpr (List.append_assoc _ _ _)
    have hstop' := hstop.mono fun _ => Text.isIdentChar_of_isDigit
    have hrun := taken_digitRun_eq_some.mpr ⟨rfl, hne, hdigits, hstop'⟩
    have hend : (notBefore Text.isIdentChar).taken rest = some ((), rest) :=
      taken_notBefore_eq_some.mpr ⟨hstop, rfl⟩
    refine ⟨(), ds ++ rest, hmark, taken_bind_eq_some.mpr ⟨ds, rest, hrun, ?_⟩⟩
    refine taken_bind_eq_some.mpr ⟨(), rest, hend, ?_⟩
    exact taken_ofOption_eq_some.mpr ⟨if_pos hbound, rfl⟩

end AffineCalls.Reader
