import AffineCalls.Proofs.Notation.Soundness
import AffineCalls.Proofs.Notation.Unambiguous

/-!
# What each alternative reads

The alternatives of the grammar, one at a time. Each says what is read where a form
of its kind is spelled, given what the parts are read as; the alternatives before it
fail there. The text that follows may not go on with the form.
-/

namespace AffineCalls

open Reader (taken_bind_eq_some taken_bind_of_eq_none taken_eq_none_iff taken_orElse_eq_some
  taken_inRange_eq_some taken_blanks_bind taken_literal_eq_some taken_literal_behind_gap
  taken_identifier_eq_some taken_position_eq_some taken_number_eq_some taken_comma_eq_some)

/-- No tuple position stands where a name does. -/
theorem Text.IsName.taken_position {name : String} (h : IsName name) {rest : List Char}
    (hrest : Stops isIdentChar rest) : Reader.position.taken (name.toList ++ rest) = none := by
  rw [taken_eq_none_iff]
  intro i rest' hi
  obtain ⟨word, hcs, hword, hrest'⟩ := taken_position_eq_some.mp hi
  obtain ⟨hsame, _⟩ := word_unique h.identifier.chars hword.isIdentChar hrest hrest' hcs
  exact h.notPosition i (hsame ▸ hword)

/-- No number stands where the first character is no digit. -/
theorem Text.taken_number_eq_none {cs : List Char} (h : ∀ d ds, cs = d :: ds → ¬d.isDigit) :
    Reader.number.taken cs = none := by
  rw [taken_eq_none_iff]
  intro c rest hc
  obtain ⟨ds, n, hcs, hds, _, _⟩ := taken_number_eq_some.mp hc
  obtain ⟨d, es, rfl, hd⟩ := hds.exists_cons
  exact h d (es ++ rest) hcs hd

/-- A mark is not read where it does not stand. -/
theorem Text.taken_literal_eq_none {s : String} {c : Char} {cs : List Char} (hs : s.toList = [c])
    (h : ∀ ds, cs ≠ c :: ds) : (Reader.literal s).taken cs = none := by
  rw [taken_eq_none_iff]
  intro u rest htaken
  have hcs := taken_literal_eq_some.mp htaken
  rw [hs] at hcs
  exact h rest hcs

/-- A mark is not read behind a gap where it does not stand there. -/
theorem Text.taken_literal_behind_gap_eq_none {s : String} {c : Char} {cs : List Char}
    (hs : s.toList = [c]) (hc : isSeparator c = false) (h : ∀ ds, ¬Skip cs (c :: ds)) :
    (Reader.literal s).taken (cs.dropWhile isSeparator) = none := by
  rw [taken_eq_none_iff]
  intro u rest htaken
  exact h rest ((taken_literal_behind_gap hs hc).mp htaken)

namespace Expr

variable {expr : Reader Expr} {cs mid rest : List Char}

/-! ## Factors -/

/-- A tuple position is read by the first alternative. -/
theorem taken_factorRule_position {word : List Char} {i : Nat} (hcs : cs = word ++ rest)
    (hword : Text.SpellsPosition word i) (hrest : Text.Stops Text.isIdentChar rest) :
    (factorRule expr).taken cs = some (.position i, rest) := by
  unfold factorRule
  refine taken_orElse_eq_some.mpr (.inl ?_)
  have hi := taken_position_eq_some.mpr ⟨word, hcs, hword, hrest⟩
  exact taken_bind_eq_some.mpr ⟨i, rest, hi, rfl⟩

/-- A call is read by the second alternative if its arguments are read. -/
theorem taken_factorRule_call {name : String} {args : List Expr} {tail : List Char}
    (hcs : cs = name.toList ++ '(' :: mid) (hname : Text.IsName name)
    (hargs : (Reader.sepBy expr Reader.comma).taken (mid.dropWhile Text.isSeparator) =
      some (args, tail))
    (hclose : Text.Skip tail (')' :: rest)) :
    (factorRule expr).taken cs = some (.call ⟨name, args⟩, rest) := by
  have hparen : Text.Stops Text.isIdentChar ('(' :: mid) := Text.stops_cons.mpr (by decide)
  have hident := taken_identifier_eq_some.mpr ⟨hcs, hname.identifier, hparen⟩
  have hopen : (Reader.literal "(").taken ('(' :: mid) = some ((), mid) :=
    taken_literal_eq_some.mpr rfl
  have hend : (Reader.literal ")").taken (tail.dropWhile Text.isSeparator) = some ((), rest) :=
    (taken_literal_behind_gap rfl rfl).mpr hclose
  unfold factorRule
  refine taken_orElse_eq_some.mpr (.inr ⟨?_, taken_orElse_eq_some.mpr (.inl ?_)⟩)
  · rw [hcs]
    exact taken_bind_of_eq_none (hname.taken_position hparen)
  · refine taken_bind_eq_some.mpr ⟨name, _, hident, ?_⟩
    refine taken_bind_eq_some.mpr ⟨(), mid, hopen, ?_⟩
    rw [taken_blanks_bind]
    refine taken_bind_eq_some.mpr ⟨args, tail, hargs, ?_⟩
    rw [taken_blanks_bind]
    exact taken_bind_eq_some.mpr ⟨(), rest, hend, rfl⟩

/-- A symbol is read by the last alternative. -/
theorem taken_factorRule_symbol {name : String} (hcs : cs = name.toList ++ rest)
    (hname : Text.IsName name) (hrest : Text.AtomEnd rest) :
    (factorRule expr).taken cs = some (.symbol name, rest) := by
  have hident := taken_identifier_eq_some.mpr ⟨hcs, hname.identifier, hrest.stops_isIdentChar⟩
  unfold factorRule
  refine taken_orElse_eq_some.mpr (.inr ⟨?_, taken_orElse_eq_some.mpr (.inr ⟨?_, ?_⟩)⟩)
  · rw [hcs]
    exact taken_bind_of_eq_none (hname.taken_position hrest.stops_isIdentChar)
  · -- The name is read, but it is not followed by a parenthesis.
    rw [Reader.taken_bind, hident, Option.bind_some]
    exact taken_bind_of_eq_none (Text.taken_literal_eq_none rfl hrest.ne_paren)
  · exact taken_bind_eq_some.mpr ⟨name, rest, hident, rfl⟩

/-- No factor starts with a parenthesis. -/
theorem taken_factorRule_paren : (factorRule expr).taken ('(' :: cs) = none := by
  have hposition : Reader.position.taken ('(' :: cs) = none := by
    rw [taken_eq_none_iff]
    intro i rest hi
    obtain ⟨_, hcs, ⟨ds, rfl, _⟩, _⟩ := taken_position_eq_some.mp hi
    exact absurd (List.cons.inj hcs).1 (by decide)
  have hident : Reader.identifier.taken ('(' :: cs) = none := by
    rw [taken_eq_none_iff]
    intro name rest hname
    obtain ⟨hcs, hname, _⟩ := taken_identifier_eq_some.mp hname
    obtain ⟨c, ds, hname, hc, _⟩ := hname.exists_cons
    rw [hname] at hcs
    obtain rfl : '(' = c := (List.cons.inj hcs).1
    exact absurd hc (by decide)
  unfold factorRule
  rw [Reader.taken_orElse, Reader.taken_orElse, taken_bind_of_eq_none hposition,
    taken_bind_of_eq_none hident, taken_bind_of_eq_none hident]
  rfl

/-! ## Atoms -/

/-- A multiple of a factor is read by the first alternative. -/
theorem taken_atomRule_multiple {ds ds' : List Char} {n : Nat} {c : Coeff} {f : Factor}
    (hcs : cs = ds ++ mid) (hds : Text.SpellsNumber ds n) (hc : Coeff.checked n = .ok c)
    (hbefore : Text.Skip mid ('*' :: ds'))
    (hf : (factorRule expr).taken (ds'.dropWhile Text.isSeparator) = some (f, rest)) :
    (atomRule expr).taken cs = some (.ofTerm ⟨c, f⟩, rest) := by
  have hnumber := taken_number_eq_some.mpr
    ⟨ds, n, hcs, hds, Text.stops_isDigit_of_skip hbefore, hc⟩
  have hstar : (Reader.literal "*").taken (mid.dropWhile Text.isSeparator) = some ((), ds') :=
    (taken_literal_behind_gap rfl rfl).mpr hbefore
  unfold atomRule
  refine taken_orElse_eq_some.mpr (.inl ?_)
  refine taken_bind_eq_some.mpr ⟨c, mid, hnumber, ?_⟩
  rw [taken_blanks_bind]
  refine taken_bind_eq_some.mpr ⟨(), ds', hstar, ?_⟩
  rw [taken_blanks_bind]
  exact taken_bind_eq_some.mpr ⟨f, rest, hf, rfl⟩

/-- A number is read by the second alternative where no asterisk follows. -/
theorem taken_atomRule_number {ds : List Char} {n : Nat} {c : Coeff} (hcs : cs = ds ++ rest)
    (hds : Text.SpellsNumber ds n) (hc : Coeff.checked n = .ok c) (hrest : Text.AtomEnd rest) :
    (atomRule expr).taken cs = some (.ofCoeff c, rest) := by
  have hnumber := taken_number_eq_some.mpr ⟨ds, n, hcs, hds, hrest.stops_isDigit, hc⟩
  unfold atomRule
  refine taken_orElse_eq_some.mpr (.inr ⟨?_, taken_orElse_eq_some.mpr (.inl ?_)⟩)
  · rw [Reader.taken_bind, hnumber, Option.bind_some, taken_blanks_bind]
    exact taken_bind_of_eq_none
      (Text.taken_literal_behind_gap_eq_none rfl rfl fun _ => hrest.not_skip_asterisk)
  · exact taken_bind_eq_some.mpr ⟨c, rest, hnumber, rfl⟩

/-- A factor is read by the third alternative, as it starts with no digit. -/
theorem taken_atomRule_factor {f : Factor} (hdigit : ∀ d ds, cs = d :: ds → ¬d.isDigit)
    (hf : (factorRule expr).taken cs = some (f, rest)) :
    (atomRule expr).taken cs = some (.ofTerm (.ofFactor f), rest) := by
  have hnumber := Text.taken_number_eq_none hdigit
  unfold atomRule
  refine taken_orElse_eq_some.mpr (.inr ⟨taken_bind_of_eq_none hnumber, ?_⟩)
  refine taken_orElse_eq_some.mpr (.inr ⟨taken_bind_of_eq_none hnumber, ?_⟩)
  refine taken_orElse_eq_some.mpr (.inl ?_)
  exact taken_bind_eq_some.mpr ⟨f, rest, hf, rfl⟩

/-- An expression in parentheses is read by the last alternative. -/
theorem taken_atomRule_parens {e : Expr} {tail : List Char} (hcs : cs = '(' :: mid)
    (he : expr.taken (mid.dropWhile Text.isSeparator) = some (e, tail))
    (hclose : Text.Skip tail (')' :: rest)) : (atomRule expr).taken cs = some (e, rest) := by
  have hnumber : Reader.number.taken cs = none := by
    refine Text.taken_number_eq_none fun d ds hd => ?_
    rw [hcs] at hd
    obtain rfl : '(' = d := (List.cons.inj hd).1
    decide
  have hfactor : (factorRule expr).taken cs = none := by
    rw [hcs]
    exact taken_factorRule_paren
  have hopen : (Reader.literal "(").taken cs = some ((), mid) := taken_literal_eq_some.mpr hcs
  have hend : (Reader.literal ")").taken (tail.dropWhile Text.isSeparator) = some ((), rest) :=
    (taken_literal_behind_gap rfl rfl).mpr hclose
  unfold atomRule
  refine taken_orElse_eq_some.mpr (.inr ⟨taken_bind_of_eq_none hnumber, ?_⟩)
  refine taken_orElse_eq_some.mpr (.inr ⟨taken_bind_of_eq_none hnumber, ?_⟩)
  refine taken_orElse_eq_some.mpr (.inr ⟨taken_bind_of_eq_none hfactor, ?_⟩)
  refine taken_bind_eq_some.mpr ⟨(), mid, hopen, ?_⟩
  rw [taken_blanks_bind]
  refine taken_bind_eq_some.mpr ⟨e, tail, he, ?_⟩
  rw [taken_blanks_bind]
  exact taken_bind_eq_some.mpr ⟨(), rest, hend, rfl⟩

/-! ## Signs -/

/-- An atom behind a minus sign is read and negated. -/
theorem taken_negatedRule {e e' : Expr} (hcs : cs = '-' :: mid)
    (he : (atomRule expr).taken (mid.dropWhile Text.isSeparator) = some (e, rest))
    (hsigned : e.signed true = .ok e') : (negatedRule expr).taken cs = some (e', rest) := by
  have hminus : (Reader.literal "-").taken cs = some ((), mid) := taken_literal_eq_some.mpr hcs
  unfold negatedRule
  refine taken_bind_eq_some.mpr ⟨(), mid, hminus, ?_⟩
  rw [taken_blanks_bind]
  exact taken_bind_eq_some.mpr ⟨e, rest, he, taken_inRange_eq_some.mpr ⟨hsigned, rfl⟩⟩

/-- No negated atom stands where there is no minus sign. -/
theorem taken_negatedRule_eq_none (expr : Reader Expr) (h : ∀ ds, cs ≠ '-' :: ds) :
    (negatedRule expr).taken cs = none := by
  unfold negatedRule
  exact taken_bind_of_eq_none (Text.taken_literal_eq_none rfl h)

/-- A summand is read behind its sign. -/
theorem taken_summandRule {s : SummandForm} {e e' : Expr} (hbefore : Text.Skip cs (s.sign :: mid))
    (he : (atomRule expr).taken (mid.dropWhile Text.isSeparator) = some (e, rest))
    (hsigned : e.signed s.negative = .ok e') :
    (do Reader.blanks; summandRule expr : Reader Expr).taken cs = some (e', rest) := by
  have hcs := hbefore.dropWhile_eq_of_stops (Text.stops_cons.mpr s.isSeparator_sign)
  rw [taken_blanks_bind, hcs]
  unfold summandRule
  cases hs : s.negative with
  | false =>
    rw [hs] at hsigned
    cases hsigned
    have hsign : s.sign = '+' := by rw [SummandForm.sign, hs]; rfl
    have hplus : (Reader.literal "+").taken (s.sign :: mid) = some ((), mid) := by
      rw [hsign]
      exact taken_literal_eq_some.mpr rfl
    refine taken_orElse_eq_some.mpr (.inl (taken_bind_eq_some.mpr ⟨(), mid, hplus, ?_⟩))
    rw [taken_blanks_bind]
    exact he
  | true =>
    rw [hs] at hsigned
    have hsign : s.sign = '-' := by rw [SummandForm.sign, hs]; rfl
    have hplus : (Reader.literal "+").taken (s.sign :: mid) = none := by
      refine Text.taken_literal_eq_none rfl fun ds h => ?_
      rw [hsign] at h
      exact absurd (List.cons.inj h).1 (by decide)
    refine taken_orElse_eq_some.mpr (.inr ⟨taken_bind_of_eq_none hplus, ?_⟩)
    exact taken_negatedRule (by rw [hsign]) he hsigned

/-- No summand is read behind an expression that has ended. -/
theorem taken_summandRule_eq_none (h : Text.SumEnd cs) :
    (do Reader.blanks; summandRule expr : Reader Expr).taken cs = none := by
  have hplus : ∀ ds, ¬Text.Skip cs ('+' :: ds) := fun ds => h.not_skip_sign ⟨false, .number 0⟩
  have hminus : ∀ ds, ¬Text.Skip cs ('-' :: ds) := fun ds => h.not_skip_sign ⟨true, .number 0⟩
  rw [taken_blanks_bind]
  unfold summandRule negatedRule
  rw [Reader.taken_orElse,
    taken_bind_of_eq_none (Text.taken_literal_behind_gap_eq_none rfl rfl hplus),
    taken_bind_of_eq_none (Text.taken_literal_behind_gap_eq_none rfl rfl hminus)]
  rfl

/-- Atoms are read and added from left to right. -/
theorem taken_sumRule {first e : Expr} {es : List Expr}
    (hfirst : (negatedRule expr <|> atomRule expr).taken cs = some (first, mid))
    (hes : (Reader.many (do Reader.blanks; summandRule expr)).taken mid = some (es, rest))
    (hsum : es.foldlM add first = .ok e) : (sumRule expr).taken cs = some (e, rest) := by
  unfold sumRule
  refine taken_bind_eq_some.mpr ⟨first, mid, hfirst, ?_⟩
  exact taken_bind_eq_some.mpr ⟨es, rest, hes, taken_inRange_eq_some.mpr ⟨hsum, rfl⟩⟩

end Expr

end AffineCalls
