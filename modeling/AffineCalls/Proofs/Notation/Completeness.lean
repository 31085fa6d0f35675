import AffineCalls.Proofs.Notation.Rules

/-!
# Every written form is read

A form that stands for an expression is read as that expression, up to the end of
its spelling, wherever what follows ends it. The induction is on forms. Inside
parentheses the reader may be used again, as the text that is left is shorter than
the text `cs` that the rule was applied to; the bound `n` stands for its length.
-/

namespace AffineCalls

open Reader (taken_bind_eq_some taken_bind_of_eq_none taken_orElse_eq_some taken_inRange_eq_some
  taken_eq_none_iff taken_comma_eq_some taken_literal_behind_gap)

/-- The reader may be used where less than the given number of characters is left. -/
theorem Expr.taken_below {cs : List Char} {n : Nat} (h : cs.length < n) :
    (Expr.reader.below n).taken cs = Expr.reader.taken cs := by
  rw [Reader.taken_below, if_pos h]

/-- No expression starts with a closing parenthesis. -/
theorem Expr.taken_reader_close (cs : List Char) : Expr.reader.taken (')' :: cs) = none := by
  rw [taken_eq_none_iff]
  intro e rest h
  obtain ⟨s, hs, _⟩ := SumForm.derives_of_taken h
  exact hs.ne_cons (by decide) rfl

/-- No further argument is read before a closing parenthesis. -/
theorem Expr.taken_comma_close {expr : Reader Expr} {cs rest : List Char}
    (h : Text.Skip cs (')' :: rest)) : (do Reader.comma; expr : Reader Expr).taken cs = none := by
  refine taken_bind_of_eq_none (taken_eq_none_iff.mpr fun u rest' hcomma => ?_)
  obtain ⟨ds, hds, _⟩ := taken_comma_eq_some.mp hcomma
  rw [h.dropWhile_eq_of_stops (Text.stops_cons.mpr (by decide))] at hds
  exact absurd (List.cons.inj hds).1 (by decide)

mutual

/-- A factor is read as what its form stands for. -/
theorem FactorForm.Spelled.taken {f : FactorForm} {v : Factor} {cs rest : List Char} {n : Nat}
    (h : f.Spelled cs rest) (hv : f.eval = .ok v) (hrest : Text.AtomEnd rest)
    (hn : cs.length ≤ n) :
    (Expr.factorRule (Expr.reader.below n)).taken cs = some (v, rest) := by
  match f, h with
  | .position i, .position hcs hword =>
    cases hv
    exact Expr.taken_factorRule_position hcs hword hrest.stops_isIdentChar
  | .symbol name, .symbol hcs hname =>
    cases hv
    exact Expr.taken_factorRule_symbol hcs hname hrest
  | .call name args, .call hcs hname hopen hargs hclose =>
    obtain ⟨es, hes, rfl⟩ := FactorForm.eval_call_eq_ok.mp hv
    rw [hcs, List.length_append, List.length_cons] at hn
    have hinside := SumForm.SpelledEach.taken hopen hargs hclose hes (n := n) (by omega)
    obtain ⟨mid, hmid, hclose⟩ := hinside
    exact Expr.taken_factorRule_call hcs hname hmid hclose
termination_by structural f

/-- An atom is read as what its form stands for. -/
theorem AtomForm.Spelled.taken {a : AtomForm} {e : Expr} {cs rest : List Char} {n : Nat}
    (h : a.Spelled cs rest) (he : a.eval = .ok e) (hrest : Text.AtomEnd rest)
    (hn : cs.length ≤ n) :
    (Expr.atomRule (Expr.reader.below n)).taken cs = some (e, rest) := by
  match a, h with
  | .multiple m f, .multiple hcs hds hbefore hafter hf =>
    obtain ⟨c, hc, v, hv, rfl⟩ := AtomForm.eval_multiple_eq_ok.mp he
    have hle := hbefore.length_lt
    have hle' := hafter.length_le
    rw [hcs, List.length_append] at hn
    have hfactor := FactorForm.Spelled.taken hf hv hrest (n := n) (by omega)
    rw [← hafter.dropWhile_eq_of_stops hf.stops] at hfactor
    exact Expr.taken_atomRule_multiple hcs hds hc hbefore hfactor
  | .number m, .number hcs hds =>
    obtain ⟨c, hc, rfl⟩ := AtomForm.eval_number_eq_ok.mp he
    exact Expr.taken_atomRule_number hcs hds hc hrest
  | .factor f, .factor hf =>
    obtain ⟨v, hv, rfl⟩ := AtomForm.eval_factor_eq_ok.mp he
    refine Expr.taken_atomRule_factor (fun d ds hcs => ?_) (FactorForm.Spelled.taken hf hv hrest hn)
    obtain ⟨c, ds', hcs', hc⟩ := hf.exists_cons
    rw [hcs] at hcs'
    obtain rfl : d = c := (List.cons.inj hcs').1
    exact Text.not_isDigit_of_isIdentStart hc
  | .parens s, .parens hcs hopen hs hclose =>
    rw [AtomForm.eval_parens] at he
    have hle := hopen.length_le
    rw [hcs, List.length_cons] at hn
    have hsum := SumForm.Spelled.taken hs he (Text.sumEnd_of_skip (by decide) hclose)
    rw [← Expr.taken_below (n := n) (by omega), ← hopen.dropWhile_eq_of_stops hs.stops] at hsum
    exact Expr.taken_atomRule_parens hcs hsum hclose
termination_by structural a

/-- An expression is read as what its form stands for. -/
theorem SumForm.Spelled.taken {s : SumForm} {e : Expr} {cs rest : List Char}
    (h : s.Spelled cs rest) (he : s.eval = .ok e) (hrest : Text.SumEnd rest) :
    Expr.reader.taken cs = some (e, rest) := by
  rw [Expr.reader, Reader.taken_fix, ← Expr.reader]
  match s, h with
  | ⟨false, a, ss⟩, .positive ha hss =>
    obtain ⟨first, hfirst, _, hsigned, he⟩ := SumForm.eval_eq_ok.mp he
    cases hsigned
    have hle := ha.length_lt
    have hatom := AtomForm.Spelled.taken ha hfirst (hss.atomEnd hrest) (Nat.le_refl _)
    obtain ⟨es, hes, hsum⟩ :=
      SummandForm.SpelledEach.taken hss he hrest (n := cs.length) (by omega)
    have hnone := Expr.taken_negatedRule_eq_none (Expr.reader.below cs.length) fun _ => ha.ne_minus
    exact Expr.taken_sumRule (taken_orElse_eq_some.mpr (.inr ⟨hnone, hatom⟩)) hes hsum
  | ⟨true, a, ss⟩, .negative hcs hafter ha hss =>
    obtain ⟨first, hfirst, first', hsigned, he⟩ := SumForm.eval_eq_ok.mp he
    have hle := ha.length_lt
    have hle' := hafter.length_le
    have hlen := congrArg List.length hcs
    rw [List.length_cons] at hlen
    have hatom := AtomForm.Spelled.taken ha hfirst (hss.atomEnd hrest) (n := cs.length) (by omega)
    rw [← hafter.dropWhile_eq_of_stops ha.stops] at hatom
    obtain ⟨es, hes, hsum⟩ :=
      SummandForm.SpelledEach.taken hss he hrest (n := cs.length) (by omega)
    have hminus := Expr.taken_negatedRule hcs hatom hsigned
    exact Expr.taken_sumRule (taken_orElse_eq_some.mpr (.inl hminus)) hes hsum
termination_by structural s

/-- The arguments between parentheses are read as what their forms stand for. -/
theorem SumForm.SpelledEach.taken {ss : List SumForm} {es : List Expr}
    {cs cs₁ cs₂ rest : List Char} {n : Nat} (hopen : Text.Skip cs cs₁)
    (h : SumForm.SpelledEach ss cs₁ cs₂) (hclose : Text.Skip cs₂ (')' :: rest))
    (hes : SumForm.evalEach ss = .ok es) (hn : cs.length < n) :
    ∃ mid, (Reader.sepBy (Expr.reader.below n) Reader.comma).taken
        (cs.dropWhile Text.isSeparator) = some (es, mid) ∧ Text.Skip mid (')' :: rest) := by
  have hlt : (cs.dropWhile Text.isSeparator).length < n :=
    Nat.lt_of_le_of_lt (Text.skip_dropWhile cs).length_le hn
  match ss, h with
  | [], .nil =>
    cases hes
    -- The gap in front of the parenthesis is one with the gap behind the opening one.
    have hcs := (hopen.trans hclose).dropWhile_eq_of_stops (Text.stops_cons.mpr (by decide))
    have hnone : (Expr.reader.below n).taken (cs.dropWhile Text.isSeparator) = none := by
      rw [Expr.taken_below hlt, hcs]
      exact Expr.taken_reader_close rest
    exact ⟨_, Reader.taken_sepBy_of_eq_none hnone, hcs ▸ .refl _⟩
  | s :: ss, .cons hs hss =>
    obtain ⟨e, he, es', hes', rfl⟩ := SumForm.evalEach_cons_eq_ok.mp hes
    have hfirst := SumForm.Spelled.taken hs he (hss.sumEnd hclose)
    rw [← hopen.dropWhile_eq_of_stops hs.stops, ← Expr.taken_below hlt] at hfirst
    have hle := hs.length_lt
    have hle' := hopen.length_le
    have hmore := SumForm.SpelledMore.taken hss hclose hes' (n := n) (by omega)
    exact ⟨cs₂, Reader.taken_sepBy_of_eq_some hfirst hmore, hclose⟩
termination_by structural ss

/-- Further arguments are read as what their forms stand for. -/
theorem SumForm.SpelledMore.taken {ss : List SumForm} {es : List Expr}
    {cs cs₁ rest : List Char} {n : Nat} (h : SumForm.SpelledMore ss cs cs₁)
    (hclose : Text.Skip cs₁ (')' :: rest)) (hes : SumForm.evalEach ss = .ok es)
    (hn : cs.length < n) :
    (Reader.many (do Reader.comma; Expr.reader.below n)).taken cs = some (es, cs₁) := by
  match ss, h with
  | [], .nil =>
    cases hes
    exact Reader.taken_many_of_eq_none (Expr.taken_comma_close hclose)
  | s :: ss, .cons hbefore hafter hs hss =>
    obtain ⟨e, he, es', hes', rfl⟩ := SumForm.evalEach_cons_eq_ok.mp hes
    have hle := hbefore.length_lt
    have hle' := hafter.length_le
    have hlt := hs.length_lt
    have hgap := hbefore.dropWhile_eq_of_stops (Text.stops_cons.mpr (by decide))
    have hgap' := hafter.dropWhile_eq_of_stops hs.stops
    have hcomma := (taken_comma_eq_some (u := ())).mpr ⟨_, hgap, hgap'⟩
    have hfirst := SumForm.Spelled.taken hs he (hss.sumEnd hclose)
    rw [← Expr.taken_below (n := n) (by omega)] at hfirst
    have hstep : (do Reader.comma; Expr.reader.below n : Reader Expr).taken cs = _ :=
      taken_bind_eq_some.mpr ⟨(), _, hcomma, hfirst⟩
    have hmore := SumForm.SpelledMore.taken hss hclose hes' (n := n) (by omega)
    rw [Reader.taken_many_of_eq_some hstep (by omega), hmore, Option.map_some]
termination_by structural ss

/-- Further summands are read as what their forms stand for. -/
theorem SummandForm.SpelledEach.taken {ss : List SummandForm} {e e' : Expr}
    {cs rest : List Char} {n : Nat} (h : SummandForm.SpelledEach ss cs rest)
    (he : SummandForm.evalOnto ss e = .ok e') (hrest : Text.SumEnd rest) (hn : cs.length ≤ n) :
    ∃ es, (Reader.many (do Reader.blanks; Expr.summandRule (Expr.reader.below n))).taken cs =
      some (es, rest) ∧ es.foldlM Expr.add e = .ok e' := by
  match ss, h with
  | [], .nil =>
    cases he
    exact ⟨[], Reader.taken_many_of_eq_none (Expr.taken_summandRule_eq_none hrest), rfl⟩
  | ⟨negative, a⟩ :: ss, .cons hbefore hafter ha hss =>
    obtain ⟨v', hv', sum, hsum, he⟩ := SummandForm.evalOnto_cons_eq_ok.mp he
    obtain ⟨v, hv, hsigned⟩ := SummandForm.eval_eq_ok.mp hv'
    have hle := hbefore.length_lt
    have hle' := hafter.length_le
    have hlt := ha.length_lt
    have hatom := AtomForm.Spelled.taken ha hv (hss.atomEnd hrest) (n := n) (by omega)
    rw [← hafter.dropWhile_eq_of_stops ha.stops] at hatom
    have hstep := Expr.taken_summandRule hbefore hatom hsigned
    obtain ⟨es, hes, hfold⟩ := SummandForm.SpelledEach.taken hss he hrest (n := n) (by omega)
    refine ⟨v' :: es, ?_, ?_⟩
    · rw [Reader.taken_many_of_eq_some hstep (by omega), hes, Option.map_some]
    · rw [List.foldlM_cons]
      exact bind_eq_ok.mpr ⟨sum, hsum, hfold⟩
termination_by structural ss

end

/-- A text is read as an expression exactly when a form of the expression is spelled by it. -/
theorem SumForm.taken_reader_iff {cs : List Char} {e : Expr} :
    Expr.reader.taken cs = some (e, []) ↔ ∃ s : SumForm, s.Spelled cs [] ∧ s.eval = .ok e := by
  constructor
  · exact SumForm.derives_of_taken
  · rintro ⟨s, hs, he⟩
    exact hs.taken he Text.sumEnd_nil

end AffineCalls
