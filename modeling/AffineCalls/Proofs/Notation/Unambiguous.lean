import AffineCalls.Proofs.Notation.Delimiter

/-!
# The grammar is unambiguous

A text spells one form at most. Where two forms of one kind are spelled at the front
of the same text and both spellings end, they are the same form and leave the same
rest. The proof compares the first words or punctuation marks of the two spellings,
constructor by constructor, and goes on behind them.
-/

namespace AffineCalls

/-- Two numbers at the front of a text are the same if neither is followed by a digit. -/
theorem Text.SpellsNumber.unique {ds es rest rest' : List Char} {m n : Nat}
    (hds : SpellsNumber ds m) (hes : SpellsNumber es n) (hrest : Stops Char.isDigit rest)
    (hrest' : Stops Char.isDigit rest') (h : ds ++ rest = es ++ rest') :
    m = n ∧ rest = rest' := by
  obtain ⟨rfl, hrests⟩ := word_unique hds.digits hes.digits hrest hrest' h
  exact ⟨hds.value_eq.symm.trans hes.value_eq, hrests⟩

/-- No number starts where a factor starts. -/
theorem FactorForm.Spelled.not_spellsNumber {f : FactorForm} {cs ds cs₁ rest : List Char} {n : Nat}
    (hf : f.Spelled cs rest) (hds : Text.SpellsNumber ds n) : cs ≠ ds ++ cs₁ := by
  rintro rfl
  obtain ⟨c, _, hcs, hc⟩ := hf.exists_cons
  obtain ⟨d, es, rfl, hd⟩ := hds.exists_cons
  obtain rfl : d = c := (List.cons.inj hcs).1
  exact Text.not_isDigit_of_isIdentStart hc hd

/-- A number with an asterisk behind it is followed by no digit. -/
theorem Text.stops_isDigit_of_skip {cs ds : List Char} (h : Skip cs ('*' :: ds)) :
    Stops Char.isDigit cs := by
  obtain ⟨bs, hbs, rfl⟩ := h
  cases bs with
  | nil => exact stops_cons.mpr (by decide)
  | cons b bs =>
    rw [List.cons_append, stops_cons]
    by_contra hdigit
    rw [Bool.not_eq_false] at hdigit
    exact not_isSeparator_of_isIdentChar (isIdentChar_of_isDigit hdigit)
      (hbs b List.mem_cons_self)

/-- No factor starts with a parenthesis. -/
theorem FactorForm.Spelled.ne_paren {f : FactorForm} {cs ds rest : List Char}
    (hf : f.Spelled cs rest) : cs ≠ '(' :: ds := by
  rintro rfl
  obtain ⟨c, _, hcs, hc⟩ := hf.exists_cons
  obtain rfl : '(' = c := (List.cons.inj hcs).1
  exact absurd hc (by decide)

/-- No atom starts with a minus sign. -/
theorem AtomForm.Spelled.ne_minus {a : AtomForm} {cs ds rest : List Char}
    (ha : a.Spelled cs rest) : cs ≠ '-' :: ds := by
  rintro rfl
  obtain ⟨c, _, hcs, hc⟩ := ha.exists_cons
  obtain rfl : '-' = c := (List.cons.inj hcs).1
  exact absurd hc (by decide)

/-- An expression starts with a character of identifiers, a parenthesis or a minus sign only. -/
theorem SumForm.Spelled.ne_cons {s : SumForm} {c : Char} {cs ds rest : List Char}
    (hs : s.Spelled cs rest) (hc : ¬(Text.isIdentChar c ∨ c = '(' ∨ c = '-')) : cs ≠ c :: ds := by
  rintro rfl
  obtain ⟨d, _, hcs, hd⟩ := hs.exists_cons
  obtain rfl : c = d := (List.cons.inj hcs).1
  exact hc hd

/-- The signs of summands are told apart. -/
theorem SummandForm.sign_inj {s t : SummandForm} (h : s.sign = t.sign) :
    s.negative = t.negative := by
  unfold SummandForm.sign at h
  cases hs : s.negative <;> cases ht : t.negative <;> rw [hs, ht] at h <;> revert h <;> decide

/-- No sign is a separator. -/
theorem SummandForm.isSeparator_sign (s : SummandForm) : Text.isSeparator s.sign = false := by
  rw [SummandForm.sign]
  cases s.negative <;> decide

mutual

/-- A text starts with one factor at most. -/
theorem FactorForm.Spelled.unique {f g : FactorForm} {cs r r' : List Char}
    (hf : f.Spelled cs r) (hg : g.Spelled cs r') (hr : Text.AtomEnd r) (hr' : Text.AtomEnd r') :
    f = g ∧ r = r' := by
  have hstop := hr.stops_isIdentChar
  have hstop' := hr'.stops_isIdentChar
  have hopen : ∀ ds, Text.Stops Text.isIdentChar ('(' :: ds) :=
    fun ds => Text.stops_cons.mpr (by decide)
  match f, hf with
  | .position i, .position hcs hword =>
    cases hg with
    | position hcs' hword' =>
      obtain ⟨rfl, rfl⟩ := Text.word_unique hword.isIdentChar hword'.isIdentChar hstop hstop'
        (hcs.symm.trans hcs')
      exact ⟨congrArg _ (hword.unique hword'), rfl⟩
    | symbol hcs' hname' =>
      obtain ⟨rfl, _⟩ := Text.word_unique hword.isIdentChar hname'.identifier.chars hstop hstop'
        (hcs.symm.trans hcs')
      exact absurd hword (hname'.notPosition i)
    | call hcs' hname' _ _ _ =>
      obtain ⟨rfl, _⟩ := Text.word_unique hword.isIdentChar hname'.identifier.chars hstop
        (hopen _) (hcs.symm.trans hcs')
      exact absurd hword (hname'.notPosition i)
  | .symbol name, .symbol hcs hname =>
    cases hg with
    | position hcs' hword' =>
      obtain ⟨rfl, _⟩ := Text.word_unique hword'.isIdentChar hname.identifier.chars hstop' hstop
        (hcs'.symm.trans hcs)
      exact absurd hword' (hname.notPosition _)
    | symbol hcs' hname' =>
      obtain ⟨hnames, rfl⟩ := Text.word_unique hname.identifier.chars hname'.identifier.chars
        hstop hstop' (hcs.symm.trans hcs')
      exact ⟨congrArg _ (String.toList_inj.mp hnames), rfl⟩
    | call hcs' hname' _ _ _ =>
      obtain ⟨_, hrest⟩ := Text.word_unique hname.identifier.chars hname'.identifier.chars hstop
        (hopen _) (hcs.symm.trans hcs')
      exact absurd hrest (hr.ne_paren _)
  | .call name args, .call hcs hname hgap hargs hclose =>
    cases hg with
    | position hcs' hword' =>
      obtain ⟨rfl, _⟩ := Text.word_unique hword'.isIdentChar hname.identifier.chars hstop'
        (hopen _) (hcs'.symm.trans hcs)
      exact absurd hword' (hname.notPosition _)
    | symbol hcs' hname' =>
      obtain ⟨_, hrest⟩ := Text.word_unique hname'.identifier.chars hname.identifier.chars hstop'
        (hopen _) (hcs'.symm.trans hcs)
      exact absurd hrest (hr'.ne_paren _)
    | call hcs' hname' hgap' hargs' hclose' =>
      obtain ⟨hnames, hinside⟩ := Text.word_unique hname.identifier.chars hname'.identifier.chars
        (hopen _) (hopen _) (hcs.symm.trans hcs')
      obtain rfl := (List.cons.inj hinside).2
      obtain ⟨rfl, rfl⟩ := SumForm.SpelledEach.unique hgap hargs hclose hgap' hargs' hclose'
      exact ⟨by rw [String.toList_inj.mp hnames], rfl⟩
termination_by structural f

/-- A text starts with one atom at most. -/
theorem AtomForm.Spelled.unique {a b : AtomForm} {cs r r' : List Char}
    (ha : a.Spelled cs r) (hb : b.Spelled cs r') (hr : Text.AtomEnd r) (hr' : Text.AtomEnd r') :
    a = b ∧ r = r' := by
  match a, ha with
  | .multiple n f, .multiple hcs hds hbefore hafter hf =>
    cases hb with
    | multiple hcs' hds' hbefore' hafter' hf' =>
      obtain ⟨rfl, rfl⟩ := hds.unique hds' (Text.stops_isDigit_of_skip hbefore)
        (Text.stops_isDigit_of_skip hbefore') (hcs.symm.trans hcs')
      obtain ⟨_, rfl⟩ := hbefore.mark_unique hbefore' rfl rfl
      obtain rfl := hafter.unique hafter' (AtomForm.Spelled.factor hf).stops
        (AtomForm.Spelled.factor hf').stops
      obtain ⟨rfl, rfl⟩ := FactorForm.Spelled.unique hf hf' hr hr'
      exact ⟨rfl, rfl⟩
    | number hcs' hds' =>
      obtain ⟨_, rfl⟩ := hds.unique hds' (Text.stops_isDigit_of_skip hbefore) hr'.stops_isDigit
        (hcs.symm.trans hcs')
      exact absurd hbefore hr'.not_skip_asterisk
    | factor hf' => exact absurd hcs (hf'.not_spellsNumber hds)
    | parens hcs' _ _ _ => exact absurd (hcs.symm.trans hcs') (hds.ne_cons rfl)
  | .number n, .number hcs hds =>
    cases hb with
    | multiple hcs' hds' hbefore' hafter' hf' =>
      obtain ⟨_, rfl⟩ := hds.unique hds' hr.stops_isDigit (Text.stops_isDigit_of_skip hbefore')
        (hcs.symm.trans hcs')
      exact absurd hbefore' hr.not_skip_asterisk
    | number hcs' hds' =>
      obtain ⟨rfl, rfl⟩ := hds.unique hds' hr.stops_isDigit hr'.stops_isDigit
        (hcs.symm.trans hcs')
      exact ⟨rfl, rfl⟩
    | factor hf' => exact absurd hcs (hf'.not_spellsNumber hds)
    | parens hcs' _ _ _ => exact absurd (hcs.symm.trans hcs') (hds.ne_cons rfl)
  | .factor f, .factor hf =>
    cases hb with
    | multiple hcs' hds' _ _ _ => exact absurd hcs' (hf.not_spellsNumber hds')
    | number hcs' hds' => exact absurd hcs' (hf.not_spellsNumber hds')
    | factor hf' =>
      obtain ⟨rfl, rfl⟩ := FactorForm.Spelled.unique hf hf' hr hr'
      exact ⟨rfl, rfl⟩
    | parens hcs' _ _ _ => exact absurd hcs' hf.ne_paren
  | .parens s, .parens hcs hopen hs hclose =>
    cases hb with
    | multiple hcs' hds' _ _ _ => exact absurd (hcs'.symm.trans hcs) (hds'.ne_cons rfl)
    | number hcs' hds' => exact absurd (hcs'.symm.trans hcs) (hds'.ne_cons rfl)
    | factor hf' => exact absurd hcs hf'.ne_paren
    | parens hcs' hopen' hs' hclose' =>
      obtain rfl := (List.cons.inj (hcs.symm.trans hcs')).2
      obtain rfl := hopen.unique hopen' hs.stops hs'.stops
      obtain ⟨rfl, rfl⟩ := SumForm.Spelled.unique hs hs' (Text.sumEnd_of_skip (by decide) hclose)
        (Text.sumEnd_of_skip (by decide) hclose')
      exact ⟨rfl, (hclose.mark_unique hclose' rfl rfl).2⟩
termination_by structural a

/-- A text starts with one expression at most. -/
theorem SumForm.Spelled.unique {s t : SumForm} {cs r r' : List Char}
    (hs : s.Spelled cs r) (ht : t.Spelled cs r') (hr : Text.SumEnd r) (hr' : Text.SumEnd r') :
    s = t ∧ r = r' := by
  match s, hs with
  | ⟨false, a, ss⟩, .positive ha hss =>
    cases ht with
    | positive ha' hss' =>
      obtain ⟨rfl, rfl⟩ := AtomForm.Spelled.unique ha ha' (hss.atomEnd hr) (hss'.atomEnd hr')
      obtain ⟨rfl, rfl⟩ := SummandForm.SpelledEach.unique hss hss' hr hr'
      exact ⟨rfl, rfl⟩
    | negative hcs' _ _ _ => exact absurd hcs' ha.ne_minus
  | ⟨true, a, ss⟩, .negative hcs hafter ha hss =>
    cases ht with
    | positive ha' hss' => exact absurd hcs ha'.ne_minus
    | negative hcs' hafter' ha' hss' =>
      obtain rfl := (List.cons.inj (hcs.symm.trans hcs')).2
      obtain rfl := hafter.unique hafter' ha.stops ha'.stops
      obtain ⟨rfl, rfl⟩ := AtomForm.Spelled.unique ha ha' (hss.atomEnd hr) (hss'.atomEnd hr')
      obtain ⟨rfl, rfl⟩ := SummandForm.SpelledEach.unique hss hss' hr hr'
      exact ⟨rfl, rfl⟩
termination_by structural s

/-- What stands between two parentheses is one list of arguments at most. -/
theorem SumForm.SpelledEach.unique {ss ts : List SumForm} {cs cs₁ cs₂ ds₁ ds₂ r r' : List Char}
    (hopen : Text.Skip cs cs₁) (hss : SumForm.SpelledEach ss cs₁ cs₂)
    (hclose : Text.Skip cs₂ (')' :: r)) (hopen' : Text.Skip cs ds₁)
    (hts : SumForm.SpelledEach ts ds₁ ds₂) (hclose' : Text.Skip ds₂ (')' :: r')) :
    ss = ts ∧ r = r' := by
  have hparen : ∀ ds, Text.Stops Text.isSeparator (')' :: ds) := fun _ => rfl
  match ss, hss with
  | [], .nil =>
    cases hts with
    | nil => exact ⟨rfl, ((hopen.trans hclose).mark_unique (hopen'.trans hclose') rfl rfl).2⟩
    | cons ht _ =>
      exact absurd (hopen'.unique (hopen.trans hclose) ht.stops (hparen _))
        (ht.ne_cons (by decide))
  | s :: ss, .cons hs hmore =>
    cases hts with
    | nil =>
      exact absurd (hopen.unique (hopen'.trans hclose') hs.stops (hparen _))
        (hs.ne_cons (by decide))
    | cons ht hmore' =>
      obtain rfl := hopen.unique hopen' hs.stops ht.stops
      obtain ⟨rfl, rfl⟩ := SumForm.Spelled.unique hs ht (hmore.sumEnd hclose)
        (hmore'.sumEnd hclose')
      obtain ⟨rfl, rfl⟩ := SumForm.SpelledMore.unique hmore hclose hmore' hclose'
      exact ⟨rfl, rfl⟩
termination_by structural ss

/-- What stands before a closing parenthesis is one list of further arguments at most. -/
theorem SumForm.SpelledMore.unique {ss ts : List SumForm} {cs cs₁ ds₁ r r' : List Char}
    (hss : SumForm.SpelledMore ss cs cs₁) (hclose : Text.Skip cs₁ (')' :: r))
    (hts : SumForm.SpelledMore ts cs ds₁) (hclose' : Text.Skip ds₁ (')' :: r')) :
    ss = ts ∧ r = r' := by
  match ss, hss with
  | [], .nil =>
    cases hts with
    | nil => exact ⟨rfl, (hclose.mark_unique hclose' rfl rfl).2⟩
    | cons hbefore' _ _ _ =>
      exact absurd (hclose.mark_unique hbefore' rfl rfl).1 (by decide)
  | s :: ss, .cons hbefore hafter hs hmore =>
    cases hts with
    | nil => exact absurd (hbefore.mark_unique hclose' rfl rfl).1 (by decide)
    | cons hbefore' hafter' ht hmore' =>
      obtain ⟨_, rfl⟩ := hbefore.mark_unique hbefore' rfl rfl
      obtain rfl := hafter.unique hafter' hs.stops ht.stops
      obtain ⟨rfl, rfl⟩ := SumForm.Spelled.unique hs ht (hmore.sumEnd hclose)
        (hmore'.sumEnd hclose')
      obtain ⟨rfl, rfl⟩ := SumForm.SpelledMore.unique hmore hclose hmore' hclose'
      exact ⟨rfl, rfl⟩
termination_by structural ss

/-- What follows an atom is one list of summands at most. -/
theorem SummandForm.SpelledEach.unique {ss ts : List SummandForm} {cs r r' : List Char}
    (hss : SummandForm.SpelledEach ss cs r) (hts : SummandForm.SpelledEach ts cs r')
    (hr : Text.SumEnd r) (hr' : Text.SumEnd r') : ss = ts ∧ r = r' := by
  match ss, hss with
  | [], .nil =>
    cases hts with
    | nil => exact ⟨rfl, rfl⟩
    | cons hbefore' _ _ _ => exact absurd hbefore' (hr.not_skip_sign _)
  | ⟨negative, a⟩ :: ss, .cons hbefore hafter ha hmore =>
    cases hts with
    | nil => exact absurd hbefore (hr'.not_skip_sign _)
    | @cons t _ _ _ _ _ _ hbefore' hafter' ha' hmore' =>
      obtain ⟨negative', a'⟩ := t
      obtain ⟨hsign, rfl⟩ := hbefore.mark_unique hbefore' (SummandForm.isSeparator_sign _)
        (SummandForm.isSeparator_sign _)
      obtain rfl : negative = negative' := SummandForm.sign_inj hsign
      obtain rfl := hafter.unique hafter' ha.stops ha'.stops
      obtain ⟨rfl, rfl⟩ := AtomForm.Spelled.unique ha ha' (hmore.atomEnd hr)
        (hmore'.atomEnd hr')
      obtain ⟨rfl, rfl⟩ := SummandForm.SpelledEach.unique hmore hmore' hr hr'
      exact ⟨rfl, rfl⟩
termination_by structural ss

end

/-- A whole text is a spelling of one form at most. -/
theorem SumForm.spelled_unique {s t : SumForm} {cs : List Char} (hs : s.Spelled cs [])
    (ht : t.Spelled cs []) : s = t :=
  (SumForm.Spelled.unique hs ht Text.sumEnd_nil Text.sumEnd_nil).1

end AffineCalls
