import AffineCalls.Proofs.Notation.Form

/-!
# Starts and ends of written forms

Every form starts with a character that is no separator, so the gap in front of it
is determined. Behind an atom a text must not go on with a character that would
belong to the atom, and behind an expression not with a sign either. These two
conditions hold wherever the grammar places an atom or an expression.
-/

namespace AffineCalls

/-! ## Starts -/

/-- A factor starts as an identifier does. -/
theorem FactorForm.Spelled.exists_cons {f : FactorForm} {cs rest : List Char}
    (h : f.Spelled cs rest) : ∃ c ds, cs = c :: ds ∧ Text.isIdentStart c := by
  cases h with
  | position hcs hword =>
    obtain ⟨ds, rfl, _⟩ := hword
    exact ⟨'_', _, hcs, by decide⟩
  | symbol hcs hname =>
    obtain ⟨c, ds, hname, hc, _⟩ := hname.identifier.exists_cons
    exact ⟨c, _, by rw [hcs, hname]; rfl, hc⟩
  | call hcs hname _ _ _ =>
    obtain ⟨c, ds, hname, hc, _⟩ := hname.identifier.exists_cons
    exact ⟨c, _, by rw [hcs, hname]; rfl, hc⟩

/-- A factor starts with no separator. -/
theorem FactorForm.Spelled.stops {f : FactorForm} {cs rest : List Char} (h : f.Spelled cs rest) :
    Text.Stops Text.isSeparator cs := by
  obtain ⟨c, ds, rfl, hc⟩ := h.exists_cons
  rw [Text.stops_cons]
  have hident := Text.isIdentChar_of_isIdentStart hc
  exact Bool.eq_false_iff.mpr (Text.not_isSeparator_of_isIdentChar hident)

/-- An atom starts with a character of identifiers or a parenthesis. -/
theorem AtomForm.Spelled.exists_cons {a : AtomForm} {cs rest : List Char}
    (h : a.Spelled cs rest) : ∃ c ds, cs = c :: ds ∧ (Text.isIdentChar c ∨ c = '(') := by
  cases h with
  | multiple hcs hds _ _ _ =>
    obtain ⟨d, es, rfl, hd⟩ := hds.exists_cons
    exact ⟨d, _, hcs, .inl (Text.isIdentChar_of_isDigit hd)⟩
  | number hcs hds =>
    obtain ⟨d, es, rfl, hd⟩ := hds.exists_cons
    exact ⟨d, _, hcs, .inl (Text.isIdentChar_of_isDigit hd)⟩
  | factor hf =>
    obtain ⟨c, ds, hcs, hc⟩ := hf.exists_cons
    exact ⟨c, ds, hcs, .inl (Text.isIdentChar_of_isIdentStart hc)⟩
  | parens hcs _ _ _ => exact ⟨'(', _, hcs, .inr rfl⟩

/-- No separator stands in front of an atom. -/
theorem AtomForm.Spelled.stops {a : AtomForm} {cs rest : List Char} (h : a.Spelled cs rest) :
    Text.Stops Text.isSeparator cs := by
  obtain ⟨c, ds, rfl, hc⟩ := h.exists_cons
  rw [Text.stops_cons]
  rcases hc with hc | rfl
  · exact Bool.eq_false_iff.mpr (Text.not_isSeparator_of_isIdentChar hc)
  · decide

/-- An expression starts with a character of identifiers, a parenthesis or a minus sign. -/
theorem SumForm.Spelled.exists_cons {s : SumForm} {cs rest : List Char}
    (h : s.Spelled cs rest) :
    ∃ c ds, cs = c :: ds ∧ (Text.isIdentChar c ∨ c = '(' ∨ c = '-') := by
  cases h with
  | positive ha _ =>
    obtain ⟨c, ds, hcs, hc⟩ := ha.exists_cons
    exact ⟨c, ds, hcs, hc.imp_right .inl⟩
  | negative hcs _ _ _ => exact ⟨'-', _, hcs, .inr (.inr rfl)⟩

/-- No separator stands in front of an expression. -/
theorem SumForm.Spelled.stops {s : SumForm} {cs rest : List Char} (h : s.Spelled cs rest) :
    Text.Stops Text.isSeparator cs := by
  obtain ⟨c, ds, rfl, hc⟩ := h.exists_cons
  rw [Text.stops_cons]
  rcases hc with hc | rfl | rfl
  · exact Bool.eq_false_iff.mpr (Text.not_isSeparator_of_isIdentChar hc)
  · decide
  · decide

/-! ## Ends -/

namespace Text

/-- The text does not go on with a character that an atom in front of it would take. -/
def AtomEnd (cs : List Char) : Prop :=
  ∀ c, next? cs = some c → isIdentChar c = false ∧ c ≠ '(' ∧ c ≠ '*'

/-- The text does not go on with a character that an expression in front of it would take. -/
structure SumEnd (cs : List Char) : Prop where
  /-- No character goes on with the last atom. -/
  atom : AtomEnd cs
  /-- No sign introduces another atom. -/
  noSign : ∀ c, next? cs = some c → c ≠ '+' ∧ c ≠ '-'

/-- The end of the text ends an expression. -/
theorem sumEnd_nil : SumEnd [] := ⟨fun _ h => (nomatch h), fun _ h => (nomatch h)⟩

/-- A sign behind a gap ends an atom. -/
theorem atomEnd_of_sign {s : SummandForm} {cs ds : List Char} (h : Skip cs (s.sign :: ds)) :
    AtomEnd cs := by
  intro c hc
  rw [h.next?_eq, SummandForm.sign] at hc
  cases hs : s.negative <;> rw [hs] at hc <;> cases hc <;> decide

/-- The marks that may follow an expression: those of calls, comparisons and sets. -/
def endMarks : List Char := [',', ')', '<', '>', '=', '&', '\x7d']

/-- A mark behind a gap ends an expression. -/
theorem sumEnd_of_skip {cs ds : List Char} {d : Char} (hd : d ∈ endMarks)
    (h : Skip cs (d :: ds)) : SumEnd cs := by
  have hmarks : ∀ d ∈ endMarks, isSeparator d = false ∧
      (isIdentChar d = false ∧ d ≠ '(' ∧ d ≠ '*') ∧ d ≠ '+' ∧ d ≠ '-' :=
    List.forall_iff_forall_mem.mp (by decide)
  obtain ⟨hvisible, hatom, hsign⟩ := hmarks d hd
  have hnext : next? cs = some d := h.next?_eq.trans (next?_cons hvisible ds)
  constructor
  · intro c hc
    rw [hnext, Option.some.injEq] at hc
    exact hc ▸ hatom
  · intro c hc
    rw [hnext, Option.some.injEq] at hc
    exact hc ▸ hsign

/-- What ends an atom starts with no character of an identifier. -/
theorem AtomEnd.stops_isIdentChar {cs : List Char} (h : AtomEnd cs) : Stops isIdentChar cs := by
  cases cs with
  | nil => rfl
  | cons c cs =>
    rw [stops_cons]
    cases hc : isSeparator c with
    | true =>
      by_contra hident
      rw [Bool.not_eq_false] at hident
      exact not_isSeparator_of_isIdentChar hident hc
    | false => exact (h c (next?_cons hc cs)).1

/-- What ends an atom starts with no digit. -/
theorem AtomEnd.stops_isDigit {cs : List Char} (h : AtomEnd cs) : Stops Char.isDigit cs :=
  h.stops_isIdentChar.mono fun _ => isIdentChar_of_isDigit

/-- What ends an atom does not start with a parenthesis. -/
theorem AtomEnd.ne_paren {cs : List Char} (h : AtomEnd cs) (ds : List Char) : cs ≠ '(' :: ds := by
  rintro rfl
  exact (h '(' (next?_cons (by decide) ds)).2.1 rfl

/-- What ends an atom does not go on with an asterisk. -/
theorem AtomEnd.not_skip_asterisk {cs ds : List Char} (h : AtomEnd cs) :
    ¬Skip cs ('*' :: ds) := by
  intro hskip
  exact (h '*' hskip.next?_eq).2.2 rfl

/-- What ends an expression does not go on with a sign. -/
theorem SumEnd.not_skip_sign {cs ds : List Char} (h : SumEnd cs) (s : SummandForm) :
    ¬Skip cs (s.sign :: ds) := by
  intro hskip
  have hnext := hskip.next?_eq
  rw [SummandForm.sign] at hnext
  cases hs : s.negative <;> rw [hs] at hnext
  · exact (h.noSign '+' hnext).1 rfl
  · exact (h.noSign '-' hnext).2 rfl

end Text

/-- Further summands, or what follows an expression, end an atom. -/
theorem SummandForm.SpelledEach.atomEnd {ss : List SummandForm} {cs rest : List Char}
    (h : SummandForm.SpelledEach ss cs rest) (hrest : Text.SumEnd rest) : Text.AtomEnd cs := by
  cases h with
  | nil => exact hrest.atom
  | cons hbefore _ _ _ => exact Text.atomEnd_of_sign hbefore

/-- Further arguments, or a closing parenthesis, end an expression. -/
theorem SumForm.SpelledMore.sumEnd {ss : List SumForm} {cs rest ds : List Char}
    (h : SumForm.SpelledMore ss cs rest) (hrest : Text.Skip rest (')' :: ds)) :
    Text.SumEnd cs := by
  cases h with
  | nil => exact Text.sumEnd_of_skip (by decide) hrest
  | cons hbefore _ _ _ => exact Text.sumEnd_of_skip (by decide) hbefore

/-! ## Lengths -/

mutual

/-- A factor takes some text. -/
theorem FactorForm.Spelled.length_lt {f : FactorForm} {cs rest : List Char}
    (h : f.Spelled cs rest) : rest.length < cs.length := by
  match f, h with
  | .position i, .position hcs hword =>
    obtain ⟨ds, hds, _⟩ := hword
    have hlength := congrArg List.length hds
    simp only [hcs, List.length_append] at hlength ⊢
    have hmark : "__tv".toList.length = 4 := rfl
    omega
  | .symbol name, .symbol hcs hname =>
    obtain ⟨c, ds, hname, _⟩ := hname.identifier.exists_cons
    rw [hcs, hname, List.length_append, List.length_cons]
    omega
  | .call name args, .call hcs _ hopen hargs hclose =>
    have hlength := SumForm.SpelledEach.length_le hargs
    have hopen := hopen.length_le
    have hclose := hclose.length_lt
    rw [hcs, List.length_append, List.length_cons]
    omega
termination_by structural f

/-- An atom takes some text. -/
theorem AtomForm.Spelled.length_lt {a : AtomForm} {cs rest : List Char}
    (h : a.Spelled cs rest) : rest.length < cs.length := by
  match a, h with
  | .multiple n f, .multiple hcs hds hbefore hafter hf =>
    have hlength := FactorForm.Spelled.length_lt hf
    have hbefore := hbefore.length_lt
    have hafter := hafter.length_le
    rw [hcs, List.length_append]
    omega
  | .number n, .number hcs hds =>
    obtain ⟨d, es, hd, _⟩ := hds.exists_cons
    rw [hcs, hd, List.length_append, List.length_cons]
    omega
  | .factor f, .factor hf => exact FactorForm.Spelled.length_lt hf
  | .parens s, .parens hcs hopen hs hclose =>
    have hlength := SumForm.Spelled.length_lt hs
    have hopen := hopen.length_le
    have hclose := hclose.length_lt
    rw [hcs, List.length_cons]
    omega
termination_by structural a

/-- An expression takes some text. -/
theorem SumForm.Spelled.length_lt {s : SumForm} {cs rest : List Char}
    (h : s.Spelled cs rest) : rest.length < cs.length := by
  match s, h with
  | ⟨false, a, ss⟩, .positive ha hss =>
    have hfirst := AtomForm.Spelled.length_lt ha
    have hrest := SummandForm.SpelledEach.length_le hss
    omega
  | ⟨true, a, ss⟩, .negative hcs hafter ha hss =>
    have hfirst := AtomForm.Spelled.length_lt ha
    have hrest := SummandForm.SpelledEach.length_le hss
    have hafter := hafter.length_le
    rw [hcs, List.length_cons]
    omega
termination_by structural s

/-- A list of arguments is no longer than its text. -/
theorem SumForm.SpelledEach.length_le {ss : List SumForm} {cs rest : List Char}
    (h : SumForm.SpelledEach ss cs rest) : rest.length ≤ cs.length := by
  match ss, h with
  | [], .nil => exact Nat.le_refl _
  | s :: ss, .cons hs hss =>
    have hfirst := SumForm.Spelled.length_lt hs
    have hrest := SumForm.SpelledMore.length_le hss
    omega
termination_by structural ss

/-- A list of further arguments is no longer than its text. -/
theorem SumForm.SpelledMore.length_le {ss : List SumForm} {cs rest : List Char}
    (h : SumForm.SpelledMore ss cs rest) : rest.length ≤ cs.length := by
  match ss, h with
  | [], .nil => exact Nat.le_refl _
  | s :: ss, .cons hbefore hafter hs hss =>
    have hfirst := SumForm.Spelled.length_lt hs
    have hrest := SumForm.SpelledMore.length_le hss
    have hbefore := hbefore.length_lt
    have hafter := hafter.length_le
    omega
termination_by structural ss

/-- A list of summands is no longer than its text. -/
theorem SummandForm.SpelledEach.length_le {ss : List SummandForm} {cs rest : List Char}
    (h : SummandForm.SpelledEach ss cs rest) : rest.length ≤ cs.length := by
  match ss, h with
  | [], .nil => exact Nat.le_refl _
  | ⟨_, a⟩ :: ss, .cons hbefore hafter ha hss =>
    have hfirst := AtomForm.Spelled.length_lt ha
    have hrest := SummandForm.SpelledEach.length_le hss
    have hbefore := hbefore.length_lt
    have hafter := hafter.length_le
    omega
termination_by structural ss

end

end AffineCalls
