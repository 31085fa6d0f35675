import AffineCalls.Expr.Reader
import AffineCalls.Proofs.Notation.Form
import AffineCalls.Proofs.Reader.Lexeme

/-!
# What is read has a written form

Whatever the reader takes from a text is spelled by a form there, and the value read
is what the form stands for. Each rule of the grammar passes this on from its parts.
The order of the alternatives matters in one place only: a symbol is tried after a
tuple position, so what is read as a symbol is a name.
-/

namespace AffineCalls

open Reader (taken_bind_eq_some taken_orElse_eq_some taken_inRange_eq_some taken_blanks_bind
  taken_literal_eq_some taken_literal_behind_gap taken_identifier_eq_some taken_position_eq_some
  taken_number_eq_some taken_comma_eq_some)

/-- `FactorForm.Derives cs f rest`: some form of the factor is spelled from `cs` up to `rest`. -/
def FactorForm.Derives (cs : List Char) (f : Factor) (rest : List Char) : Prop :=
  ∃ g : FactorForm, g.Spelled cs rest ∧ g.eval = .ok f

/-- `AtomForm.Derives cs e rest`: some form of the atom is spelled from `cs` up to `rest`. -/
def AtomForm.Derives (cs : List Char) (e : Expr) (rest : List Char) : Prop :=
  ∃ a : AtomForm, a.Spelled cs rest ∧ a.eval = .ok e

/-- `SumForm.Derives cs e rest`: some form of the expression is spelled from `cs` up to `rest`. -/
def SumForm.Derives (cs : List Char) (e : Expr) (rest : List Char) : Prop :=
  ∃ s : SumForm, s.Spelled cs rest ∧ s.eval = .ok e

/-- Where no tuple position stands, an identifier is a name. -/
theorem Text.isName_of_taken {cs rest : List Char} {name : String}
    (hposition : Reader.position.taken cs = none)
    (h : Reader.identifier.taken cs = some (name, rest)) : Text.IsName name := by
  obtain ⟨hcs, hident, hstop⟩ := taken_identifier_eq_some.mp h
  refine ⟨hident, fun i hi => ?_⟩
  have hsome := taken_position_eq_some.mpr ⟨name.toList, hcs, hi, hstop⟩
  rw [hposition] at hsome
  exact nomatch hsome

section Rules

variable {expr : Reader Expr}
  (hexpr : ∀ cs e rest, expr.taken cs = some (e, rest) → SumForm.Derives cs e rest)

include hexpr

/-- The arguments read behind a first one are spelled with a comma before each. -/
theorem SumForm.spelledMore_of_taken {cs rest : List Char} {es : List Expr}
    (h : (Reader.many (do Reader.comma; expr)).taken cs = some (es, rest)) :
    ∃ ss, SumForm.SpelledMore ss cs rest ∧ SumForm.evalEach ss = .ok es := by
  refine Reader.taken_many_induction
    (R := fun cs es rest => ∃ ss, SumForm.SpelledMore ss cs rest ∧ SumForm.evalEach ss = .ok es)
    (fun cs => ⟨[], .nil, rfl⟩) ?_ h
  rintro cs e mid es rest hstep ⟨ss, hss, heval⟩
  obtain ⟨_, cs₁, hcomma, he⟩ := taken_bind_eq_some.mp hstep
  obtain ⟨ds, hds, hcs₁⟩ := taken_comma_eq_some.mp hcomma
  obtain ⟨s, hs, hvalue⟩ := hexpr _ _ _ he
  refine ⟨s :: ss, .cons (hds ▸ Text.skip_dropWhile cs) (hcs₁ ▸ Text.skip_dropWhile ds) hs hss, ?_⟩
  exact SumForm.evalEach_cons_eq_ok.mpr ⟨e, hvalue, es, heval, rfl⟩

/-- The arguments read are spelled with commas between them. -/
theorem SumForm.spelledEach_of_taken {cs rest : List Char} {es : List Expr}
    (h : (Reader.sepBy expr Reader.comma).taken cs = some (es, rest)) :
    ∃ ss, SumForm.SpelledEach ss cs rest ∧ SumForm.evalEach ss = .ok es := by
  rcases Reader.taken_sepBy_eq_some h with ⟨e, mid, es', he, hmore, rfl⟩ | ⟨rfl, rfl⟩
  · obtain ⟨s, hs, hvalue⟩ := hexpr _ _ _ he
    obtain ⟨ss, hss, heval⟩ := SumForm.spelledMore_of_taken hexpr hmore
    refine ⟨s :: ss, .cons hs hss, ?_⟩
    exact SumForm.evalEach_cons_eq_ok.mpr ⟨e, hvalue, es', heval, rfl⟩
  · exact ⟨[], .nil, rfl⟩

/-- What is read as a factor is spelled by a form. -/
theorem FactorForm.derives_of_taken {cs rest : List Char} {f : Factor}
    (h : (Expr.factorRule expr).taken cs = some (f, rest)) : FactorForm.Derives cs f rest := by
  unfold Expr.factorRule at h
  rcases taken_orElse_eq_some.mp h with h | ⟨hnone, h⟩
  · obtain ⟨i, cs₁, hi, h⟩ := taken_bind_eq_some.mp h
    cases h
    obtain ⟨word, hcs, hword, _⟩ := taken_position_eq_some.mp hi
    exact ⟨.position i, .position hcs hword, rfl⟩
  · have hposition : Reader.position.taken cs = none := by
      rw [Reader.taken_bind, Option.bind_eq_none_iff] at hnone
      cases hi : Reader.position.taken cs with
      | none => rfl
      | some x => exact nomatch hnone x hi
    rcases taken_orElse_eq_some.mp h with h | ⟨_, h⟩
    · obtain ⟨name, cs₁, hname, h⟩ := taken_bind_eq_some.mp h
      obtain ⟨_, cs₂, hopen, h⟩ := taken_bind_eq_some.mp h
      rw [taken_blanks_bind] at h
      obtain ⟨es, cs₃, hargs, h⟩ := taken_bind_eq_some.mp h
      rw [taken_blanks_bind] at h
      obtain ⟨_, cs₄, hclose, h⟩ := taken_bind_eq_some.mp h
      cases h
      obtain ⟨hcs, _, _⟩ := taken_identifier_eq_some.mp hname
      obtain ⟨ss, hss, heval⟩ := SumForm.spelledEach_of_taken hexpr hargs
      refine ⟨.call name ss, .call ?_ (Text.isName_of_taken hposition hname)
        (Text.skip_dropWhile cs₂) hss ((taken_literal_behind_gap rfl rfl).mp hclose), ?_⟩
      · rw [hcs, taken_literal_eq_some.mp hopen]
        rfl
      · exact FactorForm.eval_call_eq_ok.mpr ⟨es, heval, rfl⟩
    · obtain ⟨name, cs₁, hname, h⟩ := taken_bind_eq_some.mp h
      cases h
      obtain ⟨hcs, _, _⟩ := taken_identifier_eq_some.mp hname
      exact ⟨.symbol name, .symbol hcs (Text.isName_of_taken hposition hname), rfl⟩

/-- What is read as an atom is spelled by a form. -/
theorem AtomForm.derives_of_taken {cs rest : List Char} {e : Expr}
    (h : (Expr.atomRule expr).taken cs = some (e, rest)) : AtomForm.Derives cs e rest := by
  unfold Expr.atomRule at h
  rcases taken_orElse_eq_some.mp h with h | ⟨_, h⟩
  · obtain ⟨c, cs₁, hc, h⟩ := taken_bind_eq_some.mp h
    rw [taken_blanks_bind] at h
    obtain ⟨_, cs₂, hstar, h⟩ := taken_bind_eq_some.mp h
    rw [taken_blanks_bind] at h
    obtain ⟨f, cs₃, hf, h⟩ := taken_bind_eq_some.mp h
    cases h
    obtain ⟨ds, n, hcs, hds, _, hn⟩ := taken_number_eq_some.mp hc
    obtain ⟨g, hg, hvalue⟩ := FactorForm.derives_of_taken hexpr hf
    refine ⟨.multiple n g, .multiple hcs hds ((taken_literal_behind_gap rfl rfl).mp hstar)
      (Text.skip_dropWhile cs₂) hg, ?_⟩
    exact AtomForm.eval_multiple_eq_ok.mpr ⟨c, hn, f, hvalue, rfl⟩
  rcases taken_orElse_eq_some.mp h with h | ⟨_, h⟩
  · obtain ⟨c, cs₁, hc, h⟩ := taken_bind_eq_some.mp h
    cases h
    obtain ⟨ds, n, hcs, hds, _, hn⟩ := taken_number_eq_some.mp hc
    refine ⟨.number n, .number hcs hds, ?_⟩
    exact AtomForm.eval_number_eq_ok.mpr ⟨c, hn, rfl⟩
  rcases taken_orElse_eq_some.mp h with h | ⟨_, h⟩
  · obtain ⟨f, cs₁, hf, h⟩ := taken_bind_eq_some.mp h
    cases h
    obtain ⟨g, hg, hvalue⟩ := FactorForm.derives_of_taken hexpr hf
    refine ⟨.factor g, .factor hg, ?_⟩
    exact AtomForm.eval_factor_eq_ok.mpr ⟨f, hvalue, rfl⟩
  · obtain ⟨_, cs₁, hopen, h⟩ := taken_bind_eq_some.mp h
    rw [taken_blanks_bind] at h
    obtain ⟨e', cs₂, he, h⟩ := taken_bind_eq_some.mp h
    rw [taken_blanks_bind] at h
    obtain ⟨_, cs₃, hclose, h⟩ := taken_bind_eq_some.mp h
    cases h
    obtain ⟨s, hs, hvalue⟩ := hexpr _ _ _ he
    refine ⟨.parens s, .parens (taken_literal_eq_some.mp hopen) (Text.skip_dropWhile cs₁) hs
      ((taken_literal_behind_gap rfl rfl).mp hclose), ?_⟩
    rw [AtomForm.eval_parens]
    exact hvalue

/-- What is read behind a minus sign is a negated atom. -/
theorem AtomForm.derives_of_taken_negated {cs rest : List Char} {e : Expr}
    (h : (Expr.negatedRule expr).taken cs = some (e, rest)) :
    ∃ cs₁ cs₂ e', cs = '-' :: cs₁ ∧ Text.Skip cs₁ cs₂ ∧ AtomForm.Derives cs₂ e' rest ∧
      e'.signed true = .ok e := by
  unfold Expr.negatedRule at h
  obtain ⟨_, cs₁, hminus, h⟩ := taken_bind_eq_some.mp h
  rw [taken_blanks_bind] at h
  obtain ⟨e', cs₂, he, h⟩ := taken_bind_eq_some.mp h
  obtain ⟨hscale, rfl⟩ := taken_inRange_eq_some.mp h
  exact ⟨cs₁, _, e', taken_literal_eq_some.mp hminus, Text.skip_dropWhile cs₁,
    AtomForm.derives_of_taken hexpr he, hscale⟩

/-- A summand read behind others is spelled with its sign. -/
theorem SummandForm.spelled_of_taken {cs rest : List Char} {e : Expr}
    (h : (do Reader.blanks; Expr.summandRule expr : Reader Expr).taken cs = some (e, rest)) :
    ∃ (s : SummandForm) (cs₁ cs₂ : List Char), Text.Skip cs (s.sign :: cs₁) ∧
      Text.Skip cs₁ cs₂ ∧ s.atom.Spelled cs₂ rest ∧ s.eval = .ok e := by
  unfold Expr.summandRule at h
  rw [taken_blanks_bind] at h
  rcases taken_orElse_eq_some.mp h with h | ⟨_, h⟩
  · obtain ⟨_, cs₁, hplus, h⟩ := taken_bind_eq_some.mp h
    rw [taken_blanks_bind] at h
    obtain ⟨a, ha, hvalue⟩ := AtomForm.derives_of_taken hexpr h
    refine ⟨⟨false, a⟩, cs₁, _, (taken_literal_behind_gap rfl rfl).mp hplus,
      Text.skip_dropWhile cs₁, ha, ?_⟩
    exact SummandForm.eval_eq_ok.mpr ⟨e, hvalue, rfl⟩
  · obtain ⟨cs₁, cs₂, e', hcs, hafter, ⟨a, ha, hvalue⟩, hsigned⟩ :=
      AtomForm.derives_of_taken_negated hexpr h
    refine ⟨⟨true, a⟩, cs₁, cs₂, hcs ▸ Text.skip_dropWhile cs, hafter, ha, ?_⟩
    exact SummandForm.eval_eq_ok.mpr ⟨e', hvalue, hsigned⟩

/-- The summands read behind a first atom are spelled with their signs. -/
theorem SummandForm.spelledEach_of_taken {cs rest : List Char} {es : List Expr}
    (h : (Reader.many (do Reader.blanks; Expr.summandRule expr)).taken cs = some (es, rest)) :
    ∃ ss, SummandForm.SpelledEach ss cs rest ∧
      ∀ e, SummandForm.evalOnto ss e = es.foldlM Expr.add e := by
  refine Reader.taken_many_induction
    (R := fun cs es rest => ∃ ss, SummandForm.SpelledEach ss cs rest ∧
      ∀ e, SummandForm.evalOnto ss e = es.foldlM Expr.add e)
    (fun cs => ⟨[], .nil, fun e => rfl⟩) ?_ h
  rintro cs e mid es rest hstep ⟨ss, hss, heval⟩
  obtain ⟨s, cs₁, cs₂, hbefore, hafter, ha, hvalue⟩ := SummandForm.spelled_of_taken hexpr hstep
  refine ⟨s :: ss, .cons hbefore hafter ha hss, fun e' => ?_⟩
  rw [SummandForm.evalOnto, hvalue, List.foldlM_cons]
  exact congrArg _ (funext heval)

/-- What is read as an expression is spelled by a form. -/
theorem SumForm.derives_of_taken_sumRule {cs rest : List Char} {e : Expr}
    (h : (Expr.sumRule expr).taken cs = some (e, rest)) : SumForm.Derives cs e rest := by
  unfold Expr.sumRule at h
  obtain ⟨first, cs₁, hfirst, h⟩ := taken_bind_eq_some.mp h
  obtain ⟨es, cs₂, hes, h⟩ := taken_bind_eq_some.mp h
  obtain ⟨hsum, rfl⟩ := taken_inRange_eq_some.mp h
  obtain ⟨ss, hss, heval⟩ := SummandForm.spelledEach_of_taken hexpr hes
  rcases taken_orElse_eq_some.mp hfirst with hfirst | ⟨_, hfirst⟩
  · obtain ⟨ds₁, ds₂, e', hcs, hafter, ⟨a, ha, hvalue⟩, hsigned⟩ :=
      AtomForm.derives_of_taken_negated hexpr hfirst
    refine ⟨⟨true, a, ss⟩, .negative hcs hafter ha hss, ?_⟩
    exact SumForm.eval_eq_ok.mpr ⟨e', hvalue, first, hsigned, (heval first).trans hsum⟩
  · obtain ⟨a, ha, hvalue⟩ := AtomForm.derives_of_taken hexpr hfirst
    refine ⟨⟨false, a, ss⟩, .positive ha hss, ?_⟩
    exact SumForm.eval_eq_ok.mpr ⟨first, hvalue, first, rfl, (heval first).trans hsum⟩

end Rules

/-- Whatever the reader takes is spelled by a form of the value. -/
theorem SumForm.derives_of_taken {cs rest : List Char} {e : Expr}
    (h : Expr.reader.taken cs = some (e, rest)) : SumForm.Derives cs e rest :=
  Reader.taken_fix_induction (fun _ hp _ _ _ h => SumForm.derives_of_taken_sumRule hp h) h

end AffineCalls
