import AffineCalls.Proofs.Notation.Completeness

/-!
# The reader accepts the grammar

A derivation of a text is a form that the text spells and whose numbers are all in the
range of coefficients. The grammar knows no order of alternatives and no longest match,
yet a text has one derivation at most. The text is read exactly when it has a derivation
that can be evaluated without overflow, and then as the value of this derivation.
-/

namespace AffineCalls

mutual

/-- The numbers written in a factor. -/
def FactorForm.numbers : FactorForm → List Nat
  | .position _ => []
  | .symbol _ => []
  | .call _ args => SumForm.numbersEach args
termination_by structural f => f

/-- The numbers written in an atom. -/
def AtomForm.numbers : AtomForm → List Nat
  | .multiple n f => n :: f.numbers
  | .number n => [n]
  | .factor f => f.numbers
  | .parens s => s.numbers
termination_by structural a => a

/-- The numbers written in an expression, at every depth. -/
def SumForm.numbers : SumForm → List Nat
  | ⟨_, first, rest⟩ => first.numbers ++ SummandForm.numbersEach rest
termination_by structural s => s

/-- The numbers written in a list of expressions. -/
def SumForm.numbersEach : List SumForm → List Nat
  | [] => []
  | s :: ss => s.numbers ++ SumForm.numbersEach ss
termination_by structural ss => ss

/-- The numbers written in a list of summands. -/
def SummandForm.numbersEach : List SummandForm → List Nat
  | [] => []
  | s :: ss => s.numbers ++ SummandForm.numbersEach ss
termination_by structural ss => ss

/-- The numbers written in a summand. -/
def SummandForm.numbers : SummandForm → List Nat
  | ⟨_, atom⟩ => atom.numbers
termination_by structural s => s

end

/-- `s.DerivedFrom cs`: the form is a derivation of the whole text. -/
structure SumForm.DerivedFrom (s : SumForm) (cs : List Char) : Prop where
  /-- The text spells the form. -/
  spelled : s.Spelled cs []
  /-- Every number in the form is at most the greatest coefficient. -/
  numbers : ∀ n ∈ s.numbers, n ≤ 9223372036854775807

/-- A number that is a coefficient is at most the greatest one. -/
theorem Coeff.le_of_checked {n : Nat} {c : Coeff} (h : checked n = .ok c) :
    n ≤ 9223372036854775807 := by
  have hval := checked_eq_ok_iff.mp h
  have hupper := c.upper
  omega

mutual

/-- A factor that stands for something has numbers in range only. -/
theorem FactorForm.numbers_le {f : FactorForm} {v : Factor} (h : f.eval = .ok v) :
    ∀ n ∈ f.numbers, n ≤ 9223372036854775807 := by
  match f with
  | .position i => exact nofun
  | .symbol name => exact nofun
  | .call name args =>
    obtain ⟨es, hes, _⟩ := FactorForm.eval_call_eq_ok.mp h
    exact SumForm.numbersEach_le hes
termination_by structural f

/-- An atom that stands for something has numbers in range only. -/
theorem AtomForm.numbers_le {a : AtomForm} {e : Expr} (h : a.eval = .ok e) :
    ∀ n ∈ a.numbers, n ≤ 9223372036854775807 := by
  match a with
  | .multiple m f =>
    obtain ⟨c, hc, v, hv, _⟩ := AtomForm.eval_multiple_eq_ok.mp h
    exact List.forall_mem_cons.mpr ⟨Coeff.le_of_checked hc, FactorForm.numbers_le hv⟩
  | .number m =>
    obtain ⟨c, hc, _⟩ := AtomForm.eval_number_eq_ok.mp h
    exact List.forall_mem_singleton.mpr (Coeff.le_of_checked hc)
  | .factor f =>
    obtain ⟨v, hv, _⟩ := AtomForm.eval_factor_eq_ok.mp h
    exact FactorForm.numbers_le hv
  | .parens s =>
    rw [AtomForm.eval_parens] at h
    exact SumForm.numbers_le h
termination_by structural a

/-- An expression that stands for something has numbers in range only. -/
theorem SumForm.numbers_le {s : SumForm} {e : Expr} (h : s.eval = .ok e) :
    ∀ n ∈ s.numbers, n ≤ 9223372036854775807 := by
  match s with
  | ⟨negative, a, ss⟩ =>
    obtain ⟨x, hx, y, _, hy⟩ := SumForm.eval_eq_ok.mp h
    exact List.forall_mem_append.mpr
      ⟨AtomForm.numbers_le hx, SummandForm.numbersEach_le hy⟩
termination_by structural s

/-- Arguments that stand for something have numbers in range only. -/
theorem SumForm.numbersEach_le {ss : List SumForm} {es : List Expr}
    (h : SumForm.evalEach ss = .ok es) :
    ∀ n ∈ SumForm.numbersEach ss, n ≤ 9223372036854775807 := by
  match ss with
  | [] => exact nofun
  | s :: ss =>
    obtain ⟨e, he, es', hes, _⟩ := SumForm.evalEach_cons_eq_ok.mp h
    exact List.forall_mem_append.mpr ⟨SumForm.numbers_le he, SumForm.numbersEach_le hes⟩
termination_by structural ss

/-- Summands that can be added have numbers in range only. -/
theorem SummandForm.numbersEach_le {ss : List SummandForm} {e x : Expr}
    (h : SummandForm.evalOnto ss e = .ok x) :
    ∀ n ∈ SummandForm.numbersEach ss, n ≤ 9223372036854775807 := by
  match ss with
  | [] => exact nofun
  | ⟨negative, a⟩ :: ss =>
    obtain ⟨y, hy, sum, _, hx⟩ := SummandForm.evalOnto_cons_eq_ok.mp h
    obtain ⟨z, hz, _⟩ := SummandForm.eval_eq_ok.mp hy
    exact List.forall_mem_append.mpr
      ⟨AtomForm.numbers_le hz, SummandForm.numbersEach_le hx⟩
termination_by structural ss

end

/-- A text is read as the values of its derivations. -/
theorem Expr.parse_eq_ok_iff {s : String} {e : Expr} :
    Expr.parse s = .ok e ↔
      ∃ d : SumForm, d.DerivedFrom (Text.trim s.toList) ∧ d.eval = .ok e := by
  rw [Expr.parse, Reader.readAll_eq_ok_iff, SumForm.taken_reader_iff]
  constructor
  · rintro ⟨d, hd, he⟩
    exact ⟨d, ⟨hd, SumForm.numbers_le he⟩, he⟩
  · rintro ⟨d, hd, he⟩
    exact ⟨d, hd.spelled, he⟩

/-- A text is refused if it is read as nothing. -/
theorem Expr.parse_eq_error {s : String} (h : ∀ e, Expr.parse s ≠ .ok e) :
    ∃ x, Expr.parse s = .error x := by
  cases hs : Expr.parse s with
  | ok e => exact absurd hs (h e)
  | error x => exact ⟨x, rfl⟩

/-- A text is read as an expression exactly when it has a derivation with this value. It is
refused if it has a derivation whose evaluation overflows, and if it has no derivation.
No text has two derivations. -/
theorem Expr.parse_iff_derivation :
    (∀ (s : String) (e : Expr), Expr.parse s = .ok e ↔
      ∃ d : SumForm, d.DerivedFrom (Text.trim s.toList) ∧ d.eval = .ok e) ∧
    (∀ (s : String) (d : SumForm) (o : Overflow), d.DerivedFrom (Text.trim s.toList) →
      d.eval = .error o → ∃ x, Expr.parse s = .error x) ∧
    (∀ s : String, (∀ d : SumForm, ¬d.DerivedFrom (Text.trim s.toList)) →
      ∃ x, Expr.parse s = .error x) ∧
    ∀ (cs : List Char) (d d' : SumForm), d.DerivedFrom cs → d'.DerivedFrom cs → d = d' := by
  refine ⟨fun s e => Expr.parse_eq_ok_iff, fun s d o hd ho => ?_, fun s hnone => ?_,
    fun cs d d' hd hd' => SumForm.spelled_unique hd.spelled hd'.spelled⟩
  · refine Expr.parse_eq_error fun e he => ?_
    obtain ⟨d', hd', hvalue⟩ := Expr.parse_eq_ok_iff.mp he
    rw [SumForm.spelled_unique hd'.spelled hd.spelled, ho] at hvalue
    exact nomatch hvalue
  · refine Expr.parse_eq_error fun e he => ?_
    obtain ⟨d, hd, _⟩ := Expr.parse_eq_ok_iff.mp he
    exact hnone d hd

/-- The text `2 * x` is read as a multiple of `x`, and `9223372036854775807+1`, which has a
derivation, is refused. -/
theorem Expr.parse_derivation_multiple :
    Expr.parse "2 * x" = .ok ⟨[⟨⟨2, by decide, by decide⟩, .symbol "x"⟩]⟩ ∧
      ∃ x, Expr.parse "9223372036854775807+1" = .error x := by
  obtain ⟨hread, hoverflow, _⟩ := Expr.parse_iff_derivation
  constructor
  · have hmultiple : (AtomForm.multiple 2 (.symbol "x")).Spelled "2 * x".toList [] :=
      .multiple rfl (Text.spellsNumber_digits 2) (Text.skip_cons rfl _) (Text.skip_cons rfl _)
        (.symbol rfl (by decide))
    exact (hread _ _).mpr ⟨⟨false, _, []⟩, ⟨.positive hmultiple .nil, by decide⟩, rfl⟩
  · have hsum : (SumForm.mk false (.number 9223372036854775807) [⟨false, .number 1⟩]).Spelled
        "9223372036854775807+1".toList [] :=
      .positive (.number rfl (Text.spellsNumber_digits _))
        (.cons (.refl _) (.refl _) (.number rfl (Text.spellsNumber_digits 1)) .nil)
    exact hoverflow _ _ .coefficient ⟨hsum, by decide⟩ rfl

end AffineCalls
