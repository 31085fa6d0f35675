import AffineCalls.Expr.Sum
import AffineCalls.Proofs.Outcome
import AffineCalls.Proofs.Text.Scan

/-!
# Written forms of expressions

The grammar of expressions, apart from any way of reading them. A form is the tree
of a derivation: it keeps the order of the atoms, their signs and the parentheses,
but not the separators, which may stand between any two tokens except between the
name of a function and its parenthesis. `Spelled` says which texts spell a form,
and `eval` computes the expression that the form stands for with checked arithmetic.
-/

namespace AffineCalls

mutual

/-- The form of a factor. -/
inductive FactorForm where
  /-- A tuple position. -/
  | position (index : Nat)
  /-- A symbol. -/
  | symbol (name : String)
  /-- A function name and, in parentheses and with commas between them, its arguments. -/
  | call (name : String) (args : List SumForm)

/-- The form of an atom. -/
inductive AtomForm where
  /-- A number, an asterisk and a factor. -/
  | multiple (n : Nat) (factor : FactorForm)
  /-- A number. -/
  | number (n : Nat)
  /-- A factor. -/
  | factor (factor : FactorForm)
  /-- An expression in parentheses. -/
  | parens (sum : SumForm)

/-- The form of an expression: atoms with signs between them. -/
structure SumForm where
  /-- Whether a minus sign stands in front. -/
  negative : Bool
  /-- The first atom. -/
  first : AtomForm
  /-- The atoms that follow. -/
  rest : List SummandForm

/-- An atom with the sign in front of it. -/
structure SummandForm where
  /-- Whether the sign is a minus sign. -/
  negative : Bool
  /-- The atom. -/
  atom : AtomForm

end

/-- The sign in front of a summand. -/
def SummandForm.sign (s : SummandForm) : Char := if s.negative then '-' else '+'

mutual

/-- `f.Spelled cs rest`: the text `cs` is a spelling of the factor followed by `rest`. -/
inductive FactorForm.Spelled : FactorForm → List Char → List Char → Prop
  | position {i : Nat} {word cs rest : List Char} (hcs : cs = word ++ rest)
    (hword : Text.SpellsPosition word i) : FactorForm.Spelled (.position i) cs rest
  | symbol {name : String} {cs rest : List Char} (hcs : cs = name.toList ++ rest)
    (hname : Text.IsName name) : FactorForm.Spelled (.symbol name) cs rest
  | call {name : String} {args : List SumForm} {cs cs₁ cs₂ cs₃ rest : List Char}
    (hcs : cs = name.toList ++ '(' :: cs₁) (hname : Text.IsName name) (hopen : Text.Skip cs₁ cs₂)
    (hargs : SumForm.SpelledEach args cs₂ cs₃) (hclose : Text.Skip cs₃ (')' :: rest)) :
    FactorForm.Spelled (.call name args) cs rest

/-- `a.Spelled cs rest`: the text `cs` is a spelling of the atom followed by `rest`. -/
inductive AtomForm.Spelled : AtomForm → List Char → List Char → Prop
  | multiple {n : Nat} {f : FactorForm} {ds cs cs₁ cs₂ cs₃ rest : List Char}
    (hcs : cs = ds ++ cs₁) (hds : Text.SpellsNumber ds n) (hbefore : Text.Skip cs₁ ('*' :: cs₂))
    (hafter : Text.Skip cs₂ cs₃) (hf : f.Spelled cs₃ rest) :
    AtomForm.Spelled (.multiple n f) cs rest
  | number {n : Nat} {ds cs rest : List Char} (hcs : cs = ds ++ rest)
    (hds : Text.SpellsNumber ds n) : AtomForm.Spelled (.number n) cs rest
  | factor {f : FactorForm} {cs rest : List Char} (hf : f.Spelled cs rest) :
    AtomForm.Spelled (.factor f) cs rest
  | parens {s : SumForm} {cs cs₁ cs₂ cs₃ rest : List Char} (hcs : cs = '(' :: cs₁)
    (hopen : Text.Skip cs₁ cs₂) (hs : s.Spelled cs₂ cs₃) (hclose : Text.Skip cs₃ (')' :: rest)) :
    AtomForm.Spelled (.parens s) cs rest

/-- `s.Spelled cs rest`: the text `cs` is a spelling of the expression followed by `rest`. -/
inductive SumForm.Spelled : SumForm → List Char → List Char → Prop
  | positive {a : AtomForm} {ss : List SummandForm} {cs cs₁ rest : List Char}
    (ha : a.Spelled cs cs₁) (hss : SummandForm.SpelledEach ss cs₁ rest) :
    SumForm.Spelled ⟨false, a, ss⟩ cs rest
  | negative {a : AtomForm} {ss : List SummandForm} {cs cs₁ cs₂ cs₃ rest : List Char}
    (hcs : cs = '-' :: cs₁) (hafter : Text.Skip cs₁ cs₂) (ha : a.Spelled cs₂ cs₃)
    (hss : SummandForm.SpelledEach ss cs₃ rest) : SumForm.Spelled ⟨true, a, ss⟩ cs rest

/-- The text is a spelling of arguments with commas between them, followed by `rest`. -/
inductive SumForm.SpelledEach : List SumForm → List Char → List Char → Prop
  | nil {cs : List Char} : SumForm.SpelledEach [] cs cs
  | cons {s : SumForm} {ss : List SumForm} {cs cs₁ rest : List Char} (hs : s.Spelled cs cs₁)
    (hss : SumForm.SpelledMore ss cs₁ rest) : SumForm.SpelledEach (s :: ss) cs rest

/-- The text is a spelling of arguments with a comma before each, followed by `rest`. -/
inductive SumForm.SpelledMore : List SumForm → List Char → List Char → Prop
  | nil {cs : List Char} : SumForm.SpelledMore [] cs cs
  | cons {s : SumForm} {ss : List SumForm} {cs cs₁ cs₂ cs₃ rest : List Char}
    (hbefore : Text.Skip cs (',' :: cs₁)) (hafter : Text.Skip cs₁ cs₂) (hs : s.Spelled cs₂ cs₃)
    (hss : SumForm.SpelledMore ss cs₃ rest) : SumForm.SpelledMore (s :: ss) cs rest

/-- The text is a spelling of summands with their signs, followed by `rest`. -/
inductive SummandForm.SpelledEach : List SummandForm → List Char → List Char → Prop
  | nil {cs : List Char} : SummandForm.SpelledEach [] cs cs
  | cons {s : SummandForm} {ss : List SummandForm} {cs cs₁ cs₂ cs₃ rest : List Char}
    (hbefore : Text.Skip cs (s.sign :: cs₁)) (hafter : Text.Skip cs₁ cs₂)
    (ha : s.atom.Spelled cs₂ cs₃) (hss : SummandForm.SpelledEach ss cs₃ rest) :
    SummandForm.SpelledEach (s :: ss) cs rest

end

/-- The value of an atom with a sign. -/
def Expr.signed (negative : Bool) (e : Expr) : Except Overflow Expr :=
  if negative then e.scale .minusOne else .ok e

mutual

/-- The factor that a form stands for. -/
def FactorForm.eval : FactorForm → Except Overflow Factor
  | .position i => .ok (.position i)
  | .symbol name => .ok (.symbol name)
  | .call name args => do
    let args' ← SumForm.evalEach args
    return .call ⟨name, args'⟩
termination_by structural f => f

/-- The expression that an atom stands for. A number must be in the range of coefficients. -/
def AtomForm.eval : AtomForm → Except Overflow Expr
  | .multiple n f => do
    let c ← Coeff.checked n
    let f' ← f.eval
    return .ofTerm ⟨c, f'⟩
  | .number n => do
    let c ← Coeff.checked n
    return .ofCoeff c
  | .factor f => do
    let f' ← f.eval
    return .ofTerm (.ofFactor f')
  | .parens s => s.eval
termination_by structural a => a

/-- The expression that a form stands for: the signed atoms, added from left to right. -/
def SumForm.eval : SumForm → Except Overflow Expr
  | ⟨negative, first, rest⟩ => do
    let e ← first.eval
    let e' ← e.signed negative
    SummandForm.evalOnto rest e'
termination_by structural s => s

/-- The expressions that a list of forms stands for. -/
def SumForm.evalEach : List SumForm → Except Overflow (List Expr)
  | [] => .ok []
  | s :: ss => do
    let e ← s.eval
    let es ← SumForm.evalEach ss
    return e :: es
termination_by structural ss => ss

/-- Adds the values of summands to an expression. -/
def SummandForm.evalOnto : List SummandForm → Expr → Except Overflow Expr
  | [], e => .ok e
  | s :: ss, e => do
    let e' ← s.eval
    let sum ← e.add e'
    SummandForm.evalOnto ss sum
termination_by structural ss => ss

/-- The value of a summand with its sign. -/
def SummandForm.eval : SummandForm → Except Overflow Expr
  | ⟨negative, atom⟩ => do
    let e ← atom.eval
    e.signed negative
termination_by structural s => s

end

/-! ## Forms that stand for something -/

/-- A call stands for something exactly when its arguments do. -/
theorem FactorForm.eval_call_eq_ok {name : String} {args : List SumForm} {v : Factor} :
    (FactorForm.call name args).eval = .ok v ↔
      ∃ es, SumForm.evalEach args = .ok es ∧ .call ⟨name, es⟩ = v := by
  rw [FactorForm.eval]
  exact bind_pure_eq_ok

/-- A multiple stands for something exactly when the number is a coefficient and the
factor stands for something. -/
theorem AtomForm.eval_multiple_eq_ok {n : Nat} {f : FactorForm} {e : Expr} :
    (AtomForm.multiple n f).eval = .ok e ↔
      ∃ c, Coeff.checked n = .ok c ∧ ∃ v, f.eval = .ok v ∧ .ofTerm ⟨c, v⟩ = e := by
  rw [AtomForm.eval, bind_eq_ok]
  exact exists_congr fun c => and_congr_right fun _ => bind_pure_eq_ok

/-- A number stands for something exactly when it is a coefficient. -/
theorem AtomForm.eval_number_eq_ok {n : Nat} {e : Expr} :
    (AtomForm.number n).eval = .ok e ↔ ∃ c, Coeff.checked n = .ok c ∧ .ofCoeff c = e := by
  rw [AtomForm.eval]
  exact bind_pure_eq_ok

/-- A factor alone stands for the sum of the factor. -/
theorem AtomForm.eval_factor_eq_ok {f : FactorForm} {e : Expr} :
    (AtomForm.factor f).eval = .ok e ↔ ∃ v, f.eval = .ok v ∧ .ofTerm (.ofFactor v) = e := by
  rw [AtomForm.eval]
  exact bind_pure_eq_ok

/-- Parentheses do not change what an expression stands for. -/
theorem AtomForm.eval_parens (s : SumForm) : (AtomForm.parens s).eval = s.eval := by
  rw [AtomForm.eval]

/-- A summand stands for its atom with the sign. -/
theorem SummandForm.eval_eq_ok {s : SummandForm} {e : Expr} :
    s.eval = .ok e ↔ ∃ a, s.atom.eval = .ok a ∧ a.signed s.negative = .ok e := by
  obtain ⟨negative, atom⟩ := s
  rw [SummandForm.eval]
  exact bind_eq_ok

/-- A sum stands for something exactly when the first atom does and the summands can be
added to it. -/
theorem SumForm.eval_eq_ok {negative : Bool} {a : AtomForm} {ss : List SummandForm} {e : Expr} :
    (SumForm.mk negative a ss).eval = .ok e ↔
      ∃ x, a.eval = .ok x ∧ ∃ y, x.signed negative = .ok y ∧ SummandForm.evalOnto ss y = .ok e := by
  rw [SumForm.eval, bind_eq_ok]
  exact exists_congr fun x => and_congr_right fun _ => bind_eq_ok

/-- A list stands for something exactly when its first member and the others do. -/
theorem SumForm.evalEach_cons_eq_ok {s : SumForm} {ss : List SumForm} {es : List Expr} :
    SumForm.evalEach (s :: ss) = .ok es ↔
      ∃ e, s.eval = .ok e ∧ ∃ es', SumForm.evalEach ss = .ok es' ∧ e :: es' = es := by
  rw [SumForm.evalEach, bind_eq_ok]
  exact exists_congr fun e => and_congr_right fun _ => bind_pure_eq_ok

/-- Summands are added exactly when the first one is and the others are added to the sum. -/
theorem SummandForm.evalOnto_cons_eq_ok {s : SummandForm} {ss : List SummandForm} {e x : Expr} :
    SummandForm.evalOnto (s :: ss) e = .ok x ↔
      ∃ y, s.eval = .ok y ∧ ∃ sum, e.add y = .ok sum ∧ SummandForm.evalOnto ss sum = .ok x := by
  rw [SummandForm.evalOnto, bind_eq_ok]
  exact exists_congr fun y => and_congr_right fun _ => bind_eq_ok

end AffineCalls
