import AffineCalls.Coeff

/-!
# Affine expressions

An expression is a sum of terms, each a coefficient times a factor. A factor is
the number one, a position of the surrounding tuple, a symbol, or a call of an
uninterpreted function on expressions. Sums keep their terms in order; the
functions that build them merge terms with equal factors.
-/

namespace AffineCalls

mutual

/-- What a coefficient multiplies. -/
inductive Factor where
  /-- The number one: the factor of a literal. -/
  | one
  /-- A position of the surrounding tuple, counted from zero. -/
  | position (index : Nat)
  /-- A named unknown. -/
  | symbol (name : String)
  /-- The value of an uninterpreted function. -/
  | call (call : Call)

/-- The application of a named function to a list of expressions. -/
structure Call where
  /-- The function's name. -/
  name : String
  /-- The arguments, in order. -/
  args : List Expr

/-- A sum of terms. -/
structure Expr where
  /-- The summands, in order. -/
  terms : List Term

/-- A coefficient times a factor. -/
structure Term where
  /-- The multiplier; for a literal, its value. -/
  coeff : Coeff
  /-- The factor that is multiplied. -/
  factor : Factor

end

/-- Whether a factor is a call. -/
def Factor.isCall : Factor → Bool
  | .call _ => true
  | _ => false

namespace Term

/-- The literal with a given value. -/
def literal (c : Coeff) : Term := ⟨c, .one⟩

/-- A factor taken once. -/
def ofFactor (f : Factor) : Term := ⟨1, f⟩

/-- The same factor with another coefficient. -/
def withCoeff (t : Term) (c : Coeff) : Term := ⟨c, t.factor⟩

end Term

/-- The number of arguments of a call. -/
def Call.arity (c : Call) : Nat := c.args.length

namespace Expr

/-- The empty sum. -/
instance : Zero Expr := ⟨⟨[]⟩⟩

instance : Inhabited Expr := ⟨0⟩

/-- Whether an expression is the empty sum. -/
def isZero (e : Expr) : Bool := e.terms.isEmpty

/-- Whether some summand is a call. -/
def hasCalls (e : Expr) : Bool := e.terms.any (·.factor.isCall)

@[simp] theorem terms_zero : (0 : Expr).terms = [] := rfl

end Expr

end AffineCalls
