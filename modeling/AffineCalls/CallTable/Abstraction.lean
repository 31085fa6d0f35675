import AffineCalls.CallTable.Basic
import AffineCalls.Expr.Substitute

/-!
# Abstracting calls and restoring them

Abstraction replaces every call of an expression by its placeholder, innermost
calls first, and enters the calls in a table. Restoration goes the other way: a
symbol that is named like a placeholder becomes the call that it stands for, with
the arguments restored in turn. Both add up their results term by term, so both
may overflow.
-/

namespace AffineCalls

/-- A computation that enters calls in a table. What was entered stays entered if
the computation fails later on. -/
abbrev Filing (α : Type) : Type := Update CallTable Overflow α

/-- Enters a call and gives its placeholder as a factor. -/
def Filing.file (c : Call) : Filing Factor := do
  let p ← modifyGetThe CallTable fun t => t.insert c
  return p.factor

namespace CallTable

/-- An expression with its calls replaced by placeholders, or an overflow, and the
table in which these calls are entered. -/
def abstract (t : CallTable) (e : Expr) : Except Overflow Expr × CallTable :=
  (e.substitute { call := Filing.file } : Filing Expr).outcome t

/-- The factor that a symbol stands for: the call that it is the placeholder of,
with restored arguments, or else the symbol itself. The key of a call is longer
than any placeholder inside the call, so only shorter names are restored there. -/
def restoreSymbol (t : CallTable) (name : String) : Except Overflow Factor :=
  match t.callNamed? name with
  | none => .ok (.symbol name)
  | some c => do
    let shorter (inner : String) : Except Overflow Factor :=
      if inner.length < name.length then t.restoreSymbol inner else .ok (.symbol inner)
    let c' ← c.substituteArgs { symbol := shorter }
    return .call c'
termination_by name.length

/-- An expression with placeholders replaced by the calls that they stand for. -/
def restore (t : CallTable) (e : Expr) : Except Overflow Expr :=
  e.substitute { symbol := t.restoreSymbol }

end CallTable

end AffineCalls
