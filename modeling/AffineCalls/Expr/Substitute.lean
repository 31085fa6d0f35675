import AffineCalls.Expr.Sum

/-!
# Substituting for symbols and calls

A substitution says what takes the place of each symbol and of each call. It is
applied from the innermost calls outwards and from left to right, and each new
term is added to the sum before the next one is looked at, because distinct factors
may become equal and their coefficients may then overflow. The effects of a
substitution, such as filing the calls that it meets, take place in that order.
-/

namespace AffineCalls

/-- What takes the place of a symbol, and of a call whose arguments are done. -/
structure Substitution (m : Type → Type) [Monad m] where
  /-- The factor that takes the place of a symbol. -/
  symbol : String → m Factor := fun name => pure (.symbol name)
  /-- The factor that takes the place of a call. -/
  call : Call → m Factor := fun c => pure (.call c)

section

variable {m : Type → Type} [Monad m] [MonadLiftT (Except Overflow) m]

mutual

/-- Substitutes in a factor. -/
def Factor.substitute (σ : Substitution m) : Factor → m Factor
  | .one => pure .one
  | .position i => pure (.position i)
  | .symbol name => σ.symbol name
  | .call c => do
    let c' ← c.substituteArgs σ
    σ.call c'
termination_by structural f => f

/-- Substitutes in the arguments of a call. -/
def Call.substituteArgs (σ : Substitution m) : Call → m Call
  | ⟨name, args⟩ => do
    let args' ← Expr.substituteEach σ args
    return ⟨name, args'⟩
termination_by structural c => c

/-- Substitutes in the members of a list of expressions. -/
def Expr.substituteEach (σ : Substitution m) : List Expr → m (List Expr)
  | [] => pure []
  | e :: es => do
    let e' ← e.substitute σ
    let es' ← Expr.substituteEach σ es
    return e' :: es'
termination_by structural es => es

/-- Substitutes in an expression. -/
def Expr.substitute (σ : Substitution m) : Expr → m Expr
  | ⟨ts⟩ => Term.substituteOnto σ ts 0
termination_by structural e => e

/-- Substitutes in terms and adds each one to a sum. -/
def Term.substituteOnto (σ : Substitution m) : List Term → Expr → m Expr
  | [], sum => pure sum
  | t :: ts, sum => do
    let t' ← t.substitute σ
    let sum' ← liftM (sum.addTerm t')
    Term.substituteOnto σ ts sum'
termination_by structural ts => ts

/-- Substitutes in the factor of a term. -/
def Term.substitute (σ : Substitution m) : Term → m Term
  | ⟨c, f⟩ => do
    let f' ← f.substitute σ
    return ⟨c, f'⟩
termination_by structural t => t

end

end

end AffineCalls
