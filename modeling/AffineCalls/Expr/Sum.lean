import AffineCalls.Expr.Equality
import AffineCalls.Update

/-!
# Sums of terms

Adding a term to a sum merges it with the summand of the same factor, in that
summand's place. A summand whose coefficient becomes zero disappears, and a new
factor goes to the end. Each coefficient is checked as it arises, so the order of
the terms decides whether a sum overflows.

An expression that is held is changed in place; where a sum is formed for itself, only
the result of such a step is of interest.
-/

namespace AffineCalls

/-- Adds a term to a list of summands: to the first one of the same factor, or
at the end. -/
def Term.addTo (t : Term) : List Term → Except Overflow (List Term)
  | [] => .ok [t]
  | u :: us =>
    if u.factor = t.factor then do
      let c ← u.coeff.add t.coeff
      return if c = 0 then us else u.withCoeff c :: us
    else do
      return u :: (← t.addTo us)

namespace Expr

/-- Adds a term to the expression that is held. A term with coefficient zero adds nothing. -/
def InPlace.addTerm (t : Term) : Update Expr Overflow Unit := do
  unless t.coeff = 0 do
    let us ← t.addTo (← get).terms
    set (Expr.mk us)

/-- The sum with a term added. -/
def addTerm (e : Expr) (t : Term) : Except Overflow Expr :=
  (InPlace.addTerm t).result e

/-- The sum of a list of terms, added from left to right. -/
def sum (ts : List Term) : Except Overflow Expr :=
  ts.foldlM addTerm 0

/-- Adds every summand of a second expression to the one that is held, from left to right. The
terms are added to a copy, which takes the place of the expression when all are added. -/
def InPlace.add (o : Expr) : Update Expr Overflow Unit := do
  let s ← (o.terms.foldlM Expr.addTerm (← get) : Except Overflow Expr)
  set s

/-- The sum of two expressions. -/
def add (e o : Expr) : Except Overflow Expr :=
  (InPlace.add o).result e

/-- Multiplies every summand of the expression that is held. Zero times a sum is the empty
sum. -/
def InPlace.scale (c : Coeff) : Update Expr Overflow Unit := do
  if c = 0 then
    set (0 : Expr)
  else
    let us ← ((← get).terms.mapM fun t => return t.withCoeff (← t.coeff.mul c) :
      Except Overflow (List Term))
    set (Expr.mk us)

/-- The multiple of an expression. -/
def scale (c : Coeff) (e : Expr) : Except Overflow Expr :=
  (InPlace.scale c).result e

/-- The sum of one term. -/
def ofTerm (t : Term) : Expr :=
  if t.coeff = 0 then 0 else ⟨[t]⟩

/-- The expression with a constant value. -/
def ofCoeff (c : Coeff) : Expr :=
  ofTerm (.literal c)

/-- A term is added to the list of summands unless its coefficient is zero. -/
theorem addTerm_eq (e : Expr) (t : Term) :
    e.addTerm t = if t.coeff = 0 then .ok e else (t.addTo e.terms).map mk := by
  rw [addTerm, InPlace.addTerm]
  by_cases h : t.coeff = 0
  · rw [if_pos h, if_pos h, Update.result_pure]
  · rw [if_neg h, if_neg h, Update.result_replace]

/-- The summands of the second expression are added to the first one. -/
theorem add_eq (e o : Expr) : e.add o = o.terms.foldlM addTerm e := by
  rw [add, InPlace.add, Update.result_replace]
  exact congrFun Except.map_id _

/-- A multiple by a number other than zero has the multiples of all summands. -/
theorem scale_eq (c : Coeff) (e : Expr) :
    e.scale c =
      if c = 0 then .ok 0
      else do
        return ⟨← e.terms.mapM fun t => return t.withCoeff (← t.coeff.mul c)⟩ := by
  rw [scale, InPlace.scale]
  by_cases h : c = 0
  · rw [if_pos h, if_pos h, Update.result_set]
  · rw [if_neg h, if_neg h, Update.result_replace]
    rfl

end Expr

end AffineCalls
