import AffineCalls.Expr.Sum
import AffineCalls.Text.Decimal

/-!
# The text of expressions

Summands are written in their order with the sign between them. A coefficient
`1` is left out before a factor, the empty sum is `0`, and a call is its name
followed by the arguments in parentheses. How a tuple position is spelled depends
on the surroundings, so the spelling is a parameter; alone, position `n` is
`__tvn`.
-/

namespace AffineCalls

/-- How tuple positions are spelled. -/
abbrev Spelling := Nat → List Char

/-- The spelling of positions outside of a set. -/
def Spelling.plain : Spelling := fun n => "__tv".toList ++ Text.digits n

/-- A sum from the signs and the unsigned texts of its summands: a leading minus
is glued to its summand, later signs stand between spaces. -/
def joinSigned : List (Bool × List Char) → List Char
  | [] => ['0']
  | (negative, s) :: rest =>
    (if negative then '-' :: s else s) ++
      rest.flatMap fun (negative, s) => (if negative then " - " else " + ").toList ++ s

/-- The unsigned text of a summand, from the absolute value of its coefficient
and the text of its factor. -/
def summandText (magnitude : Nat) (factor : Factor) (text : List Char) : List Char :=
  if factor = .one then Text.digits magnitude
  else if magnitude = 1 then text
  else Text.digits magnitude ++ '*' :: text

mutual

/-- The text of a factor. -/
def Factor.render (σ : Spelling) : Factor → List Char
  | .one => ['1']
  | .position i => σ i
  | .symbol name => name.toList
  | .call c => c.render σ
termination_by structural f => f

/-- The text of a call. -/
def Call.render (σ : Spelling) : Call → List Char
  | ⟨name, args⟩ =>
    name.toList ++ '(' :: (", ".toList.intercalate (Expr.renderEach σ args) ++ [')'])
termination_by structural c => c

/-- The texts of the members of a list of expressions. -/
def Expr.renderEach (σ : Spelling) : List Expr → List (List Char)
  | [] => []
  | e :: es => e.render σ :: Expr.renderEach σ es
termination_by structural es => es

/-- The text of an expression. -/
def Expr.render (σ : Spelling) : Expr → List Char
  | ⟨ts⟩ => joinSigned (Term.renderEach σ ts)
termination_by structural e => e

/-- The signs and unsigned texts of the members of a list of terms. -/
def Term.renderEach (σ : Spelling) : List Term → List (Bool × List Char)
  | [] => []
  | t :: ts => t.renderSigned σ :: Term.renderEach σ ts
termination_by structural ts => ts

/-- Whether a term is negative, and its text without the sign. -/
def Term.renderSigned (σ : Spelling) : Term → Bool × List Char
  | ⟨c, f⟩ => (c.val < 0, summandText c.val.natAbs f (f.render σ))
termination_by structural t => t

end

theorem Expr.renderEach_eq_map (σ : Spelling) (es : List Expr) :
    Expr.renderEach σ es = es.map (·.render σ) := by
  induction es with
  | nil => rfl
  | cons e es ih => rw [Expr.renderEach, ih, List.map_cons]

theorem Term.renderEach_eq_map (σ : Spelling) (ts : List Term) :
    Term.renderEach σ ts = ts.map (·.renderSigned σ) := by
  induction ts with
  | nil => rfl
  | cons t ts ih => rw [Term.renderEach, ih, List.map_cons]

/-- The text of an expression outside of a set. -/
def Expr.text (e : Expr) : String := String.ofList (e.render .plain)

/-- The text of a call outside of a set. -/
def Call.text (c : Call) : String := String.ofList (c.render .plain)

/-- A term is written as the sum of it alone. -/
def Term.text (t : Term) : String := (Expr.ofTerm t).text

instance : ToString Expr := ⟨Expr.text⟩

instance : ToString Call := ⟨Call.text⟩

instance : ToString Term := ⟨Term.text⟩

end AffineCalls
