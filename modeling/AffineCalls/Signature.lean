import AffineCalls.TupleSet.Render

/-!
# Signatures

A signature declares an uninterpreted function: its name, the set of its argument
tuples, the set of its result tuples, whether it is a bijection between them, and
how its result follows its argument. A bijection has an inverse, named after it,
with the two sets exchanged.
-/

namespace AffineCalls

/-- How the result of a function follows its argument. -/
inductive Monotonicity where
  /-- Nothing is known. -/
  | none
  /-- A greater argument has no smaller result. -/
  | nondecreasing
  /-- A greater argument has no greater result. -/
  | nonincreasing
  deriving DecidableEq

/-- The word for a kind of monotonicity. -/
def Monotonicity.text : Monotonicity → String
  | .none => "none"
  | .nondecreasing => "nondecreasing"
  | .nonincreasing => "nonincreasing"

/-- The declaration of a function. -/
structure Signature where
  /-- The name of the function. -/
  name : String
  /-- The set of argument tuples. -/
  domain : TupleSet
  /-- The set of result tuples. -/
  range : TupleSet
  /-- Whether the function is a bijection between them. -/
  bijective : Bool
  /-- How the result follows the argument. -/
  monotonicity : Monotonicity
  deriving DecidableEq

namespace Signature

/-- The number of arguments. -/
def arity (f : Signature) : Nat := f.domain.arity

/-- The number of results. -/
def rangeArity (f : Signature) : Nat := f.range.arity

/-- The name that the inverse of a function gets. -/
def inverseName (name : String) : String := name ++ "_inv"

/-- The name of an inverse is longer than that of the function. -/
theorem inverseName_ne (name : String) : inverseName name ≠ name := by
  intro h
  have hlength : (inverseName name).length = name.length + "_inv".length := String.length_append ..
  rw [h] at hlength
  exact absurd hlength (Nat.ne_of_lt (Nat.lt_add_of_pos_right (by decide)))

/-- The declaration of the inverse. Nothing is known of its monotonicity. -/
def inverse (f : Signature) : Signature where
  name := inverseName f.name
  domain := f.range
  range := f.domain
  bijective := true
  monotonicity := .none

/-- The text of a declaration. -/
def text (f : Signature) : String :=
  f.name ++ ": " ++ f.domain.text ++ " -> " ++ f.range.text
    ++ (if f.bijective then ", bijective" else "")
    ++ (if f.monotonicity = .none then "" else ", " ++ f.monotonicity.text)

instance : ToString Signature := ⟨text⟩

end Signature

end AffineCalls
