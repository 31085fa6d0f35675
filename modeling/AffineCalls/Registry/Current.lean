import AffineCalls.Registry.Basic

/-!
# The current registry

One registry may be shared by clients that are not handed one of their own. An
operation on it is a step in place; several may follow each other. In contrast to
the registry's own queries, asking for the sets of a function that is not declared
is an error.
-/

namespace AffineCalls

/-- An operation on the current registry. -/
abbrev Current (α : Type) : Type := Update Registry RegistryError α

namespace Current

/-- Empties the current registry. -/
def reset : Current Unit := set Registry.empty

/-- Puts a registry in place of the current one and gives back the old one. -/
def replace (r : Registry) : Current Registry := do
  let old ← get
  set r
  return old

/-- Makes the registry of one function the current one. -/
def declareOnly (f : Signature) : Current Unit := do
  let r ← Registry.ofSignature f
  set r

/-- Appends the registry of one function to the current one. -/
def declare (f : Signature) : Current Unit := do
  let o ← Registry.ofSignature f
  Registry.InPlace.append o

/-- Runs an operation that is given a copy of the current registry. The operation may change the
current registry, but its copy stays what it was. -/
def withSnapshot {α : Type} (op : Registry → Current α) : Current α := do
  op (← get)

/-- The name that a name is paired with. -/
def inverse? (name : String) : Current (Option String) := do
  return (← get).inverse? name

/-- The monotonicity of a function; nothing is known of one that is not declared. -/
def monotonicity (name : String) : Current Monotonicity := do
  return (← get).monotonicity name

/-- The declaration of a function, which must be declared. -/
def function (name : String) : Current Signature := do
  match (← get).function? name with
  | some f => return f
  | none => throw (.undeclared name)

/-- The argument tuples of a declared function. -/
def domain (name : String) : Current TupleSet := do
  return (← function name).domain

/-- The result tuples of a declared function. -/
def range (name : String) : Current TupleSet := do
  return (← function name).range

/-- The number of results of a declared function. -/
def rangeArity (name : String) : Current Nat := do
  return (← range name).arity

end Current

end AffineCalls
