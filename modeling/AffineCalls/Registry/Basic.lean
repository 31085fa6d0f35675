import AffineCalls.Signature
import AffineCalls.Update
import Std.Data.ExtTreeMap

/-!
# The registry of functions

A registry holds the declared functions by name and pairs names with the names of
inverses. Declaring a bijection declares its inverse as well and pairs the two. A
registry that is held is changed in place, step by step and after all checks, so an
operation that is refused changes nothing.
-/

namespace AffineCalls

/-- Why a declaration or a call is refused. -/
inductive RegistryError where
  /-- A name is declared already, or paired with another inverse. -/
  | duplicate (name : String)
  /-- A name is not declared. -/
  | undeclared (name : String)
  /-- A call has another number of arguments than the function. -/
  | arity (name : String) (expected : Nat) (found : Nat)
  deriving DecidableEq

/-- The wording of a refusal. -/
def RegistryError.message : RegistryError → String
  | .duplicate name => "function " ++ name ++ " was declared multiple times"
  | .undeclared name => "function " ++ name ++ " has not been declared in the environment"
  | .arity name expected found =>
    "function " ++ name ++ " expected " ++ toString expected ++ " args but found "
      ++ toString found ++ " args"

/-- Declared functions and the pairing of names with inverses. -/
@[ext] structure Registry where
  /-- The declarations by name. -/
  functions : Std.ExtTreeMap String Signature
  /-- For each paired name, the name of its inverse. -/
  partners : Std.ExtTreeMap String String
  deriving BEq, ReflBEq, LawfulBEq

namespace Registry

/-- The registry without declarations and pairs. -/
def empty : Registry := ⟨∅, ∅⟩

instance : EmptyCollection Registry := ⟨empty⟩

instance : Inhabited Registry := ⟨empty⟩

/-- Whether a name is declared. -/
def contains (r : Registry) (name : String) : Bool := r.functions.contains name

/-- The declaration of a name. -/
def function? (r : Registry) (name : String) : Option Signature := r.functions[name]?

/-- The name that a name is paired with. -/
def inverse? (r : Registry) (name : String) : Option String := r.partners[name]?

/-- The argument tuples of a declared function. -/
def domain? (r : Registry) (name : String) : Option TupleSet :=
  (r.function? name).map Signature.domain

/-- The result tuples of a declared function. -/
def range? (r : Registry) (name : String) : Option TupleSet :=
  (r.function? name).map Signature.range

/-- The monotonicity of a function; nothing is known of one that is not declared. -/
def monotonicity (r : Registry) (name : String) : Monotonicity :=
  ((r.function? name).map Signature.monotonicity).getD .none

/-- The declared names, sorted. -/
def names (r : Registry) : List String := r.functions.keys

/-- The number of declared functions. -/
def size (r : Registry) : Nat := r.functions.size

/-- Whether no function is declared. -/
def isEmpty (r : Registry) : Bool := r.functions.isEmpty

/-- Pairs two names as inverses of each other, whatever they were paired with and
whether they are declared or not. -/
def pair (r : Registry) (name inverse : String) : Registry :=
  { r with partners := (r.partners.insert name inverse).insert inverse name }

/-- Adds a declaration to those of a registry, replacing one of the same name. -/
def put (r : Registry) (f : Signature) : Registry :=
  { r with functions := r.functions.insert f.name f }

/-- Declares a function in the registry that is held and, if it is a bijection, its inverse.
Neither name may be declared already. -/
def InPlace.declare (f : Signature) : Update Registry RegistryError Unit := do
  let r ← get
  if r.contains f.name then
    throw (.duplicate f.name)
  else if !f.bijective then
    modify (·.put f)
  else if r.contains f.inverse.name then
    throw (.duplicate f.inverse.name)
  else
    modify (·.pair f.name f.inverse.name)
    modify (·.put f)
    modify (·.put f.inverse)

/-- The registry with a function declared. -/
def declare (r : Registry) (f : Signature) : Except RegistryError Registry :=
  (InPlace.declare f).result r

/-- The registry of one function and its inverse. -/
def ofSignature (f : Signature) : Except RegistryError Registry :=
  empty.declare f

/-- The smallest name that two registries both declare. -/
def sharedName? (r o : Registry) : Option String :=
  o.names.find? r.contains

/-- The smallest name that two registries pair with different inverses. -/
def conflict? (r o : Registry) : Option String :=
  o.partners.keys.find? fun name =>
    match r.inverse? name, o.inverse? name with
    | some a, some b => a != b
    | _, _ => false

/-- Adds the declarations and pairs of a second registry to the one that is held. The two may
neither declare the same name nor pair a name differently. -/
def InPlace.append (o : Registry) : Update Registry RegistryError Unit := do
  let r ← get
  match r.sharedName? o with
  | some name => throw (.duplicate name)
  | none =>
    match r.conflict? o with
    | some name => throw (.duplicate name)
    | none =>
      modify fun r => { r with partners := r.partners ∪ o.partners }
      modify fun r => { r with functions := r.functions ∪ o.functions }

/-- The declarations and pairs of two registries together. -/
def append (r o : Registry) : Except RegistryError Registry :=
  (InPlace.append o).result r

/-- Checks that a call is of a declared function and has as many arguments. -/
def check (r : Registry) (c : Call) : Except RegistryError Unit :=
  match r.function? c.name with
  | none => .error (.undeclared c.name)
  | some f =>
    if f.arity = c.arity then .ok () else .error (.arity c.name f.arity c.arity)

/-- The text of a registry: its pairs, sorted by name. -/
def text (r : Registry) : String :=
  "Environment:\n" ++
    String.join (r.partners.toList.map fun (name, inverse) =>
      "    " ++ name ++ " ==> " ++ inverse ++ "\n")

instance : ToString Registry := ⟨text⟩

/-- A function is declared if its name is new and, if it is a bijection, that of its inverse too. -/
theorem declare_eq (r : Registry) (f : Signature) :
    r.declare f =
      if r.contains f.name then .error (.duplicate f.name)
      else if !f.bijective then .ok (r.put f)
      else if r.contains f.inverse.name then .error (.duplicate f.inverse.name)
      else .ok (((r.pair f.name f.inverse.name).put f).put f.inverse) := by
  rw [declare, InPlace.declare, Update.result_get_bind]
  cases r.contains f.name with
  | true => rfl
  | false =>
    cases f.bijective with
    | false => rfl
    | true => cases r.contains f.inverse.name <;> rfl

/-- A registry is appended if it shares no name and nothing conflicts. -/
theorem append_eq (r o : Registry) :
    r.append o =
      match r.sharedName? o with
      | some name => .error (.duplicate name)
      | none =>
        match r.conflict? o with
        | some name => .error (.duplicate name)
        | none => .ok ⟨r.functions ∪ o.functions, r.partners ∪ o.partners⟩ := by
  rw [append, InPlace.append, Update.result_get_bind]
  cases r.sharedName? o with
  | some name => rfl
  | none => cases r.conflict? o <;> rfl

/-- A registry is determined by what it answers about each name. -/
theorem ext_queries {r o : Registry} (hf : ∀ name, r.function? name = o.function? name)
    (hp : ∀ name, r.inverse? name = o.inverse? name) : r = o :=
  Registry.ext (Std.ExtTreeMap.ext_getElem? hf) (Std.ExtTreeMap.ext_getElem? hp)

/-- A name is declared exactly when it has a declaration. -/
theorem contains_eq_isSome (r : Registry) (name : String) :
    r.contains name = (r.function? name).isSome :=
  Std.ExtTreeMap.contains_eq_isSome_getElem?

/-- After pairing, the two names lead to each other and other names lead to what
they led to before. -/
theorem inverse?_pair (r : Registry) (a b name : String) :
    (r.pair a b).inverse? name =
      if b = name then some a else if a = name then some b else r.inverse? name := by
  simp [inverse?, pair, Std.ExtTreeMap.getElem?_insert]

/-- After pairing, the first name leads to the second one. -/
@[simp] theorem inverse?_pair_left (r : Registry) (a b : String) :
    (r.pair a b).inverse? a = some b := by
  by_cases h : b = a
  · simp [inverse?_pair, h]
  · simp [inverse?_pair, h]

/-- After pairing, the second name leads to the first one. -/
@[simp] theorem inverse?_pair_right (r : Registry) (a b : String) :
    (r.pair a b).inverse? b = some a := by
  simp [inverse?_pair]

/-- Pairing leaves other names alone. -/
theorem inverse?_pair_of_ne (r : Registry) {a b name : String} (ha : name ≠ a) (hb : name ≠ b) :
    (r.pair a b).inverse? name = r.inverse? name := by
  simp [inverse?_pair, Ne.symm ha, Ne.symm hb]

/-- Pairing declares nothing. -/
@[simp] theorem function?_pair (r : Registry) (a b name : String) :
    (r.pair a b).function? name = r.function? name := rfl

/-- A name that was put has the new declaration. -/
theorem function?_put (r : Registry) (f : Signature) (name : String) :
    (r.put f).function? name = if f.name = name then some f else r.function? name := by
  simp [function?, put, Std.ExtTreeMap.getElem?_insert]

/-- Putting a declaration pairs nothing. -/
@[simp] theorem inverse?_put (r : Registry) (f : Signature) (name : String) :
    (r.put f).inverse? name = r.inverse? name := rfl

end Registry

end AffineCalls
