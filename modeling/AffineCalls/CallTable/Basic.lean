import AffineCalls.Expr.Key
import Std.Data.ExtTreeMap

/-!
# Tables of calls

A table gives each call a placeholder, a symbol named by the call's key, and leads
from the placeholder back to the call. Entries are only ever added: of several
calls with the same key the first one is kept.
-/

namespace AffineCalls

/-- The symbol that stands for the value of a call. -/
structure Placeholder where
  /-- The symbol's name. -/
  name : String
  deriving DecidableEq

namespace Placeholder

/-- The placeholder as a factor. -/
def factor (p : Placeholder) : Factor := .symbol p.name

/-- The placeholder taken once. -/
def term (p : Placeholder) : Term := .ofFactor p.factor

/-- A placeholder is written as its name. -/
def text (p : Placeholder) : String := p.name

instance : ToString Placeholder := ⟨text⟩

/-- Placeholders are ordered by name. -/
instance : Ord Placeholder := ⟨fun p q => Ord.compare p.name q.name⟩

end Placeholder

/-- Calls by key, and keys by the names of placeholders. -/
@[ext] structure CallTable where
  /-- For each key, the placeholder and the call that it stands for. -/
  forward : Std.ExtTreeMap String (Placeholder × Call)
  /-- For each name of a placeholder, the key. -/
  backward : Std.ExtTreeMap String String

namespace CallTable

/-- The table without entries. -/
def empty : CallTable := ⟨∅, ∅⟩

instance : EmptyCollection CallTable := ⟨empty⟩

instance : Inhabited CallTable := ⟨empty⟩

/-- The placeholder of a call, which is entered if its key is new. -/
def insert (t : CallTable) (c : Call) : Placeholder × CallTable :=
  match t.forward[c.key]? with
  | some (p, _) => (p, t)
  | none =>
    let p : Placeholder := ⟨c.key⟩
    (p, ⟨t.forward.insert c.key (p, c), t.backward.insert p.name c.key⟩)

/-- The placeholder of a call, if the table has one. -/
def placeholder? (t : CallTable) (c : Call) : Option Placeholder :=
  (t.forward[c.key]?).map (·.1)

/-- The call that a name of a placeholder stands for. -/
def callNamed? (t : CallTable) (name : String) : Option Call := do
  let key ← t.backward[name]?
  let (_, c) ← t.forward[key]?
  return c

/-- The call that a placeholder stands for. -/
def call? (t : CallTable) (p : Placeholder) : Option Call := t.callNamed? p.name

/-- Whether a call has a placeholder. -/
def contains (t : CallTable) (c : Call) : Bool := (t.placeholder? c).isSome

/-- The number of calls. -/
def size (t : CallTable) : Nat := t.forward.size

/-- Whether there are no calls. -/
def isEmpty (t : CallTable) : Bool := t.forward.isEmpty

/-- The text of a table: its calls and placeholders, sorted by key. -/
def text (t : CallTable) : String :=
  "UFCallMap:\n" ++
    String.join (t.forward.values.map fun (p, c) =>
      "    " ++ c.text ++ " ==> " ++ p.text ++ "\n")

instance : ToString CallTable := ⟨text⟩

end CallTable

end AffineCalls
