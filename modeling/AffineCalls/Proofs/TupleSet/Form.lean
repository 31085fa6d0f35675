import AffineCalls.Proofs.Notation.Form
import AffineCalls.Proofs.Notation.Repeated
import AffineCalls.TupleSet.Reader
import AffineCalls.TupleSet.Render

/-!
# Written forms of sets

The grammar of sets, apart from any way of reading them. A form keeps the signs of the
coordinates, which comparisons are chained, and whether there is a colon, but not the
gaps. The constraints of a chain are those between neighbours, and names in constraints
are resolved last of all.
-/

namespace AffineCalls

/-- The form of a coordinate. -/
inductive CoordinateForm where
  /-- A name. -/
  | name (name : String)
  /-- A number. -/
  | number (n : Nat)
  /-- A number behind a minus sign. -/
  | negated (n : Nat)

/-- The form of a comparison with what stands in front of it. -/
structure LinkForm where
  /-- How the sides compare. -/
  comparison : Comparison
  /-- The right side. -/
  rhs : SumForm

/-- The form of a chain of comparisons, at least one. -/
structure ChainForm where
  /-- The first expression. -/
  first : SumForm
  /-- The comparison with the first expression. -/
  link : LinkForm
  /-- The comparisons that follow. -/
  links : List LinkForm

/-- The form of a set. -/
structure SetForm where
  /-- The coordinates. -/
  tuple : List CoordinateForm
  /-- The chains behind the colon, if there is one. -/
  chains : Option (List ChainForm)

/-! ## Spellings -/

/-- `c.Spelled cs rest`: the text `cs` is a spelling of the coordinate followed by `rest`. -/
inductive CoordinateForm.Spelled : CoordinateForm → List Char → List Char → Prop
  | name {name : String} {cs rest : List Char} (hcs : cs = name.toList ++ rest)
    (hname : Text.IsIdentifier name.toList) : CoordinateForm.Spelled (.name name) cs rest
  | number {n : Nat} {ds cs rest : List Char} (hcs : cs = ds ++ rest)
    (hds : Text.SpellsNumber ds n) : CoordinateForm.Spelled (.number n) cs rest
  | negated {n : Nat} {ds cs cs₁ rest : List Char} (hcs : cs = '-' :: cs₁)
    (hgap : Text.Skip cs₁ (ds ++ rest)) (hds : Text.SpellsNumber ds n) :
    CoordinateForm.Spelled (.negated n) cs rest

/-- `l.Spelled cs rest`: the text `cs` is a spelling of the link followed by `rest`. -/
def LinkForm.Spelled (l : LinkForm) : List Char → List Char → Prop :=
  Text.Behind l.comparison.render SumForm.Spelled l.rhs

/-- `c.Spelled cs rest`: the text `cs` is a spelling of the chain followed by `rest`. -/
def ChainForm.Spelled (c : ChainForm) (cs rest : List Char) : Prop :=
  ∃ mid, c.first.Spelled cs mid ∧ Text.Repeated LinkForm.Spelled (c.link :: c.links) mid rest

/-- The text is a spelling of the constraints with the closing brace of the set, followed
by `rest`. -/
def ChainForm.SpelledBody : Option (List ChainForm) → List Char → List Char → Prop
  | none, cs, rest => Text.Skip cs ('\x7d' :: rest)
  | some chains, cs, rest => ∃ cs₁, Text.Skip cs (':' :: cs₁) ∧
      Text.Listed ['&', '&'] '\x7d' ChainForm.Spelled chains cs₁ rest

/-- `s.Spelled cs rest`: the text `cs` is a spelling of the set followed by `rest`. -/
def SetForm.Spelled (s : SetForm) (cs rest : List Char) : Prop :=
  ∃ cs₁ cs₂ cs₃, cs = '\x7b' :: cs₁ ∧ Text.Skip cs₁ ('[' :: cs₂) ∧
    Text.Listed [','] ']' CoordinateForm.Spelled s.tuple cs₂ cs₃ ∧
    ChainForm.SpelledBody s.chains cs₃ rest

/-! ## Values -/

/-- The coordinate that a form stands for. The number must be in the range of coefficients
without its sign. -/
def CoordinateForm.eval : CoordinateForm → Except Overflow Coordinate
  | .name n => .ok (.name n)
  | .number n => do
    let c ← Coeff.checked n
    return .fixed c
  | .negated n => do
    let c ← Coeff.checked n
    let c' ← Coeff.checked (-c.val)
    return .fixed c'

/-- The comparison and the expression that a link stands for. -/
def LinkForm.eval (l : LinkForm) : Except Overflow (Comparison × Expr) := do
  let e ← l.rhs.eval
  return (l.comparison, e)

/-- The constraints that a chain stands for. -/
def ChainForm.eval (c : ChainForm) : Except Overflow (List Constraint) := do
  let first ← c.first.eval
  let links ← (c.link :: c.links).mapM LinkForm.eval
  return Constraint.ofChain first links

/-- The set that a form stands for. -/
def SetForm.eval (s : SetForm) : Except Overflow TupleSet := do
  let tuple ← s.tuple.mapM CoordinateForm.eval
  let chains ← (s.chains.getD []).mapM ChainForm.eval
  TupleSet.ofConstraints tuple chains.flatten

/-- A number is a coordinate if it is a coefficient. -/
theorem CoordinateForm.eval_number_eq_ok {n : Nat} {x : Coordinate} :
    (CoordinateForm.number n).eval = .ok x ↔ ∃ c, Coeff.checked n = .ok c ∧ .fixed c = x := by
  rw [CoordinateForm.eval]
  exact bind_pure_eq_ok

/-- A number behind a minus sign is a coordinate if it is a coefficient without the sign
and with it. -/
theorem CoordinateForm.eval_negated_eq_ok {n : Nat} {x : Coordinate} :
    (CoordinateForm.negated n).eval = .ok x ↔
      ∃ c, Coeff.checked n = .ok c ∧ ∃ c', Coeff.checked (-c.val) = .ok c' ∧ .fixed c' = x := by
  rw [CoordinateForm.eval, bind_eq_ok]
  exact exists_congr fun c => and_congr_right fun _ => bind_pure_eq_ok

/-- A link stands for something exactly when its right side does. -/
theorem LinkForm.eval_eq_ok {l : LinkForm} {x : Comparison × Expr} :
    l.eval = .ok x ↔ ∃ e, l.rhs.eval = .ok e ∧ (l.comparison, e) = x := by
  rw [LinkForm.eval]
  exact bind_pure_eq_ok

/-- A chain stands for something exactly when its expressions do. -/
theorem ChainForm.eval_eq_ok {c : ChainForm} {cs : List Constraint} :
    c.eval = .ok cs ↔ ∃ first, c.first.eval = .ok first ∧
      ∃ links, (c.link :: c.links).mapM LinkForm.eval = .ok links ∧
        Constraint.ofChain first links = cs := by
  rw [ChainForm.eval, bind_eq_ok]
  exact exists_congr fun first => and_congr_right fun _ => bind_pure_eq_ok

/-- A form of a set stands for something exactly when its coordinates and chains do and
the names in the constraints can be resolved. -/
theorem SetForm.eval_eq_ok {d : SetForm} {s : TupleSet} :
    d.eval = .ok s ↔ ∃ tuple, d.tuple.mapM CoordinateForm.eval = .ok tuple ∧
      ∃ chains, (d.chains.getD []).mapM ChainForm.eval = .ok chains ∧
        TupleSet.ofConstraints tuple chains.flatten = .ok s := by
  rw [SetForm.eval, bind_eq_ok]
  exact exists_congr fun tuple => and_congr_right fun _ => bind_eq_ok

end AffineCalls
