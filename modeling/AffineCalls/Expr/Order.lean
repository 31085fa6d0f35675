import AffineCalls.Expr.Basic

/-!
# The order of expressions

Terms are ordered by the kind of their factor (literals, positions, symbols,
calls), then by coefficient, then by the factor itself. Expressions and argument
lists are ordered lexicographically, a proper initial part being smaller.
-/

namespace AffineCalls

/-- The place of a factor's kind among the kinds. -/
def Factor.rank : Factor → Nat
  | .one => 0
  | .position _ => 1
  | .symbol _ => 2
  | .call _ => 3

mutual

/-- Compares two factors by kind and then by content. -/
def Factor.compare : Factor → Factor → Ordering
  | .position i, .position j => Ord.compare i j
  | .symbol m, .symbol n => Ord.compare m n
  | .call c, .call d => c.compare d
  | .one, g => Ord.compare 0 g.rank
  | .position _, g => Ord.compare 1 g.rank
  | .symbol _, g => Ord.compare 2 g.rank
  | .call _, g => Ord.compare 3 g.rank
termination_by structural a => a

/-- Compares two calls by name and then by arguments. -/
def Call.compare : Call → Call → Ordering
  | ⟨m, as⟩, ⟨n, bs⟩ => (Ord.compare m n).then (Expr.compareList as bs)
termination_by structural a => a

/-- Compares two lists of expressions lexicographically. -/
def Expr.compareList : List Expr → List Expr → Ordering
  | [], [] => .eq
  | [], _ :: _ => .lt
  | _ :: _, [] => .gt
  | d :: ds, e :: es => (d.compare e).then (Expr.compareList ds es)
termination_by structural a => a

/-- Compares two expressions lexicographically. -/
def Expr.compare : Expr → Expr → Ordering
  | ⟨ts⟩, ⟨us⟩ => Term.compareList ts us
termination_by structural a => a

/-- Compares two lists of terms lexicographically. -/
def Term.compareList : List Term → List Term → Ordering
  | [], [] => .eq
  | [], _ :: _ => .lt
  | _ :: _, [] => .gt
  | t :: ts, u :: us => (t.compare u).then (Term.compareList ts us)
termination_by structural a => a

/-- Compares two terms by kind of factor, then coefficient, then factor. -/
def Term.compare : Term → Term → Ordering
  | ⟨c, f⟩, ⟨d, g⟩ =>
    (Ord.compare f.rank g.rank).then ((Ord.compare c d).then (f.compare g))
termination_by structural a => a

end

instance : Ord Call := ⟨Call.compare⟩

instance : Ord Expr := ⟨Expr.compare⟩

instance : Ord Term := ⟨Term.compare⟩

end AffineCalls
