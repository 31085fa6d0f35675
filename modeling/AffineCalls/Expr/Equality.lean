import AffineCalls.Expr.Basic

/-!
# Equality of expressions

Two expressions are compared structurally, summand by summand and argument by
argument. Two terms can be merged exactly when their factors are equal.
-/

namespace AffineCalls

mutual

/-- Decides whether two factors are equal. -/
def Factor.decEq : (a : Factor) → (b : Factor) → Decidable (a = b)
  | .one, .one => isTrue rfl
  | .position i, .position j =>
    if h : i = j then isTrue (h ▸ rfl) else isFalse (by simp [h])
  | .symbol m, .symbol n =>
    if h : m = n then isTrue (h ▸ rfl) else isFalse (by simp [h])
  | .call c, .call d =>
    match c.decEq d with
    | isTrue h => isTrue (h ▸ rfl)
    | isFalse h => isFalse (by simp [h])
  | .one, .position _ | .one, .symbol _ | .one, .call _
  | .position _, .one | .position _, .symbol _ | .position _, .call _
  | .symbol _, .one | .symbol _, .position _ | .symbol _, .call _
  | .call _, .one | .call _, .position _ | .call _, .symbol _ => isFalse nofun
termination_by structural a => a

/-- Decides whether two calls are equal. -/
def Call.decEq : (a : Call) → (b : Call) → Decidable (a = b)
  | ⟨m, as⟩, ⟨n, bs⟩ =>
    if h : m = n then
      match Expr.decEqList as bs with
      | isTrue h' => isTrue (h ▸ h' ▸ rfl)
      | isFalse h' => isFalse (by simp [h'])
    else isFalse (by simp [h])
termination_by structural a => a

/-- Decides whether two lists of expressions are equal. -/
def Expr.decEqList : (a : List Expr) → (b : List Expr) → Decidable (a = b)
  | [], [] => isTrue rfl
  | [], _ :: _ | _ :: _, [] => isFalse nofun
  | d :: ds, e :: es =>
    match d.decEq e, Expr.decEqList ds es with
    | isTrue h, isTrue h' => isTrue (h ▸ h' ▸ rfl)
    | isFalse h, _ => isFalse (by simp [h])
    | _, isFalse h => isFalse (by simp [h])
termination_by structural a => a

/-- Decides whether two expressions are equal. -/
def Expr.decEq : (a : Expr) → (b : Expr) → Decidable (a = b)
  | ⟨ts⟩, ⟨us⟩ =>
    match Term.decEqList ts us with
    | isTrue h => isTrue (h ▸ rfl)
    | isFalse h => isFalse (by simp [h])
termination_by structural a => a

/-- Decides whether two lists of terms are equal. -/
def Term.decEqList : (a : List Term) → (b : List Term) → Decidable (a = b)
  | [], [] => isTrue rfl
  | [], _ :: _ | _ :: _, [] => isFalse nofun
  | t :: ts, u :: us =>
    match t.decEq u, Term.decEqList ts us with
    | isTrue h, isTrue h' => isTrue (h ▸ h' ▸ rfl)
    | isFalse h, _ => isFalse (by simp [h])
    | _, isFalse h => isFalse (by simp [h])
termination_by structural a => a

/-- Decides whether two terms are equal. -/
def Term.decEq : (a : Term) → (b : Term) → Decidable (a = b)
  | ⟨c, f⟩, ⟨d, g⟩ =>
    if h : c = d then
      match f.decEq g with
      | isTrue h' => isTrue (h ▸ h' ▸ rfl)
      | isFalse h' => isFalse (by simp [h'])
    else isFalse (by simp [h])
termination_by structural a => a

end

instance : DecidableEq Factor := Factor.decEq

instance : DecidableEq Call := Call.decEq

instance : DecidableEq Expr := Expr.decEq

instance : DecidableEq Term := Term.decEq

/-- Whether two terms differ in their coefficients only. -/
def Term.sameFactor (t u : Term) : Bool := t.factor = u.factor

end AffineCalls
