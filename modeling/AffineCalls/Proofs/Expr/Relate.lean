import AffineCalls.Expr.Substitute

/-!
# Two substitutions side by side

Substitution is the same traversal whatever the effects are. So two computations with
different effects that are related in their steps are related as a whole, as long as the
relation passes from steps to sequences of steps.
-/

namespace AffineCalls

section

variable {m n : Type → Type} [Monad m] [MonadLiftT (Except Overflow) m] [Monad n]
  [MonadLiftT (Except Overflow) n]

/-- A relation between computations that holds of the steps of two substitutions and is
kept by sequences of steps. -/
structure Substitution.Related (R : (α : Type) → m α → n α → Prop) (σ : Substitution m)
    (τ : Substitution n) : Prop where
  /-- Giving the same value is related. -/
  pure : ∀ {α : Type} (a : α), R α (pure a) (pure a)
  /-- Related steps with related continuations are related. -/
  bind : ∀ {α β : Type} {x : m α} {y : n α} {f : α → m β} {g : α → n β}, R α x y →
    (∀ a, R β (f a) (g a)) → R β (x >>= f) (y >>= g)
  /-- The same checked arithmetic is related. -/
  lift : ∀ y : Except Overflow Expr, R Expr (liftM y) (liftM y)
  /-- What takes the place of a symbol is related. -/
  symbol : ∀ name, R Factor (σ.symbol name) (τ.symbol name)
  /-- What takes the place of a call is related. -/
  call : ∀ c, R Factor (σ.call c) (τ.call c)

variable {R : (α : Type) → m α → n α → Prop} {σ : Substitution m} {τ : Substitution n}

mutual

/-- Substitutions in a factor are related. -/
theorem Factor.related_substitute (h : σ.Related R τ) (f : Factor) :
    R Factor (f.substitute σ) (f.substitute τ) := by
  match f with
  | .one => exact h.pure _
  | .position i => exact h.pure _
  | .symbol name => exact h.symbol name
  | .call c => exact h.bind (Call.related_substituteArgs h c) h.call
termination_by structural f

/-- Substitutions in the arguments of a call are related. -/
theorem Call.related_substituteArgs (h : σ.Related R τ) (c : Call) :
    R Call (c.substituteArgs σ) (c.substituteArgs τ) := by
  match c with
  | ⟨name, args⟩ => exact h.bind (Expr.related_substituteEach h args) fun _ => h.pure _
termination_by structural c

/-- Substitutions in a list of expressions are related. -/
theorem Expr.related_substituteEach (h : σ.Related R τ) (es : List Expr) :
    R (List Expr) (Expr.substituteEach σ es) (Expr.substituteEach τ es) := by
  match es with
  | [] => exact h.pure _
  | e :: es =>
    exact h.bind (Expr.related_substitute h e) fun _ =>
      h.bind (Expr.related_substituteEach h es) fun _ => h.pure _
termination_by structural es

/-- Substitutions in an expression are related if their steps are. -/
theorem Expr.related_substitute (h : σ.Related R τ) (e : Expr) :
    R Expr (e.substitute σ) (e.substitute τ) := by
  match e with
  | ⟨ts⟩ => exact Term.related_substituteOnto h ts 0
termination_by structural e

/-- Substitutions in terms that are added to a sum are related. -/
theorem Term.related_substituteOnto (h : σ.Related R τ) (ts : List Term) (sum : Expr) :
    R Expr (Term.substituteOnto σ ts sum) (Term.substituteOnto τ ts sum) := by
  match ts with
  | [] => exact h.pure _
  | t :: ts =>
    exact h.bind (Term.related_substitute h t) fun _ =>
      h.bind (h.lift _) fun sum' => Term.related_substituteOnto h ts sum'
termination_by structural ts

/-- Substitutions in a term are related. -/
theorem Term.related_substitute (h : σ.Related R τ) (t : Term) :
    R Term (t.substitute σ) (t.substitute τ) := by
  match t with
  | ⟨c, f⟩ => exact h.bind (Factor.related_substitute h f) fun _ => h.pure _
termination_by structural t

end

end

end AffineCalls
