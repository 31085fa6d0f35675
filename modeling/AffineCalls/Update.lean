/-!
# Updates in place

A value that is held may be changed in place, by steps that may fail. What a step has changed
before it fails stays changed, so what is held after a failure depends on the order of the
checks and the changes of the step.
-/

namespace AffineCalls

/-- A step on a value that is held. It gives a result or fails, and what it has changed until
then stays changed. -/
abbrev Update (σ ε α : Type) : Type := ExceptT ε (StateM σ) α

namespace Update

variable {σ ε α β : Type}

/-- What a step gives, and the value that is held afterwards. -/
def outcome (x : Update σ ε α) (s : σ) : Except ε α × σ := x.run.run s

/-- The value that is held after a step, whether it succeeds or fails. -/
def after (x : Update σ ε α) (s : σ) : σ := (x.outcome s).2

/-- A step as a function: the value that it makes of another one, or why it fails. -/
def result (x : Update σ ε Unit) (s : σ) : Except ε σ :=
  match x.outcome s with
  | (.ok (), s') => .ok s'
  | (.error e, _) => .error e

/-- A computation on other values leaves the one that is held as it is. -/
@[simp] theorem outcome_liftM (y : Except ε α) (s : σ) :
    (liftM y : Update σ ε α).outcome s = (y, s) := rfl

/-- The second step starts from the value that the first one leaves. -/
theorem outcome_bind (x : Update σ ε α) (f : α → Update σ ε β) (s : σ) :
    (x >>= f).outcome s =
      match (x.outcome s).1 with
      | .ok a => (f a).outcome (x.outcome s).2
      | .error e => (.error e, (x.outcome s).2) := by
  have hbind : (x >>= f).outcome s =
      (ExceptT.bindCont f (x.outcome s).1).run (x.outcome s).2 := rfl
  rw [hbind]
  cases (x.outcome s).1 with
  | ok a => rfl
  | error e => rfl

@[simp] theorem result_pure (s : σ) : (pure () : Update σ ε Unit).result s = .ok s := rfl

@[simp] theorem result_set (s' s : σ) : (set s' : Update σ ε Unit).result s = .ok s' := rfl

/-- A step may start by looking at the value that is held. -/
theorem result_get_bind (f : σ → Update σ ε Unit) (s : σ) :
    (get >>= f).result s = (f s).result s := rfl

/-- A step that computes a new value from the old one and then puts it in place makes the new
value. -/
theorem result_replace (y : σ → Except ε α) (g : α → σ) (s : σ) :
    (get >>= fun t => liftM (y t) >>= fun a => set (g a) : Update σ ε Unit).result s =
      (y s).map g := by
  rw [result_get_bind]
  cases y s <;> rfl

end Update

end AffineCalls
