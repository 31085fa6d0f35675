import AffineCalls.Proofs.CallTable.Filing
import AffineCalls.Proofs.Expr.Relate

/-!
# The calls that abstraction enters

A placeholder is named by the key of its call, so the calls that abstraction enters can
be listed without a table: each call of the expression with the calls in its arguments
abstracted, innermost calls first, up to an overflow if there is one. Abstraction enters
them one after the other and does nothing else to the table.
-/

namespace AffineCalls

/-- The result of a computation that enters calls, and these calls in order. -/
structure Listing (α : Type) where
  /-- The result, or an overflow. -/
  result : Except Overflow α
  /-- The calls that are entered; after an overflow there are no further ones. -/
  calls : List Call

namespace Listing

variable {α β : Type}

/-- Enters no call and gives a value. -/
protected def pure (a : α) : Listing α := ⟨.ok a, []⟩

/-- Enters the calls of a computation and then those of what depends on its value. -/
protected def bind (x : Listing α) (f : α → Listing β) : Listing β :=
  match x.result with
  | .ok a => ⟨(f a).result, x.calls ++ (f a).calls⟩
  | .error o => ⟨.error o, x.calls⟩

instance : Monad Listing where
  pure := Listing.pure
  bind := Listing.bind

/-- Checked arithmetic enters no call. -/
instance : MonadLift (Except Overflow) Listing := ⟨fun y => ⟨y, []⟩⟩

/-- Enters a call and gives the symbol named by its key. -/
def file (c : Call) : Listing Factor := ⟨.ok (.symbol c.key), [c]⟩

end Listing

/-- Abstraction as a listing of calls. -/
def Expr.listing (e : Expr) : Listing Expr := e.substitute { call := Listing.file }

/-- The calls that the abstraction of an expression enters. -/
def Expr.entered (e : Expr) : List Call := e.listing.calls

namespace CallTable

variable {P : Call → Prop} {t : CallTable}

/-- The table after calls have been entered one after the other. -/
def enter (t : CallTable) (cs : List Call) : CallTable := cs.foldl (fun t c => (t.insert c).2) t

theorem enter_cons (t : CallTable) (c : Call) (cs : List Call) :
    t.enter (c :: cs) = (t.insert c).2.enter cs := rfl

theorem enter_append (t : CallTable) (cs ds : List Call) :
    t.enter (cs ++ ds) = (t.enter cs).enter ds :=
  List.foldl_append

/-- Entering calls keeps a table well kept. -/
theorem WellKept.enter (ht : t.WellKept P) {cs : List Call} (hcs : ∀ c ∈ cs, P c) :
    (t.enter cs).WellKept P := by
  induction cs generalizing t with
  | nil => exact ht
  | cons c cs ih =>
    obtain ⟨hc, hcs⟩ := List.forall_mem_cons.mp hcs
    exact ih (ht.insert hc) hcs

/-- Entering calls extends the table. -/
theorem le_enter (t : CallTable) (cs : List Call) : t ≤ t.enter cs := by
  induction cs generalizing t with
  | nil => exact le_refl t
  | cons c cs ih => exact (le_insert t c).trans (ih _)

end CallTable

namespace Filing

variable {α β : Type}

/-- From every well kept table, the computation has the result of the listing and enters
its calls. -/
def Follows (α : Type) (x : Filing α) (y : Listing α) : Prop :=
  ∀ t : CallTable, t.WellKept (fun _ => True) → x.outcome t = (y.result, t.enter y.calls)

/-- A sequence of computations follows the sequence of their listings. -/
theorem Follows.bind {x : Filing α} {y : Listing α} {f : α → Filing β} {g : α → Listing β}
    (hx : Follows α x y) (hf : ∀ a, Follows β (f a) (g a)) : Follows β (x >>= f) (y >>= g) := by
  intro t ht
  rw [Update.outcome_bind, hx t ht]
  change _ = ((Listing.bind y g).result, t.enter (Listing.bind y g).calls)
  rw [Listing.bind]
  cases hy : y.result with
  | error o => rfl
  | ok a =>
    rw [CallTable.enter_append]
    exact hf a _ (ht.enter fun _ _ => trivial)

/-- The steps of abstraction follow those of the listing. -/
theorem related_follows :
    Substitution.Related Follows { call := Filing.file } { call := Listing.file } where
  pure _ _ _ := rfl
  bind := Follows.bind
  lift _ _ _ := rfl
  symbol _ _ _ := rfl
  call c t ht := by
    rw [outcome_file, Placeholder.factor, ht.name_insert]
    rfl

end Filing

/-- Abstraction enters the calls that it is said to enter, one after the other. -/
theorem CallTable.WellKept.abstract_eq {t : CallTable} (ht : t.WellKept fun _ => True) (e : Expr) :
    t.abstract e = (e.listing.result, t.enter e.entered) :=
  Expr.related_substitute Filing.related_follows e t ht

end AffineCalls
