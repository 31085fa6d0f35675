import AffineCalls.Proofs.CallTable.Listing
import Mathlib.Data.List.Induction

/-!
# What a table remembers

Operations enter calls, and a table shows which calls have been entered and in which
order: a key leads to the first call with this key. This holds after every run of
operations, also where an abstraction has stopped at an overflow, as the calls that were
entered up to there stay in the table.
-/

namespace AffineCalls

namespace CallTable

/-- An operation that may change a table. -/
inductive Operation where
  /-- A call is entered. -/
  | insert (c : Call)
  /-- An expression is abstracted, which may overflow. -/
  | abstract (e : Expr)

/-- The table after an operation. -/
def Operation.after (t : CallTable) : Operation → CallTable
  | .insert c => (t.insert c).2
  | .abstract e => (t.abstract e).2

/-- The calls that an operation enters, in order. -/
def Operation.entered : Operation → List Call
  | .insert c => [c]
  | .abstract e => e.entered

/-- The calls that a run of operations enters, in order. -/
def enteredBy (os : List Operation) : List Call := os.flatMap Operation.entered

/-- The table that a run of operations leads to from the empty one. -/
def reached (os : List Operation) : CallTable := os.foldl Operation.after ∅

variable {P : Call → Prop} {t : CallTable}

/-- An operation enters its calls and does nothing else to the table. -/
theorem WellKept.after_eq_enter (ht : t.WellKept fun _ => True) (o : Operation) :
    o.after t = t.enter o.entered := by
  cases o with
  | insert c => rfl
  | abstract e => exact congrArg Prod.snd (ht.abstract_eq e)

/-- A run of operations enters its calls and does nothing else to the table. -/
theorem reached_eq_enter (os : List Operation) :
    reached os = (∅ : CallTable).enter (enteredBy os) := by
  induction os using List.reverseRecOn with
  | nil => rfl
  | append_singleton os o ih =>
    have hwell : (reached os).WellKept fun _ => True := by
      rw [ih]
      exact wellKept_empty.enter fun _ _ => trivial
    have hlast : reached (os ++ [o]) = o.after (reached os) := List.foldl_concat ..
    rw [hlast, hwell.after_eq_enter, ih, enteredBy, enteredBy, List.flatMap_append,
      List.flatMap_singleton, enter_append]

/-- Every table that is reached is well kept. -/
theorem wellKept_reached (os : List Operation) : (reached os).WellKept fun _ => True := by
  rw [reached_eq_enter]
  exact wellKept_empty.enter fun _ _ => trivial

/-! ## Looking up a key -/

/-- Entering a call adds an entry for its key unless there is one. -/
theorem getElem?_forward_insert (t : CallTable) (c : Call) (k : String) :
    (t.insert c).2.forward[k]? =
      t.forward[k]?.or (if c.key = k then some (⟨k⟩, c) else none) := by
  by_cases hkey : c.key = k
  · subst hkey
    rw [if_pos rfl]
    cases h : t.forward[c.key]? with
    | some x => rw [insert_of_eq_some h, h, Option.some_or]
    | none => rw [insert_of_eq_none h, Std.ExtTreeMap.getElem?_insert_self, Option.none_or]
  · rw [if_neg hkey, Option.or_none]
    cases h : t.forward[c.key]? with
    | some x => rw [insert_of_eq_some h]
    | none =>
      rw [insert_of_eq_none h, Std.ExtTreeMap.getElem?_insert, if_neg (by simpa using hkey)]

/-- Of several calls that are entered, a key leads to the first one with this key, unless
it had an entry before. -/
theorem getElem?_forward_enter (t : CallTable) (cs : List Call) (k : String) :
    (t.enter cs).forward[k]? =
      t.forward[k]?.or ((cs.find? (·.key = k)).map fun c => (⟨k⟩, c)) := by
  induction cs generalizing t with
  | nil => exact (Option.or_none).symm
  | cons c cs ih =>
    rw [enter_cons, ih, getElem?_forward_insert, Option.or_assoc, List.find?_cons]
    by_cases hkey : c.key = k
    · rw [if_pos hkey, decide_eq_true hkey, Option.some_or, Option.map_some]
    · rw [if_neg hkey, decide_eq_false hkey, Option.none_or]

/-- Entering calls adds their keys. -/
theorem mem_forward_enter {cs : List Call} {k : String} :
    k ∈ (t.enter cs).forward ↔ k ∈ t.forward ∨ ∃ c ∈ cs, c.key = k := by
  rw [Std.ExtTreeMap.mem_iff_isSome_getElem?, getElem?_forward_enter, Option.isSome_or,
    Bool.or_eq_true, ← Std.ExtTreeMap.mem_iff_isSome_getElem?, Option.isSome_map, List.find?_isSome]
  simp only [decide_eq_true_eq]

/-- A key leads to the first call that the run has entered with this key. -/
theorem getElem?_forward_reached (os : List Operation) (k : String) :
    (reached os).forward[k]? = ((enteredBy os).find? (·.key = k)).map fun c => (⟨k⟩, c) := by
  rw [reached_eq_enter, getElem?_forward_enter]
  exact Option.none_or

/-- The keys of a table are those of the calls that the run has entered. -/
theorem mem_forward_reached {os : List Operation} {k : String} :
    k ∈ (reached os).forward ↔ ∃ c ∈ enteredBy os, c.key = k := by
  rw [reached_eq_enter, mem_forward_enter]
  exact or_iff_right Std.ExtTreeMap.not_mem_empty

/-- A table has a placeholder for a call exactly when it has its key. -/
theorem isSome_placeholder? (t : CallTable) (c : Call) :
    (t.placeholder? c).isSome ↔ c.key ∈ t.forward := by
  rw [placeholder?, Option.isSome_map, Std.ExtTreeMap.mem_iff_isSome_getElem?]

/-- A name leads to the call of its entry. -/
theorem WellKept.callNamed?_eq (ht : t.WellKept P) (n : String) :
    t.callNamed? n = t.forward[n]?.map (·.2) := by
  refine Option.ext fun c => ?_
  rw [ht.callNamed?_eq_some, Option.map_eq_some_iff, Prod.exists]
  simp

/-! ## The two maps -/

/-- The two maps of a well kept table have the same keys. -/
theorem WellKept.mem_backward (ht : t.WellKept P) {k : String} :
    k ∈ t.backward ↔ k ∈ t.forward := by
  rw [Std.ExtTreeMap.mem_iff_isSome_getElem?, Option.isSome_iff_exists]
  constructor
  · rintro ⟨l, hl⟩
    exact ((ht.backward k l).mp hl).2
  · intro hk
    exact ⟨k, (ht.backward k k).mpr ⟨rfl, hk⟩⟩

/-- A larger well kept table also has the entries of the second map. -/
theorem WellKept.getElem?_backward_of_le {u : CallTable} (ht : t.WellKept P) (hu : u.WellKept P)
    (hle : t ≤ u) {k l : String} (h : t.backward[k]? = some l) : u.backward[k]? = some l := by
  obtain ⟨hl, hk⟩ := (ht.backward k l).mp h
  exact (hu.backward k l).mpr ⟨hl, mem_of_le hle hk⟩

/-- After every run of operations, both maps have the same keys, and the key of an entry is
the key of its call, the name of its placeholder and what the name leads back to. A further
operation changes and removes no entry; it enters its calls and does nothing else. Entering
a call gives the placeholder named by its key, a call has a placeholder exactly when one
with its key has been entered, and a placeholder, of this table or of another one, stands
for the first call that has been entered with its name as key. -/
theorem lookup_reached (os : List Operation) :
    (∀ k : String, k ∈ (reached os).forward ↔ k ∈ (reached os).backward) ∧
    (∀ (k : String) (p : Placeholder) (c : Call), (reached os).forward[k]? = some (p, c) →
      p.name = k ∧ c.key = k ∧ (reached os).backward[k]? = some k) ∧
    (∀ (o : Operation) (k : String),
      (∀ x, (reached os).forward[k]? = some x → (o.after (reached os)).forward[k]? = some x) ∧
      ∀ l, (reached os).backward[k]? = some l → (o.after (reached os)).backward[k]? = some l) ∧
    (∀ o : Operation, o.after (reached os) = (reached os).enter o.entered) ∧
    (∀ c : Call, ((reached os).insert c).1.name = c.key) ∧
    (∀ c : Call, ((reached os).placeholder? c).isSome ↔ ∃ d ∈ enteredBy os, d.key = c.key) ∧
    ∀ p : Placeholder, (reached os).call? p = (enteredBy os).find? (·.key = p.name) := by
  have hwell := wellKept_reached os
  refine ⟨fun k => hwell.mem_backward.symm, fun k p c h => ?_, fun o k => ?_,
    hwell.after_eq_enter, hwell.name_insert, fun c => ?_, fun p => ?_⟩
  · obtain ⟨hname, hkey, _⟩ := hwell.entry k p c h
    have hmem : k ∈ (reached os).forward := by
      rw [Std.ExtTreeMap.mem_iff_isSome_getElem?, h]
      rfl
    exact ⟨hname, hkey, (hwell.backward k k).mpr ⟨rfl, hmem⟩⟩
  · rw [hwell.after_eq_enter]
    have hle := le_enter (reached os) o.entered
    have hwell' : ((reached os).enter o.entered).WellKept fun _ => True :=
      hwell.enter fun _ _ => trivial
    exact ⟨fun x hx => hle k x hx, fun l hl => hwell.getElem?_backward_of_le hwell' hle hl⟩
  · rw [isSome_placeholder?, mem_forward_reached]
  · rw [call?, hwell.callNamed?_eq, getElem?_forward_reached, Option.map_map]
    exact Option.map_id'

/-- The calls of `f` and of `f ` on `x` have the same key; the first one is kept. -/
theorem lookup_reached_space :
    (reached [.abstract ⟨[⟨1, .call ⟨"f", [⟨[⟨1, .symbol "x"⟩]⟩]⟩⟩]⟩,
      .insert ⟨"f ", [⟨[⟨1, .symbol "x"⟩]⟩]⟩]).backward["f_Lx_R"]? = some "f_Lx_R" ∧
    (reached [.abstract ⟨[⟨1, .call ⟨"f", [⟨[⟨1, .symbol "x"⟩]⟩]⟩⟩]⟩,
      .insert ⟨"f ", [⟨[⟨1, .symbol "x"⟩]⟩]⟩]).call? ⟨"f_Lx_R"⟩ =
        some ⟨"f", [⟨[⟨1, .symbol "x"⟩]⟩]⟩ := by
  obtain ⟨_, hentry, _, _, _, _, hcall⟩ :=
    lookup_reached [.abstract ⟨[⟨1, .call ⟨"f", [⟨[⟨1, .symbol "x"⟩]⟩]⟩⟩]⟩,
      .insert ⟨"f ", [⟨[⟨1, .symbol "x"⟩]⟩]⟩]
  obtain ⟨_, _, hbackward⟩ := hentry "f_Lx_R" _ _ ((getElem?_forward_reached _ _).trans rfl)
  exact ⟨hbackward, hcall _⟩

end CallTable

end AffineCalls
