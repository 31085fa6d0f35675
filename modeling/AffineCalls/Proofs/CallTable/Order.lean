import AffineCalls.Proofs.CallTable.History

/-!
# The order of operations

What an operation answers and which keys it adds do not depend on the table, as the
placeholder of a call is named by its key in every table. So operations give the same
answers in every order, and they lead to the same keys. The order only decides which of
several calls with the same key is kept.
-/

namespace AffineCalls.CallTable

/-- What an operation gives back. -/
inductive Answer where
  /-- The placeholder of the call that was entered. -/
  | placeholder (p : Placeholder)
  /-- The abstracted expression, or an overflow. -/
  | abstracted (x : Except Overflow Expr)

/-- What an operation gives back when it is performed on a table. -/
def Operation.answer (t : CallTable) : Operation → Answer
  | .insert c => .placeholder (t.insert c).1
  | .abstract e => .abstracted (t.abstract e).1

/-- The operations of a run that starts from a table, each with what it gives back. -/
def log (t : CallTable) : List Operation → List (Operation × Answer)
  | [] => []
  | o :: os => (o, o.answer t) :: (o.after t).log os

variable {P : Call → Prop} {t u : CallTable}

/-! ## One operation -/

/-- What an operation gives back does not depend on the table. -/
theorem WellKept.answer_eq (ht : t.WellKept fun _ => True) (hu : u.WellKept fun _ => True)
    (o : Operation) : o.answer t = o.answer u := by
  cases o with
  | insert c =>
    refine congrArg Answer.placeholder (congrArg Placeholder.mk ?_)
    rw [ht.name_insert, hu.name_insert]
  | abstract e =>
    refine congrArg Answer.abstracted ?_
    rw [ht.abstract_eq, hu.abstract_eq]

/-- An operation keeps a table well kept. -/
theorem WellKept.after (ht : t.WellKept fun _ => True) (o : Operation) :
    (o.after t).WellKept fun _ => True := by
  rw [ht.after_eq_enter]
  exact ht.enter fun _ _ => trivial

/-- An abstraction adds the keys of the calls that it enters, also if it overflows. -/
theorem WellKept.mem_forward_abstract (ht : t.WellKept fun _ => True) {e : Expr} {k : String} :
    k ∈ (t.abstract e).2.forward ↔ k ∈ t.forward ∨ k ∈ e.entered.map Call.key := by
  rw [ht.abstract_eq, mem_forward_enter, List.mem_map]

/-! ## Runs -/

/-- In a run, each operation gives back what it gives back on the empty table. -/
theorem WellKept.log_eq (ht : t.WellKept fun _ => True) (os : List Operation) :
    t.log os = os.map fun o => (o, o.answer ∅) := by
  induction os generalizing t with
  | nil => rfl
  | cons o os ih => rw [log, ih (ht.after o), ht.answer_eq wellKept_empty, List.map_cons]

/-- A run leads to the same keys in every order. -/
theorem mem_forward_of_perm {os os' : List Operation} (h : os.Perm os') (k : String) :
    k ∈ (reached os).forward ↔ k ∈ (reached os').forward := by
  have hentered : (enteredBy os).Perm (enteredBy os') := h.flatMap_right Operation.entered
  simp only [mem_forward_reached, hentered.mem_iff]

/-- Tables with the same keys have the same number of calls. -/
theorem size_eq_of_mem_iff (h : ∀ k, k ∈ t.forward ↔ k ∈ u.forward) : t.size = u.size := by
  have hkeys : t.forward.keys.Perm u.forward.keys := by
    rw [List.perm_ext_iff_of_nodup Std.ExtTreeMap.nodup_keys Std.ExtTreeMap.nodup_keys]
    simpa only [Std.ExtTreeMap.mem_keys] using h
  rw [size, size, ← Std.ExtTreeMap.length_keys, ← Std.ExtTreeMap.length_keys, hkeys.length_eq]

/-- After whatever runs, an expression is abstracted to the same expression or overflows, and
the same keys are added to those that are there before, also if it overflows. In a run from
the empty table, each operation gives back what it gives back there at once, so that the
operations give back the same in every order, and lead to the same keys and to the same
number of calls. -/
theorem history_irrelevant :
    (∀ os os' e, ((reached os).abstract e).1 = ((reached os').abstract e).1) ∧
    (∃ K : Expr → List String, ∀ os e k,
      k ∈ ((reached os).abstract e).2.forward ↔ k ∈ (reached os).forward ∨ k ∈ K e) ∧
    (∀ os, log ∅ os = os.map fun o => (o, o.answer ∅)) ∧
    ∀ os os' : List Operation, os.Perm os' →
      (log ∅ os).Perm (log ∅ os') ∧
      (∀ k, k ∈ (reached os).forward ↔ k ∈ (reached os').forward) ∧
      (reached os).size = (reached os').size := by
  refine ⟨fun os os' e => ?_, ⟨fun e => e.entered.map Call.key, fun os e k => ?_⟩, ?_, ?_⟩
  · rw [(wellKept_reached os).abstract_eq, (wellKept_reached os').abstract_eq]
  · exact (wellKept_reached os).mem_forward_abstract
  · exact wellKept_empty.log_eq
  · intro os os' h
    have hkeys := mem_forward_of_perm h
    refine ⟨?_, hkeys, size_eq_of_mem_iff hkeys⟩
    rw [wellKept_empty.log_eq, wellKept_empty.log_eq]
    exact h.map _

/-- The calls of `f` and of `f ` on `x` become the same symbol, and the greatest coefficient of
it is added to one. This overflows, but the key is added, before or after a call is entered. -/
theorem history_irrelevant_overflow :
    let c : Call := ⟨"f", [⟨[⟨1, .symbol "x"⟩]⟩]⟩
    let e : Expr := ⟨[⟨⟨9223372036854775807, by decide, by decide⟩, .call c⟩,
      ⟨1, .call { c with name := "f " }⟩]⟩
    ((reached [.insert c]).abstract e).1 = .error .coefficient ∧
      (reached [.insert c, .abstract e]).size = 1 ∧ (reached [.abstract e, .insert c]).size = 1 := by
  intro c e
  obtain ⟨habstract, _, _, horder⟩ := history_irrelevant
  have hempty : ((reached []).abstract e).1 = .error .coefficient := by decide +kernel
  have hsize : (reached [.insert c, .abstract e]).size = 1 := by decide +kernel
  obtain ⟨_, _, hswap⟩ := horder _ _ (.swap (.abstract e) (.insert c) [])
  exact ⟨(habstract [.insert c] [] e).trans hempty, hsize, hswap.symm.trans hsize⟩

end AffineCalls.CallTable
