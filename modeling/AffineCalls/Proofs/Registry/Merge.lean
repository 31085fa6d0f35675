import AffineCalls.Proofs.Registry.Pairing
import Mathlib.Data.List.Pairwise
import Mathlib.Data.String.Basic
import Mathlib.Order.Bounds.Basic

/-!
# Putting registries together

A registry is appended exactly if it declares no name of the other one and agrees with it on
the names that both pair. A run of such steps succeeds exactly if all registries fit each
other, two by two, and its result says what they say together. So neither depends on the
order. Declaring is joining the registry of one function, which fits as soon as its names
are new.
-/

namespace AffineCalls.Registry

variable {q r o s : Registry}

/-! ## What is said of a name -/

/-- Two registries give the same answer to every question about what a name declares. -/
structure SameDeclared (s r : Registry) (n : String) : Prop where
  /-- The name is declared by both or by neither. -/
  contains : s.contains n = r.contains n
  /-- The declarations are the same. -/
  function : s.function? n = r.function? n
  /-- The argument tuples are the same. -/
  domain : s.domain? n = r.domain? n
  /-- The result tuples are the same. -/
  range : s.range? n = r.range? n
  /-- The monotonicity is the same. -/
  monotonicity : s.monotonicity n = r.monotonicity n
  /-- The same calls of the name pass the check, and others are refused for the same reason. -/
  check : ∀ c : Call, c.name = n → s.check c = r.check c

/-- All questions about what a name declares are answered by its declaration. -/
theorem SameDeclared.of_function {n : String} (h : s.function? n = r.function? n) :
    s.SameDeclared r n where
  contains := by rw [contains_eq_isSome, contains_eq_isSome, h]
  function := h
  domain := by rw [domain?, domain?, h]
  range := by rw [range?, range?, h]
  monotonicity := by rw [Registry.monotonicity, Registry.monotonicity, h]
  check := by
    rintro c rfl
    rw [Registry.check, Registry.check, h]

/-- The registry `s` says of every name what the one of `r` and `o` says that knows the name,
and it knows no other names. -/
structure Joined (r o s : Registry) : Prop where
  /-- What the first registry declares is declared as there. -/
  left : ∀ n, r.contains n = true → s.SameDeclared r n
  /-- What the second registry declares is declared as there. -/
  right : ∀ n, o.contains n = true → s.SameDeclared o n
  /-- Nothing else is declared. -/
  neither : ∀ n, r.contains n = false → o.contains n = false → s.SameDeclared ∅ n
  /-- A name leads to where one of the registries leads it. -/
  inverse : ∀ n m, s.inverse? n = some m ↔ r.inverse? n = some m ∨ o.inverse? n = some m

/-- The union of two registries says what they say if they fit each other. -/
theorem joined_union (hapart : r.Apart o) (hagrees : r.Agrees o) : Joined r o (r ∪ o) where
  left n hn := by
    rw [contains_eq_isSome] at hn
    obtain ⟨f, hf⟩ := Option.isSome_iff_exists.mp hn
    exact .of_function ((hapart.function?_union_left hf).trans hf.symm)
  right n hn := by
    rw [contains_eq_isSome] at hn
    obtain ⟨f, hf⟩ := Option.isSome_iff_exists.mp hn
    exact .of_function ((function?_union_right hf).trans hf.symm)
  neither n hr ho := by
    refine .of_function ?_
    rw [function?_union, contains_eq_false_iff.mp hr, contains_eq_false_iff.mp ho]
    rfl
  inverse n m := by
    rw [inverse?_union, Option.or_eq_some_iff]
    constructor
    · rintro (ho | ⟨_, hr⟩)
      · exact .inr ho
      · exact .inl hr
    · rintro (hr | ho)
      · cases ho : o.inverse? n with
        | none => exact .inr ⟨rfl, hr⟩
        | some m' => exact .inl (congrArg some (hagrees n m m' hr ho).symm)
      · exact .inl ho

/-! ## The name that is refused -/

/-- The names that both registries declare. -/
def shared (r o : Registry) : Set String := {n | r.contains n = true ∧ o.contains n = true}

/-- The names that both registries pair, and with different names. -/
def disputed (r o : Registry) : Set String :=
  {n | ∃ a b, r.inverse? n = some a ∧ o.inverse? n = some b ∧ a ≠ b}

/-- Registries declare different names exactly if they share none. -/
theorem apart_iff_shared : r.Apart o ↔ r.shared o = ∅ := by
  rw [Set.eq_empty_iff_forall_notMem]
  refine forall_congr' fun n => ?_
  rw [shared, Set.mem_ofPred_eq, not_and_or, Bool.not_eq_true, Bool.not_eq_true,
    contains_eq_false_iff, contains_eq_false_iff]

/-- The first member of an ascending list that has a property is the least one. -/
theorem find?_eq_some_iff_isLeast {xs : List String} (hxs : xs.Pairwise (· < ·))
    {p : String → Bool} {x : String} :
    xs.find? p = some x ↔ IsLeast {y | y ∈ xs ∧ p y = true} x := by
  have hfirst : ∀ {x}, xs.find? p = some x → IsLeast {y | y ∈ xs ∧ p y = true} x := by
    intro x h
    obtain ⟨hx, as, bs, rfl, has⟩ := List.find?_eq_some_iff_append.mp h
    refine ⟨⟨List.mem_append_right as List.mem_cons_self, hx⟩, ?_⟩
    rintro y ⟨hy, hpy⟩
    rcases List.mem_append.mp hy with hy | hy
    · have hnot := has y hy
      rw [hpy] at hnot
      exact nomatch hnot
    · rcases List.mem_cons.mp hy with rfl | hy
      · exact le_refl y
      · exact ((List.pairwise_cons.mp (List.pairwise_append.mp hxs).2.1).1 y hy).le
  refine ⟨hfirst, fun h => ?_⟩
  obtain ⟨y, hy⟩ := Option.isSome_iff_exists.mp (List.find?_isSome.mpr ⟨x, h.1.1, h.1.2⟩)
  rw [hy, (hfirst hy).unique h]

/-- The name that is found declared by both registries is the least such name. -/
theorem sharedName?_eq_some {n : String} :
    r.sharedName? o = some n ↔ IsLeast (r.shared o) n := by
  have hsorted : o.names.Pairwise (· < ·) :=
    Std.ExtTreeMap.ordered_keys.imp fun h => compare_lt_iff_lt.mp h
  have hset : {m | m ∈ o.names ∧ r.contains m = true} = r.shared o := by
    ext m
    rw [Set.mem_ofPred_eq, and_comm, names, Std.ExtTreeMap.mem_keys,
      ← Std.ExtTreeMap.contains_iff_mem]
    rfl
  rw [sharedName?, find?_eq_some_iff_isLeast hsorted, hset]

/-- The name that is found paired differently by the registries is the least such name. -/
theorem conflict?_eq_some {n : String} :
    r.conflict? o = some n ↔ IsLeast (r.disputed o) n := by
  have hsorted : o.partners.keys.Pairwise (· < ·) :=
    Std.ExtTreeMap.ordered_keys.imp fun h => compare_lt_iff_lt.mp h
  rw [conflict?, find?_eq_some_iff_isLeast hsorted]
  refine iff_of_eq (congrArg (IsLeast · n) (Set.ext fun m => ?_))
  rw [Set.mem_ofPred_eq, Std.ExtTreeMap.mem_keys, Std.ExtTreeMap.mem_iff_isSome_getElem?,
    disputed, Set.mem_ofPred_eq, inverse?, inverse?]
  cases r.partners[m]? <;> cases o.partners[m]? <;> simp

/-- Appending is refused for the least name that both registries declare or, if there is none,
for the least one that they pair differently. -/
theorem append_eq_error {e : RegistryError} :
    r.append o = .error e ↔ ∃ n, e = .duplicate n ∧
      (IsLeast (r.shared o) n ∨ r.shared o = ∅ ∧ IsLeast (r.disputed o) n) := by
  rw [append_eq, ← apart_iff_shared, ← sharedName?_eq_none]
  simp only [← sharedName?_eq_some, ← conflict?_eq_some]
  cases r.sharedName? o with
  | some n => simp [eq_comm]
  | none => cases r.conflict? o <;> simp [eq_comm]

/-! ## Registries that fit each other -/

/-- Declaring different names is symmetric. -/
theorem Apart.symm (h : r.Apart o) : o.Apart r := fun n => (h n).symm

/-- Agreeing on pairs is symmetric. -/
theorem Agrees.symm (h : r.Agrees o) : o.Agrees r :=
  fun n a b ha hb => (h n b a hb ha).symm

/-- The union of two registries declares no name of a third one exactly if neither does. -/
theorem apart_union_iff : (r ∪ o).Apart q ↔ r.Apart q ∧ o.Apart q := by
  rw [Apart, Apart, Apart, ← forall_and]
  refine forall_congr' fun n => ?_
  rw [function?_union, Option.or_eq_none_iff]
  tauto

/-- The union of two registries that agree on their pairs agrees with a third one exactly if
both do. -/
theorem Agrees.union_iff (h : r.Agrees o) : (r ∪ o).Agrees q ↔ r.Agrees q ∧ o.Agrees q := by
  constructor
  · intro hunion
    refine ⟨fun n a b ha hb => ?_, fun n a b ha hb => ?_⟩
    · apply hunion n a b _ hb
      rw [inverse?_union]
      cases ho : o.inverse? n with
      | none => exact ha
      | some a' => exact congrArg some (h n a a' ha ho).symm
    · apply hunion n a b _ hb
      rw [inverse?_union, ha, Option.some_or]
  · rintro ⟨hr, ho⟩ n a b hab hb
    rw [inverse?_union] at hab
    rcases Option.or_eq_some_iff.mp hab with ha | ⟨_, ha⟩
    · exact ho n a b ha hb
    · exact hr n a b ha hb

/-- Two registries that fit each other may be joined to a third one in either order. -/
theorem union_right_comm (hapart : r.Apart o) (hagrees : r.Agrees o) : q ∪ r ∪ o = q ∪ o ∪ r := by
  apply ext_queries
  · intro n
    simp only [function?_union]
    rcases hapart n with hn | hn
    · rw [hn, Option.none_or, Option.none_or]
    · rw [hn, Option.none_or, Option.none_or]
  · intro n
    simp only [inverse?_union]
    cases hr : r.inverse? n with
    | none => rw [Option.none_or, Option.none_or]
    | some a =>
      cases ho : o.inverse? n with
      | none => rfl
      | some b => rw [hagrees n a b hr ho, Option.some_or]

/-- Well paired registries that declare different names agree on their pairs. -/
theorem WellPaired.agrees (hr : r.WellPaired) (ho : o.WellPaired) (hapart : r.Apart o) :
    r.Agrees o := by
  intro n a b ha hb
  exact nomatch (hr.unpaired_of_apart ho hapart ha).symm.trans hb

/-! ## Runs -/

/-- Each step of a run joins one more registry to the one that is held, and succeeds exactly if
the two fit. What fits a union fits both of its parts, and registries that fit each other may
be joined in either order. -/
structure Joining {α : Type} (step : Registry → α → Except RegistryError Registry)
    (value : α → Registry) (Fits : Registry → Registry → Prop) : Prop where
  /-- A step succeeds exactly if its registry fits, which is then joined. -/
  step_eq_ok : ∀ {r x s}, step r x = .ok s ↔ Fits r (value x) ∧ s = r ∪ value x
  /-- Fitting is symmetric. -/
  symm : ∀ {r o}, Fits r o → Fits o r
  /-- What fits a union fits both of its parts. -/
  union_iff : ∀ {r o q}, Fits r o → (Fits (r ∪ o) q ↔ Fits r q ∧ Fits o q)
  /-- The order of two steps does not matter. -/
  comm : ∀ {r x y}, Fits (value x) (value y) → r ∪ value x ∪ value y = r ∪ value y ∪ value x

section Joining

variable {α : Type} {step : Registry → α → Except RegistryError Registry} {value : α → Registry}
  {Fits : Registry → Registry → Prop}

/-- A run succeeds exactly if the first registry and those of all steps fit each other, two by
two, and it joins them all. -/
theorem Joining.run_eq_ok (h : Joining step value Fits) {xs : List α} :
    xs.foldlM step r = .ok s ↔ (r :: xs.map value).Pairwise Fits ∧
      s = xs.foldl (fun t x => t ∪ value x) r := by
  induction xs generalizing r with
  | nil => simp [pure, Except.pure, eq_comm]
  | cons x xs ih =>
    rw [List.foldlM_cons, bind_eq_ok, List.foldl_cons, List.map_cons]
    simp only [h.step_eq_ok, ih, and_assoc]
    constructor
    · rintro ⟨_, hx, rfl, hpairs, hs⟩
      obtain ⟨hunion, hxs⟩ := List.pairwise_cons.mp hpairs
      refine ⟨.cons ?_ (.cons ?_ hxs), hs⟩
      · exact List.forall_mem_cons.mpr ⟨hx, fun o ho => ((h.union_iff hx).mp (hunion o ho)).1⟩
      · exact fun o ho => ((h.union_iff hx).mp (hunion o ho)).2
    · rintro ⟨hpairs, hs⟩
      obtain ⟨hr, hpairs⟩ := List.pairwise_cons.mp hpairs
      obtain ⟨hx, hr⟩ := List.forall_mem_cons.mp hr
      obtain ⟨hxs, hpairs⟩ := List.pairwise_cons.mp hpairs
      refine ⟨_, hx, rfl, .cons (fun o ho => ?_) hpairs, hs⟩
      exact (h.union_iff hx).mpr ⟨hr o ho, hxs o ho⟩

/-- The order of a run does not matter. -/
theorem Joining.run_perm (h : Joining step value Fits) {xs ys : List α} (hperm : xs.Perm ys)
    (r s : Registry) : xs.foldlM step r = .ok s ↔ ys.foldlM step r = .ok s := by
  rw [h.run_eq_ok, h.run_eq_ok, ← ((hperm.map value).cons r).pairwise_iff h.symm]
  refine and_congr_right fun hpairs => ?_
  have hsymm : Std.Symm fun x y => Fits (value x) (value y) := ⟨fun _ _ => h.symm⟩
  have hfits : xs.Pairwise fun x y => Fits (value x) (value y) :=
    List.pairwise_map.mp (List.pairwise_cons.mp hpairs).2
  have hcomm : ∀ x ∈ xs, ∀ y ∈ xs, ∀ t : Registry,
      t ∪ value x ∪ value y = t ∪ value y ∪ value x := by
    intro x hx y hy t
    by_cases hxy : x = y
    · rw [hxy]
    · exact h.comm (hfits.forall hx hy hxy)
  rw [hperm.foldl_eq' hcomm]

end Joining

/-- Appending joins registries that declare different names and agree on their pairs. -/
theorem joining_append : Joining append id fun r o => r.Apart o ∧ r.Agrees o where
  step_eq_ok := by
    intro r o s
    rw [append_eq_ok, and_assoc]
    rfl
  symm h := ⟨h.1.symm, h.2.symm⟩
  union_iff := by
    intro r o q h
    rw [apart_union_iff, h.2.union_iff]
    tauto
  comm h := union_right_comm h.1 h.2

/-- Declaring joins the registry of the function, which has to declare new names only. -/
theorem joining_declare : Joining declare single Apart where
  step_eq_ok := declare_eq_ok_iff_apart
  symm := Apart.symm
  union_iff _ := apart_union_iff
  -- The registries of two functions pair only what they declare, so they agree.
  comm h := union_right_comm h ((wellPaired_single _).agrees (wellPaired_single _) h)

/-- A registry is appended exactly if no name is declared by both and none is paired
differently by both. Then every question about a name is answered as by the one that knows
it. Otherwise the old registry is kept and the least name is reported that both declare or, if
there is none, that they pair differently. Whether all of a list of registries can be appended
one after the other, or all of a list of functions declared, and what comes of it, does not
depend on their order. -/
theorem merge_exact (r o : Registry) :
    ((∃ s, r.append o = .ok s) ↔ (∀ n, ¬ (r.contains n = true ∧ o.contains n = true)) ∧
      ∀ n a b, r.inverse? n = some a → o.inverse? n = some b → a = b) ∧
    (∀ s, r.append o = .ok s → Joined r o s) ∧
    (∀ e, r.append o = .error e → (InPlace.append o).outcome r = (.error e, r) ∧
      ∃ n, e = .duplicate n ∧
        (IsLeast (r.shared o) n ∨ r.shared o = ∅ ∧ IsLeast (r.disputed o) n)) ∧
    (∀ os os' : List Registry, os.Perm os' →
      ∀ s, os.foldlM append r = .ok s ↔ os'.foldlM append r = .ok s) ∧
    ∀ fs fs' : List Signature, fs.Perm fs' →
      ∀ s, fs.foldlM declare r = .ok s ↔ fs'.foldlM declare r = .ok s := by
  refine ⟨?_, ?_, ?_, ?_, ?_⟩
  · simp only [append_eq_ok, apart_iff_shared, Set.eq_empty_iff_forall_notMem]
    constructor
    · rintro ⟨s, hshared, hagrees, _⟩
      exact ⟨hshared, hagrees⟩
    · rintro ⟨hshared, hagrees⟩
      exact ⟨_, hshared, hagrees, rfl⟩
  · intro s hs
    obtain ⟨hapart, hagrees, rfl⟩ := append_eq_ok.mp hs
    exact joined_union hapart hagrees
  · intro e he
    exact ⟨(InPlace.atomic_append o).outcome_of_error he, append_eq_error.mp he⟩
  · intro os os' hperm s
    exact joining_append.run_perm hperm r s
  · intro fs fs' hperm s
    exact joining_declare.run_perm hperm r s

/-- What pairs `f` with `h` is not appended to what pairs it with `g`, and this is reported of `f`.
A function named as the inverse of the bijection `p` can be declared neither after nor before
it. -/
theorem merge_exact_disputed :
    (pair ∅ "f" "g").append (pair ∅ "f" "h") = .error (.duplicate "f") ∧
      ∀ s, List.foldlM declare ∅
        [⟨"p_inv", .ofNames ["i"], .ofNames ["j"], false, .none⟩,
          ⟨"p", .ofNames ["i"], .ofNames ["j"], true, .nondecreasing⟩] ≠ .ok s := by
  constructor
  · obtain ⟨hok, _, herror, _⟩ := merge_exact (pair ∅ "f" "g") (pair ∅ "f" "h")
    cases h : (pair ∅ "f" "g").append (pair ∅ "f" "h") with
    | ok s =>
      have hsame : "g" = "h" := (hok.mp ⟨s, h⟩).2 "f" "g" "h" rfl rfl
      exact absurd hsame (by decide)
    | error e =>
      obtain ⟨_, n, rfl, hshared | ⟨_, hdisputed⟩⟩ := herror e h
      · exact nomatch hshared.1.1
      · obtain ⟨a, b, ha, hb, _⟩ := hdisputed.1
        have hnone : (∅ : Registry).inverse? n = none := rfl
        rw [inverse?_pair, hnone] at ha hb
        grind
  · intro s hs
    have hswap := ((merge_exact ∅ ∅).2.2.2.2 _ _ (.swap ..) s).mp hs
    have hrefused : List.foldlM declare ∅
        [⟨"p", .ofNames ["i"], .ofNames ["j"], true, .nondecreasing⟩,
          ⟨"p_inv", .ofNames ["i"], .ofNames ["j"], false, .none⟩] =
        .error (.duplicate "p_inv") := rfl
    exact nomatch hrefused.symm.trans hswap

end AffineCalls.Registry
