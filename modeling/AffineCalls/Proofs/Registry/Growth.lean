import AffineCalls.Proofs.Outcome
import AffineCalls.Registry.Basic

/-!
# How registries grow

Registries are built from the empty one by declaring functions, by appending other
registries, by starting again and, where this is allowed, by pairing names. An operation
that is refused leaves the registry as it was. Declaring and appending join two registries
that declare different names, so what they do is told by the queries of both.
-/

namespace AffineCalls.Registry

/-- The registries that are built from the empty one. Names are paired only if `free`
holds of them, and an appended registry is built in the same way. -/
inductive Reached (free : String → String → Prop) : Registry → Prop
  /-- Nothing is declared. -/
  | empty : Reached free ∅
  /-- The registry of one function is made. -/
  | ofSignature {f : Signature} {r : Registry} (h : ofSignature f = .ok r) : Reached free r
  /-- A function is declared, or refused. -/
  | declare {r : Registry} (hr : Reached free r) (f : Signature) :
    Reached free ((InPlace.declare f).after r)
  /-- A registry is appended, or refused. -/
  | append {r o : Registry} (hr : Reached free r) (ho : Reached free o) :
    Reached free ((InPlace.append o).after r)
  /-- All declarations and pairs are removed. -/
  | reset {r : Registry} (hr : Reached free r) : Reached free Registry.empty
  /-- Two names are paired. -/
  | pair {r : Registry} {a b : String} (hr : Reached free r) (hab : free a b) :
    Reached free (r.pair a b)

variable {r o s : Registry} {f : Signature}

/-! ## Two registries -/

/-- No name is declared by both registries. -/
def Apart (r o : Registry) : Prop := ∀ n, r.function? n = none ∨ o.function? n = none

/-- A name that both registries pair has the same partner in both. -/
def Agrees (r o : Registry) : Prop :=
  ∀ n a b, r.inverse? n = some a → o.inverse? n = some b → a = b

/-- The declarations and pairs of two registries. Where both say something of a name, it is
what the second one says. -/
instance : Union Registry := ⟨fun r o => ⟨r.functions ∪ o.functions, r.partners ∪ o.partners⟩⟩

/-- In the union of two registries, a name has the declaration that one of them gives it. -/
theorem function?_union (r o : Registry) (n : String) :
    (r ∪ o).function? n = (o.function? n).or (r.function? n) :=
  Std.ExtTreeMap.getElem?_union

/-- In the union of two registries, a name leads to where one of them leads it. -/
theorem inverse?_union (r o : Registry) (n : String) :
    (r ∪ o).inverse? n = (o.inverse? n).or (r.inverse? n) :=
  Std.ExtTreeMap.getElem?_union

/-- Nothing is said by the registry without declarations and pairs. -/
theorem empty_union (r : Registry) : ∅ ∪ r = r := by
  apply ext_queries
  · intro n
    rw [function?_union]
    exact Option.or_none
  · intro n
    rw [inverse?_union]
    exact Option.or_none

/-- What the second registry declares, the union declares. -/
theorem function?_union_right {n : String} (h : o.function? n = some f) :
    (r ∪ o).function? n = some f := by
  rw [function?_union, h, Option.some_or]

/-- What the first registry declares, the union declares if the second one does not declare the
same names. -/
theorem Apart.function?_union_left (hapart : r.Apart o) {n : String}
    (h : r.function? n = some f) : (r ∪ o).function? n = some f := by
  rcases hapart n with hn | hn
  · exact nomatch hn.symm.trans h
  · rw [function?_union, hn, Option.none_or, h]

/-! ## Declaring -/

/-- A function that is refused changes nothing, as both names are checked first. -/
theorem InPlace.atomic_declare (f : Signature) : (InPlace.declare f).Atomic := by
  refine Update.readOnly_get.bind_atomic fun r => ?_
  cases r.contains f.name with
  | true => exact Update.atomic_throw _
  | false =>
    cases f.bijective with
    | false => exact Update.atomic_of_forall_ok fun _ => ⟨(), rfl⟩
    | true =>
      cases r.contains f.inverse.name with
      | true => exact Update.atomic_throw _
      | false => exact Update.atomic_of_forall_ok fun _ => ⟨(), rfl⟩

/-- A name is not declared exactly when it has no declaration. -/
theorem contains_eq_false_iff {n : String} : r.contains n = false ↔ r.function? n = none := by
  rw [contains_eq_isSome, Option.isSome_eq_false_iff, Option.isNone_iff_eq_none]

/-- A function is declared exactly if its name is new and, if it is a bijection, also that
of its inverse, which is then declared and paired with it. -/
theorem declare_eq_ok :
    r.declare f = .ok s ↔ r.function? f.name = none ∧
      (f.bijective = false ∧ s = r.put f ∨
        f.bijective = true ∧ r.function? f.inverse.name = none ∧
          s = ((r.pair f.name f.inverse.name).put f).put f.inverse) := by
  rw [declare_eq, check_eq_ok, Bool.not_eq_true, contains_eq_false_iff]
  refine and_congr_right fun _ => ?_
  cases f.bijective with
  | false => simp [eq_comm]
  | true =>
    rw [if_neg (by decide), check_eq_ok, Bool.not_eq_true, contains_eq_false_iff]
    simp [eq_comm]

/-- The registry of one function and, if it is a bijection, its inverse. -/
def single (f : Signature) : Registry :=
  if f.bijective then ((pair ∅ f.name f.inverse.name).put f).put f.inverse else put ∅ f

/-- A function that is no bijection is the only one in its registry. -/
theorem function?_single_of_plain (hf : f.bijective = false) (n : String) :
    (single f).function? n = if f.name = n then some f else none := by
  rw [single, if_neg (by rw [hf]; decide), function?_put]
  rfl

/-- A bijection shares its registry with its inverse. -/
theorem function?_single_of_bijective (hf : f.bijective = true) (n : String) :
    (single f).function? n =
      if f.inverse.name = n then some f.inverse else if f.name = n then some f else none := by
  rw [single, if_pos hf, function?_put, function?_put]
  rfl

/-- The registry of one function declares it and, if it is a bijection, its inverse. -/
theorem contains_single {n : String} :
    (single f).contains n = true ↔ n = f.name ∨ f.bijective = true ∧ n = f.inverse.name := by
  rw [contains_eq_isSome]
  cases hf : f.bijective with
  | false =>
    rw [function?_single_of_plain hf]
    grind
  | true =>
    rw [function?_single_of_bijective hf]
    grind

/-- The registry of one function pairs it with its inverse if it is a bijection, and pairs
nothing else. -/
theorem inverse?_single_eq_some {a b : String} :
    (single f).inverse? a = some b ↔ f.bijective = true ∧
      (a = f.name ∧ b = f.inverse.name ∨ a = f.inverse.name ∧ b = f.name) := by
  have hne : f.inverse.name ≠ f.name := Signature.inverseName_ne f.name
  have hnone : (∅ : Registry).inverse? a = none := rfl
  cases hf : f.bijective with
  | false =>
    rw [single, if_neg (by rw [hf]; decide), inverse?_put, hnone]
    simp
  | true =>
    rw [single, if_pos hf, inverse?_put, inverse?_put, inverse?_pair, hnone]
    grind

/-- A registry does not declare the names of one function exactly if it declares neither the
name of the function nor, if it is a bijection, that of its inverse. -/
theorem apart_single_iff :
    r.Apart (single f) ↔ r.function? f.name = none ∧
      (f.bijective = true → r.function? f.inverse.name = none) := by
  cases hf : f.bijective with
  | false =>
    simp only [Apart, function?_single_of_plain hf]
    grind
  | true =>
    simp only [Apart, function?_single_of_bijective hf]
    grind

/-- Declaring a function puts its own registry over the old one, and is refused exactly if
that would replace a declaration. -/
theorem declare_eq_ok_iff_apart : r.declare f = .ok s ↔ r.Apart (single f) ∧ s = r ∪ single f := by
  rw [declare_eq_ok, apart_single_iff, and_assoc]
  refine and_congr_right fun _ => ?_
  cases hf : f.bijective with
  | false =>
    have hunion : r ∪ single f = r.put f := by
      apply ext_queries
      · intro n
        rw [function?_union, function?_single_of_plain hf, function?_put]
        split_ifs <;> rfl
      · intro n
        rw [inverse?_union, single, if_neg (by rw [hf]; decide)]
        rfl
    simp [hunion]
  | true =>
    have hunion : r ∪ single f = ((r.pair f.name f.inverse.name).put f).put f.inverse := by
      apply ext_queries
      · intro n
        rw [function?_union, function?_single_of_bijective hf, function?_put, function?_put,
          function?_pair]
        split_ifs <;> rfl
      · intro n
        simp only [inverse?_union, single, if_pos hf, inverse?_put, inverse?_pair]
        split_ifs <;> rfl
    simp [hunion]

/-! ## Appending -/

/-- A registry that is refused changes nothing, as all names are checked first. -/
theorem InPlace.atomic_append (o : Registry) : (InPlace.append o).Atomic := by
  refine Update.readOnly_get.bind_atomic fun r => ?_
  cases r.sharedName? o with
  | some name => exact Update.atomic_throw _
  | none =>
    cases r.conflict? o with
    | some name => exact Update.atomic_throw _
    | none => exact Update.atomic_of_forall_ok fun _ => ⟨(), rfl⟩

/-- No name is shared exactly when no name is declared by both registries. -/
theorem sharedName?_eq_none : r.sharedName? o = none ↔ r.Apart o := by
  rw [sharedName?, List.find?_eq_none]
  simp only [names, Std.ExtTreeMap.mem_keys, Bool.not_eq_true, contains_eq_false_iff]
  refine forall_congr' fun n => ?_
  rw [Std.ExtTreeMap.mem_iff_isSome_getElem?, function?, function?]
  cases o.functions[n]? <;> simp

/-- Nothing conflicts exactly when the registries agree on the names that both pair. -/
theorem conflict?_eq_none : r.conflict? o = none ↔ r.Agrees o := by
  rw [conflict?, List.find?_eq_none]
  simp only [Std.ExtTreeMap.mem_keys, Std.ExtTreeMap.mem_iff_isSome_getElem?]
  refine forall_congr' fun n => ?_
  rw [inverse?, inverse?]
  cases o.partners[n]? <;> cases r.partners[n]? <;> simp

/-- A registry is appended exactly if no name is declared by both and no name is paired
differently by both. -/
theorem append_eq_ok : r.append o = .ok s ↔ r.Apart o ∧ r.Agrees o ∧ s = r ∪ o := by
  rw [← sharedName?_eq_none, ← conflict?_eq_none, append_eq]
  cases r.sharedName? o with
  | some n => exact ⟨nofun, fun h => nomatch h.1⟩
  | none =>
    cases r.conflict? o with
    | some n => exact ⟨nofun, fun h => nomatch h.2.1⟩
    | none =>
      refine ⟨fun h => ⟨rfl, rfl, (Except.ok.inj h).symm⟩, ?_⟩
      rintro ⟨_, _, rfl⟩
      rfl

end AffineCalls.Registry
