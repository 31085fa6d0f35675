import AffineCalls.CallTable.Abstraction
import Mathlib.Order.Basic

/-!
# How tables grow

Entries are never changed or taken away, so the tables that arise from one another
are ordered by extension. A table is well kept if every placeholder is named by the
key of its call and both maps have the same keys; entering a call keeps it so.
-/

namespace AffineCalls.CallTable

/-- A table extends another one if it has all its entries. -/
instance : Preorder CallTable where
  le t u := ∀ (k : String) (x : Placeholder × Call), t.forward[k]? = some x → u.forward[k]? = some x
  le_refl _ _ _ h := h
  le_trans _ _ _ htu huv k x h := huv k x (htu k x h)

/-- Both maps have the same keys, every key is that of its call and the name of its
placeholder, and the calls have the given property. -/
structure WellKept (P : Call → Prop) (t : CallTable) : Prop where
  /-- The key of an entry is the name of the placeholder and the key of the call. -/
  entry : ∀ (k : String) (p : Placeholder) (c : Call), t.forward[k]? = some (p, c) →
    p.name = k ∧ c.key = k ∧ P c
  /-- The name of a placeholder leads back to the key, which is the same. -/
  backward : ∀ k l : String, t.backward[k]? = some l ↔ l = k ∧ k ∈ t.forward

/-- The tables that a table leads to when calls of one kind are entered and
expressions of another kind are abstracted. -/
inductive Leads (C : Call → Prop) (E : Expr → Prop) (t : CallTable) : CallTable → Prop
  /-- A table leads to itself. -/
  | refl : Leads C E t t
  /-- A call is entered. -/
  | insert {u : CallTable} {c : Call} (h : Leads C E t u) (hc : C c) : Leads C E t (u.insert c).2
  /-- An expression is abstracted. -/
  | abstract {u : CallTable} {e : Expr} (h : Leads C E t u) (he : E e) :
    Leads C E t (u.abstract e).2

variable {P : Call → Prop} {t u : CallTable}

/-- A larger table has the keys of a smaller one. -/
theorem mem_of_le (htu : t ≤ u) {k : String} (h : k ∈ t.forward) : k ∈ u.forward := by
  rw [Std.ExtTreeMap.mem_iff_isSome_getElem?, Option.isSome_iff_exists] at h ⊢
  obtain ⟨x, hx⟩ := h
  exact ⟨x, htu k x hx⟩

/-- The table without entries is well kept. -/
theorem wellKept_empty : WellKept P ∅ := by
  constructor
  · intro k p c h
    exact nomatch h
  · intro k l
    constructor
    · intro h
      exact nomatch h
    · rintro ⟨_, h⟩
      exact absurd h Std.ExtTreeMap.not_mem_empty

/-! ## Entering a call -/

/-- A call with a known key changes nothing. -/
theorem insert_of_eq_some {c d : Call} {p : Placeholder}
    (h : t.forward[c.key]? = some (p, d)) : t.insert c = (p, t) := by
  rw [insert, h]

/-- A call with a new key is entered in both maps. -/
theorem insert_of_eq_none {c : Call} (h : t.forward[c.key]? = none) :
    t.insert c =
      (⟨c.key⟩, ⟨t.forward.insert c.key (⟨c.key⟩, c), t.backward.insert c.key c.key⟩) := by
  rw [insert, h]

/-- Entering a call extends the table. -/
theorem le_insert (t : CallTable) (c : Call) : t ≤ (t.insert c).2 := by
  cases h : t.forward[c.key]? with
  | some x =>
    rw [insert_of_eq_some h]
  | none =>
    rw [insert_of_eq_none h]
    intro (k : String) x hx
    have hk : c.key ≠ k := by
      rintro rfl
      rw [h] at hx
      exact nomatch hx
    rw [Std.ExtTreeMap.getElem?_insert, if_neg (by simpa using hk)]
    exact hx

/-- A call that was entered has its key in the table. -/
theorem key_mem_insert (t : CallTable) (c : Call) : c.key ∈ (t.insert c).2.forward := by
  rw [Std.ExtTreeMap.mem_iff_isSome_getElem?]
  cases h : t.forward[c.key]? with
  | some x => rw [insert_of_eq_some h, h]; rfl
  | none => rw [insert_of_eq_none h, Std.ExtTreeMap.getElem?_insert_self]; rfl

/-- The placeholder of a call that was entered is named by the key. -/
theorem WellKept.name_insert (ht : t.WellKept P) (c : Call) : (t.insert c).1.name = c.key := by
  cases h : t.forward[c.key]? with
  | some x =>
    obtain ⟨p, d⟩ := x
    rw [insert_of_eq_some h]
    exact (ht.entry c.key p d h).1
  | none => rw [insert_of_eq_none h]

/-- A well kept table stays well kept when a call is entered. -/
theorem WellKept.insert (ht : t.WellKept P) {c : Call} (hc : P c) :
    (t.insert c).2.WellKept P := by
  cases h : t.forward[c.key]? with
  | some x =>
    rw [insert_of_eq_some h]
    exact ht
  | none =>
    rw [insert_of_eq_none h]
    constructor
    · intro k p d hk
      rw [Std.ExtTreeMap.getElem?_insert] at hk
      split at hk
      · next hkey =>
        cases hk
        have hkey : c.key = k := by simpa using hkey
        exact ⟨hkey, hkey, hc⟩
      · exact ht.entry k p d hk
    · intro k l
      rw [Std.ExtTreeMap.getElem?_insert, Std.ExtTreeMap.mem_insert]
      by_cases hkey : c.key = k
      · subst hkey
        simp [eq_comm]
      · simp [hkey, ht.backward]

/-! ## Looking up a name -/

/-- A name leads to the call whose key it is. -/
theorem WellKept.callNamed?_eq_some (ht : t.WellKept P) {n : String} {c : Call} :
    t.callNamed? n = some c ↔ ∃ p, t.forward[n]? = some (p, c) := by
  have hname : t.callNamed? n = t.backward[n]?.bind fun k => t.forward[k]?.bind fun x => some x.2 :=
    rfl
  rw [hname, Option.bind_eq_some_iff]
  constructor
  · rintro ⟨k, hk, h⟩
    obtain ⟨rfl, _⟩ := (ht.backward n k).mp hk
    obtain ⟨⟨p, d⟩, hx, h⟩ := Option.bind_eq_some_iff.mp h
    cases h
    exact ⟨p, hx⟩
  · rintro ⟨p, h⟩
    have hmem : n ∈ t.forward := by
      rw [Std.ExtTreeMap.mem_iff_isSome_getElem?, h]
      rfl
    exact ⟨n, (ht.backward n n).mpr ⟨rfl, hmem⟩, by rw [h]; rfl⟩

/-- A name that is no key leads to no call. -/
theorem WellKept.callNamed?_eq_none (ht : t.WellKept P) {n : String} :
    t.callNamed? n = none ↔ n ∉ t.forward := by
  rw [Option.eq_none_iff_forall_ne_some, Std.ExtTreeMap.mem_iff_isSome_getElem?,
    Option.isSome_iff_exists]
  constructor
  · rintro h ⟨⟨p, c⟩, hx⟩
    exact h c (ht.callNamed?_eq_some.mpr ⟨p, hx⟩)
  · intro h c hc
    obtain ⟨p, hx⟩ := ht.callNamed?_eq_some.mp hc
    exact h ⟨(p, c), hx⟩

/-- A name that leads to a call is a key. -/
theorem WellKept.mem_of_callNamed? (ht : t.WellKept P) {n : String} {c : Call}
    (h : t.callNamed? n = some c) : n ∈ t.forward := by
  by_contra hn
  rw [ht.callNamed?_eq_none.mpr hn] at h
  exact nomatch h

/-- The call that a name leads to has this name as its key. -/
theorem WellKept.key_callNamed? (ht : t.WellKept P) {n : String} {c : Call}
    (h : t.callNamed? n = some c) : c.key = n ∧ P c := by
  obtain ⟨p, hx⟩ := ht.callNamed?_eq_some.mp h
  obtain ⟨_, hkey, hc⟩ := ht.entry n p c hx
  exact ⟨hkey, hc⟩

end AffineCalls.CallTable
