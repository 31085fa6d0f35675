import AffineCalls.Coeff
import AffineCalls.Update
import Mathlib.Data.List.Forall2

/-!
# Outcomes of computations that may fail

A computation either gives a result or fails. These lemmas take a successful computation
apart into its successful steps. As there is one reason only for arithmetic to fail, two
computations with coefficients are equal when they have the same results. A step in place
also leaves a value behind if it fails, and this is the old one if all changes come after
the last check.
-/

namespace AffineCalls

variable {ε α β γ : Type}

/-- A sequence of two steps succeeds exactly when both do, one after the other. -/
theorem bind_eq_ok {x : Except ε α} {f : α → Except ε β} {b : β} :
    (x >>= f) = .ok b ↔ ∃ a, x = .ok a ∧ f a = .ok b := by
  cases x with
  | error e => exact ⟨nofun, fun ⟨_, h, _⟩ => nomatch h⟩
  | ok a =>
    constructor
    · intro h
      exact ⟨a, rfl, h⟩
    · rintro ⟨a', ha, h⟩
      cases ha
      exact h

/-- A step whose result is only converted succeeds exactly when the step does. -/
theorem bind_pure_eq_ok {x : Except ε α} {f : α → β} {b : β} :
    (x >>= fun a => pure (f a)) = .ok b ↔ ∃ a, x = .ok a ∧ f a = b := by
  rw [bind_eq_ok]
  exact exists_congr fun a => and_congr_right fun _ => ⟨Except.ok.inj, congrArg Except.ok⟩

/-- A step behind a check succeeds exactly when nothing is found wrong and the step does. -/
theorem check_eq_ok {p : Prop} [Decidable p] {e : ε} {x : Except ε α} {a : α} :
    (if p then .error e else x) = .ok a ↔ ¬p ∧ x = .ok a := by
  by_cases h : p
  · rw [if_pos h]
    exact ⟨nofun, fun h' => absurd h h'.1⟩
  · rw [if_neg h]
    exact ⟨fun h' => ⟨h, h'⟩, And.right⟩

/-- A list of independent steps succeeds exactly when every one of them does. -/
theorem mapM_eq_ok {f : α → Except ε β} {xs : List α} {ys : List β} :
    xs.mapM f = .ok ys ↔ List.Forall₂ (fun x y => f x = .ok y) xs ys := by
  induction xs generalizing ys with
  | nil =>
    rw [List.mapM_nil, List.forall₂_nil_left_iff]
    exact ⟨fun h => (Except.ok.inj h).symm, fun h => h ▸ rfl⟩
  | cons x xs ih =>
    rw [List.mapM_cons, bind_eq_ok, List.forall₂_cons_left_iff]
    constructor
    · rintro ⟨y, hy, h⟩
      obtain ⟨ys', hys, h'⟩ := bind_eq_ok.mp h
      exact ⟨y, ys', hy, ih.mp hys, (Except.ok.inj h').symm⟩
    · rintro ⟨y, ys', hy, hys, rfl⟩
      exact ⟨y, hy, bind_eq_ok.mpr ⟨ys', ih.mpr hys, rfl⟩⟩

/-- What each pair of related members agrees on, two related lists agree on. -/
theorem map_eq_map_of_forall₂ {R : α → β → Prop} {p : α → γ} {q : β → γ} {xs : List α}
    {ys : List β} (h : List.Forall₂ R xs ys) (hpq : ∀ x ∈ xs, ∀ y, R x y → q y = p x) :
    ys.map q = xs.map p := by
  induction h with
  | nil => rfl
  | cons hxy _ ih =>
    obtain ⟨hx, hxs⟩ := List.forall_mem_cons.mp hpq
    rw [List.map_cons, List.map_cons, hx _ hxy, ih hxs]

/-- Each member of a list is related to some member of a related list. -/
theorem exists_of_forall₂ {R : α → β → Prop} {xs : List α} {ys : List β}
    (h : List.Forall₂ R xs ys) {x : α} (hx : x ∈ xs) : ∃ y ∈ ys, R x y := by
  induction h with
  | nil => exact nomatch hx
  | cons hxy _ ih =>
    rcases List.mem_cons.mp hx with rfl | hx
    · exact ⟨_, List.mem_cons_self, hxy⟩
    · obtain ⟨y, hy, hxy⟩ := ih hx
      exact ⟨y, .tail _ hy, hxy⟩

/-- Two lists are related through a third one exactly when their members are through some
member. -/
theorem forall₂_comp_iff {R : α → β → Prop} {S : β → γ → Prop} {xs : List α} {zs : List γ} :
    (∃ ys, List.Forall₂ R xs ys ∧ List.Forall₂ S ys zs) ↔
      List.Forall₂ (fun x z => ∃ y, R x y ∧ S y z) xs zs := by
  constructor
  · rintro ⟨ys, hxy, hyz⟩
    induction hxy generalizing zs with
    | nil =>
      cases hyz
      exact .nil
    | cons hx _ ih =>
      obtain ⟨z, zs', hz, hzs, rfl⟩ := List.forall₂_cons_left_iff.mp hyz
      exact .cons ⟨_, hx, hz⟩ (ih hzs)
  · intro h
    induction h with
    | nil => exact ⟨[], .nil, .nil⟩
    | cons hxz _ ih =>
      obtain ⟨y, hx, hz⟩ := hxz
      obtain ⟨ys, hxs, hzs⟩ := ih
      exact ⟨y :: ys, .cons hx hxs, .cons hz hzs⟩

/-- A list is related to the results of which each of its members has one. -/
theorem forall₂_flatten {R : α → β → Prop} {xs : List α} {yss : List (List β)}
    (h : List.Forall₂ (fun x ys => ∃ y, ys = [y] ∧ R x y) xs yss) :
    List.Forall₂ R xs yss.flatten := by
  induction h with
  | nil => exact .nil
  | cons hx _ ih =>
    obtain ⟨y, rfl, hy⟩ := hx
    exact .cons hy ih

/-- A list whose members are all related to something is related to some list. -/
theorem exists_forall₂ {R : α → β → Prop} {xs : List α} (h : ∀ x ∈ xs, ∃ y, R x y) :
    ∃ ys, List.Forall₂ R xs ys := by
  induction xs with
  | nil => exact ⟨[], .nil⟩
  | cons x xs ih =>
    obtain ⟨⟨y, hy⟩, hxs⟩ := List.forall_mem_cons.mp h
    obtain ⟨ys, hys⟩ := ih hxs
    exact ⟨y :: ys, .cons hy hys⟩

/-- Every step of a list of steps that succeeds gives a result. -/
theorem exists_ok_of_mapM {f : α → Except ε β} {xs : List α} {ys : List β}
    (h : xs.mapM f = .ok ys) {x : α} (hx : x ∈ xs) : ∃ y, f x = .ok y := by
  obtain ⟨y, _, hy⟩ := exists_of_forall₂ (mapM_eq_ok.mp h) hx
  exact ⟨y, hy⟩

/-- Every result of a list of steps is that of some step. -/
theorem exists_of_mem_mapM {f : α → Except ε β} {xs : List α} {ys : List β}
    (h : xs.mapM f = .ok ys) {y : β} (hy : y ∈ ys) : ∃ x ∈ xs, f x = .ok y :=
  exists_of_forall₂ (R := fun y x => f x = .ok y) (mapM_eq_ok.mp h).flip hy

/-- A list of steps depends on what the steps do on the list only. -/
theorem mapM_congr {f g : α → Except ε β} {xs : List α} (h : ∀ x ∈ xs, f x = g x) :
    xs.mapM f = xs.mapM g := by
  induction xs with
  | nil => rfl
  | cons x xs ih =>
    obtain ⟨hx, hxs⟩ := List.forall_mem_cons.mp h
    rw [List.mapM_cons, List.mapM_cons, hx, ih hxs]

/-- Two computations that may only overflow are equal if they have the same results. -/
theorem eq_of_ok_iff {x y : Except Overflow α} (h : ∀ a, x = .ok a ↔ y = .ok a) : x = y := by
  cases x with
  | ok a => exact ((h a).mp rfl).symm
  | error e =>
    cases y with
    | ok a => exact (h a).mpr rfl
    | error e' => cases e; cases e'; rfl

/-- A computation overflows exactly if it has no result. -/
theorem eq_overflow_iff {x : Except Overflow α} :
    x = .error .coefficient ↔ ¬∃ a, x = .ok a := by
  cases x with
  | ok a => exact ⟨nofun, fun h => absurd ⟨a, rfl⟩ h⟩
  | error e =>
    cases e
    exact ⟨fun _ => nofun, fun _ => rfl⟩

/-! ## Steps in place -/

namespace Update

variable {σ : Type}

/-- A step looks at the value that is held and does not change it. -/
def ReadOnly (x : Update σ ε α) : Prop := ∀ s, x.after s = s

/-- A step that fails leaves the value that is held as it was. -/
def Atomic (x : Update σ ε α) : Prop := ∀ s e, (x.outcome s).1 = .error e → x.after s = s

theorem readOnly_get : (get : Update σ ε σ).ReadOnly := fun _ => rfl

theorem readOnly_liftM (y : Except ε α) : (liftM y : Update σ ε α).ReadOnly := fun _ => rfl

theorem atomic_throw (e : ε) : (throw e : Update σ ε α).Atomic := fun _ _ _ => rfl

/-- A step that cannot fail may change what it likes. -/
theorem atomic_of_forall_ok {x : Update σ ε α} (h : ∀ s, ∃ a, (x.outcome s).1 = .ok a) :
    x.Atomic := by
  intro s e herror
  obtain ⟨a, ha⟩ := h s
  exact nomatch ha.symm.trans herror

theorem atomic_set (s : σ) : (set s : Update σ ε Unit).Atomic :=
  atomic_of_forall_ok fun _ => ⟨(), rfl⟩

/-- A step may look at the value and fail before it is begun. -/
theorem ReadOnly.bind_atomic {x : Update σ ε α} {f : α → Update σ ε β} (hx : x.ReadOnly)
    (hf : ∀ a, (f a).Atomic) : (x >>= f).Atomic := by
  intro s e h
  have hsame : (x.outcome s).2 = s := hx s
  rw [outcome_bind] at h
  rw [after, outcome_bind]
  cases hresult : (x.outcome s).1 with
  | error e' => exact hsame
  | ok a =>
    rw [hresult, hsame] at h
    rw [hsame]
    exact hf a s e h

/-- A step that computes a new value before it changes the old one is atomic. -/
theorem atomic_replace (y : σ → Except ε α) (g : α → σ) :
    (get >>= fun s => liftM (y s) >>= fun a => set (g a) : Update σ ε Unit).Atomic :=
  readOnly_get.bind_atomic fun s => (readOnly_liftM (y s)).bind_atomic fun a => atomic_set (g a)

variable {x y : Update σ ε Unit} {s s' : σ} {e : ε}

/-- A step that makes a value leaves it behind. -/
theorem result_eq_ok_iff : x.result s = .ok s' ↔ x.outcome s = (.ok (), s') := by
  rw [result]
  rcases x.outcome s with ⟨_ | _, t⟩ <;> simp

/-- A step that fails makes no value. -/
theorem result_eq_error_iff : x.result s = .error e ↔ (x.outcome s).1 = .error e := by
  rw [result]
  rcases x.outcome s with ⟨_ | _, t⟩ <;> simp

/-- A step that fails leaves the old value behind if it is atomic. -/
theorem Atomic.outcome_of_error (hx : x.Atomic) (h : x.result s = .error e) :
    x.outcome s = (.error e, s) :=
  Prod.ext (result_eq_error_iff.mp h) (hx s e (result_eq_error_iff.mp h))

/-- What holds of the old value and of every value that an atomic step makes of it holds of the
value that the step leaves behind. -/
theorem Atomic.after_induction {P : σ → Prop} (hx : x.Atomic) (hs : P s)
    (h : ∀ s', x.result s = .ok s' → P s') : P (x.after s) := by
  cases hresult : x.result s with
  | ok s' =>
    rw [after, result_eq_ok_iff.mp hresult]
    exact h s' hresult
  | error e =>
    rw [after, hx.outcome_of_error hresult]
    exact hs

/-- Two atomic steps have the same outcome exactly if they make the same value or fail for the
same reason. -/
theorem Atomic.outcome_eq_iff (hx : x.Atomic) (hy : y.Atomic) :
    x.outcome s = y.outcome s ↔ x.result s = y.result s := by
  refine ⟨fun h => by rw [result, result, h], fun h => ?_⟩
  cases hresult : x.result s with
  | ok s' => rw [result_eq_ok_iff.mp hresult, result_eq_ok_iff.mp (h.symm.trans hresult)]
  | error e => rw [hx.outcome_of_error hresult, hy.outcome_of_error (h.symm.trans hresult)]

end Update

end AffineCalls
