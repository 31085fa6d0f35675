import AffineCalls.Proofs.CallTable.Growth
import AffineCalls.Proofs.Expr.Substitute

/-!
# Running a filing computation

A computation that enters calls is followed by one without effects that has the same
result. `Runs` says so, and what is known about the table afterwards, depending on
whether the computation succeeds. Such statements are put together along the binds of
the computation.
-/

namespace AffineCalls

variable {α β : Type}

namespace Filing

/-- A call is entered when it is filed. -/
theorem outcome_file (c : Call) (t : CallTable) :
    (file c).outcome t = (.ok (t.insert c).1.factor, (t.insert c).2) := rfl

/-- From the table `t`, the computation `x` has the result `y`, extends the table and
keeps it well kept. Afterwards `K` holds of the table if the computation succeeds, and
`S` if it fails. -/
structure Runs (P : Call → Prop) (x : Filing α) (y : Except Overflow α) (t : CallTable)
    (K S : CallTable → Prop) : Prop where
  /-- The result is that of the computation without effects. -/
  result : (x.outcome t).1 = y
  /-- No entry is lost. -/
  le : t ≤ (x.outcome t).2
  /-- The table stays well kept. -/
  wellKept : (x.outcome t).2.WellKept P
  /-- What holds of the table after a success. -/
  known : ∀ a, y = .ok a → K (x.outcome t).2
  /-- What holds of the table after a failure. -/
  stuck : ∀ o, y = .error o → S (x.outcome t).2

variable {P : Call → Prop} {K L S : CallTable → Prop} {t : CallTable}

/-- A value that is given leaves the table as it is. -/
theorem Runs.pure (ht : t.WellKept P) (a : α) (h : K t) :
    Runs P (pure a : Filing α) (.ok a) t K S :=
  ⟨rfl, le_refl t, ht, fun _ _ => h, nofun⟩

/-- Checked arithmetic leaves the table as it is. -/
theorem Runs.lift (ht : t.WellKept P) {y : Except Overflow α} (hK : K t)
    (hS : ∀ o, y = .error o → S t) : Runs P (liftM y : Filing α) y t K S :=
  ⟨rfl, le_refl t, ht, fun _ _ => hK, hS⟩

/-- Filing a call gives the symbol named by its key, which is then in the table. -/
theorem Runs.file (ht : t.WellKept P) {c : Call} (hc : P c) :
    Runs P (file c) (.ok (.symbol c.key)) t (fun u => c.key ∈ u.forward) S := by
  refine ⟨?_, t.le_insert c, ht.insert hc, fun _ _ => t.key_mem_insert c, nofun⟩
  rw [outcome_file, Placeholder.factor, ht.name_insert]

/-- What is known about the table afterwards may be put more weakly. -/
theorem Runs.imp {x : Filing α} {y : Except Overflow α} {L R : CallTable → Prop}
    (h : Runs P x y t K S) (hK : ∀ u, t ≤ u → K u → L u) (hS : ∀ u, t ≤ u → S u → R u) :
    Runs P x y t L R :=
  ⟨h.result, h.le, h.wellKept, fun a ha => hK _ h.le (h.known a ha),
    fun o ho => hS _ h.le (h.stuck o ho)⟩

/-- Two computations one after the other. -/
theorem Runs.bind {x : Filing α} {f : α → Filing β} {y : Except Overflow α}
    {g : α → Except Overflow β} (hx : Runs P x y t K S)
    (hf : ∀ a, y = .ok a → ∀ u, t ≤ u → u.WellKept P → K u → Runs P (f a) (g a) u L S) :
    Runs P (x >>= f) (y >>= g) t L S := by
  cases hy : y with
  | error o =>
    have hout : (x >>= f).outcome t = (.error o, (x.outcome t).2) := by
      rw [Update.outcome_bind, hx.result, hy]
    exact ⟨by rw [hout]; rfl, by rw [hout]; exact hx.le, by rw [hout]; exact hx.wellKept, nofun,
      fun _ _ => by rw [hout]; exact hx.stuck o hy⟩
  | ok a =>
    have hout : (x >>= f).outcome t = (f a).outcome (x.outcome t).2 := by
      rw [Update.outcome_bind, hx.result, hy]
    have hstep := hf a hy _ hx.le hx.wellKept (hx.known a hy)
    exact ⟨by rw [hout]; exact hstep.result, by rw [hout]; exact hx.le.trans hstep.le,
      by rw [hout]; exact hstep.wellKept, fun b hb => by rw [hout]; exact hstep.known b hb,
      fun o ho => by rw [hout]; exact hstep.stuck o ho⟩

end Filing

end AffineCalls
