import AffineCalls.Proofs.CallTable.History
import AffineCalls.Proofs.CallTable.Restoration
import AffineCalls.Proofs.Expr.Return

/-!
# Restoration comes to an end

Restoration goes on in the arguments of calls, and also in those of the call that a symbol
stands for, which stand inside no expression that it was given. It comes to an end all the
same, because the keys among the symbols in a call are shorter than the key of the call.
So what restoration does can be shown by induction along the expressions that it asks for:
in the result no symbol is a key, and restoring it again changes nothing.
-/

namespace AffineCalls.CallTable

/-- To restore `e`, restoration asks for `a`: it is an argument of a call in `e`, or of the
call that a symbol in `e` stands for. -/
inductive Needs (t : CallTable) : Expr → Expr → Prop
  /-- An argument of a call. -/
  | arg {a e : Expr} {v : Term} (hv : v ∈ e.terms) (ha : a ∈ v.factor.args) : Needs t a e
  /-- An argument of the call that a symbol stands for. -/
  | stored {a e : Expr} {v : Term} {n : String} {c : Call} (hv : v ∈ e.terms)
    (hn : v.factor = .symbol n) (hc : t.callNamed? n = some c) (ha : a ∈ c.args) : Needs t a e

/-- The call with its arguments restored. -/
def restoreCall (t : CallTable) (c : Call) : Except Overflow Factor := do
  let args ← c.args.mapM t.restore
  return .call ⟨c.name, args⟩

/-- What a factor is restored to: a symbol stands for the call that is stored under its name,
and in a call only the arguments are restored. -/
def restoreFactor (t : CallTable) : Factor → Except Overflow Factor
  | .one => .ok .one
  | .position i => .ok (.position i)
  | .symbol n =>
    match t.callNamed? n with
    | none => .ok (.symbol n)
    | some c => t.restoreCall c
  | .call c => t.restoreCall c

/-- A normal expression in which no symbol at any depth is a key of the table. -/
structure Restored (t : CallTable) (e : Expr) : Prop extends e.Normal where
  /-- No symbol at any depth is a key. -/
  free : ∀ n, (Factor.symbol n).OccursIn e → n ∉ t.forward

variable {P : Call → Prop} {t : CallTable} {e y : Expr}

/-! ## The end of the recursion -/

/-- The recursion ends at an expression if it does in the calls that its symbols stand for. -/
theorem acc_needs_of_symbols
    (h : ∀ n, (Factor.symbol n).OccursIn e → ∀ c, t.callNamed? n = some c →
      ∀ a ∈ c.args, Acc t.Needs a) : Acc t.Needs e := by
  induction e using Expr.induction with
  | step e ih =>
    refine Acc.intro e fun a ha => ?_
    cases ha with
    | arg hv ha => exact ih _ hv a ha fun n hn => h n (hn.arg hv ha)
    | stored hv hn hc ha => exact h _ (hn ▸ .summand hv) _ hc a ha

/-- The recursion ends in the arguments of every call that a symbol stands for. -/
theorem WellKept.acc_needs_stored (ht : t.WellKept P) {n : String} {c : Call}
    (hc : t.callNamed? n = some c) : ∀ a ∈ c.args, Acc t.Needs a := by
  induction hlength : n.length using Nat.strongRecOn generalizing n c with
  | ind length ih =>
    subst hlength
    intro a ha
    refine acc_needs_of_symbols fun m hm d hd => ?_
    have hshorter : m.length < n.length := ht.length_lt hc ha hm (ht.mem_of_callNamed? hd)
    exact ih m.length hshorter hd rfl

/-- The recursion ends everywhere. -/
theorem WellKept.wellFounded_needs (ht : t.WellKept P) : WellFounded t.Needs :=
  ⟨fun _ => acc_needs_of_symbols fun _ _ _ hc => ht.acc_needs_stored hc⟩

/-! ## One step -/

/-- A factor is restored without regard to the length of names. -/
theorem WellKept.substitute_restoring (ht : t.WellKept P) (f : Factor) :
    f.substitute t.restoring = t.restoreFactor f := by
  have hargs : ∀ c : Call, (c.substituteArgs t.restoring >>= fun d => .ok (.call d)) =
      t.restoreCall c := by
    intro c
    rw [Call.substituteArgs_eq, bind_assoc]
    rfl
  cases f with
  | one => rfl
  | position i => rfl
  | symbol n =>
    change t.restoreSymbol n = _
    cases hn : t.callNamed? n with
    | none =>
      rw [ht.restoreSymbol_of_notMem (ht.callNamed?_eq_none.mp hn), restoreFactor, hn]
    | some c =>
      rw [ht.restoreSymbol_of_eq_some hn, restoreFactor, hn]
      exact hargs c
  | call c => exact hargs c

/-- An expression is restored factor by factor, and the results are added up. -/
theorem WellKept.restore_eq (ht : t.WellKept P) (e : Expr) :
    t.restore e = (e.terms.mapM fun v => do
      let f ← t.restoreFactor v.factor
      return (⟨v.coeff, f⟩ : Term)) >>= Expr.sum := by
  have hterm : ∀ v ∈ e.terms, v.substitute t.restoring =
      t.restoreFactor v.factor >>= fun f => pure ⟨v.coeff, f⟩ := by
    rintro ⟨c, f⟩ _
    rw [← ht.substitute_restoring]
    rfl
  change e.substitute t.restoring = _
  rw [Expr.substitute_eq, mapM_congr hterm]

/-- What a factor is restored to is no key, and its arguments are restored ones, of the factor
itself or of the call that it stands for. -/
theorem WellKept.of_restoreFactor (ht : t.WellKept P) {v : Term} {g : Factor} (hv : v ∈ e.terms)
    (h : t.restoreFactor v.factor = .ok g) :
    (∀ n, g = .symbol n → n ∉ t.forward) ∧
      ∀ b ∈ g.args, ∃ a, t.Needs a e ∧ t.restore a = .ok b := by
  have hcall : ∀ c : Call, (∀ a ∈ c.args, t.Needs a e) → t.restoreCall c = .ok g →
      (∀ n, g = .symbol n → n ∉ t.forward) ∧
        ∀ b ∈ g.args, ∃ a, t.Needs a e ∧ t.restore a = .ok b := by
    intro c hneeds hc
    obtain ⟨args, hargs, rfl⟩ := bind_pure_eq_ok.mp hc
    refine ⟨nofun, fun b hb => ?_⟩
    obtain ⟨a, ha, hab⟩ := exists_of_mem_mapM hargs hb
    exact ⟨a, hneeds a ha, hab⟩
  cases hf : v.factor with
  | one =>
    rw [hf] at h
    cases h
    exact ⟨nofun, nofun⟩
  | position i =>
    rw [hf] at h
    cases h
    exact ⟨nofun, nofun⟩
  | symbol n =>
    rw [hf, restoreFactor] at h
    cases hn : t.callNamed? n with
    | none =>
      rw [hn] at h
      cases h
      refine ⟨fun m hm => ?_, nofun⟩
      cases hm
      exact ht.callNamed?_eq_none.mp hn
    | some c =>
      rw [hn] at h
      exact hcall c (fun a ha => .stored hv hf hn ha) h
  | call c =>
    rw [hf] at h
    exact hcall c (fun a ha => .arg hv (hf ▸ ha)) h

/-! ## Whole expressions -/

/-- A merged sum is restored if no factor is a key and the arguments are restored. -/
theorem restored_iff : t.Restored y ↔ Term.Merged y.terms ∧
    ∀ v ∈ y.terms, (∀ n, v.factor = .symbol n → n ∉ t.forward) ∧
      ∀ a ∈ v.factor.args, t.Restored a := by
  have hrestored : ∀ x : Expr, t.Restored x ↔
      x.Normal ∧ ∀ f : Factor, f.OccursIn x → ∀ n, f = .symbol n → n ∉ t.forward :=
    fun x => ⟨fun h => ⟨h.toNormal, fun f hf n hn => h.free n (hn ▸ hf)⟩,
      fun h => ⟨h.1, fun n hn => h.2 _ hn n rfl⟩⟩
  simp only [hrestored]
  exact Expr.normal_and_factors_iff

/-- Restoration leaves no key at any depth. -/
theorem WellKept.restored_of_restore (ht : t.WellKept P) (h : t.restore e = .ok y) :
    t.Restored y := by
  induction e using ht.wellFounded_needs.induction generalizing y with
  | h e ih =>
    refine restored_iff.mpr ⟨Expr.merged_of_substitute h, fun v hv => ?_⟩
    obtain ⟨u, hu, hstep⟩ := Expr.exists_of_mem_substitute h hv
    obtain ⟨hfree, hargs⟩ := ht.of_restoreFactor hu ((ht.substitute_restoring _).symm.trans hstep)
    refine ⟨hfree, fun b hb => ?_⟩
    obtain ⟨a, hneeds, hab⟩ := hargs b hb
    exact ih a hneeds hab

/-- A restored expression is not changed by restoring it. -/
theorem Restored.restore_eq_ok (h : t.Restored y) (ht : t.WellKept P) : t.restore y = .ok y := by
  have hsame : t.restore y = y.rebuild :=
    Expr.substitute_congr (fun n hn => ht.restoreSymbol_of_notMem (h.free n hn)) rfl
  rw [hsame, Expr.rebuild_of_normal h.toNormal]

/-- After every run of operations, the keys among the symbols in a call are shorter than the
key under which it is stored. So the recursion of restoration through the arguments of calls,
also of those that symbols stand for, comes to an end; it restores the factors one by one,
whatever the lengths of names. In a result no symbol at any depth is a key, and restoring it
again gives it back. -/
theorem restore_complete (os : List Operation) :
    (∀ n c, (reached os).callNamed? n = some c →
      ∀ a ∈ c.args, ∀ m : String, (Factor.symbol m).OccursIn a → m ∈ (reached os).forward →
        m.length < n.length) ∧
    WellFounded (reached os).Needs ∧
    (∀ e, (reached os).restore e = (e.terms.mapM fun v => do
      let f ← (reached os).restoreFactor v.factor
      return (⟨v.coeff, f⟩ : Term)) >>= Expr.sum) ∧
    ∀ e y, (reached os).restore e = .ok y →
      (∀ n, (Factor.symbol n).OccursIn y → n ∉ (reached os).forward) ∧
        (reached os).restore y = .ok y := by
  have hwell := wellKept_reached os
  refine ⟨?_, hwell.wellFounded_needs, hwell.restore_eq, fun e y h => ?_⟩
  · intro n c hc a ha m hm hmem
    exact hwell.length_lt hc ha hm hmem
  · have hrestored := hwell.restored_of_restore h
    exact ⟨hrestored.free, hrestored.restore_eq_ok hwell⟩

/-- The call of `g h` on the symbol `f_Lx_R`, which is the key of `f(x)`, is restored from its
own key. -/
theorem restore_complete_nested :
    let os := [Operation.insert ⟨"f", [⟨[⟨1, .symbol "x"⟩]⟩]⟩,
      .insert ⟨"g h", [⟨[⟨1, .symbol "f_Lx_R"⟩]⟩]⟩]
    ∃ y, (reached os).restore ⟨[⟨1, .symbol "gh_Lf__Lx__R_R"⟩]⟩ = .ok y ∧ y.text = "g h(f(x))" ∧
      (∀ n, (Factor.symbol n).OccursIn y → n ∉ (reached os).forward) ∧
        (reached os).restore y = .ok y := by
  intro os
  obtain ⟨_, _, hstep, hcomplete⟩ := restore_complete os
  have hsummand : ∀ f g, (reached os).restoreFactor f = .ok g →
      (reached os).restore ⟨[⟨1, f⟩]⟩ = .ok ⟨[⟨1, g⟩]⟩ := by
    intro f g hg
    simp only [hstep, List.mapM_cons, List.mapM_nil, hg]
    rfl
  have hcall : ∀ name a b, (reached os).restore a = .ok b →
      (reached os).restoreCall ⟨name, [a]⟩ = .ok (.call ⟨name, [b]⟩) := fun name a b hab =>
    bind_eq_ok.mpr ⟨[b], mapM_eq_ok.mpr (.cons hab .nil), rfl⟩
  have hx := hsummand (.symbol "x") (.symbol "x") rfl
  have hf := hsummand (.symbol "f_Lx_R") _ (hcall "f" _ _ hx)
  have hg := hsummand (.symbol "gh_Lf__Lx__R_R") _ (hcall "g h" _ _ hf)
  obtain ⟨hfree, hagain⟩ := hcomplete _ _ hg
  exact ⟨_, hg, rfl, hfree, hagain⟩

end AffineCalls.CallTable
