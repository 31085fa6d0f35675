import AffineCalls.Proofs.CallTable.Restoration

/-!
# Abstraction undoes restoration

In a table that was filled by abstraction, the arguments of every call are flat: they are
sums from which all calls have been taken out. A symbol that names such a call is restored to
it with restored arguments, and abstraction first puts back the arguments and then the
symbol. As each symbol comes back, different symbols have been restored to different calls,
so nothing is merged or overflows either way. All the calls that abstraction meets are in
the table already, which therefore stays as it is.
-/

namespace AffineCalls.CallTable

variable {P Q : Call → Prop} {t u : CallTable} {e x : Expr}

/-! ## Tables that know an expression -/

/-- A table that extends another one by no key is the same. -/
theorem WellKept.eq_of_le (ht : t.WellKept P) (hu : u.WellKept Q) (hle : t ≤ u)
    (hkeys : ∀ k ∈ u.forward, k ∈ t.forward) : u = t := by
  have hforward : u.forward = t.forward := by
    refine Std.ExtTreeMap.ext_getElem? fun k => ?_
    cases hk : t.forward[k]? with
    | some y => exact hle k y hk
    | none =>
      have hnot : k ∉ t.forward := by
        rw [Std.ExtTreeMap.mem_iff_isSome_getElem?, hk]
        exact Bool.false_ne_true
      exact Std.ExtTreeMap.getElem?_eq_none fun h => hnot (hkeys k h)
  have hbackward : u.backward = t.backward := by
    refine Std.ExtTreeMap.ext_getElem? fun k => Option.ext fun l => ?_
    rw [hu.backward, ht.backward, hforward]
  exact CallTable.ext hforward hbackward

/-- Abstracting an expression that the table knows leaves the table as it is. -/
theorem WellKept.abstract_of_knows (ht : t.WellKept P) (h : t.Knows e) : (t.abstract e).2 = t := by
  -- What abstraction enters has a known key, and so do all calls that are there before.
  have hwell : t.WellKept fun c => c.key ∈ t.forward := by
    refine ⟨fun k p c hk => ?_, ht.backward⟩
    obtain ⟨hname, hkey, _⟩ := ht.entry k p c hk
    have hmem := ht.mem_of_callNamed? (ht.callNamed?_eq_some.mpr ⟨p, hk⟩)
    exact ⟨hname, hkey, hkey.symm ▸ hmem⟩
  obtain ⟨_, hle, hwell', _⟩ := hwell.abstract fun c d hc hd => by
    obtain ⟨d', hd', hkey⟩ := h _ hc c rfl
    rwa [Except.ok.inj (hd.symm.trans hd')]
  refine ht.eq_of_le hwell' hle fun k hk => ?_
  obtain ⟨c, hc⟩ := hwell'.exists_callNamed? hk
  obtain ⟨rfl, hmem⟩ := hwell'.key_callNamed? hc
  exact hmem

/-! ## Symbols that come back -/

/-- The factor is restored to something that the table knows and of which putting keys in the
place of calls makes the factor again. -/
def Returns (t : CallTable) (f : Factor) : Prop :=
  ∃ g, f.substitute t.restoring = .ok g ∧ g.substitute .keys = .ok f ∧
    t.KnowsFactor g ∧ ∀ a ∈ g.args, t.Knows a

/-- A flat expression whose symbols return is restored without overflow to an expression that
the table knows, and keys in the place of the calls give it back. -/
theorem restore_of_returns (hx : x.Flat)
    (h : ∀ n, (Factor.symbol n).OccursIn x → t.Returns (.symbol n)) :
    ∃ r, t.restore x = .ok r ∧ r.keyed = .ok x ∧ t.Knows r := by
  have hfactor : ∀ v ∈ x.terms, t.Returns v.factor := by
    intro v hv
    have hcall := Expr.hasCalls_eq_false_iff.mp hx.hasCalls v hv
    cases hf : v.factor with
    | one => exact ⟨.one, rfl, rfl, nofun, nofun⟩
    | position i => exact ⟨.position i, rfl, rfl, nofun, nofun⟩
    | symbol n => exact h n (hf ▸ .summand hv)
    | call c =>
      rw [hf] at hcall
      exact nomatch hcall
  have hinverse : ∀ v ∈ x.terms, ∃ g, v.factor.substitute t.restoring = .ok g ∧
      g.substitute .keys = .ok v.factor := by
    intro v hv
    obtain ⟨g, hg, hback, _⟩ := hfactor v hv
    exact ⟨g, hg, hback⟩
  obtain ⟨r, hr, hback, _⟩ := Expr.substitute_inverse hx.merged hinverse
  refine ⟨r, hr, hback, knows_iff.mpr fun w hw => ?_⟩
  obtain ⟨v, hv, hstep⟩ := Expr.exists_of_mem_substitute hr hw
  obtain ⟨g, hg, _, hknows⟩ := hfactor v hv
  obtain rfl : g = w.factor := Except.ok.inj (hg.symm.trans hstep)
  exact hknows

/-- A symbol that is no key returns. -/
theorem WellKept.returns_of_notMem (ht : t.WellKept P) {n : String} (h : n ∉ t.forward) :
    t.Returns (.symbol n) :=
  ⟨.symbol n, ht.restoreSymbol_of_notMem h, rfl, nofun, nofun⟩

/-- A key returns if the symbols in the arguments of its call do. -/
theorem WellKept.returns_of_eq_some (ht : t.WellKept fun c => ∀ a ∈ c.args, a.Flat) {n : String}
    {c : Call} (hc : t.callNamed? n = some c)
    (ih : ∀ a ∈ c.args, ∀ m, (Factor.symbol m).OccursIn a → t.Returns (.symbol m)) :
    t.Returns (.symbol n) := by
  obtain ⟨hkey, hflat⟩ := ht.key_callNamed? hc
  have hargs : ∀ a ∈ c.args, ∃ r, a.substitute t.restoring = .ok r ∧ r.keyed = .ok a ∧
      t.Knows r := fun a ha => restore_of_returns (hflat a ha) (ih a ha)
  obtain ⟨args, hpairs⟩ := exists_forall₂ hargs
  have hforth : c.substituteArgs t.restoring = .ok ⟨c.name, args⟩ :=
    Call.substituteArgs_eq_ok.mpr ⟨rfl, hpairs.imp fun _ _ h => h.1⟩
  have hback : (Call.mk c.name args).substituteArgs .keys = .ok c :=
    Call.substituteArgs_eq_ok.mpr ⟨rfl, (hpairs.imp fun _ _ h => h.2.1).flip⟩
  refine ⟨.call ⟨c.name, args⟩, ?_, ?_, ?_, fun r hr => ?_⟩
  · change t.restoreSymbol n = _
    rw [ht.restoreSymbol_of_eq_some hc]
    exact bind_eq_ok.mpr ⟨_, hforth, rfl⟩
  · exact Factor.substitute_call_eq_ok.mpr ⟨c, hback, congrArg _ (congrArg _ hkey)⟩
  · rintro _ ⟨⟩
    exact ⟨c, hback, hkey.symm ▸ ht.mem_of_callNamed? hc⟩
  · obtain ⟨a, _, _, _, hknows⟩ := exists_of_forall₂ hpairs.flip hr
    exact hknows

/-- Where the arguments of all calls are flat, every symbol returns. -/
theorem WellKept.returns_symbol (ht : t.WellKept fun c => ∀ a ∈ c.args, a.Flat) (n : String) :
    t.Returns (.symbol n) := by
  induction hlength : n.length using Nat.strongRecOn generalizing n with
  | ind length ih =>
    subst hlength
    cases hn : t.callNamed? n with
    | none => exact ht.returns_of_notMem (ht.callNamed?_eq_none.mp hn)
    | some c =>
      refine ht.returns_of_eq_some hn fun a ha m hm => ?_
      -- Only a key among the symbols needs the induction, and only a key is known to be shorter.
      by_cases hmem : m ∈ t.forward
      · exact ih m.length (ht.length_lt hn ha hm hmem) m rfl
      · exact ht.returns_of_notMem hmem

/-- Along a run of abstractions, the arguments of all calls are flat. -/
theorem Leads.flat {E : Expr → Prop} (h : Leads (fun _ => False) E t u)
    (ht : t.WellKept fun c => ∀ a ∈ c.args, a.Flat) : u.WellKept fun c => ∀ a ∈ c.args, a.Flat := by
  obtain ⟨_, hu⟩ := h.wellKept ht (fun _ hc => hc.elim) fun _ _ _ _ _ hd => Call.flat_of_keyed hd
  exact hu

/-- In a table that was filled by abstracting expressions, whether or not they overflowed, a
normal expression without calls is restored without overflow, and abstracting the result gives
the expression back and leaves the table as it is. -/
theorem abstract_restore (ht : Leads (fun _ => False) (fun _ => True) ∅ t) (hx : x.Normal)
    (hcalls : x.hasCalls = false) :
    ∃ r, t.restore x = .ok r ∧ t.abstract r = (.ok x, t) := by
  have hwell := ht.flat wellKept_empty
  have hflat : x.Flat := ⟨(Expr.normal_iff.mp hx).1, hcalls⟩
  obtain ⟨r, hr, hkeyed, hknows⟩ := restore_of_returns hflat fun n _ => hwell.returns_symbol n
  obtain ⟨hresult, _⟩ := hwell.abstract (e := r) fun _ _ _ hd => Call.flat_of_keyed hd
  exact ⟨r, hr, Prod.ext (hresult.trans hkeyed) (hwell.abstract_of_knows hknows)⟩

/-- With the key of `f(x)` in the table, `2*f_Lx_R` is restored and abstracted again. -/
theorem abstract_restore_key :
    ∃ (t : CallTable) (x r : Expr), "f_Lx_R" ∈ t.forward ∧ x.text = "2*f_Lx_R" ∧
      t.restore x = .ok r ∧ t.abstract r = (.ok x, t) := by
  have ht : Leads (fun _ => False) (fun _ => True) ∅
      ((∅ : CallTable).abstract ⟨[⟨1, .call ⟨"f", [⟨[⟨1, .symbol "x"⟩]⟩]⟩⟩]⟩).2 :=
    .abstract .refl trivial
  have hx : (Expr.mk [⟨⟨2, by decide, by decide⟩, .symbol "f_Lx_R"⟩]).Normal :=
    Expr.normal_iff.mpr ⟨⟨by decide, by decide⟩, List.forall_mem_singleton.mpr nofun⟩
  obtain ⟨r, hrestore, habstract⟩ := abstract_restore ht hx rfl
  exact ⟨_, _, r, by decide, rfl, hrestore, habstract⟩

end AffineCalls.CallTable
