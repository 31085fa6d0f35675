import AffineCalls.Proofs.CallTable.Abstraction

/-!
# Restoration undoes abstraction

In a table of plain calls, the symbol named by a key is restored to the one call with
this key. So restoring what abstraction has made of an expression gives back each
factor of it, provided that no symbol of the expression is itself named like a key.
In particular, different factors have become different factors: nothing is merged,
and abstraction cannot overflow.
-/

namespace AffineCalls

namespace CallTable

variable {P : Call → Prop} {t u : CallTable}

/-- The substitution that restores the symbols named by keys. -/
def restoring (t : CallTable) : Substitution (Except Overflow) where
  symbol := t.restoreSymbol

/-- Where a table has a key, it has a call with this key. -/
theorem WellKept.exists_callNamed? (ht : t.WellKept P) {n : String} (h : n ∈ t.forward) :
    ∃ c, t.callNamed? n = some c := by
  cases hn : t.callNamed? n with
  | some c => exact ⟨c, rfl⟩
  | none => exact absurd h (ht.callNamed?_eq_none.mp hn)

/-- The symbols inside the call of a key are shorter than the key if they are keys. -/
theorem WellKept.length_lt (ht : t.WellKept P) {n m : String} {c : Call} {a : Expr}
    (hc : t.callNamed? n = some c) (ha : a ∈ c.args) (hm : (Factor.symbol m).OccursIn a)
    (hmem : m ∈ t.forward) : m.length < n.length := by
  obtain ⟨d, hd⟩ := ht.exists_callNamed? hmem
  obtain ⟨hkey, _⟩ := ht.key_callNamed? hd
  obtain ⟨hkey', _⟩ := ht.key_callNamed? hc
  have hspace : ' ' ∉ m.toList := hkey ▸ d.space_notMem_key
  exact hkey' ▸ Call.length_lt_key ha hm hspace

/-- A symbol that is not named by a key stays as it is. -/
theorem WellKept.restoreSymbol_of_notMem (ht : t.WellKept P) {n : String} (h : n ∉ t.forward) :
    t.restoreSymbol n = .ok (.symbol n) := by
  rw [restoreSymbol, ht.callNamed?_eq_none.mpr h]

/-- A symbol named by a key is restored to the call with this key, in whose arguments
all symbols are restored in turn. -/
theorem WellKept.restoreSymbol_of_eq_some (ht : t.WellKept P) {n : String} {c : Call}
    (h : t.callNamed? n = some c) :
    t.restoreSymbol n = c.substituteArgs t.restoring >>= fun d => .ok (.call d) := by
  rw [restoreSymbol, h]
  refine congrArg (· >>= _) (Call.substituteArgs_congr (fun a ha m hm => ?_) rfl)
  -- The bound on the length excludes only symbols that stay as they are.
  by_cases hmem : m ∈ t.forward
  · exact if_pos (ht.length_lt h ha hm hmem)
  · change (if m.length < n.length then t.restoreSymbol m else .ok (.symbol m)) = t.restoreSymbol m
    rw [ht.restoreSymbol_of_notMem hmem]
    exact ite_self _

/-- A well kept table of plain calls has one plain call for each key at most. -/
theorem WellKept.callNamed?_key (ht : t.WellKept Call.Plain) {c : Call} (hc : c.Plain)
    (h : c.key ∈ t.forward) : t.callNamed? c.key = some c := by
  obtain ⟨d, hd⟩ := ht.exists_callNamed? h
  obtain ⟨hkey, hplain⟩ := ht.key_callNamed? hd
  rw [hd, hplain.eq_of_key_eq hc hkey]

/-- A factor is restored if the arguments in it are. -/
theorem WellKept.restore_factor (ht : t.WellKept Call.Plain) {f : Factor}
    (hplain : ∀ c, f = .call c → c.Plain) (hknows : t.KnowsFactor f)
    (hfree : ∀ n, f = .symbol n → n ∉ t.forward)
    (ih : ∀ a ∈ f.args, ∃ r, a.keyed = .ok r ∧ t.restore r = .ok a) :
    ∃ g, f.substitute .keys = .ok g ∧ g.substitute t.restoring = .ok f := by
  cases f with
  | one => exact ⟨.one, rfl, rfl⟩
  | position i => exact ⟨.position i, rfl, rfl⟩
  | symbol n => exact ⟨.symbol n, rfl, ht.restoreSymbol_of_notMem (hfree n rfl)⟩
  | call c =>
    obtain ⟨d, hd, hkey⟩ := hknows c rfl
    have hcall := ht.callNamed?_key ((hplain c rfl).substituteArgs hd) hkey
    have hargs : d.substituteArgs t.restoring = .ok c := by
      obtain ⟨hname, hkeyed⟩ := Call.substituteArgs_eq_ok.mp hd
      refine Call.substituteArgs_eq_ok.mpr ⟨hname.symm, ?_⟩
      have hpairs := (List.forall₂_and_left _ _).mpr ⟨ih, hkeyed⟩
      refine (hpairs.imp fun a b hab => ?_).flip
      obtain ⟨⟨r, hr, hrestore⟩, hb⟩ := hab
      obtain rfl : r = b := Except.ok.inj (hr.symm.trans hb)
      exact hrestore
    refine ⟨.symbol d.key, bind_eq_ok.mpr ⟨d, hd, rfl⟩, ?_⟩
    change t.restoreSymbol d.key = _
    rw [ht.restoreSymbol_of_eq_some hcall]
    exact bind_eq_ok.mpr ⟨c, hargs, rfl⟩

/-- An expression whose calls the table knows and whose symbols are no keys can be
abstracted, summand by summand, and is restored from the result. -/
theorem WellKept.restore_keyed (ht : t.WellKept Call.Plain) {e : Expr} (he : e.Plain)
    (hknows : t.Knows e) (hfree : ∀ n, (Factor.symbol n).OccursIn e → n ∉ t.forward) :
    ∃ r, e.keyed = .ok r ∧ t.restore r = .ok e ∧ r.hasCalls = false ∧
      r.terms.length = e.terms.length := by
  induction e using Expr.induction with
  | step e ih =>
    obtain ⟨hmerged, hterms⟩ := Expr.plain_iff.mp he
    have hinside := knows_iff.mp hknows
    have hinverse : ∀ v ∈ e.terms, ∃ g, v.factor.substitute .keys = .ok g ∧
        g.substitute t.restoring = .ok v.factor := by
      intro v hv
      refine ht.restore_factor (fun c hc => he.call (hc ▸ .summand hv)) (hinside v hv).1
        (fun n hn => hfree n (hn ▸ .summand hv)) (fun a ha => ?_)
      obtain ⟨r, hr, hrestore, _⟩ := ih v hv a ha ((hterms v hv).2 a ha) ((hinside v hv).2 a ha)
        (fun n hn => hfree n (hn.arg hv ha))
      exact ⟨r, hr, hrestore⟩
    obtain ⟨r, hr, hrestore, hforth⟩ := Expr.substitute_inverse hmerged hinverse
    exact ⟨r, hr, hrestore, (Expr.flat_of_keyed hr).hasCalls, hforth.length_eq.symm⟩

/-- A table that knows the calls up to a failure has a key among the symbols. -/
theorem WellKept.not_stuck (ht : t.WellKept Call.Plain) {e : Expr} (he : e.Plain)
    (hfree : ∀ n, (Factor.symbol n).OccursIn e → n ∉ t.forward) : ¬t.Stuck e := by
  rintro ⟨b, ⟨a, ha, hfront⟩, ⟨o, hfail⟩, hknows⟩
  have hb : b.Plain := (he.within ha).front hfront
  obtain ⟨r, hr, _⟩ := ht.restore_keyed hb hknows fun n hn => hfree n ((hn.front hfront).within ha)
  rw [hfail] at hr
  exact nomatch hr

/-- In a table of plain calls, a plain expression none of whose symbols is a key of the
table afterwards is abstracted without overflow, summand by summand, and every later
table that still has no symbol of the expression as a key restores it exactly. -/
theorem restore_abstract {e : Expr} (ht : Leads Call.Plain Expr.Plain ∅ t) (he : e.Plain)
    (hfree : ∀ n, (Factor.symbol n).OccursIn e → n ∉ (t.abstract e).2.forward) :
    ∃ r, (t.abstract e).1 = .ok r ∧ r.hasCalls = false ∧ r.terms.length = e.terms.length ∧
      ∀ u, Leads Call.Plain Expr.Plain (t.abstract e).2 u →
        (∀ n, (Factor.symbol n).OccursIn e → n ∉ u.forward) → u.restore r = .ok e := by
  obtain ⟨_, hwell⟩ := ht.plain wellKept_empty
  obtain ⟨hresult, _, hwell', hknown, hstuck⟩ :=
    hwell.abstract fun c d hc hd => (he.call hc).substituteArgs hd
  cases hkeyed : e.keyed with
  | error o => exact absurd (hstuck o hkeyed) (hwell'.not_stuck he hfree)
  | ok r =>
    have hknows := hknown r hkeyed
    obtain ⟨r', hr', _, hcalls, hlength⟩ := hwell'.restore_keyed he hknows hfree
    obtain rfl : r = r' := Except.ok.inj (hkeyed.symm.trans hr')
    refine ⟨r, hresult.trans hr', hcalls, hlength, fun u hu hfree' => ?_⟩
    obtain ⟨hle, hwell''⟩ := hu.plain hwell'
    obtain ⟨r'', hr'', hrestore, _⟩ := hwell''.restore_keyed he (hknows.mono hle) hfree'
    obtain rfl : r = r'' := Except.ok.inj (hkeyed.symm.trans hr'')
    exact hrestore

/-- The expression `f(x)` is abstracted and restored. -/
theorem restore_abstract_call :
    ∃ e r : Expr, e.text = "f(x)" ∧ r.text = "f_Lx_R" ∧ ((∅ : CallTable).abstract e).1 = .ok r ∧
      ((∅ : CallTable).abstract e).2.restore r = .ok e := by
  have he := Expr.plain_call_symbol (c := 1) (by decide) (by decide : Text.IsName "f")
    (by decide : Text.IsName "x")
  have hsymbols : ∀ g : Factor, g.OccursIn ⟨[⟨1, .call ⟨"f", [⟨[⟨1, .symbol "x"⟩]⟩]⟩⟩]⟩ →
      ∀ n, g = .symbol n → n = "x" := by
    refine Factor.forall_occursIn_iff.mpr (List.forall_mem_singleton.mpr ⟨nofun, ?_⟩)
    refine List.forall_mem_singleton.mpr (Factor.forall_occursIn_iff.mpr ?_)
    exact List.forall_mem_singleton.mpr ⟨fun n hn => (Factor.symbol.inj hn).symm, nofun⟩
  have hfree : ∀ n, (Factor.symbol n).OccursIn ⟨[⟨1, .call ⟨"f", [⟨[⟨1, .symbol "x"⟩]⟩]⟩⟩]⟩ →
      n ∉ ((∅ : CallTable).abstract ⟨[⟨1, .call ⟨"f", [⟨[⟨1, .symbol "x"⟩]⟩]⟩⟩]⟩).2.forward := by
    intro n hn
    rw [hsymbols _ hn n rfl]
    decide
  obtain ⟨r, hr, _, _, hrestore⟩ := restore_abstract .refl he hfree
  have htext : r.text = "f_Lx_R" := by
    rw [← Except.ok.inj ((rfl : _ = Except.ok (⟨[⟨1, .symbol "f_Lx_R"⟩]⟩ : Expr)).symm.trans hr)]
    rfl
  exact ⟨_, r, rfl, htext, hr, hrestore _ .refl hfree⟩

end CallTable

end AffineCalls
