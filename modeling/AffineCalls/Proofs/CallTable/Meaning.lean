import AffineCalls.Proofs.CallTable.Restoration
import AffineCalls.Proofs.Expr.Value

/-!
# What a table means

An interpretation respects a table if it gives each placeholder the value of its
call. Under such an interpretation, abstraction and restoration preserve values, even
where placeholders and symbols of the caller are confused. The symbols that occur in
the call of a key and are keys themselves are shorter than it, so a table leaves all
other values free and determines those of its keys.
-/

namespace AffineCalls

/-- The placeholder of each entry has the value of the call. -/
def Interpretation.Respects (I : Interpretation) (t : CallTable) : Prop :=
  ∀ (k : String) (p : Placeholder) (c : Call), t.forward[k]? = some (p, c) →
    I.symbol p.name = c.value I

namespace CallTable

variable {P : Call → Prop} {t : CallTable} {I : Interpretation}

/-- A name that leads to a call has the value of the call. -/
theorem WellKept.symbol_eq (ht : t.WellKept P) (hI : I.Respects t) {n : String} {c : Call}
    (h : t.callNamed? n = some c) : I.symbol n = c.value I := by
  obtain ⟨p, hentry⟩ := ht.callNamed?_eq_some.mp h
  obtain ⟨hname, _⟩ := ht.entry n p c hentry
  rw [← hI n p c hentry, hname]

/-- Keys in the place of calls that the table knows do not change the value. -/
theorem WellKept.value_keyed (ht : t.WellKept Call.Plain) (hI : I.Respects t) {e r : Expr}
    (he : e.Plain) (hknows : t.Knows e) (h : e.keyed = .ok r) : r.value I = e.value I := by
  refine Expr.value_substitute (fun n f hf => ?_) (fun c d f hc hd hf => ?_) h
  · cases hf
    rfl
  · cases hf
    obtain ⟨d', hd', hkey⟩ := hknows _ hc c rfl
    obtain rfl : d = d' := Except.ok.inj (hd.symm.trans hd')
    exact ht.symbol_eq hI (ht.callNamed?_key ((he.call hc).substituteArgs hd) hkey)

/-- A restored symbol has the value of the symbol. -/
theorem WellKept.value_restoreSymbol (ht : t.WellKept P) (hI : I.Respects t) {n : String}
    {f : Factor} (h : t.restoreSymbol n = .ok f) : f.value I = I.symbol n := by
  induction hn : n.length using Nat.strongRecOn generalizing n f with
  | _ k ih =>
    rw [restoreSymbol] at h
    cases hc : t.callNamed? n with
    | none =>
      rw [hc] at h
      cases h
      rfl
    | some c =>
      rw [hc] at h
      obtain ⟨d, hd, hf⟩ := bind_eq_ok.mp h
      cases hf
      rw [ht.symbol_eq hI hc]
      refine Call.value_substituteArgs (fun m g hg => ?_) (fun _ _ g _ hg => ?_) hd
      · change (if m.length < n.length then t.restoreSymbol m else .ok (.symbol m)) = .ok g at hg
        split at hg
        · next hlt => exact ih m.length (hn ▸ hlt) hg rfl
        · cases hg
          rfl
      · cases hg
        rfl

/-- A restored expression has the value of the expression. -/
theorem WellKept.value_restore (ht : t.WellKept P) (hI : I.Respects t) {x y : Expr}
    (h : t.restore x = .ok y) : y.value I = x.value I := by
  refine Expr.value_substitute (fun n f hf => ht.value_restoreSymbol hI hf)
    (fun _ _ f _ _ hf => ?_) h
  cases hf
  rfl

/-! ## Exactly one interpretation extends the values of the other symbols -/

/-- The value of a symbol in a table, given what the symbols other than keys mean. -/
def symbolValue (t : CallTable) (J : Interpretation) (n : String) : Int :=
  match t.callNamed? n with
  | none => J.symbol n
  | some c =>
    let shorter (m : String) : Int :=
      if m.length < n.length then t.symbolValue J m else J.symbol m
    c.value { J with symbol := shorter }
termination_by n.length

/-- The interpretation that gives keys the values of their calls. -/
def interpretation (t : CallTable) (J : Interpretation) : Interpretation :=
  { J with symbol := t.symbolValue J }

/-- A symbol that is no key keeps its value. -/
theorem WellKept.symbolValue_of_notMem (ht : t.WellKept P) (J : Interpretation) {n : String}
    (h : n ∉ t.forward) : t.symbolValue J n = J.symbol n := by
  rw [symbolValue, ht.callNamed?_eq_none.mpr h]

/-- The value of a key is that of its call. -/
theorem WellKept.symbolValue_of_eq_some (ht : t.WellKept P) (J : Interpretation) {n : String}
    {c : Call} (h : t.callNamed? n = some c) :
    t.symbolValue J n = c.value (t.interpretation J) := by
  rw [symbolValue, h]
  refine Call.value_congr rfl rfl fun a ha m hm => ?_
  change (if m.length < n.length then t.symbolValue J m else J.symbol m) = t.symbolValue J m
  by_cases hmem : m ∈ t.forward
  · rw [if_pos (ht.length_lt h ha hm hmem)]
  · rw [ht.symbolValue_of_notMem J hmem]
    exact ite_self _

/-- The interpretation made from a table respects it. -/
theorem WellKept.respects_interpretation (ht : t.WellKept P) (J : Interpretation) :
    (t.interpretation J).Respects t := by
  intro k p c hentry
  obtain ⟨hname, _⟩ := ht.entry k p c hentry
  rw [hname]
  exact ht.symbolValue_of_eq_some J (ht.callNamed?_eq_some.mpr ⟨p, hentry⟩)

/-- Two interpretations that respect a table and agree on everything but its keys agree. -/
theorem WellKept.interpretation_unique (ht : t.WellKept P) {J : Interpretation}
    (hI : I.Respects t) (hJ : J.Respects t) (hposition : I.position = J.position)
    (hfunction : I.function = J.function)
    (hfree : ∀ n, n ∉ t.forward → I.symbol n = J.symbol n) : I = J := by
  refine Interpretation.ext hposition (funext fun n => ?_) hfunction
  induction hn : n.length using Nat.strongRecOn generalizing n with
  | _ k ih =>
    by_cases hmem : n ∈ t.forward
    · obtain ⟨c, hc⟩ := ht.exists_callNamed? hmem
      rw [ht.symbol_eq hI hc, ht.symbol_eq hJ hc]
      refine Call.value_congr hposition hfunction fun a ha m hm => ?_
      by_cases hkey : m ∈ t.forward
      · exact ih m.length (hn ▸ ht.length_lt hc ha hm hkey) m rfl
      · exact hfree m hkey
    · exact hfree n hmem

/-- In every table reached with plain calls and expressions: abstraction preserves the
value under each interpretation that respects the table afterwards; restoration
preserves the value under each one that respects the table; and whatever positions,
functions and the symbols other than keys mean, exactly one interpretation respects
the table. -/
theorem value_preserved (ht : Leads Call.Plain Expr.Plain ∅ t) :
    (∀ (e r : Expr) (I : Interpretation), e.Plain → (t.abstract e).1 = .ok r →
      I.Respects (t.abstract e).2 → r.value I = e.value I) ∧
    (∀ (x y : Expr) (I : Interpretation), I.Respects t → t.restore x = .ok y →
      y.value I = x.value I) ∧
    ∀ J : Interpretation, ∃! I : Interpretation, I.Respects t ∧ I.position = J.position ∧
      I.function = J.function ∧ ∀ n, n ∉ t.forward → I.symbol n = J.symbol n := by
  obtain ⟨_, hwell⟩ := ht.plain wellKept_empty
  refine ⟨fun e r I he hr hI => ?_, fun x y I hI h => hwell.value_restore hI h, fun J => ?_⟩
  · obtain ⟨hresult, _, hwell', hknown, _⟩ :=
      hwell.abstract fun c d hc hd => (he.call hc).substituteArgs hd
    have hkeyed := hresult.symm.trans hr
    exact hwell'.value_keyed hI he (hknown r hkeyed) hkeyed
  · refine ⟨t.interpretation J, ⟨hwell.respects_interpretation J, rfl, rfl,
      fun n hn => hwell.symbolValue_of_notMem J hn⟩, ?_⟩
    rintro I ⟨hI, hposition, hfunction, hfree⟩
    refine hwell.interpretation_unique hI (hwell.respects_interpretation J) hposition hfunction ?_
    intro n hn
    rw [hfree n hn]
    exact (hwell.symbolValue_of_notMem J hn).symm

/-- If `f` adds one and `x` is five, then the placeholder of `f(x)` is six. -/
theorem value_preserved_call :
    ∃ (t : CallTable) (I : Interpretation), I.Respects t ∧ I.symbol "x" = 5 ∧
      I.symbol "f_Lx_R" = 6 := by
  have he := Expr.plain_call_symbol (c := 1) (by decide) (by decide : Text.IsName "f")
    (by decide : Text.IsName "x")
  have hreached : Leads Call.Plain Expr.Plain ∅ _ := .abstract .refl he
  obtain ⟨I, ⟨hI, _, hfunction, hfree⟩, _⟩ :=
    (value_preserved hreached).2.2 ⟨fun _ => 0, fun _ => 5, fun _ vs => vs.sum + 1⟩
  have hx : I.symbol "x" = 5 := hfree "x" (by decide)
  have hvalue := (value_preserved .refl).1 _ ⟨[⟨1, .symbol "f_Lx_R"⟩]⟩ I he rfl hI
  refine ⟨_, I, hI, hx, ?_⟩
  simpa [Expr.value_eq, Term.valueSum, Term.value, Factor.value, Call.value, Expr.valueEach,
    hfunction, hx] using hvalue

end CallTable

end AffineCalls
