import AffineCalls.Proofs.Expr.Key
import AffineCalls.Proofs.Expr.Normal

/-!
# Keys in the place of calls

Abstraction without a table: each call, once the calls in its arguments have been
replaced, becomes the symbol named by its key. As keys of plain calls are names, what
is plain stays plain.
-/

namespace AffineCalls

/-- The substitution that puts the symbol named by its key in the place of a call. -/
def Substitution.keys : Substitution (Except Overflow) where
  call c := .ok (.symbol c.key)

/-- An expression with the symbols named by their keys in the place of its calls. -/
def Expr.keyed (e : Expr) : Except Overflow Expr := e.substitute .keys

/-- The next front of a sum is keyed by adding the next term to the sum so far. -/
theorem Expr.keyed_concat {us : List Term} {v w : Term} {sum : Expr}
    (hsum : Expr.keyed ⟨us⟩ = .ok sum) (hw : v.substitute .keys = .ok w) :
    Expr.keyed ⟨us ++ [v]⟩ = sum.addTerm w := by
  change Term.substituteOnto .keys us 0 = .ok sum at hsum
  change Term.substituteOnto .keys (us ++ [v]) 0 = _
  rw [Term.substituteOnto_append, hsum]
  change (v.substitute .keys >>= fun w => sum.addTerm w >>= pure) = _
  rw [hw]
  exact bind_pure (sum.addTerm w)

/-- No call takes the place of a factor. -/
theorem Factor.isCall_of_keys {f g : Factor} (h : f.substitute .keys = .ok g) :
    g.isCall = false := by
  cases f with
  | one => cases h; rfl
  | position i => cases h; rfl
  | symbol name => cases h; rfl
  | call c =>
    obtain ⟨d, _, hg⟩ := Factor.substitute_call_eq_ok.mp h
    cases hg
    rfl

/-- A merged sum of which no summand is a call. -/
structure Expr.Flat (e : Expr) : Prop where
  /-- No coefficient is zero and no factor repeats. -/
  merged : Term.Merged e.terms
  /-- No summand is a call. -/
  hasCalls : e.hasCalls = false

/-- No summand is a call exactly when none of the factors is. -/
theorem Expr.hasCalls_eq_false_iff {e : Expr} :
    e.hasCalls = false ↔ ∀ t ∈ e.terms, t.factor.isCall = false := by
  simp only [hasCalls, List.any_eq_false, Bool.not_eq_true]

/-- Putting keys in the place of calls makes an expression flat. -/
theorem Expr.flat_of_keyed {e r : Expr} (h : e.keyed = .ok r) : r.Flat := by
  refine ⟨Expr.merged_of_substitute h, Expr.hasCalls_eq_false_iff.mpr fun v hv => ?_⟩
  obtain ⟨t, _, hstep⟩ := Expr.exists_of_mem_substitute h hv
  exact Factor.isCall_of_keys hstep

/-- Putting keys in the place of the calls in the arguments makes the arguments flat. -/
theorem Call.flat_of_keyed {c d : Call} (h : c.substituteArgs .keys = .ok d) :
    ∀ a ∈ d.args, a.Flat := by
  intro b hb
  obtain ⟨a, _, hkeyed⟩ := Call.exists_of_mem_substituteArgs h hb
  exact Expr.flat_of_keyed hkeyed

/-- Factors with spellings are replaced by such factors, as the key of a call whose name is a
name is a name itself. -/
theorem Substitution.takes_keys : keys.Takes Factor.Lexical Factor.Lexical where
  one h := h
  position _ h := h
  symbol n g hn h := by
    cases h
    exact ⟨hn, nofun⟩
  call c d g hc hname _ h := by
    cases h
    have hd : Text.IsIdentifier d.name.toList := hname ▸ hc.identifier
    exact ⟨Call.isName_key hd, nofun⟩

/-- A plain expression stays plain when keys take the place of its calls. -/
theorem Expr.Plain.keyed {e r : Expr} (he : e.Plain) (h : e.keyed = .ok r) : r.Plain := by
  obtain ⟨hnormal, hlexical⟩ := Substitution.takes_keys.expr he.lexical h
  exact ⟨hnormal, hlexical⟩

/-- A plain call stays plain when keys take the place of the calls in its arguments. -/
theorem Call.Plain.substituteArgs {c d : Call} (hc : c.Plain)
    (h : c.substituteArgs .keys = .ok d) : d.Plain := by
  obtain ⟨hname, _⟩ := Call.substituteArgs_eq_ok.mp h
  refine ⟨hname ▸ hc.name, fun b hb => ?_⟩
  obtain ⟨a, ha, hkeyed⟩ := Call.exists_of_mem_substituteArgs h hb
  exact (hc.args a ha).keyed hkeyed

end AffineCalls
