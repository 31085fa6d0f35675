import AffineCalls.Proofs.Notation.FormValue
import AffineCalls.Proofs.TupleSet.Written

/-!
# Writing and reading sets

The text of a set is read back as the set exactly when the coefficients in its constraints
can be spelled and every position that is spelled by a name is what the name is read as. A
position merges with nothing on the way if all of them come back, and if some do not, the
constraint that comes back has fewer summands or another factor.
-/

namespace AffineCalls

/-! ## What the form of a set stands for -/

/-- The form of a coordinate with a spelling stands for the coordinate. -/
theorem Coordinate.eval_form {x : Coordinate} (h : x.Lexical) : x.form.eval = .ok x := by
  cases x with
  | name n => rfl
  | fixed c =>
    have hlower := c.lower
    have hupper := c.upper
    have hleast : c.val ≠ -9223372036854775808 := h
    obtain ⟨m, hm⟩ : ∃ m : Coeff, m.val = c.val.natAbs :=
      ⟨⟨c.val.natAbs, by omega, by omega⟩, rfl⟩
    have hchecked := Coeff.checked_eq_ok_iff.mpr hm
    rw [Coordinate.form]
    by_cases hneg : c.val < 0
    · rw [if_pos hneg, CoordinateForm.eval_negated_eq_ok]
      exact ⟨m, hchecked, c, Coeff.checked_eq_ok_iff.mpr (by omega), rfl⟩
    · rw [if_neg hneg, CoordinateForm.eval_number_eq_ok]
      obtain rfl : m = c := Coeff.ext (by omega)
      exact ⟨m, hchecked, rfl⟩

/-- `c.ReadAs ρ d`: the constraints make the same comparison, and the forms of the sides of
`c`, if positions are labelled, stand for the sides of `d`. -/
def Constraint.ReadAs (ρ : Nat → Factor) (c d : Constraint) : Prop :=
  (c.lhs.relabel ρ).form.eval = .ok d.lhs ∧ d.comparison = c.comparison ∧
    (c.rhs.relabel ρ).form.eval = .ok d.rhs

/-- The form of a constraint stands for one constraint, between what the forms of its sides
stand for. -/
theorem Constraint.eval_form_eq_ok {ρ : Nat → Factor} {c : Constraint} {ds : List Constraint} :
    (c.form ρ).eval = .ok ds ↔ ∃ d, ds = [d] ∧ c.ReadAs ρ d := by
  rw [ChainForm.eval_eq_ok]
  constructor
  · rintro ⟨l, hl, links, hlinks, rfl⟩
    obtain ⟨x, _, hx, hnil, rfl⟩ := List.forall₂_cons_left_iff.mp (mapM_eq_ok.mp hlinks)
    cases hnil
    obtain ⟨r, hr, rfl⟩ := LinkForm.eval_eq_ok.mp hx
    exact ⟨⟨l, c.comparison, r⟩, rfl, hl, rfl, hr⟩
  · rintro ⟨⟨l, comparison, r⟩, rfl, hl, rfl, hr⟩
    have hlink : (LinkForm.mk c.comparison (c.rhs.relabel ρ).form).eval = .ok (c.comparison, r) :=
      LinkForm.eval_eq_ok.mpr ⟨r, hr, rfl⟩
    exact ⟨l, hl, _, mapM_eq_ok.mpr (.cons hlink .nil), rfl⟩

/-- The forms of constraints stand for as many constraints, one for each. -/
theorem Constraint.eval_forms_iff {ρ : Nat → Factor} {cs ds : List Constraint} :
    (∃ chains, (cs.map (Constraint.form ρ)).mapM ChainForm.eval = .ok chains ∧
      chains.flatten = ds) ↔ List.Forall₂ (Constraint.ReadAs ρ) cs ds := by
  constructor
  · rintro ⟨chains, hchains, rfl⟩
    rw [mapM_eq_ok, List.forall₂_map_left_iff] at hchains
    exact forall₂_flatten (hchains.imp fun _ _ => Constraint.eval_form_eq_ok.mp)
  · intro h
    have hchains : (cs.map (Constraint.form ρ)).mapM ChainForm.eval = .ok (ds.map ([·])) := by
      rw [mapM_eq_ok, List.forall₂_map_left_iff, List.forall₂_map_right_iff]
      exact h.imp fun c d h => Constraint.eval_form_eq_ok.mpr ⟨d, rfl, h⟩
    refine ⟨_, hchains, ?_⟩
    rw [← List.flatMap_def, List.flatMap_singleton']

/-- A constraint is read as one that is resolved to it exactly when this holds of its sides. -/
theorem Constraint.comes_back_iff {tuple : List Coordinate} {ρ : Nat → Factor} {c : Constraint} :
    (∃ d, c.ReadAs ρ d ∧ d.resolve tuple = .ok c) ↔
      (∃ x, (c.lhs.relabel ρ).form.eval = .ok x ∧ x.resolve tuple = .ok c.lhs) ∧
        ∃ x, (c.rhs.relabel ρ).form.eval = .ok x ∧ x.resolve tuple = .ok c.rhs := by
  constructor
  · rintro ⟨d, ⟨hl, _, hr⟩, hd⟩
    obtain ⟨hl', _, hr'⟩ := Constraint.resolve_eq_ok.mp hd
    exact ⟨⟨d.lhs, hl, hl'⟩, ⟨d.rhs, hr, hr'⟩⟩
  · rintro ⟨⟨l, hl, hl'⟩, ⟨r, hr, hr'⟩⟩
    exact ⟨⟨l, c.comparison, r⟩, ⟨hl, rfl, hr⟩, Constraint.resolve_eq_ok.mpr ⟨hl', rfl, hr'⟩⟩

/-- The form of a set stands for the set exactly when the forms of the sides of its
constraints stand for expressions that are resolved to the sides. -/
theorem TupleSet.eval_form_eq_ok {s : TupleSet} (hs : s.Settled) :
    s.form.eval = .ok s ↔ ∀ e ∈ s.sides, ∃ x,
      (e.relabel (Coordinate.labels s.tuple)).form.eval = .ok x ∧ x.resolve s.tuple = .ok e := by
  have hbody : s.form.chains.getD [] =
      s.constraints.map (Constraint.form (Coordinate.labels s.tuple)) := by
    rw [TupleSet.form]
    cases s.constraints <;> rfl
  have hback : (∃ ds, List.Forall₂ (Constraint.ReadAs (Coordinate.labels s.tuple))
      s.constraints ds ∧ List.Forall₂ (fun d c => d.resolve s.tuple = .ok c) ds s.constraints) ↔
      ∀ c ∈ s.constraints, ∃ d, c.ReadAs (Coordinate.labels s.tuple) d ∧
        d.resolve s.tuple = .ok c := forall₂_comp_iff.trans List.forall₂_same
  rw [SetForm.eval_eq_ok, hbody, TupleSet.forall_sides_iff]
  constructor
  · rintro ⟨tuple, _, chains, hchains, hset⟩
    obtain ⟨rfl, hresolve⟩ := TupleSet.ofConstraints_eq_ok.mp hset
    have hread := Constraint.eval_forms_iff.mp ⟨chains, hchains, rfl⟩
    exact fun c hc => Constraint.comes_back_iff.mp (hback.mp ⟨_, hread, hresolve⟩ c hc)
  · intro h
    have hcoordinates : (s.tuple.map Coordinate.form).mapM CoordinateForm.eval = .ok s.tuple := by
      rw [mapM_eq_ok, List.forall₂_map_left_iff, List.forall₂_same]
      exact fun x hx => Coordinate.eval_form (hs.coordinates x hx)
    obtain ⟨ds, hread, hresolve⟩ := hback.mpr fun c hc => Constraint.comes_back_iff.mpr (h c hc)
    obtain ⟨chains, hchains, rfl⟩ := Constraint.eval_forms_iff.mpr hread
    exact ⟨s.tuple, hcoordinates, chains, hchains,
      TupleSet.ofConstraints_eq_ok.mpr ⟨rfl, hresolve⟩⟩

/-! ## Positions that come back -/

/-- A label is resolved to the position exactly if the name of the position spells it, or is
a name that no earlier position has. -/
theorem Coordinate.substitute_labels_eq_ok {tuple : List Coordinate} {i : Nat}
    (htuple : ∀ x ∈ tuple, x.Lexical) :
    (labels tuple i).substitute (resolution tuple) = .ok (.position i) ↔
      ∀ n, tuple[i]? = some (.name n) → Text.SpellsPosition n.toList i ∨
        (∀ j, ¬Text.SpellsPosition n.toList j) ∧ ∀ j < i, tuple[j]? ≠ some (.name n) := by
  by_cases hname : ∃ n, tuple[i]? = some (.name n)
  · obtain ⟨n, hn⟩ := hname
    have hident : Text.IsIdentifier n.toList := htuple _ (List.mem_of_getElem? hn)
    rw [labels_of_name hn, hn]
    rcases hident.isName_or with hname | ⟨k, hk⟩
    · -- A name is resolved to the first position that has it.
      rw [Factor.ofIdentifier_of_isName hname]
      change Except.ok (factorOf tuple n) = .ok (.position i) ↔ _
      rw [Except.ok.injEq, factorOf_eq_position]
      constructor
      · rintro ⟨_, hfirst⟩ m hm
        cases hm
        exact .inr ⟨hname.notPosition, hfirst⟩
      · intro h
        rcases h n rfl with hi | ⟨_, hfirst⟩
        · exact absurd hi (hname.notPosition i)
        · exact ⟨hn, hfirst⟩
    · -- What spells a position is this position.
      rw [Factor.ofIdentifier_of_spellsPosition hk]
      change Except.ok (Factor.position k) = .ok (.position i) ↔ _
      rw [Except.ok.injEq, Factor.position.injEq]
      constructor
      · rintro rfl m hm
        cases hm
        exact .inl hk
      · intro h
        rcases h n rfl with hi | ⟨hnone, _⟩
        · exact hk.unique hi
        · exact absurd hk (hnone k)
  · rw [labels_of_ne_name (not_exists.mp hname)]
    exact ⟨fun _ n hn => absurd ⟨n, hn⟩ hname, fun _ => rfl⟩

/-- A settled expression comes back exactly if its coefficients can be spelled and its
positions come back. -/
theorem Expr.Settled.comes_back_iff {tuple : List Coordinate} {e : Expr} (he : e.Settled tuple) :
    (∃ x, (e.relabel (Coordinate.labels tuple)).form.eval = .ok x ∧ x.resolve tuple = .ok e) ↔
      e.AboveLeast ∧ ∀ i, (Factor.position i).OccursIn e →
        (Coordinate.labels tuple i).substitute (Coordinate.resolution tuple) =
          .ok (.position i) := by
  have hlabels := Coordinate.args_labels tuple
  have hcall : ∀ c, (Coordinate.resolution tuple).call c = .ok (.call c) := fun _ => rfl
  constructor
  · rintro ⟨x, hx, hresolve⟩
    have hleast := Expr.aboveLeast_of_eval_form hx
    have hzero : ∀ t : Term, t.OccursIn (e.relabel (Coordinate.labels tuple)) → t.coeff ≠ 0 :=
      (Expr.forall_coeff_relabel hlabels (P := (· ≠ 0))).mpr
        fun t ⟨a, ha, ht⟩ => he.nonzero a ha t ht
    rw [Expr.eval_form_eq hzero hleast] at hx
    refine ⟨(Expr.forall_coeff_relabel hlabels (P := (·.val ≠ -9223372036854775808))).mp hleast, ?_⟩
    exact fun i hi => Expr.position_of_relabel hlabels hcall hx hresolve _ hi i rfl
  · rintro ⟨hleast, hpositions⟩
    have hsymbol : ∀ name, (Factor.symbol name).OccursIn e →
        (Coordinate.resolution tuple).symbol name = .ok (.symbol name) := fun name hname =>
      congrArg Except.ok (Coordinate.factorOf_of_notMem (he.factors _ hname).2)
    obtain ⟨hnormal, hresolve⟩ :=
      Expr.substitute_relabel hlabels hcall he.toNormal hpositions hsymbol
    have hleast' : (e.relabel (Coordinate.labels tuple)).AboveLeast :=
      (Expr.forall_coeff_relabel hlabels (P := (·.val ≠ -9223372036854775808))).mpr hleast
    exact ⟨_, Expr.eval_form hnormal hleast', hresolve⟩

/-! ## The round trip -/

/-- A set that has been read is read back from its text exactly when no coefficient in its
constraints is the least one and every position in them that has a name is spelled by it:
the name spells this position, or it is a name of which this is the first position. -/
theorem TupleSet.parse_text_iff {t : String} {s : TupleSet} (h : TupleSet.parse t = .ok s) :
    TupleSet.parse s.text = .ok s ↔
      (∀ e ∈ s.sides, e.AboveLeast) ∧
        ∀ e ∈ s.sides, ∀ i, (Factor.position i).OccursIn e → ∀ n, s.tuple[i]? = some (.name n) →
          Text.SpellsPosition n.toList i ∨
            (∀ j, ¬Text.SpellsPosition n.toList j) ∧ ∀ j < i, s.tuple[j]? ≠ some (.name n) := by
  have hs := TupleSet.settled_of_parse h
  have hside : ∀ e ∈ s.sides, _ := fun e he => (hs.sides e he).comes_back_iff
  have hposition := fun i => Coordinate.substitute_labels_eq_ok (i := i) hs.coordinates
  rw [TupleSet.parse_text_eq_ok hs, TupleSet.eval_form_eq_ok hs, forall₂_congr hside,
    forall₂_and]
  simp only [hposition]

/-- The text of `{[i,j]:j=0}` is read back. The text of `{[i,i]:__tv1=0}` is not, as it says
`i` and so the first coordinate. -/
theorem TupleSet.parse_text_named :
    (∃ s, TupleSet.parse "\x7b[i,j]:j=0\x7d" = .ok s ∧ TupleSet.parse s.text = .ok s) ∧
      ∃ s, TupleSet.parse "\x7b[i,i]:__tv1=0\x7d" = .ok s ∧ TupleSet.parse s.text ≠ .ok s := by
  have hchain : ∀ {f : FactorForm} {cs : List Char}, f.Spelled cs "=0\x7d".toList →
      (ChainForm.mk ⟨false, .factor f, []⟩ ⟨.eq, ⟨false, .number 0, []⟩⟩ []).Spelled cs
        ['\x7d'] := by
    intro f cs hf
    have hzero : LinkForm.Spelled ⟨.eq, ⟨false, .number 0, []⟩⟩ "=0\x7d".toList ['\x7d'] :=
      ⟨_, _, .refl _, .refl _, .positive (.number rfl (Text.spellsNumber_digits 0)) .nil⟩
    exact ⟨_, .positive (.factor hf) .nil, .cons hzero .nil⟩
  have hset : ∀ {n : String} {c : ChainForm} {cs : List Char}, Text.IsIdentifier n.toList →
      c.Spelled cs ['\x7d'] → (SetForm.mk [.name "i", .name n] (some [c])).Spelled
        ("\x7b[i,".toList ++ (n.toList ++ ("]:".toList ++ cs))) [] := by
    intro n c cs hn hc
    have hcoordinates : Text.Separated [','] CoordinateForm.Spelled [.name "i", .name n]
        ("i,".toList ++ (n.toList ++ ("]:".toList ++ cs))) ("]:".toList ++ cs) :=
      .cons (.name rfl (by decide)) (.cons ⟨_, _, .refl _, .refl _, .name rfl hn⟩ .nil)
    exact ⟨_, _, _, rfl, .refl _, ⟨_, _, .refl _, hcoordinates, .refl _⟩,
      _, .refl _, _, _, .refl _, .cons hc .nil, .refl _⟩
  have honly : ∀ f : Factor, f.OccursIn ⟨[⟨1, .position 1⟩]⟩ → f = .position 1 :=
    Factor.forall_occursIn_iff.mpr (List.forall_mem_singleton.mpr ⟨rfl, nofun⟩)
  constructor
  · have hj : (FactorForm.symbol "j").Spelled "j=0\x7d".toList "=0\x7d".toList :=
      .symbol rfl (by decide)
    have hread : TupleSet.parse "\x7b[i,j]:j=0\x7d" =
        .ok ⟨[.name "i", .name "j"], [⟨⟨[⟨1, .position 1⟩]⟩, .eq, 0⟩]⟩ :=
      TupleSet.parse_eq_ok_iff.mpr ⟨_, hset (n := "j") (by decide) (hchain hj), rfl⟩
    refine ⟨_, hread, (TupleSet.parse_text_iff hread).mpr ⟨?_, ?_⟩⟩
    · refine TupleSet.forall_sides_iff.mpr (List.forall_mem_singleton.mpr ⟨?_, ?_⟩)
      · exact Expr.aboveLeast_iff.mpr (List.forall_mem_singleton.mpr ⟨by decide, nofun⟩)
      · exact Expr.aboveLeast_iff.mpr nofun
    · refine TupleSet.forall_sides_iff.mpr (List.forall_mem_singleton.mpr ⟨?_, ?_⟩)
      · intro i hi n hn
        obtain rfl := Factor.position.inj (honly _ hi)
        cases hn
        exact .inr ⟨(by decide : Text.IsName "j").notPosition, by decide⟩
      · intro i hi
        exact (Factor.forall_occursIn_iff (P := fun _ => False) (e := 0)).mpr nofun _ hi |>.elim
  · have hone : Text.SpellsPosition "__tv1".toList 1 :=
      ⟨['1'], rfl, List.cons_ne_nil _ _, List.forall_mem_singleton.mpr rfl, rfl, by decide⟩
    have hposition : (FactorForm.position 1).Spelled "__tv1=0\x7d".toList "=0\x7d".toList :=
      .position rfl hone
    have hread : TupleSet.parse "\x7b[i,i]:__tv1=0\x7d" =
        .ok ⟨[.name "i", .name "i"], [⟨⟨[⟨1, .position 1⟩]⟩, .eq, 0⟩]⟩ :=
      TupleSet.parse_eq_ok_iff.mpr ⟨_, hset (n := "i") (by decide) (hchain hposition), rfl⟩
    refine ⟨_, hread, fun hback => ?_⟩
    obtain ⟨_, hpositions⟩ := (TupleSet.parse_text_iff hread).mp hback
    have hoccurs : (Factor.position 1).OccursIn ⟨[⟨1, .position 1⟩]⟩ :=
      ⟨⟨1, .position 1⟩, .summand List.mem_cons_self, rfl⟩
    rcases hpositions _ List.mem_cons_self 1 hoccurs "i" rfl with hi | ⟨_, hfirst⟩
    · exact (by decide : Text.IsName "i").notPosition 1 hi
    · exact hfirst 0 (by decide) rfl

end AffineCalls
