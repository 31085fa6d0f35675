import AffineCalls.Proofs.Notation.Written
import AffineCalls.Proofs.Text.Trim
import AffineCalls.Proofs.TupleSet.Settled

/-!
# The form in which a set is written

The text of a set spells a form: its coordinates, and for each constraint a chain of one
comparison. In a constraint, a position is spelled by the name of its coordinate, so the
text says a symbol there, or a position that the name happens to spell.
-/

namespace AffineCalls

/-! ## Names in place of positions -/

/-- What an identifier is as a factor: a symbol if it is a name, or else the position that
it spells. -/
def Factor.ofIdentifier (name : String) : Factor :=
  if Text.IsName name then .symbol name else .position (Text.value (name.toList.drop 4))

/-- A name is a symbol. -/
theorem Factor.ofIdentifier_of_isName {name : String} (h : Text.IsName name) :
    Factor.ofIdentifier name = .symbol name := if_pos h

/-- What spells a position is the position. -/
theorem Factor.ofIdentifier_of_spellsPosition {name : String} {i : Nat}
    (h : Text.SpellsPosition name.toList i) : Factor.ofIdentifier name = .position i := by
  rw [Factor.ofIdentifier, if_neg fun hname => hname.notPosition i h]
  obtain ⟨ds, hds, _, _, rfl, _⟩ := h
  rw [hds]
  rfl

/-- An identifier is a name or spells a position. -/
theorem Text.IsIdentifier.isName_or {name : String} (h : IsIdentifier name.toList) :
    IsName name ∨ ∃ i, SpellsPosition name.toList i := by
  by_cases hposition : ∃ i, SpellsPosition name.toList i
  · exact .inr hposition
  · exact .inl ⟨h, not_exists.mp hposition⟩

/-- An identifier is a spelling of what it is as a factor. -/
theorem Factor.spelledBy_ofIdentifier {name : String} (h : Text.IsIdentifier name.toList) :
    (Factor.ofIdentifier name).SpelledBy name.toList := by
  rcases h.isName_or with hname | ⟨i, hi⟩
  · rw [Factor.ofIdentifier_of_isName hname]
    exact ⟨rfl, hname⟩
  · rw [Factor.ofIdentifier_of_spellsPosition hi]
    exact hi

/-- Nothing stands inside an identifier. -/
theorem Factor.args_ofIdentifier (name : String) : (Factor.ofIdentifier name).args = [] := by
  rw [Factor.ofIdentifier]
  split <;> rfl

/-- What the spellings of positions inside a set say. -/
def Coordinate.labels (tuple : List Coordinate) : Nat → Factor := fun i =>
  match tuple[i]? with
  | some (.name n) => Factor.ofIdentifier n
  | _ => .position i

/-- A position with a name is labelled by it. -/
theorem Coordinate.labels_of_name {tuple : List Coordinate} {i : Nat} {name : String}
    (h : tuple[i]? = some (.name name)) : labels tuple i = Factor.ofIdentifier name := by
  rw [labels, h]

/-- A position without a name is labelled as itself. -/
theorem Coordinate.labels_of_ne_name {tuple : List Coordinate} {i : Nat}
    (h : ∀ name, tuple[i]? ≠ some (.name name)) : labels tuple i = .position i := by
  rw [labels]
  split
  · next name hname => exact absurd hname (h name)
  · rfl

/-- Nothing stands inside a label. -/
theorem Coordinate.args_labels (tuple : List Coordinate) (i : Nat) :
    (labels tuple i).args = [] := by
  rw [labels]
  split
  · exact Factor.args_ofIdentifier _
  · rfl

/-- Inside a set whose names are identifiers, a settled factor is written as its label. -/
theorem Factor.Settled.written {tuple : List Coordinate}
    (htuple : ∀ name, .name name ∈ tuple → Text.IsIdentifier name.toList) {f : Factor}
    (h : f.Settled tuple) : f.Written (.within tuple) (Coordinate.labels tuple) := by
  cases f with
  | one => trivial
  | symbol name => exact h.1
  | call c => exact h
  | position i =>
    change (Coordinate.labels tuple i).SpelledBy (Spelling.within tuple i)
    by_cases hname : ∃ name, tuple[i]? = some (.name name)
    · obtain ⟨name, hname⟩ := hname
      rw [Coordinate.labels_of_name hname, Spelling.within, hname]
      exact Factor.spelledBy_ofIdentifier (htuple name (List.mem_of_getElem? hname))
    · have hbound : (Factor.position i).Lexical := h.resolve_right hname
      have hspelling : Spelling.within tuple i = Spelling.plain i := by
        rw [Spelling.within]
        split
        · next name hi => exact absurd ⟨name, hi⟩ hname
        · rfl
      rw [Coordinate.labels_of_ne_name (not_exists.mp hname), hspelling]
      exact hbound.written

/-! ## Forms -/

/-- The form in which a coordinate is written. -/
def Coordinate.form : Coordinate → CoordinateForm
  | .name n => .name n
  | .fixed c => if c.val < 0 then .negated c.val.natAbs else .number c.val.natAbs

/-- The form in which a constraint is written, if positions are labelled. -/
def Constraint.form (ρ : Nat → Factor) (c : Constraint) : ChainForm :=
  ⟨(c.lhs.relabel ρ).form, ⟨c.comparison, (c.rhs.relabel ρ).form⟩, []⟩

/-- The form in which a set is written. -/
def TupleSet.form (s : TupleSet) : SetForm :=
  ⟨s.tuple.map Coordinate.form,
    if s.constraints.isEmpty then none
    else some (s.constraints.map (Constraint.form (Coordinate.labels s.tuple)))⟩

/-! ## What the text spells -/

/-- The text of a coordinate spells its form. -/
theorem Coordinate.spelled_form {x : Coordinate} (h : x.Lexical) (rest : List Char) :
    x.form.Spelled (x.render ++ rest) rest := by
  cases x with
  | name n => exact .name rfl h
  | fixed c =>
    have hdigits := Text.spellsNumber_digits c.val.natAbs
    rw [Coordinate.form, Coordinate.render, Text.integer]
    by_cases hneg : c.val < 0
    · rw [if_pos hneg, if_pos hneg]
      exact .negated rfl (.refl _) hdigits
    · rw [if_neg hneg, if_neg hneg]
      exact .number rfl hdigits

/-- The text of a constraint spells its form. -/
theorem Constraint.spelled_form {σ : Spelling} {ρ : Nat → Factor} {c : Constraint}
    (hl : ∀ f : Factor, f.OccursIn c.lhs → f.Written σ ρ)
    (hr : ∀ f : Factor, f.OccursIn c.rhs → f.Written σ ρ) (rest : List Char) :
    (c.form ρ).Spelled (c.render σ ++ rest) rest := by
  have hlhs := Expr.spelled_render hl
    (' ' :: (c.comparison.render ++ ' ' :: (c.rhs.render σ ++ rest)))
  have hlink : LinkForm.Spelled ⟨c.comparison, (c.rhs.relabel ρ).form⟩
      (' ' :: (c.comparison.render ++ ' ' :: (c.rhs.render σ ++ rest))) rest :=
    ⟨_, _, Text.skip_cons rfl _, Text.skip_cons rfl _, Expr.spelled_render hr rest⟩
  rw [Constraint.render, List.append_assoc, List.cons_append, List.append_assoc,
    List.cons_append]
  exact ⟨_, hlhs, .cons hlink .nil⟩

/-- Constraints that are written behind a colon with ampersands between them spell their
forms up to the closing brace. -/
theorem Constraint.spelledBody_map {σ : Spelling} {ρ : Nat → Factor} {cs : List Constraint}
    (h : ∀ c ∈ cs, ∀ rest, (c.form ρ).Spelled (c.render σ ++ rest) rest) :
    ChainForm.SpelledBody (some (cs.map (Constraint.form ρ)))
      (" : ".toList ++ " && ".toList.intercalate (cs.map (Constraint.render σ)) ++ " \x7d".toList)
      [] := by
  have hspace : ∀ b ∈ [' '], Text.isSeparator b := List.forall_mem_singleton.mpr rfl
  have hchains : Text.Separated ['&', '&'] ChainForm.Spelled (cs.map (Constraint.form ρ))
      (" && ".toList.intercalate (cs.map (Constraint.render σ)) ++ " \x7d".toList)
      " \x7d".toList := Text.separated_map hspace hspace h _
  exact ⟨_, Text.skip_cons rfl _, _, _, Text.skip_cons rfl _, hchains, Text.skip_cons rfl _⟩

/-- The text of a settled set spells its form. -/
theorem TupleSet.spelled_form {s : TupleSet} (hs : s.Settled) : s.form.Spelled s.render [] := by
  have hspace : ∀ b ∈ [' '], Text.isSeparator b := List.forall_mem_singleton.mpr rfl
  have hnothing : ∀ b ∈ ([] : List Char), Text.isSeparator b := nofun
  have hnames : ∀ name, .name name ∈ s.tuple → Text.IsIdentifier name.toList :=
    fun name hname => hs.coordinates _ hname
  have hconstraint : ∀ c ∈ s.constraints, ∀ rest,
      (c.form (Coordinate.labels s.tuple)).Spelled (c.render (.within s.tuple) ++ rest) rest := by
    intro c hc
    obtain ⟨hl, hr⟩ := TupleSet.forall_sides_iff.mp hs.sides c hc
    exact Constraint.spelled_form (fun f hf => (hl.factors f hf).written hnames)
      fun f hf => (hr.factors f hf).written hnames
  have htuple : ∀ rest, Text.Separated [','] CoordinateForm.Spelled (s.tuple.map Coordinate.form)
      (", ".toList.intercalate (s.tuple.map Coordinate.render) ++ rest) rest :=
    fun rest => Text.separated_map hnothing hspace
      (fun x hx rest => Coordinate.spelled_form (hs.coordinates x hx) rest) rest
  rw [TupleSet.render, List.append_assoc]
  refine ⟨_, _, _, rfl, Text.skip_cons rfl _, ⟨_, _, .refl _, htuple _, .refl _⟩, ?_⟩
  rw [TupleSet.form]
  by_cases hempty : s.constraints.isEmpty
  · rw [if_pos hempty, if_pos hempty]
    exact Text.skip_cons rfl _
  · rw [if_neg hempty, if_neg hempty]
    exact Constraint.spelledBody_map hconstraint

/-- The text of a set is not changed by trimming. -/
theorem TupleSet.trim_text (s : TupleSet) : Text.trim s.text.toList = s.render := by
  have hlast : Text.EndsVisibly " \x7d".toList := ⟨[' '], '\x7d', rfl, by decide⟩
  rw [TupleSet.text, String.toList_ofList]
  refine Text.trim_eq_self (Text.stops_cons.mpr (by decide)) ?_
  rw [TupleSet.render, List.append_cons, ← List.append_assoc]
  exact hlast.append _

/-- The text of a settled set is read as what the form of the set stands for. -/
theorem TupleSet.parse_text_eq_ok {s x : TupleSet} (hs : s.Settled) :
    TupleSet.parse s.text = .ok x ↔ s.form.eval = .ok x := by
  have hform := TupleSet.spelled_form hs
  rw [TupleSet.parse_eq_ok_iff, TupleSet.trim_text]
  constructor
  · rintro ⟨d, hd, hx⟩
    obtain ⟨rfl, _⟩ := hform.unique hd
    exact hx
  · intro hx
    exact ⟨s.form, hform, hx⟩

end AffineCalls
