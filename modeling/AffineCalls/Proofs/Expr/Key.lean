import AffineCalls.Expr.Key
import AffineCalls.Proofs.Notation.Distinct
import AffineCalls.Proofs.Notation.Unambiguous

/-!
# Keys tell calls apart

Keys agree when the texts agree up to spaces. The text of a plain call without its
spaces still spells the form of the call and no other form, so plain calls have
different keys. A key is longer than every symbol without spaces inside the call,
and the key of a call of a named function is a name again.
-/

namespace AffineCalls

open Text (withoutSpaces)
open scoped List

/-! ## Keys and texts -/

/-- Two calls have the same key exactly when their texts agree up to spaces. -/
theorem Call.key_eq_iff {c d : Call} :
    c.key = d.key ↔ withoutSpaces c.text.toList = withoutSpaces d.text.toList :=
  Text.encode_eq_encode_iff

/-- The text of a plain call without its spaces spells the form of the call. -/
theorem Call.Plain.spelled_form {c : Call} (hc : c.Plain) :
    c.form.Spelled (withoutSpaces c.text.toList) [] := by
  have hkeep : ∀ d, d ≠ ' ' → (d != ' ') = true := fun d hd => bne_iff_ne.mpr hd
  have hspelled := Call.spelled_form hkeep hc.name (fun a ha => (hc.args a ha).lexical) []
  rw [List.append_nil] at hspelled
  rw [Call.text, String.toList_ofList]
  exact hspelled

/-- Plain calls with the same key are the same. -/
theorem Call.Plain.eq_of_key_eq {c d : Call} (hc : c.Plain) (hd : d.Plain)
    (h : c.key = d.key) : c = d := by
  have hspelled := hc.spelled_form
  rw [Call.key_eq_iff.mp h] at hspelled
  have hform := FactorForm.Spelled.unique hspelled hd.spelled_form Text.sumEnd_nil.atom
    Text.sumEnd_nil.atom
  exact Call.form_inj
    (fun a ha b hb => Expr.form_inj (hc.args a ha).toNormal (hd.args b hb).toNormal) hform.1

/-- Keys of any two calls agree exactly when the texts of the calls agree up to spaces,
and keys of plain calls agree exactly when the calls are the same. -/
theorem Call.key_eq_key :
    (∀ c d : Call, c.key = d.key ↔
      withoutSpaces c.text.toList = withoutSpaces d.text.toList) ∧
    ∀ c d : Call, c.Plain → d.Plain → (c.key = d.key ↔ c = d) := by
  constructor
  · intro c d
    exact Call.key_eq_iff
  · intro c d hc hd
    constructor
    · intro h
      exact hc.eq_of_key_eq hd h
    · intro h
      rw [h]

/-- The calls `f()` and `f(0)` have different keys. -/
theorem Call.key_ne_key_zero : (Call.mk "f" []).key ≠ (Call.mk "f" [0]).key := by
  have hname : Text.IsName "f" := by decide
  have hzero : (0 : Expr).Plain := Expr.plain_iff.mpr ⟨.nil, nofun⟩
  intro h
  have hsame := (Call.key_eq_key.2 _ _ ⟨hname, List.forall_mem_nil _⟩
    ⟨hname, List.forall_mem_singleton.mpr hzero⟩).mp h
  exact List.cons_ne_nil 0 [] (Call.mk.inj hsame).2.symm

/-! ## Keys and symbols -/

/-- A key is the escaped text of the call. -/
theorem Call.toList_key (c : Call) : c.key.toList = Text.escape (c.render .plain) := by
  rw [Call.key, Text.encode, Call.text, String.toList_ofList, String.toList_ofList]

/-- The text of a factor other than one stands in that of the term. -/
theorem Term.render_sublist {t : Term} {σ : Spelling} (h : t.factor ≠ .one) :
    t.factor.render σ <+ (t.renderSigned σ).2 := by
  obtain ⟨c, f⟩ := t
  rw [Term.renderSigned, summandText, if_neg h]
  split
  · exact List.Sublist.refl _
  · exact (List.sublist_cons_self _ _).trans (List.sublist_append_right _ _)

/-- The unsigned text of a summand stands in that of the sum. -/
theorem joinSigned_sublist {x : Bool × List Char} {xs : List (Bool × List Char)} (h : x ∈ xs) :
    x.2 <+ joinSigned xs := by
  cases xs with
  | nil => exact nomatch h
  | cons y ys =>
    rw [joinSigned_cons]
    rcases List.mem_cons.mp h with rfl | hx
    · split
      · exact (List.sublist_cons_self _ _).trans (List.sublist_append_left _ _)
      · exact List.sublist_append_left _ _
    · refine List.Sublist.trans ?_ (List.sublist_append_right _ _)
      rw [List.flatMap_def]
      exact (List.sublist_append_right _ _).trans
        (List.sublist_flatten_of_mem (List.mem_map_of_mem hx))

/-- The text of an argument stands in that of the call, between the parentheses. -/
theorem Call.render_sublist {c : Call} {a : Expr} (ha : a ∈ c.args) (σ : Spelling) :
    '(' :: (a.render σ ++ [')']) <+ c.render σ := by
  obtain ⟨name, args⟩ := c
  have hinside : a.render σ <+ ", ".toList.intercalate (args.map (·.render σ)) := by
    cases args with
    | nil => exact nomatch ha
    | cons b bs =>
      rw [List.map_cons, Text.intercalate_cons]
      rcases List.mem_cons.mp ha with rfl | ha
      · exact List.sublist_append_left _ _
      · refine List.Sublist.trans ?_ (List.sublist_append_right _ _)
        rw [List.flatMap_def]
        exact (List.sublist_append_right _ _).trans
          (List.sublist_flatten_of_mem (List.mem_map_of_mem (List.mem_map_of_mem ha)))
  rw [Call.render, Expr.renderEach_eq_map]
  exact ((hinside.append_right [')']).cons_cons '(').trans (List.sublist_append_right _ _)

/-- The text of a factor other than one stands in that of the sum. -/
theorem Expr.render_sublist {e : Expr} {t : Term} (ht : t ∈ e.terms) (hone : t.factor ≠ .one)
    (σ : Spelling) : t.factor.render σ <+ e.render σ := by
  obtain ⟨ts⟩ := e
  rw [Expr.render, Term.renderEach_eq_map]
  exact (Term.render_sublist hone).trans (joinSigned_sublist (List.mem_map_of_mem ht))

/-- A symbol stands in the text of every expression in which it occurs. -/
theorem Expr.symbol_sublist_render {e : Expr} {n : String}
    (h : (Factor.symbol n).OccursIn e) (σ : Spelling) : n.toList <+ e.render σ := by
  obtain ⟨t, ⟨a, ha, ht⟩, hfactor⟩ := h
  induction ha with
  | refl =>
    have hone : t.factor ≠ .one := fun h => Factor.noConfusion (hfactor.symm.trans h)
    have hsummand := Expr.render_sublist ht hone σ
    rw [hfactor] at hsummand
    exact hsummand
  | arg hu hb _ ih =>
    obtain ⟨c, hc, hb⟩ := Factor.exists_call_of_mem_args hb
    have hone : _ ≠ Factor.one := fun h => Factor.noConfusion (hc.symm.trans h)
    have hsummand := Expr.render_sublist hu hone σ
    have hargument := Call.render_sublist hb σ
    have hinside := (ih.trans (List.sublist_append_left _ [')'])).trans
      (List.sublist_cons_self '(' _)
    rw [hc, Factor.render] at hsummand
    exact hinside.trans (hargument.trans hsummand)

/-- The key of a call is longer than every symbol without spaces inside the call. -/
theorem Call.length_lt_key {c : Call} {a : Expr} (ha : a ∈ c.args) {n : String}
    (hn : (Factor.symbol n).OccursIn a) (hspace : ' ' ∉ n.toList) : n.length < c.key.length := by
  have hsymbol := Expr.symbol_sublist_render hn .plain
  have hargument := Call.render_sublist ha .plain
  have hcall : '(' :: (n.toList ++ [')']) <+ c.render .plain :=
    ((hsymbol.append_right [')']).cons_cons '(').trans hargument
  have hnospace : '(' :: (n.toList ++ [')']) <+ withoutSpaces (c.render .plain) := by
    have hfilter := hcall.filter (· != ' ')
    rwa [List.filter_eq_self.mpr] at hfilter
    intro d hd
    rw [bne_iff_ne]
    rintro rfl
    simp only [List.mem_cons, List.mem_append, List.not_mem_nil, or_false] at hd
    rcases hd with hd | hd | hd
    · exact absurd hd (by decide)
    · exact hspace hd
    · exact absurd hd (by decide)
  have hkey : (withoutSpaces (c.render .plain)).length ≤ c.key.length := by
    have hspaces : ' ' ∉ withoutSpaces (c.render .plain) := fun h =>
      absurd rfl (bne_iff_ne.mp (List.mem_filter.mp h).2)
    rw [← String.length_toList, Call.toList_key, ← Text.escape_withoutSpaces]
    exact Text.length_le_length_escape hspaces
  have hlength := hnospace.length_le
  rw [List.length_cons, List.length_append, List.length_singleton, String.length_toList] at hlength
  omega

/-- A key consists of characters of identifiers. -/
theorem Call.isIdentChar_of_mem_key {c : Call} {d : Char} (h : d ∈ c.key.toList) :
    Text.isIdentChar d := by
  rw [Call.toList_key] at h
  exact Text.isIdentChar_of_mem_escape h

/-- A key has no spaces. -/
theorem Call.space_notMem_key (c : Call) : ' ' ∉ c.key.toList := fun h =>
  absurd (Call.isIdentChar_of_mem_key h) (by decide)

/-- The opening parenthesis of a call leaves the letter `L` in the key. -/
theorem Call.mem_key (c : Call) : 'L' ∈ c.key.toList := by
  have hparen : '(' ∈ c.render .plain := by
    obtain ⟨name, args⟩ := c
    simp [Call.render]
  have hescaped : 'L' ∈ Text.escapeChar '(' := by decide
  rw [Call.toList_key]
  exact List.mem_flatMap.mpr ⟨'(', hparen, hescaped⟩

/-- A key is not spelled like a position, whatever the index. -/
theorem Call.key_ne_mark_append (c : Call) {ds : List Char} (hds : ∀ d ∈ ds, d.isDigit) :
    c.key.toList ≠ "__tv".toList ++ ds := by
  intro h
  have hmem := c.mem_key
  rw [h] at hmem
  rcases List.mem_append.mp hmem with hmark | hdigit
  · exact absurd hmark (by decide)
  · exact absurd (hds 'L' hdigit) (by decide)

/-- The key of a call whose name is an identifier is an identifier. -/
theorem Call.isIdentifier_key {c : Call} (h : Text.IsIdentifier c.name.toList) :
    Text.IsIdentifier c.key.toList := by
  refine ⟨?_, fun _ => Call.isIdentChar_of_mem_key⟩
  obtain ⟨name, args⟩ := c
  obtain ⟨d, ds, hname, hstart, _⟩ := h.exists_cons
  have hspace : d ≠ ' ' := by
    rintro rfl
    exact absurd hstart (by decide)
  rw [Call.toList_key, Call.render, show name.toList = d :: ds from hname, List.cons_append,
    Text.escape_cons]
  -- The escaped form of the first character starts with the character or with an underscore.
  rcases Text.escapeChar_cases hspace with ⟨m, _, hd⟩ | ⟨_, _, hd⟩ | hd
  · rw [hd]
    rfl
  · rw [hd]
    exact hstart
  · rw [hd]
    rfl

/-- The key of a call whose name is an identifier is a name. -/
theorem Call.isName_key {c : Call} (h : Text.IsIdentifier c.name.toList) : Text.IsName c.key := by
  refine ⟨Call.isIdentifier_key h, ?_⟩
  rintro i ⟨ds, hkey, _, hds, _⟩
  exact c.key_ne_mark_append hds hkey

end AffineCalls
