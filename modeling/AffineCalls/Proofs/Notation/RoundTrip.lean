import AffineCalls.Proofs.Notation.Completeness
import AffineCalls.Proofs.Notation.FormValue
import AffineCalls.Proofs.Notation.Lexical
import AffineCalls.Proofs.Text.Trim

/-!
# Writing and reading

The text of an expression is read back as the expression exactly when everything in
it can be spelled: the names, the 64-bit positions, and the absolute values of the
coefficients. The text spells the form of the expression, and as a text is spelled by
one form only, whatever is read from it is what that form stands for.
-/

namespace AffineCalls

/-! ## The text is not changed by trimming -/

/-- The unsigned text of a summand ends visibly. -/
theorem Term.endsVisibly_renderSigned {t : Term} (h : t.factor.Lexical) :
    Text.EndsVisibly (t.renderSigned .plain).2 := by
  obtain ⟨c, f⟩ := t
  have hdigits : ∀ n, Text.EndsVisibly (Text.digits n) := fun n =>
    Text.endsVisibly_of_word (Text.digits_ne_nil n) fun _ hd =>
      Text.isIdentChar_of_isDigit (Text.isDigit_of_mem_digits hd)
  have hfactor : Text.EndsVisibly (f.render .plain) := by
    cases f with
    | one => exact ⟨[], '1', rfl, by decide⟩
    | position i =>
      rw [Factor.render, Spelling.plain]
      exact (hdigits i).append _
    | symbol name =>
      obtain ⟨c, ds, hname, _⟩ := h.identifier.exists_cons
      have hne : name.toList ≠ [] := hname ▸ List.cons_ne_nil c ds
      exact Text.endsVisibly_of_word hne h.identifier.chars
    | call c =>
      obtain ⟨name, args⟩ := c
      have hparen : Text.EndsVisibly [')'] := ⟨[], ')', rfl, by decide⟩
      rw [Factor.render, Call.render]
      exact ((hparen.append _).append ['(']).append _
  rw [Term.renderSigned, summandText]
  by_cases hone : f = .one
  · rw [if_pos hone]
    exact hdigits _
  · rw [if_neg hone]
    by_cases hn : c.val.natAbs = 1
    · rw [if_pos hn]
      exact hfactor
    · rw [if_neg hn]
      exact (hfactor.append ['*']).append _

/-- The text of a lexical expression ends visibly. -/
theorem Expr.endsVisibly_render {e : Expr} (h : e.Lexical) :
    Text.EndsVisibly (e.render .plain) := by
  have hterms := Expr.lexical_iff.mp h
  obtain ⟨ts⟩ := e
  rw [Expr.render, Term.renderEach_eq_map]
  cases ts with
  | nil => exact ⟨[], '0', rfl, by decide⟩
  | cons t ts =>
    rw [List.map_cons, joinSigned_cons]
    -- The last summand decides, which is the first one if there is no other.
    rcases List.eq_nil_or_concat ts with rfl | ⟨us, u, hconcat⟩
    · have hfirst := Term.endsVisibly_renderSigned (hterms t List.mem_cons_self).1
      rw [List.map_nil, List.flatMap_nil, List.append_nil]
      split
      · exact hfirst.append ['-']
      · exact hfirst
    · rw [List.concat_eq_append] at hconcat
      subst hconcat
      have hu : u ∈ us ++ [u] := List.mem_append_right us (List.mem_singleton_self u)
      have hlast := Term.endsVisibly_renderSigned (hterms u (.tail t hu)).1
      rw [List.map_append, List.flatMap_append, List.map_singleton, List.flatMap_singleton]
      exact ((hlast.append _).append _).append _

section Spaces

variable {p : Char → Bool} (hp : ∀ c, c ≠ ' ' → p c = true)

include hp

/-- The text of a lexical expression, with or without its spaces, is not changed by trimming. -/
theorem Expr.trim_filter_render {e : Expr} (h : e.Lexical) :
    Text.trim ((e.render .plain).filter p) = (e.render .plain).filter p := by
  have hform := Expr.spelled_form hp h []
  rw [List.append_nil] at hform
  obtain ⟨c, ds, hcs, hc⟩ := hform.exists_cons
  have hfirst : Text.Stops Text.isBlank ((e.render .plain).filter p) := by
    rw [hcs, Text.stops_cons]
    rcases hc with hc | rfl | rfl
    · exact Bool.eq_false_iff.mpr (Text.not_isBlank_of_isIdentChar hc)
    · decide
    · decide
  exact Text.trim_eq_self hfirst ((Expr.endsVisibly_render h).filter hp)

/-! ## The round trip -/

/-- The text of a lexical expression, with or without its spaces, is read as what the form of
the expression stands for. -/
theorem Expr.parse_filter_eq_ok {e x : Expr} (h : e.Lexical) :
    Expr.parse (String.ofList ((e.render .plain).filter p)) = .ok x ↔ e.form.eval = .ok x := by
  have hform := Expr.spelled_form hp h []
  rw [List.append_nil] at hform
  rw [Expr.parse, String.toList_ofList, Expr.trim_filter_render hp h, Reader.readAll_eq_ok_iff,
    SumForm.taken_reader_iff]
  constructor
  · rintro ⟨s, hs, hx⟩
    rw [SumForm.spelled_unique hform hs]
    exact hx
  · intro hx
    exact ⟨e.form, hform, hx⟩

end Spaces

/-- The text of a lexical expression is read as what the form of the expression
stands for. -/
theorem Expr.parse_text_eq_ok {e x : Expr} (h : e.Lexical) :
    Expr.parse e.text = .ok x ↔ e.form.eval = .ok x := by
  have hread := Expr.parse_filter_eq_ok (p := fun _ => true) (fun _ _ => rfl) (x := x) h
  rw [List.filter_true] at hread
  exact hread

/-- Whatever is read is lexical. -/
theorem Expr.lexical_of_parse {s : String} {x : Expr} (h : Expr.parse s = .ok x) : x.Lexical := by
  rw [Expr.parse, Reader.readAll_eq_ok_iff, SumForm.taken_reader_iff] at h
  obtain ⟨form, hform, hx⟩ := h
  exact hform.lexical hx

/-- The text of a plain expression is read back as the expression exactly when no coefficient
is the least one. -/
theorem Expr.Plain.parse_text_eq_self_iff {e : Expr} (he : e.Plain) :
    Expr.parse e.text = .ok e ↔ e.AboveLeast := by
  rw [Expr.parse_text_eq_ok he.lexical]
  exact ⟨Expr.aboveLeast_of_eval_form, Expr.eval_form he.toNormal⟩

/-- The text of a normal expression is read back as the expression exactly when all
names and positions in it can be spelled and no coefficient is the least one. Whatever
is read has names and positions that can be spelled. -/
theorem Expr.parse_text :
    (∀ e : Expr, e.Normal → (Expr.parse e.text = .ok e ↔ e.Lexical ∧ e.AboveLeast)) ∧
      ∀ (s : String) (x : Expr), Expr.parse s = .ok x → x.Lexical := by
  constructor
  · intro e he
    constructor
    · intro h
      have hplain : e.Plain := ⟨he, Expr.lexical_of_parse h⟩
      exact ⟨hplain.lexical, hplain.parse_text_eq_self_iff.mp h⟩
    · rintro ⟨hlexical, hleast⟩
      have hplain : e.Plain := ⟨he, hlexical⟩
      exact hplain.parse_text_eq_self_iff.mpr hleast
  · intro s x h
    exact Expr.lexical_of_parse h

/-- The text `-2*f(x)` is read back. -/
theorem Expr.parse_text_multiple :
    ∃ e : Expr, e.text = "-2*f(x)" ∧ Expr.parse e.text = .ok e := by
  have he := Expr.plain_call_symbol (c := ⟨-2, by decide, by decide⟩) (by decide)
    (by decide : Text.IsName "f") (by decide : Text.IsName "x")
  have hx : (Expr.mk [⟨1, .symbol "x"⟩]).AboveLeast :=
    Expr.aboveLeast_iff.mpr (List.forall_mem_singleton.mpr ⟨by decide, nofun⟩)
  refine ⟨_, rfl, (Expr.parse_text.1 _ he.toNormal).mpr ⟨he.lexical, Expr.aboveLeast_iff.mpr ?_⟩⟩
  exact List.forall_mem_singleton.mpr ⟨by decide, List.forall_mem_singleton.mpr hx⟩

end AffineCalls
