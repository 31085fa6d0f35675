import AffineCalls.Expr.Render
import AffineCalls.Proofs.Expr.Plain
import AffineCalls.Proofs.Expr.Relabel
import AffineCalls.Proofs.Notation.Delimiter
import AffineCalls.Proofs.Notation.Repeated
import AffineCalls.Proofs.Text.Escape

/-!
# The form in which an expression is written

The text of an expression spells a form that is made from the expression: an atom
for each summand, with its sign and the absolute value of its coefficient. This
holds for the text itself and also for the text without its spaces, because the
spaces stand in gaps only. Where positions are spelled like other factors, the text
spells the form of the relabelled expression.
-/

namespace AffineCalls

/-- The atom with a given absolute value of the coefficient. The factor one has no
form, and a coefficient one is left out before any other factor. -/
def AtomForm.ofMagnitude (n : Nat) : Option FactorForm → AtomForm
  | none => .number n
  | some f => if n = 1 then .factor f else .multiple n f

/-- The form of a sum with the given summands. The empty sum is the number zero. -/
def SumForm.ofSummands : List SummandForm → SumForm
  | [] => ⟨false, .number 0, []⟩
  | s :: ss => ⟨s.negative, s.atom, ss⟩

mutual

/-- The form in which a factor other than one is written. -/
def Factor.form? : Factor → Option FactorForm
  | .one => none
  | .position i => some (.position i)
  | .symbol name => some (.symbol name)
  | .call c => some c.form
termination_by structural f => f

/-- The form in which a call is written. -/
def Call.form : Call → FactorForm
  | ⟨name, args⟩ => .call name (Expr.formEach args)
termination_by structural c => c

/-- The forms of the members of a list of expressions. -/
def Expr.formEach : List Expr → List SumForm
  | [] => []
  | e :: es => e.form :: Expr.formEach es
termination_by structural es => es

/-- The form in which an expression is written. -/
def Expr.form : Expr → SumForm
  | ⟨ts⟩ => .ofSummands (Term.formEach ts)
termination_by structural e => e

/-- The forms of the members of a list of terms. -/
def Term.formEach : List Term → List SummandForm
  | [] => []
  | t :: ts => t.form :: Term.formEach ts
termination_by structural ts => ts

/-- The form in which a term is written. -/
def Term.form : Term → SummandForm
  | ⟨c, f⟩ => ⟨c.val < 0, .ofMagnitude c.val.natAbs f.form?⟩
termination_by structural t => t

end

theorem Expr.formEach_eq_map (es : List Expr) : Expr.formEach es = es.map Expr.form := by
  induction es with
  | nil => rfl
  | cons e es ih => rw [Expr.formEach, ih, List.map_cons]

theorem Term.formEach_eq_map (ts : List Term) : Term.formEach ts = ts.map Term.form := by
  induction ts with
  | nil => rfl
  | cons t ts ih => rw [Term.formEach, ih, List.map_cons]

/-- The form of a call is made from the forms of its arguments. -/
theorem Call.form_eq (c : Call) : c.form = .call c.name (c.args.map Expr.form) := by
  obtain ⟨name, args⟩ := c
  rw [Call.form, Expr.formEach_eq_map]

/-- The form of a sum is made from the forms of its summands. -/
theorem Expr.form_eq (e : Expr) : e.form = .ofSummands (e.terms.map Term.form) := by
  obtain ⟨ts⟩ := e
  rw [Expr.form, Term.formEach_eq_map]

/-- The form of a term is made from its coefficient and the form of its factor. -/
theorem Term.form_eq (t : Term) :
    t.form = ⟨t.coeff.val < 0, .ofMagnitude t.coeff.val.natAbs t.factor.form?⟩ := by
  obtain ⟨c, f⟩ := t
  rw [Term.form]

/-- The sign that a term is written with is that of its form, relabelled or not. -/
theorem Term.renderSigned_fst (σ : Spelling) (ρ : Nat → Factor) (t : Term) :
    (t.renderSigned σ).1 = (t.relabel ρ).form.negative := by
  rw [Term.form_eq]
  obtain ⟨c, f⟩ := t
  rw [Term.renderSigned, Term.relabel]

/-! ## What the text spells -/

/-- `f.SpelledBy cs`: the text is the spelling of a position or a symbol. -/
def Factor.SpelledBy (cs : List Char) : Factor → Prop
  | .position i => Text.SpellsPosition cs i
  | .symbol name => cs = name.toList ∧ Text.IsName name
  | _ => False

/-- Whether a factor, apart from its arguments, is written as what it is, if positions are
spelled like other factors. -/
def Factor.Written (σ : Spelling) (ρ : Nat → Factor) : Factor → Prop
  | .one => True
  | .position i => (ρ i).SpelledBy (σ i)
  | .symbol name => Text.IsName name
  | .call c => Text.IsName c.name

/-- Outside of a set a factor with a spelling of its own is written as itself. -/
theorem Factor.Lexical.written {f : Factor} (h : f.Lexical) : f.Written .plain .position := by
  cases f with
  | one => trivial
  | position i =>
    exact ⟨Text.digits i, rfl, Text.digits_ne_nil i, fun _ => Text.isDigit_of_mem_digits,
      Text.value_digits i, h⟩
  | symbol name => exact h
  | call c => exact h

/-- Relabelling makes no factor one that was not. -/
theorem Factor.Written.relabel_ne_one {σ : Spelling} {ρ : Nat → Factor} {f : Factor}
    (h : f.Written σ ρ) (hone : f ≠ .one) : f.relabel ρ ≠ .one := by
  intro hrelabel
  cases f with
  | one => exact hone rfl
  | position i =>
    rw [Factor.relabel] at hrelabel
    rw [Factor.Written, hrelabel] at h
    exact h
  | symbol name => cases hrelabel
  | call c => cases hrelabel

/-- The first summand has no space behind its sign. -/
theorem joinSigned_cons (x : Bool × List Char) (xs : List (Bool × List Char)) :
    joinSigned (x :: xs) = (if x.1 then '-' :: x.2 else x.2) ++
      xs.flatMap fun (negative, s) => (if negative then " - " else " + ").toList ++ s := rfl

section Spelled

variable {p : Char → Bool} (hp : ∀ c, c ≠ ' ' → p c = true) {σ : Spelling} {ρ : Nat → Factor}

include hp

/-- Nothing is dropped from a word. -/
theorem Text.filter_word {cs : List Char} (h : ∀ c ∈ cs, isIdentChar c) : cs.filter p = cs := by
  rw [List.filter_eq_self]
  intro c hc
  refine hp c ?_
  rintro rfl
  exact absurd (h ' ' hc) (by decide)

/-- A mark other than the space is not dropped. -/
theorem Text.filter_mark {c : Char} (hc : c ≠ ' ') (cs : List Char) :
    (c :: cs).filter p = c :: cs.filter p :=
  List.filter_cons_of_pos (hp c hc)

omit hp in
/-- A space that may be dropped is a gap. -/
theorem Text.skip_space (cs : List Char) : Skip ([' '].filter p ++ cs) cs := by
  refine ⟨[' '].filter p, fun b hb => ?_, rfl⟩
  obtain rfl : b = ' ' := List.mem_singleton.mp (List.mem_of_mem_filter hb)
  decide

/-- Behind the first argument, a comma and a space stand before each argument. -/
theorem SumForm.spelledMore_map {es : List Expr}
    (ih : ∀ a ∈ es, ∀ rest, (a.relabel ρ).form.Spelled ((a.render σ).filter p ++ rest) rest)
    (rest : List Char) :
    SumForm.SpelledMore (es.map fun a => (a.relabel ρ).form)
      (((es.map (·.render σ)).flatMap (", ".toList ++ ·)).filter p ++ rest) rest := by
  induction es with
  | nil => exact .nil
  | cons e es ih' =>
    obtain ⟨he, hes⟩ := List.forall_mem_cons.mp ih
    rw [List.map_cons, List.map_cons, List.flatMap_cons, List.filter_append, List.append_assoc,
      List.filter_append, List.append_assoc]
    have hcomma : (", ".toList).filter p = ',' :: [' '].filter p :=
      Text.filter_mark hp (by decide) _
    rw [hcomma]
    exact .cons (.refl _) (Text.skip_space _) (he _) (ih' hes)

/-- Arguments are written with a comma and a space between them. -/
theorem SumForm.spelledEach_map {es : List Expr}
    (ih : ∀ a ∈ es, ∀ rest, (a.relabel ρ).form.Spelled ((a.render σ).filter p ++ rest) rest)
    (rest : List Char) :
    SumForm.SpelledEach (es.map fun a => (a.relabel ρ).form)
      ((", ".toList.intercalate (es.map (·.render σ))).filter p ++ rest) rest := by
  cases es with
  | nil => exact .nil
  | cons e es =>
    obtain ⟨he, hes⟩ := List.forall_mem_cons.mp ih
    rw [List.map_cons, List.map_cons, Text.intercalate_cons, List.filter_append, List.append_assoc]
    exact .cons (he _) (SumForm.spelledMore_map hp hes rest)

/-- The text of a call spells its relabelled form. -/
theorem Call.spelled_relabel {c : Call} (hname : Text.IsName c.name)
    (ih : ∀ a ∈ c.args, ∀ rest, (a.relabel ρ).form.Spelled ((a.render σ).filter p ++ rest) rest)
    (rest : List Char) : (c.relabel ρ).form.Spelled ((c.render σ).filter p ++ rest) rest := by
  obtain ⟨name, args⟩ := c
  have hargs := SumForm.spelledEach_map hp ih (')' :: rest)
  rw [Call.relabel_eq, Call.form_eq, List.map_map, Call.render, Expr.renderEach_eq_map,
    List.filter_append, Text.filter_word hp hname.identifier.chars,
    Text.filter_mark hp (by decide), List.filter_append, Text.filter_mark hp (by decide),
    List.filter_nil, List.append_assoc, List.cons_append, List.append_assoc,
    List.singleton_append]
  exact .call rfl hname (.refl _) hargs (.refl _)

/-- The text of a position or a symbol spells its form. -/
theorem Factor.SpelledBy.spelled_form {f : Factor} {cs : List Char} (hf : f.SpelledBy cs)
    {g : FactorForm} (hg : f.form? = some g) (rest : List Char) :
    g.Spelled (cs.filter p ++ rest) rest := by
  cases f with
  | position i =>
    cases hg
    have hword : Text.SpellsPosition cs i := hf
    rw [Text.filter_word hp hword.isIdentChar]
    exact .position rfl hword
  | symbol name =>
    cases hg
    obtain ⟨rfl, hname⟩ := hf
    rw [Text.filter_word hp hname.identifier.chars]
    exact .symbol rfl hname
  | one => exact hf.elim
  | call c => exact hf.elim

/-- The text of a factor spells its relabelled form. -/
theorem Factor.spelled_relabel {f : Factor} (hf : f.Written σ ρ)
    (ih : ∀ a ∈ f.args, ∀ rest, (a.relabel ρ).form.Spelled ((a.render σ).filter p ++ rest) rest)
    {g : FactorForm} (hg : (f.relabel ρ).form? = some g) (rest : List Char) :
    g.Spelled ((f.render σ).filter p ++ rest) rest := by
  cases f with
  | one => exact nomatch hg
  | position i => exact Factor.SpelledBy.spelled_form hp hf hg rest
  | symbol name =>
    have hname : (Factor.symbol name).SpelledBy name.toList := ⟨rfl, hf⟩
    exact Factor.SpelledBy.spelled_form hp hname hg rest
  | call c =>
    cases hg
    rw [Factor.render]
    exact Call.spelled_relabel hp hf ih rest

/-- The unsigned text of a term spells the atom of its relabelled form. -/
theorem Term.spelled_relabel {t : Term} (hf : t.factor.Written σ ρ)
    (ih : ∀ a ∈ t.factor.args, ∀ rest,
      (a.relabel ρ).form.Spelled ((a.render σ).filter p ++ rest) rest)
    (rest : List Char) :
    (t.relabel ρ).form.atom.Spelled ((t.renderSigned σ).2.filter p ++ rest) rest := by
  obtain ⟨c, f⟩ := t
  have hdigits : (Text.digits c.val.natAbs).filter p = Text.digits c.val.natAbs :=
    Text.filter_word hp fun d hd => Text.isIdentChar_of_isDigit (Text.isDigit_of_mem_digits hd)
  rw [Term.relabel, Term.form_eq, Term.renderSigned, summandText]
  by_cases hone : f = .one
  · subst hone
    rw [if_pos rfl, hdigits]
    exact .number rfl (Text.spellsNumber_digits _)
  · have hrelabel : f.relabel ρ ≠ .one := Factor.Written.relabel_ne_one hf hone
    obtain ⟨g, hg⟩ : ∃ g, (f.relabel ρ).form? = some g := by
      cases hform : f.relabel ρ with
      | one => exact absurd hform hrelabel
      | _ => exact ⟨_, rfl⟩
    have hfactor := Factor.spelled_relabel hp hf ih hg rest
    rw [if_neg hone, hg, AtomForm.ofMagnitude]
    by_cases hn : c.val.natAbs = 1
    · rw [if_pos hn, if_pos hn]
      exact .factor hfactor
    · rw [if_neg hn, if_neg hn, List.filter_append, hdigits, Text.filter_mark hp (by decide),
        List.append_assoc]
      exact .multiple rfl (Text.spellsNumber_digits _) (.refl _) (.refl _) hfactor

/-- Behind the first summand, the sign of each summand stands between spaces. -/
theorem SummandForm.spelledEach_map {ts : List Term}
    (h : ∀ t ∈ ts, ∀ rest,
      (t.relabel ρ).form.atom.Spelled ((t.renderSigned σ).2.filter p ++ rest) rest)
    (rest : List Char) :
    SummandForm.SpelledEach (ts.map fun t => (t.relabel ρ).form)
      (((ts.map (·.renderSigned σ)).flatMap
        fun (negative, s) => (if negative then " - " else " + ").toList ++ s).filter p ++ rest)
      rest := by
  induction ts with
  | nil => exact .nil
  | cons t ts ih =>
    obtain ⟨ht, hts⟩ := List.forall_mem_cons.mp h
    have hsign : ((if (t.renderSigned σ).1 then " - " else " + ").toList).filter p =
        [' '].filter p ++ (t.relabel ρ).form.sign :: [' '].filter p := by
      rw [Term.renderSigned_fst σ ρ, SummandForm.sign]
      cases (t.relabel ρ).form.negative with
      | false =>
        have hmark := Text.filter_mark hp (c := '+') (by decide) [' ']
        exact (List.filter_append [' '] _).trans (congrArg _ hmark)
      | true =>
        have hmark := Text.filter_mark hp (c := '-') (by decide) [' ']
        exact (List.filter_append [' '] _).trans (congrArg _ hmark)
    rw [List.map_cons, List.map_cons, List.flatMap_cons, List.filter_append, List.filter_append,
      hsign, List.append_assoc, List.append_assoc, List.append_assoc, List.cons_append]
    exact .cons (Text.skip_space _) (Text.skip_space _) (ht _) (ih hts)

/-- The text of an expression, with or without its spaces, spells its relabelled form if
every position is spelled like what takes its place. -/
theorem Expr.spelled_relabel {e : Expr} (he : ∀ f : Factor, f.OccursIn e → f.Written σ ρ)
    (rest : List Char) : (e.relabel ρ).form.Spelled ((e.render σ).filter p ++ rest) rest := by
  induction e using Expr.induction generalizing rest with
  | step e ih =>
    obtain ⟨ts⟩ := e
    have hterms := Factor.forall_occursIn_iff.mp he
    have hatom : ∀ t ∈ ts, ∀ rest,
        (t.relabel ρ).form.atom.Spelled ((t.renderSigned σ).2.filter p ++ rest) rest :=
      fun t ht rest => Term.spelled_relabel hp (hterms t ht).1
        (fun a ha rest => ih t ht a ha ((hterms t ht).2 a ha) rest) rest
    rw [Expr.relabel_eq, Expr.form_eq, List.map_map, Expr.render, Term.renderEach_eq_map]
    cases ts with
    | nil =>
      have hzero : ['0'].filter p = ['0'] := Text.filter_mark hp (by decide) []
      rw [List.map_nil, List.map_nil, joinSigned, hzero]
      exact .positive (.number rfl (Text.spellsNumber_digits 0)) .nil
    | cons t ts =>
      obtain ⟨ht, hts⟩ := List.forall_mem_cons.mp hatom
      have hmore := SummandForm.spelledEach_map hp hts rest
      have hfirst := ht (((ts.map (·.renderSigned σ)).flatMap
        fun (negative, s) => (if negative then " - " else " + ").toList ++ s).filter p ++ rest)
      rw [List.map_cons, List.map_cons, joinSigned_cons, List.filter_append, List.append_assoc,
        Term.renderSigned_fst σ ρ, SumForm.ofSummands]
      change SumForm.Spelled ⟨(t.relabel ρ).form.negative, (t.relabel ρ).form.atom, _⟩ _ _
      cases hsign : (t.relabel ρ).form.negative with
      | false =>
        rw [if_neg Bool.false_ne_true]
        exact .positive hfirst hmore
      | true =>
        rw [if_pos rfl, Text.filter_mark hp (by decide), List.cons_append]
        exact .negative rfl (.refl _) hfirst hmore

/-- The text of an expression, with or without its spaces, spells its form. -/
theorem Expr.spelled_form {e : Expr} (he : e.Lexical) (rest : List Char) :
    e.form.Spelled ((e.render .plain).filter p ++ rest) rest := by
  have h := Expr.spelled_relabel hp (fun f hf => (he f hf).written) rest
  rw [Expr.relabel_position] at h
  exact h

/-- The text of a call, with or without its spaces, spells its form. -/
theorem Call.spelled_form {c : Call} (hname : Text.IsName c.name)
    (hargs : ∀ a ∈ c.args, a.Lexical) (rest : List Char) :
    c.form.Spelled ((c.render .plain).filter p ++ rest) rest := by
  have hinside : ∀ a ∈ c.args, ∀ rest, (a.relabel .position).form.Spelled
      ((a.render .plain).filter p ++ rest) rest := fun a ha rest =>
    Expr.spelled_relabel hp (fun f hf => (hargs a ha f hf).written) rest
  have h := Call.spelled_relabel hp hname hinside rest
  rw [Call.relabel_position] at h
  exact h

end Spelled

/-- The text of an expression spells its relabelled form if every position is spelled like
what takes its place. -/
theorem Expr.spelled_render {σ : Spelling} {ρ : Nat → Factor} {e : Expr}
    (he : ∀ f : Factor, f.OccursIn e → f.Written σ ρ) (rest : List Char) :
    (e.relabel ρ).form.Spelled (e.render σ ++ rest) rest := by
  have h := Expr.spelled_relabel (p := fun _ => true) (fun _ _ => rfl) he rest
  rw [List.filter_true] at h
  exact h

end AffineCalls
