import AffineCalls.Expr.Basic

/-!
# What stands inside an expression

An expression contains others as arguments of its calls, and these contain
others again. This file gives the induction along this nesting and says what it is
for an expression, a term or a symbol to stand inside an expression at any depth.
-/

namespace AffineCalls

/-- The expressions directly inside a factor: the arguments of a call. -/
def Factor.args : Factor → List Expr
  | .call c => c.args
  | _ => []

/-- Only a call has expressions inside. -/
theorem Factor.exists_call_of_mem_args {f : Factor} {a : Expr} (h : a ∈ f.args) :
    ∃ c, f = .call c ∧ a ∈ c.args := by
  cases f with
  | call c => exact ⟨c, rfl, h⟩
  | one => exact nomatch h
  | position i => exact nomatch h
  | symbol name => exact nomatch h

namespace Expr

/-- An argument is smaller than an expression that contains it. -/
theorem sizeOf_lt_of_mem_args {a e : Expr} {t : Term} (ht : t ∈ e.terms)
    (ha : a ∈ t.factor.args) : sizeOf a < sizeOf e := by
  obtain ⟨ts⟩ := e
  obtain ⟨c, f⟩ := t
  obtain ⟨⟨name, args⟩, rfl, ha⟩ := Factor.exists_call_of_mem_args ha
  have hterm := List.sizeOf_lt_of_mem ht
  have harg := List.sizeOf_lt_of_mem (show a ∈ args from ha)
  simp only [Term.mk.sizeOf_spec, Factor.call.sizeOf_spec, Call.mk.sizeOf_spec] at hterm
  rw [Expr.mk.sizeOf_spec]
  omega

/-- A property holds of every expression if it passes from the arguments of an
expression's calls to the expression. -/
@[elab_as_elim]
theorem induction {P : Expr → Prop}
    (step : ∀ e : Expr, (∀ t ∈ e.terms, ∀ a ∈ t.factor.args, P a) → P e) (e : Expr) : P e :=
  step e fun _ _ht a _ha => induction step a
termination_by sizeOf e
decreasing_by exact sizeOf_lt_of_mem_args _ht _ha

/-- `a.Within e`: the expression `a` is `e` or stands inside `e` at some depth. -/
inductive Within : Expr → Expr → Prop
  /-- An expression counts as standing inside itself. -/
  | refl (e : Expr) : Within e e
  /-- What stands inside an argument stands inside the expression. -/
  | arg {a b e : Expr} {t : Term} (ht : t ∈ e.terms) (hb : b ∈ t.factor.args)
    (h : Within a b) : Within a e

/-- Standing inside is transitive. -/
theorem Within.trans {a b e : Expr} (hab : a.Within b) (hbe : b.Within e) : a.Within e := by
  induction hbe with
  | refl => exact hab
  | arg ht hb _ ih => exact .arg ht hb ih

/-- What holds of every expression inside is what holds of the expression itself
and of all that stands inside its arguments. -/
theorem forall_within_iff {P : Expr → Prop} {e : Expr} :
    (∀ a : Expr, a.Within e → P a) ↔
      P e ∧ ∀ t ∈ e.terms, ∀ b ∈ t.factor.args, ∀ a : Expr, a.Within b → P a := by
  constructor
  · intro h
    exact ⟨h e (.refl e), fun t ht b hb a ha => h a (.arg ht hb ha)⟩
  · rintro ⟨hself, hargs⟩ a ha
    cases ha with
    | refl => exact hself
    | arg ht hb h => exact hargs _ ht _ hb a h

end Expr

/-- `t.OccursIn e`: the term is a summand of `e` or of an expression inside `e`. -/
def Term.OccursIn (t : Term) (e : Expr) : Prop := ∃ a : Expr, a.Within e ∧ t ∈ a.terms

/-- What holds of every term that occurs is what holds of the summands and of
every term that occurs in their arguments. -/
theorem Term.forall_occursIn_iff {P : Term → Prop} {e : Expr} :
    (∀ t : Term, t.OccursIn e → P t) ↔
      ∀ t ∈ e.terms, P t ∧ ∀ a ∈ t.factor.args, ∀ u : Term, u.OccursIn a → P u := by
  constructor
  · intro h t ht
    refine ⟨h t ⟨e, .refl e, ht⟩, fun a ha u hu => ?_⟩
    obtain ⟨b, hb, hub⟩ := hu
    exact h u ⟨b, .arg ht ha hb, hub⟩
  · rintro h t ⟨a, ha, hta⟩
    cases ha with
    | refl => exact (h t hta).1
    | arg hu hb hab => exact (h _ hu).2 _ hb t ⟨a, hab, hta⟩

/-- A term that occurs in an argument occurs in the expression. -/
theorem Term.OccursIn.arg {t u : Term} {a e : Expr} (hu : u ∈ e.terms) (ha : a ∈ u.factor.args)
    (h : t.OccursIn a) : t.OccursIn e := by
  obtain ⟨b, hb, htb⟩ := h
  exact ⟨b, .arg hu ha hb, htb⟩

/-- A summand occurs in its sum. -/
theorem Term.OccursIn.summand {t : Term} {e : Expr} (h : t ∈ e.terms) : t.OccursIn e :=
  ⟨e, .refl e, h⟩

/-- `f.OccursIn e`: the factor is that of a term that occurs in `e`. -/
def Factor.OccursIn (f : Factor) (e : Expr) : Prop := ∃ t : Term, t.OccursIn e ∧ t.factor = f

/-- What holds of every factor that occurs is what holds of the factors of the
summands and of every factor that occurs in their arguments. -/
theorem Factor.forall_occursIn_iff {P : Factor → Prop} {e : Expr} :
    (∀ f : Factor, f.OccursIn e → P f) ↔
      ∀ t ∈ e.terms, P t.factor ∧ ∀ a ∈ t.factor.args, ∀ f : Factor, f.OccursIn a → P f := by
  constructor
  · intro h t ht
    refine ⟨h _ ⟨t, .summand ht, rfl⟩, fun a ha f hf => ?_⟩
    obtain ⟨u, hu, rfl⟩ := hf
    exact h _ ⟨u, hu.arg ht ha, rfl⟩
  · rintro h f ⟨t, ht, rfl⟩
    have hterms := Term.forall_occursIn_iff (P := fun t => P t.factor) (e := e)
    exact hterms.mpr (fun t ht => ⟨(h t ht).1, fun a ha u hu => (h t ht).2 a ha _ ⟨u, hu, rfl⟩⟩)
      t ht

/-- A factor that occurs in an argument occurs in the expression. -/
theorem Factor.OccursIn.arg {f : Factor} {t : Term} {a e : Expr} (ht : t ∈ e.terms)
    (ha : a ∈ t.factor.args) (h : f.OccursIn a) : f.OccursIn e := by
  obtain ⟨u, hu, hfactor⟩ := h
  exact ⟨u, hu.arg ht ha, hfactor⟩

/-- The factor of a summand occurs in the sum. -/
theorem Factor.OccursIn.summand {t : Term} {e : Expr} (h : t ∈ e.terms) :
    t.factor.OccursIn e :=
  ⟨t, .summand h, rfl⟩

/-- What occurs in a front of a sum occurs in the sum. -/
theorem Factor.OccursIn.front {f : Factor} {a b : Expr} (h : f.OccursIn b)
    (hba : b.terms <+: a.terms) : f.OccursIn a := by
  obtain ⟨t, ⟨d, hd, ht⟩, rfl⟩ := h
  cases hd with
  | refl => exact .summand (hba.subset ht)
  | arg hu hb hd => exact .arg (hba.subset hu) hb ⟨t, ⟨d, hd, ht⟩, rfl⟩

/-- What occurs in an expression inside another one occurs in the latter. -/
theorem Factor.OccursIn.within {f : Factor} {a e : Expr} (h : f.OccursIn a)
    (hae : a.Within e) : f.OccursIn e := by
  obtain ⟨t, ⟨d, hd, ht⟩, hfactor⟩ := h
  exact ⟨t, ⟨d, hd.trans hae, ht⟩, hfactor⟩

end AffineCalls
