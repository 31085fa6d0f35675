import AffineCalls.Proofs.Expr.Sum
import AffineCalls.Proofs.Text.Name

/-!
# Normal and plain expressions

An expression is normal if at every depth no coefficient is zero and no factor
repeats. It is plain if moreover every symbol and function name in it can be
written down and read back as what it is.
-/

namespace AffineCalls

/-- Whether a factor itself, apart from its arguments, has a spelling of its own:
names are names, and positions are 64-bit numbers. -/
def Factor.Lexical : Factor → Prop
  | .one => True
  | .position i => i < Reader.positionBound
  | .symbol name => Text.IsName name
  | .call c => Text.IsName c.name

namespace Expr

/-- At every depth, no summand has the coefficient zero and no two summands of one
sum have the same factor. -/
structure Normal (e : Expr) : Prop where
  /-- No summand at any depth has the coefficient zero. -/
  nonzero : ∀ a : Expr, a.Within e → ∀ t ∈ a.terms, t.coeff ≠ 0
  /-- No two summands of one sum at any depth have the same factor. -/
  distinct : ∀ a : Expr, a.Within e → (a.terms.map (·.factor)).Nodup

/-- Every factor at every depth has a spelling of its own. -/
def Lexical (e : Expr) : Prop := ∀ f : Factor, f.OccursIn e → f.Lexical

/-- No coefficient at any depth is the least one, whose absolute value is not a coefficient. -/
def AboveLeast (e : Expr) : Prop :=
  ∀ t : Term, t.OccursIn e → t.coeff.val ≠ -9223372036854775808

/-- A normal expression whose factors all have a spelling of their own. -/
structure Plain (e : Expr) : Prop extends e.Normal where
  /-- Every factor at every depth has a spelling of its own. -/
  lexical : e.Lexical

/-- A sum is normal if it is merged and its arguments are normal. -/
theorem normal_iff {e : Expr} :
    e.Normal ↔ Term.Merged e.terms ∧ ∀ t ∈ e.terms, ∀ a ∈ t.factor.args, a.Normal := by
  constructor
  · intro h
    exact ⟨⟨h.nonzero e (.refl e), h.distinct e (.refl e)⟩, fun t ht a ha =>
      ⟨fun b hb => h.nonzero b (.arg ht ha hb), fun b hb => h.distinct b (.arg ht ha hb)⟩⟩
  · rintro ⟨hmerged, hargs⟩
    constructor
    · exact forall_within_iff.mpr ⟨hmerged.nonzero, fun t ht a ha => (hargs t ht a ha).nonzero⟩
    · exact forall_within_iff.mpr ⟨hmerged.distinct, fun t ht a ha => (hargs t ht a ha).distinct⟩

/-- The factors at every depth are those of the summands and of the arguments. -/
theorem lexical_iff {e : Expr} :
    e.Lexical ↔ ∀ t ∈ e.terms, t.factor.Lexical ∧ ∀ a ∈ t.factor.args, a.Lexical :=
  Factor.forall_occursIn_iff

/-- The coefficients at every depth are those of the summands and of the arguments. -/
theorem aboveLeast_iff {e : Expr} :
    e.AboveLeast ↔ ∀ t ∈ e.terms, t.coeff.val ≠ -9223372036854775808 ∧
      ∀ a ∈ t.factor.args, a.AboveLeast :=
  Term.forall_occursIn_iff

/-- A sum is normal and has factors of one kind at every depth if it is merged, its factors are
of this kind and its arguments are likewise. -/
theorem normal_and_factors_iff {Q : Factor → Prop} {e : Expr} :
    (e.Normal ∧ ∀ f : Factor, f.OccursIn e → Q f) ↔ Term.Merged e.terms ∧
      ∀ t ∈ e.terms, Q t.factor ∧
        ∀ a ∈ t.factor.args, a.Normal ∧ ∀ f : Factor, f.OccursIn a → Q f := by
  rw [normal_iff, Factor.forall_occursIn_iff]
  constructor
  · rintro ⟨⟨hmerged, hargs⟩, hfactors⟩
    exact ⟨hmerged, fun t ht =>
      ⟨(hfactors t ht).1, fun a ha => ⟨hargs t ht a ha, (hfactors t ht).2 a ha⟩⟩⟩
  · rintro ⟨hmerged, hterms⟩
    exact ⟨⟨hmerged, fun t ht a ha => ((hterms t ht).2 a ha).1⟩, fun t ht =>
      ⟨(hterms t ht).1, fun a ha => ((hterms t ht).2 a ha).2⟩⟩

/-- A sum is plain if it is merged, its factors have spellings and its arguments
are plain. -/
theorem plain_iff {e : Expr} :
    e.Plain ↔ Term.Merged e.terms ∧
      ∀ t ∈ e.terms, t.factor.Lexical ∧ ∀ a ∈ t.factor.args, a.Plain := by
  have hplain : ∀ a : Expr, a.Plain ↔ a.Normal ∧ ∀ f : Factor, f.OccursIn a → f.Lexical :=
    fun a => ⟨fun h => ⟨h.toNormal, h.lexical⟩, fun h => ⟨h.1, h.2⟩⟩
  simp only [hplain]
  exact normal_and_factors_iff

/-- One plain summand makes a plain sum. -/
theorem plain_singleton {t : Term} (hzero : t.coeff ≠ 0) (hfactor : t.factor.Lexical)
    (hargs : ∀ a ∈ t.factor.args, a.Plain) : (mk [t]).Plain :=
  plain_iff.mpr ⟨Term.merged_cons.mpr ⟨hzero, List.not_mem_nil, .nil⟩,
    List.forall_mem_singleton.mpr ⟨hfactor, hargs⟩⟩

/-- A sum of one summand is above the least coefficient if the summand and its arguments are. -/
theorem aboveLeast_singleton {t : Term} (hcoeff : t.coeff.val ≠ -9223372036854775808)
    (hargs : ∀ a ∈ t.factor.args, a.AboveLeast) : (mk [t]).AboveLeast :=
  aboveLeast_iff.mpr (List.forall_mem_singleton.mpr ⟨hcoeff, hargs⟩)

/-- A multiple of a named function's value at a named symbol is plain. -/
theorem plain_call_symbol {c : Coeff} {f x : String} (hc : c ≠ 0) (hf : Text.IsName f)
    (hx : Text.IsName x) : (mk [⟨c, .call ⟨f, [⟨[⟨1, .symbol x⟩]⟩]⟩⟩]).Plain := by
  have hargument : (mk [⟨1, .symbol x⟩]).Plain :=
    plain_singleton Coeff.one_ne_zero hx (List.forall_mem_nil _)
  exact plain_singleton hc hf (List.forall_mem_singleton.mpr hargument)

end Expr

/-- A call whose name is a name and whose arguments are plain. -/
structure Call.Plain (c : Call) : Prop where
  /-- The function's name is a name. -/
  name : Text.IsName c.name
  /-- The arguments are plain. -/
  args : ∀ a ∈ c.args, a.Plain

namespace Expr

/-- What stands inside a plain expression is plain. -/
theorem Plain.within {a e : Expr} (he : e.Plain) (h : a.Within e) : a.Plain := by
  induction h with
  | refl => exact he
  | arg ht hb _ ih => exact ih (((plain_iff.mp he).2 _ ht).2 _ hb)

/-- The calls inside a plain expression are plain. -/
theorem Plain.call {e : Expr} (he : e.Plain) {c : Call} (h : (Factor.call c).OccursIn e) :
    c.Plain := by
  obtain ⟨t, ⟨a, ha, ht⟩, hc⟩ := h
  obtain ⟨hlexical, hargs⟩ := (plain_iff.mp (he.within ha)).2 t ht
  rw [hc] at hlexical hargs
  exact ⟨hlexical, hargs⟩

/-- A front of a plain sum is plain. -/
theorem Plain.front {b a : Expr} (ha : a.Plain) (h : b.terms <+: a.terms) : b.Plain := by
  obtain ⟨⟨hnonzero, hdistinct⟩, hterms⟩ := plain_iff.mp ha
  have hsub := h.subset
  refine plain_iff.mpr ⟨⟨fun t ht => hnonzero t (hsub ht), ?_⟩, fun t ht => hterms t (hsub ht)⟩
  exact hdistinct.sublist (h.sublist.map _)

end Expr

end AffineCalls
