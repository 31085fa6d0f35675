import AffineCalls.Proofs.CallTable.Abstraction
import AffineCalls.Proofs.CallTable.History
import AffineCalls.Proofs.Notation.RoundTrip

/-!
# Placeholders as symbols of texts

A placeholder is named by the key of its call, which is an identifier as soon as the name of
the call is one, and never the spelling of a position. So a placeholder may be written down and
is read back as the symbol that it is. What abstraction makes of a plain expression consists of
such symbols and of those of the expression, and is read back unless adding up has led to the
least coefficient.
-/

namespace AffineCalls

/-! ## One placeholder -/

/-- The sum of a placeholder alone has it as its only summand. -/
theorem Placeholder.ofTerm_term (p : Placeholder) :
    Expr.ofTerm p.term = ⟨[⟨1, .symbol p.name⟩]⟩ :=
  if_neg Coeff.one_ne_zero

/-- A placeholder with a name is read back from its text. -/
theorem Placeholder.parse_text_term {p : Placeholder} (h : Text.IsName p.name) :
    Expr.parse p.term.text = .ok (Expr.ofTerm p.term) := by
  have hplain : (Expr.ofTerm p.term).Plain := by
    rw [p.ofTerm_term]
    exact Expr.plain_singleton Coeff.one_ne_zero h (List.forall_mem_nil _)
  have hone : (1 : Coeff).val ≠ -9223372036854775808 := by decide
  apply hplain.parse_text_eq_self_iff.mpr
  rw [p.ofTerm_term]
  exact Expr.aboveLeast_singleton hone (List.forall_mem_nil _)

/-! ## Abstracted expressions -/

/-- In an expression without calls, only the coefficients of the summands count. -/
theorem Expr.aboveLeast_iff_of_hasCalls {e : Expr} (h : e.hasCalls = false) :
    e.AboveLeast ↔ ∀ t ∈ e.terms, t.coeff.val ≠ -9223372036854775808 := by
  rw [Expr.aboveLeast_iff]
  refine forall₂_congr fun t ht => and_iff_left ?_
  have hcall := Expr.hasCalls_eq_false_iff.mp h t ht
  intro a ha
  obtain ⟨c, hc, _⟩ := Factor.exists_call_of_mem_args ha
  rw [hc] at hcall
  cases hcall

namespace CallTable

/-- What any table makes of a plain expression is plain and has no calls. -/
theorem plain_of_abstract {os : List Operation} {e r : Expr} (he : e.Plain)
    (h : ((reached os).abstract e).1 = .ok r) : r.Plain ∧ r.hasCalls = false := by
  obtain ⟨hresult, _⟩ := (wellKept_reached os).abstract (e := e) fun _ _ _ _ => trivial
  rw [hresult] at h
  exact ⟨he.keyed h, (Expr.flat_of_keyed h).hasCalls⟩

/-- The key of a call whose name is an identifier is an identifier, whatever its arguments are,
and it is not the mark of positions followed by digits only. In every table the placeholder that
the call is given bears this name, and the text of the placeholder is read back. What abstraction
makes of a plain expression is plain and without calls, and its text is read back exactly if no
coefficient of it is the least one. -/
theorem placeholders_readable :
    (∀ c : Call, Text.IsIdentifier c.name.toList →
      Text.IsIdentifier c.key.toList ∧
      (∀ ds : List Char, (∀ d ∈ ds, d.isDigit) → c.key.toList ≠ "__tv".toList ++ ds) ∧
      ∀ os, ((reached os).insert c).1.name = c.key ∧
        Expr.parse ((reached os).insert c).1.term.text =
          .ok (.ofTerm ((reached os).insert c).1.term)) ∧
    ∀ os (e r : Expr), e.Plain → ((reached os).abstract e).1 = .ok r →
      r.Plain ∧ r.hasCalls = false ∧
      (Expr.parse r.text = .ok r ↔ ∀ t ∈ r.terms, t.coeff.val ≠ -9223372036854775808) := by
  constructor
  · intro c hc
    refine ⟨Call.isIdentifier_key hc, fun ds hds => c.key_ne_mark_append hds, fun os => ?_⟩
    have hname := (wellKept_reached os).name_insert c
    refine ⟨hname, Placeholder.parse_text_term ?_⟩
    rw [hname]
    exact Call.isName_key hc
  · intro os e r he h
    obtain ⟨hplain, hcalls⟩ := plain_of_abstract he h
    refine ⟨hplain, hcalls, ?_⟩
    rw [hplain.parse_text_eq_self_iff, Expr.aboveLeast_iff_of_hasCalls hcalls]

/-- The placeholder of a call of `__tv0` on `é` is read back. A symbol spelled like the placeholder
of `f(x)` is merged with it, here to the least coefficient, and this sum is not read back. -/
theorem placeholders_readable_least :
    Expr.parse "____tv0_L_ue9__R" = .ok ⟨[⟨1, .symbol "____tv0_L_ue9__R"⟩]⟩ ∧
      ∃ e r : Expr, e.text = "-9223372036854775807*f(x) - f_Lx_R" ∧
        r.text = "-9223372036854775808*f_Lx_R" ∧ ((∅ : CallTable).abstract e).1 = .ok r ∧
        r.Plain ∧ Expr.parse r.text ≠ .ok r := by
  obtain ⟨hkeys, habstract⟩ := placeholders_readable
  constructor
  · have hname : Text.IsIdentifier "__tv0".toList := by decide
    obtain ⟨_, _, hread⟩ := hkeys ⟨"__tv0", [⟨[⟨1, .symbol "é"⟩]⟩]⟩ hname
    have hgiven : ((reached []).insert ⟨"__tv0", [⟨[⟨1, .symbol "é"⟩]⟩]⟩).1 =
        ⟨"____tv0_L_ue9__R"⟩ := by decide
    have htext : (Placeholder.mk "____tv0_L_ue9__R").term.text = "____tv0_L_ue9__R" := by decide
    obtain ⟨_, hparse⟩ := hread []
    rw [hgiven, htext, Placeholder.ofTerm_term] at hparse
    exact hparse
  · have hx : (Expr.mk [⟨1, .symbol "x"⟩]).Plain :=
      Expr.plain_singleton Coeff.one_ne_zero (by decide : Text.IsName "x") (List.forall_mem_nil _)
    have he : (Expr.mk [⟨⟨-9223372036854775807, by decide, by decide⟩,
        .call ⟨"f", [⟨[⟨1, .symbol "x"⟩]⟩]⟩⟩, ⟨.minusOne, .symbol "f_Lx_R"⟩]).Plain := by
      refine Expr.plain_iff.mpr ⟨⟨by decide, by decide⟩, List.forall_mem_cons.mpr ⟨?_, ?_⟩⟩
      · exact ⟨(by decide : Text.IsName "f"), List.forall_mem_singleton.mpr hx⟩
      · exact List.forall_mem_singleton.mpr ⟨(by decide : Text.IsName "f_Lx_R"), nofun⟩
    have hr : ((reached []).abstract ⟨[⟨⟨-9223372036854775807, by decide, by decide⟩,
        .call ⟨"f", [⟨[⟨1, .symbol "x"⟩]⟩]⟩⟩, ⟨.minusOne, .symbol "f_Lx_R"⟩]⟩).1 =
        .ok ⟨[⟨⟨-9223372036854775808, by decide, by decide⟩, .symbol "f_Lx_R"⟩]⟩ := by
      decide +kernel
    obtain ⟨hplain, _, hread⟩ := habstract [] _ _ he hr
    refine ⟨_, _, by decide, by decide, hr, hplain, fun h => ?_⟩
    exact hread.mp h _ List.mem_cons_self rfl

end CallTable

end AffineCalls
