import AffineCalls.Proofs.Expr.Key
import AffineCalls.Proofs.Notation.RoundTrip
import AffineCalls.Proofs.Text.Decode

/-!
# Calls recovered from their keys

A key is read back as the text of its call without the spaces. Spaces stand only between
tokens that are told apart without them, so this text is still read as the call.
-/

namespace AffineCalls

open Text (withoutSpaces)

/-- The text of a plain expression is read as the expression also without its spaces, if
every coefficient is above the least. -/
theorem Expr.Plain.parse_withoutSpaces {e : Expr} (he : e.Plain) (hleast : e.AboveLeast) :
    Expr.parse (String.ofList (withoutSpaces e.text.toList)) = .ok e := by
  have hkeep : ∀ c, c ≠ ' ' → (c != ' ') = true := fun c hc => bne_iff_ne.mpr hc
  rw [Expr.text, String.toList_ofList]
  apply (Expr.parse_filter_eq_ok hkeep he.lexical).mpr
  exact Expr.eval_form he.toNormal hleast

/-- The sum of a call alone has the call as its only summand. -/
theorem Call.ofTerm_call (c : Call) : Expr.ofTerm (.ofFactor (.call c)) = ⟨[⟨1, .call c⟩]⟩ :=
  if_neg Coeff.one_ne_zero

/-- The sum of a call alone is written like the call. -/
theorem Call.text_ofTerm (c : Call) : (Expr.ofTerm (.ofFactor (.call c))).text = c.text := by
  rw [Call.ofTerm_call]
  simp [Expr.text, Expr.render, Term.renderEach, Term.renderSigned, summandText, joinSigned,
    Factor.render, Call.text]

/-- The sum of a plain call alone is plain. -/
theorem Call.Plain.ofTerm {c : Call} (hc : c.Plain) : (Expr.ofTerm (.ofFactor (.call c))).Plain := by
  rw [Call.ofTerm_call]
  exact Expr.plain_singleton Coeff.one_ne_zero hc.name hc.args

/-- The key of a plain call without least coefficients is read back as the text of the call
without its spaces, and this text is read as the sum of the call alone. -/
theorem Call.parse_decode_key {c : Call} (hc : c.Plain) (hleast : ∀ a ∈ c.args, a.AboveLeast) :
    ∃ d : String, Text.decode c.key = .ok d ∧ d.toList = withoutSpaces c.text.toList ∧
      Expr.parse d = .ok (.ofTerm (.ofFactor (.call c))) := by
  have hdecode : Text.decode c.key = .ok (String.ofList (withoutSpaces c.text.toList)) := by
    rw [Text.decode_eq_ok_iff, Call.toList_key, Text.unescape_escape, Call.text,
      String.toList_ofList, String.toList_ofList]
  have habove : (Expr.ofTerm (.ofFactor (.call c))).AboveLeast := by
    have hone : (1 : Coeff).val ≠ -9223372036854775808 := by decide
    rw [Call.ofTerm_call]
    exact Expr.aboveLeast_singleton hone hleast
  have hread := hc.ofTerm.parse_withoutSpaces habove
  rw [Call.text_ofTerm] at hread
  exact ⟨_, hdecode, String.toList_ofList, hread⟩

/-- The key `f_L_M2_Tg_Lx_R_C0_R` leads to `f(-2*g(x), 0)` by way of `f(-2*g(x),0)`. -/
theorem Call.parse_decode_key_nested :
    ∃ c : Call, c.text = "f(-2*g(x), 0)" ∧ c.key = "f_L_M2_Tg_Lx_R_C0_R" ∧
      Text.decode c.key = .ok "f(-2*g(x),0)" ∧
        Expr.parse "f(-2*g(x),0)" = .ok (.ofTerm (.ofFactor (.call c))) := by
  have hfirst := Expr.plain_call_symbol (c := ⟨-2, by decide, by decide⟩) (by decide)
    (by decide : Text.IsName "g") (by decide : Text.IsName "x")
  have hzero : (0 : Expr).Plain := Expr.plain_iff.mpr ⟨.nil, nofun⟩
  have hplain : Call.Plain ⟨"f", [_, 0]⟩ :=
    ⟨by decide, List.forall_mem_cons.mpr ⟨hfirst, List.forall_mem_singleton.mpr hzero⟩⟩
  have hsymbol : (Expr.mk [⟨1, .symbol "x"⟩]).AboveLeast :=
    Expr.aboveLeast_singleton (by decide) (List.forall_mem_nil _)
  have hleast : Expr.AboveLeast
      ⟨[⟨⟨-2, by decide, by decide⟩, .call ⟨"g", [⟨[⟨1, .symbol "x"⟩]⟩]⟩⟩]⟩ :=
    Expr.aboveLeast_singleton (by decide) (List.forall_mem_singleton.mpr hsymbol)
  have hleast' : (0 : Expr).AboveLeast := Expr.aboveLeast_iff.mpr nofun
  obtain ⟨d, hdecode, hd, hread⟩ := Call.parse_decode_key hplain
    (List.forall_mem_cons.mpr ⟨hleast, List.forall_mem_singleton.mpr hleast'⟩)
  obtain rfl : d = "f(-2*g(x),0)" := by
    rw [← String.toList_inj, hd]
    decide
  exact ⟨_, rfl, by decide, hdecode, hread⟩

end AffineCalls
