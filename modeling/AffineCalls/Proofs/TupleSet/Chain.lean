import AffineCalls.Proofs.Notation.Completeness
import AffineCalls.Proofs.TupleSet.Form

/-!
# Reading chains of comparisons

A chain is an expression and links behind it, each a comparison with an expression. It is
read as its form says up to an ampersand or the closing brace of the set, as neither
starts a link.
-/

namespace AffineCalls

open Reader (taken_bind_eq_some taken_orElse_eq_some taken_blanks_bind taken_literal_eq_some)

/-! ## Comparisons -/

/-- The sign of a comparison is read where no equals sign goes on from it. -/
theorem Comparison.taken_reader (c : Comparison) {rest : List Char} (h : ∀ ds, rest ≠ '=' :: ds) :
    Comparison.reader.taken (c.render ++ rest) = some (c, rest) := by
  have hequals : ¬['='] <+: rest := fun ⟨ds, hds⟩ => h ds hds.symm
  unfold Comparison.reader
  cases c <;> simp [Comparison.render, Reader.taken_literal, List.cons_prefix_cons, hequals]

/-- What is read as a comparison is its sign. -/
theorem Comparison.eq_append_of_taken {c : Comparison} {cs rest : List Char}
    (h : Comparison.reader.taken cs = some (c, rest)) : cs = c.render ++ rest := by
  have hsign : ∀ {s : String} {d : Comparison},
      (do Reader.literal s; return d).taken cs = some (c, rest) → s.toList = d.render →
        cs = c.render ++ rest := by
    intro s d hd hs
    obtain ⟨_, cs₁, hliteral, hd⟩ := taken_bind_eq_some.mp hd
    cases hd
    rw [← hs]
    exact taken_literal_eq_some.mp hliteral
  unfold Comparison.reader at h
  rcases taken_orElse_eq_some.mp h with h | ⟨_, h⟩
  · exact hsign h rfl
  rcases taken_orElse_eq_some.mp h with h | ⟨_, h⟩
  · exact hsign h rfl
  rcases taken_orElse_eq_some.mp h with h | ⟨_, h⟩
  · exact hsign h rfl
  rcases taken_orElse_eq_some.mp h with h | ⟨_, h⟩
  · exact hsign h rfl
  · exact hsign h rfl

/-- The sign of a comparison starts with no separator and with none of the marks around
a chain. -/
theorem Comparison.render_eq_cons (c : Comparison) : ∃ d ds, c.render = d :: ds ∧
    Text.isSeparator d = false ∧ d ∈ Text.endMarks ∧ d ≠ '&' ∧ d ≠ '\x7d' := by
  cases c <;> exact ⟨_, _, rfl, by decide⟩

/-! ## Links and chains -/

/-- A chain ends where the next one or the end of the set is marked. -/
def ChainForm.Ends (cs : List Char) : Prop :=
  ∃ c ds, Text.Skip cs (c :: ds) ∧ (c = '&' ∨ c = '\x7d')

/-- What ends a chain ends an expression. -/
theorem ChainForm.Ends.sumEnd {cs : List Char} (h : ChainForm.Ends cs) : Text.SumEnd cs := by
  obtain ⟨c, ds, hskip, hc⟩ := h
  refine Text.sumEnd_of_skip ?_ hskip
  rcases hc with rfl | rfl <;> decide

/-- A link ends the expression in front of it. -/
theorem LinkForm.Spelled.sumEnd {l : LinkForm} {cs rest : List Char} (h : l.Spelled cs rest) :
    Text.SumEnd cs := by
  obtain ⟨cs₁, cs₂, hsign, _⟩ := h
  obtain ⟨d, ds, hrender, _, hd, _⟩ := l.comparison.render_eq_cons
  rw [hrender] at hsign
  exact Text.sumEnd_of_skip hd hsign

/-- No link stands where a chain ends. -/
theorem ChainForm.Ends.not_link {cs rest : List Char} (h : ChainForm.Ends cs) (l : LinkForm) :
    ¬l.Spelled cs rest := by
  rintro ⟨cs₁, cs₂, hsign, _⟩
  obtain ⟨c, ds, hskip, hc⟩ := h
  obtain ⟨d, ds', hrender, hvisible, _, hne, hne'⟩ := l.comparison.render_eq_cons
  have hc' : Text.isSeparator c = false := by rcases hc with rfl | rfl <;> decide
  rw [hrender] at hsign
  obtain ⟨rfl, _⟩ := hsign.mark_unique hskip hvisible hc'
  exact hc.elim hne hne'

/-- No equals sign stands in the gap behind a comparison. -/
theorem SumForm.Spelled.gap_ne_equals {s : SumForm} {cs cs₁ rest : List Char}
    (h : s.Spelled cs₁ rest) (hgap : Text.Skip cs cs₁) (ds : List Char) : cs ≠ '=' :: ds := by
  rintro rfl
  obtain rfl := (Text.Skip.refl _).unique hgap (Text.stops_cons.mpr (by decide)) h.stops
  exact h.ne_cons (by decide) rfl

/-- Links are read in front of what ends an expression. -/
theorem LinkForm.reads :
    (do
      Reader.blanks
      let comparison ← Comparison.reader
      Reader.blanks
      let e ← Expr.reader
      return (comparison, e) : Reader (Comparison × Expr)).Reads
      LinkForm.Spelled LinkForm.eval Text.SumEnd where
  sound := by
    intro cs rest x h
    rw [taken_blanks_bind] at h
    obtain ⟨c, cs₁, hc, h⟩ := taken_bind_eq_some.mp h
    rw [taken_blanks_bind] at h
    obtain ⟨e, cs₂, he, h⟩ := taken_bind_eq_some.mp h
    cases h
    obtain ⟨s, hs, hvalue⟩ := SumForm.derives_of_taken he
    refine ⟨⟨c, s⟩, ⟨cs₁, _, ?_, Text.skip_dropWhile cs₁, hs⟩, ?_⟩
    · exact Comparison.eq_append_of_taken hc ▸ Text.skip_dropWhile cs
    · exact LinkForm.eval_eq_ok.mpr ⟨e, hvalue, rfl⟩
  complete := by
    rintro l cs rest x ⟨cs₁, cs₂, hsign, hgap, hs⟩ hx hrest
    obtain ⟨e, he, rfl⟩ := LinkForm.eval_eq_ok.mp hx
    obtain ⟨d, ds, hrender, hvisible, _⟩ := l.comparison.render_eq_cons
    have hstop : Text.Stops Text.isSeparator (l.comparison.render ++ cs₁) := by
      rw [hrender]
      exact Text.stops_cons.mpr hvisible
    have hread := l.comparison.taken_reader (hs.gap_ne_equals hgap)
    have hvalue := hs.taken he hrest
    rw [taken_blanks_bind, hsign.dropWhile_eq_of_stops hstop]
    refine taken_bind_eq_some.mpr ⟨l.comparison, cs₁, hread, ?_⟩
    rw [taken_blanks_bind, hgap.dropWhile_eq_of_stops hs.stops]
    exact taken_bind_eq_some.mpr ⟨e, rest, hvalue, rfl⟩
  unique := by
    rintro ⟨c, s⟩ ⟨c', s'⟩ cs rest rest' ⟨cs₁, cs₂, hsign, hgap, hs⟩
      ⟨ds₁, ds₂, hsign', hgap', hs'⟩ hrest hrest'
    obtain ⟨d, ds, hrender, hvisible, _⟩ := c.render_eq_cons
    obtain ⟨d', ds', hrender', hvisible', _⟩ := c'.render_eq_cons
    have hcs : c.render ++ cs₁ = c'.render ++ ds₁ := by
      rw [hrender] at hsign ⊢
      rw [hrender'] at hsign' ⊢
      exact hsign.unique hsign' (Text.stops_cons.mpr hvisible) (Text.stops_cons.mpr hvisible')
    -- The two signs are told apart by reading them.
    have hread := c.taken_reader (hs.gap_ne_equals hgap)
    rw [hcs, c'.taken_reader (hs'.gap_ne_equals hgap')] at hread
    cases hread
    obtain rfl := hgap.unique hgap' hs.stops hs'.stops
    obtain ⟨rfl, rfl⟩ := hs.unique hs' hrest hrest'
    exact ⟨rfl, rfl⟩
  length_lt := by
    rintro l cs rest ⟨cs₁, cs₂, hsign, hgap, hs⟩
    have hlt := hs.length_lt
    have hle := hgap.length_le
    have hle' := hsign.length_le
    rw [List.length_append] at hle'
    omega

/-- Chains are read in front of what ends them. -/
theorem ChainForm.reads :
    Constraint.chainReader.Reads ChainForm.Spelled ChainForm.eval ChainForm.Ends where
  sound := by
    intro cs rest x h
    unfold Constraint.chainReader at h
    obtain ⟨first, cs₁, hfirst, h⟩ := taken_bind_eq_some.mp h
    obtain ⟨links, cs₂, hlinks, h⟩ := taken_bind_eq_some.mp h
    cases h
    unfold Reader.many1 at hlinks
    obtain ⟨link, mid, hlink, h⟩ := taken_bind_eq_some.mp hlinks
    obtain ⟨more, cs₃, hmore, h⟩ := taken_bind_eq_some.mp h
    cases h
    obtain ⟨s, hs, hvalue⟩ := SumForm.derives_of_taken hfirst
    obtain ⟨l, hl, hlvalue⟩ := LinkForm.reads.sound hlink
    obtain ⟨ls, hls, hlsvalue⟩ := LinkForm.reads.sound_many hmore
    refine ⟨⟨s, l, ls⟩, ⟨cs₁, hs, .cons hl hls⟩, ?_⟩
    have hlinks : (l :: ls).mapM LinkForm.eval = .ok (link :: more) :=
      mapM_eq_ok.mpr (.cons hlvalue (mapM_eq_ok.mp hlsvalue))
    exact ChainForm.eval_eq_ok.mpr ⟨first, hvalue, _, hlinks, rfl⟩
  complete := by
    rintro ⟨s, l, ls⟩ cs rest x ⟨mid, hs, hlinks⟩ hx hrest
    obtain ⟨first, hvalue, links, hvalues, rfl⟩ := ChainForm.eval_eq_ok.mp hx
    have hfirst := hs.taken hvalue (hlinks.follows LinkForm.Spelled.sumEnd hrest.sumEnd)
    unfold Constraint.chainReader Reader.many1
    refine taken_bind_eq_some.mpr ⟨first, mid, hfirst, ?_⟩
    cases hlinks with
    | @cons _ _ _ mid' _ hl hls =>
      obtain ⟨link, more, hlvalue, hlsvalue, rfl⟩ :=
        List.forall₂_cons_left_iff.mp (mapM_eq_ok.mp hvalues)
      have hlink := LinkForm.reads.complete hl hlvalue
        (hls.follows LinkForm.Spelled.sumEnd hrest.sumEnd)
      have hmore := LinkForm.reads.complete_many LinkForm.Spelled.sumEnd hls
        (mapM_eq_ok.mpr hlsvalue) hrest.sumEnd fun l _ => hrest.not_link l
      refine taken_bind_eq_some.mpr ⟨link :: more, rest, ?_, rfl⟩
      refine taken_bind_eq_some.mpr ⟨link, mid', hlink, ?_⟩
      exact taken_bind_eq_some.mpr ⟨more, rest, hmore, rfl⟩
  unique := by
    rintro ⟨s, l, ls⟩ ⟨s', l', ls'⟩ cs rest rest' ⟨mid, hs, hlinks⟩ ⟨mid', hs', hlinks'⟩ hrest
      hrest'
    obtain ⟨rfl, rfl⟩ := hs.unique hs' (hlinks.follows LinkForm.Spelled.sumEnd hrest.sumEnd)
      (hlinks'.follows LinkForm.Spelled.sumEnd hrest'.sumEnd)
    obtain ⟨hsame, rfl⟩ := LinkForm.reads.unique_many LinkForm.Spelled.sumEnd hlinks hlinks'
      hrest.sumEnd hrest'.sumEnd (fun l _ => hrest.not_link l) fun l _ => hrest'.not_link l
    cases hsame
    exact ⟨rfl, rfl⟩
  length_lt := by
    rintro c cs rest ⟨mid, hs, hlinks⟩
    exact Nat.lt_of_le_of_lt (LinkForm.reads.length_le_many hlinks) hs.length_lt

/-- Ampersands and the closing brace end chains. -/
theorem ChainForm.marks : Text.Marks ChainForm.Spelled ChainForm.Ends '&' '\x7d' where
  mark_visible := by decide
  close_visible := by decide
  mark_ne_close := by decide
  start := by
    rintro a cs rest ⟨mid, hs, _⟩
    obtain ⟨c, ds, rfl, hc⟩ := hs.exists_cons
    refine ⟨c, ds, rfl, Text.stops_cons.mp hs.stops, ?_⟩
    rintro rfl
    exact absurd hc (by decide)
  ends := by
    intro c cs ds hc h
    exact ⟨c, ds, h, hc⟩

end AffineCalls
