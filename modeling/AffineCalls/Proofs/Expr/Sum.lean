import AffineCalls.Expr.Sum
import AffineCalls.Proofs.Expr.Depth
import AffineCalls.Proofs.Outcome

/-!
# What adding a term does

Adding a term either updates the one summand with the same factor or appends a
summand. Everything about sums is derived from this case distinction: which factors
a sum has, that it stays free of zero coefficients and of repeated factors, and
that terms with distinct factors are merely listed.
-/

namespace AffineCalls

/-- Adding a term to a nonempty list of summands either merges it with the first
summand or goes on behind it. -/
theorem Term.addTo_cons_eq_ok {t u : Term} {us vs : List Term} :
    t.addTo (u :: us) = .ok vs ↔
      (u.factor = t.factor ∧ ∃ c, u.coeff.add t.coeff = .ok c ∧
        vs = if c = 0 then us else u.withCoeff c :: us) ∨
      (u.factor ≠ t.factor ∧ ∃ ws, t.addTo us = .ok ws ∧ vs = u :: ws) := by
  rw [Term.addTo]
  by_cases h : u.factor = t.factor
  · rw [if_pos h, bind_eq_ok]
    constructor
    · rintro ⟨c, hc, hvs⟩
      exact .inl ⟨h, c, hc, (Except.ok.inj hvs).symm⟩
    · rintro (⟨_, c, hc, rfl⟩ | ⟨hne, _⟩)
      · exact ⟨c, hc, rfl⟩
      · exact absurd h hne
  · rw [if_neg h, bind_eq_ok]
    constructor
    · rintro ⟨ws, hws, hvs⟩
      exact .inr ⟨h, ws, hws, (Except.ok.inj hvs).symm⟩
    · rintro (⟨heq, _⟩ | ⟨_, ws, hws, rfl⟩)
      · exact absurd heq h
      · exact ⟨ws, hws, rfl⟩

/-- A term with a new factor goes to the end. -/
theorem Term.addTo_of_notMem {t : Term} {us : List Term} (h : t.factor ∉ us.map (·.factor)) :
    t.addTo us = .ok (us ++ [t]) := by
  induction us with
  | nil => rfl
  | cons u us ih =>
    rw [List.map_cons, List.mem_cons, not_or] at h
    rw [Term.addTo_cons_eq_ok]
    exact .inr ⟨Ne.symm h.1, _, ih h.2, rfl⟩

/-- Adding a term keeps the order of the factors; one of them may disappear, or a new one goes
to the end. -/
theorem Term.sublist_factors_addTo {t : Term} {us vs : List Term} (h : t.addTo us = .ok vs) :
    (vs.map (·.factor)).Sublist (us.map (·.factor)) ∨
      (t.factor ∉ us.map (·.factor) ∧ vs = us ++ [t]) := by
  induction us generalizing vs with
  | nil =>
    cases h
    exact .inr ⟨List.not_mem_nil, rfl⟩
  | cons u us ih =>
    rcases Term.addTo_cons_eq_ok.mp h with ⟨_, c, _, rfl⟩ | ⟨hne, ws, hws, rfl⟩
    · left
      by_cases hzero : c = 0
      · rw [if_pos hzero]
        exact List.sublist_cons_self _ _
      · rw [if_neg hzero]
        exact List.Sublist.refl _
    · rcases ih hws with hsub | ⟨hnot, rfl⟩
      · exact .inl (hsub.cons_cons _)
      · refine .inr ⟨?_, rfl⟩
        rw [List.map_cons, List.mem_cons, not_or]
        exact ⟨Ne.symm hne, hnot⟩

/-- Adding a term brings in no factor but its own. -/
theorem Term.mem_factors_of_addTo {t v : Term} {us vs : List Term} (h : t.addTo us = .ok vs)
    (hv : v ∈ vs) : v.factor = t.factor ∨ v.factor ∈ us.map (·.factor) := by
  rcases Term.sublist_factors_addTo h with hsub | ⟨_, rfl⟩
  · exact .inr (hsub.subset (List.mem_map_of_mem hv))
  · rcases List.mem_append.mp hv with hv | hv
    · exact .inr (List.mem_map_of_mem hv)
    · exact .inl (congrArg _ (List.mem_singleton.mp hv))

/-- A list of summands without zero coefficients and without repeated factors. -/
structure Term.Merged (ts : List Term) : Prop where
  /-- No coefficient is zero. -/
  nonzero : ∀ t ∈ ts, t.coeff ≠ 0
  /-- No two summands have the same factor. -/
  distinct : (ts.map (·.factor)).Nodup

/-- The empty list of summands is merged. -/
theorem Term.Merged.nil : Term.Merged [] := ⟨nofun, List.nodup_nil⟩

/-- A list is merged if its first summand fits in front of a merged list. -/
theorem Term.merged_cons {t : Term} {ts : List Term} :
    Term.Merged (t :: ts) ↔ t.coeff ≠ 0 ∧ t.factor ∉ ts.map (·.factor) ∧ Term.Merged ts := by
  constructor
  · rintro ⟨hnonzero, hdistinct⟩
    obtain ⟨hnot, hnodup⟩ := List.nodup_cons.mp hdistinct
    exact ⟨hnonzero t List.mem_cons_self, hnot,
      ⟨fun u hu => hnonzero u (List.mem_cons_of_mem t hu), hnodup⟩⟩
  · rintro ⟨hcoeff, hnot, hts⟩
    exact ⟨List.forall_mem_cons.mpr ⟨hcoeff, hts.nonzero⟩,
      List.nodup_cons.mpr ⟨hnot, hts.distinct⟩⟩

/-- Adding a term that is not zero keeps a list of summands merged. -/
theorem Term.Merged.addTo {t : Term} {us vs : List Term} (hus : Term.Merged us)
    (ht : t.coeff ≠ 0) (h : t.addTo us = .ok vs) : Term.Merged vs := by
  induction us generalizing vs with
  | nil =>
    cases h
    exact Term.merged_cons.mpr ⟨ht, List.not_mem_nil, .nil⟩
  | cons u us ih =>
    obtain ⟨hu, hnot, hmerged⟩ := Term.merged_cons.mp hus
    rcases Term.addTo_cons_eq_ok.mp h with ⟨_, c, _, rfl⟩ | ⟨hne, ws, hws, rfl⟩
    · by_cases hc : c = 0
      · rw [if_pos hc]
        exact hmerged
      · rw [if_neg hc]
        exact Term.merged_cons.mpr ⟨hc, hnot, hmerged⟩
    · refine Term.merged_cons.mpr ⟨hu, fun hmem => ?_, ih hmerged hws⟩
      obtain ⟨w, hw, hfactor⟩ := List.mem_map.mp hmem
      rcases Term.mem_factors_of_addTo hws hw with heq | hold
      · exact hne (hfactor.symm.trans heq)
      · exact hnot (hfactor ▸ hold)

namespace Expr

/-- Adding a term leaves the sum alone if the coefficient is zero, and otherwise
adds the term to the summands. -/
theorem addTerm_eq_ok {e s : Expr} {t : Term} :
    e.addTerm t = .ok s ↔
      (t.coeff = 0 ∧ s = e) ∨ (t.coeff ≠ 0 ∧ t.addTo e.terms = .ok s.terms) := by
  rw [addTerm_eq]
  by_cases h : t.coeff = 0
  · simp [h, eq_comm]
  · rw [if_neg h]
    cases t.addTo e.terms with
    | error _ => simp [Except.map, h]
    | ok us =>
      obtain ⟨ss⟩ := s
      simp [Except.map, h]

/-- Adding a term keeps the order of the factors; one of them may disappear, or a new one goes
to the end. -/
theorem sublist_factors_addTerm {e s : Expr} {t : Term} (h : e.addTerm t = .ok s) :
    (s.terms.map (·.factor)).Sublist (e.terms.map (·.factor)) ∨
      (t.factor ∉ e.terms.map (·.factor) ∧ t.coeff ≠ 0 ∧ s.terms = e.terms ++ [t]) := by
  rcases addTerm_eq_ok.mp h with ⟨_, rfl⟩ | ⟨hzero, h⟩
  · exact .inl (List.Sublist.refl _)
  · exact (Term.sublist_factors_addTo h).imp_right fun ⟨hnot, hterms⟩ => ⟨hnot, hzero, hterms⟩

/-- Adding a term brings in no factor but its own. -/
theorem mem_factors_of_addTerm {e s : Expr} {t v : Term} (h : e.addTerm t = .ok s)
    (hv : v ∈ s.terms) : v.factor = t.factor ∨ v.factor ∈ e.terms.map (·.factor) := by
  rcases addTerm_eq_ok.mp h with ⟨_, rfl⟩ | ⟨_, h⟩
  · exact .inr (List.mem_map_of_mem hv)
  · exact Term.mem_factors_of_addTo h hv

/-- Adding a term to a merged sum gives a merged sum. -/
theorem merged_addTerm {e s : Expr} {t : Term} (he : Term.Merged e.terms)
    (h : e.addTerm t = .ok s) : Term.Merged s.terms := by
  rcases addTerm_eq_ok.mp h with ⟨_, rfl⟩ | ⟨ht, h⟩
  · exact he
  · exact he.addTo ht h

/-- A term with a new factor and a coefficient other than zero becomes the last summand. -/
theorem addTerm_of_notMem {us : List Term} {t : Term} (ht : t.coeff ≠ 0)
    (h : t.factor ∉ us.map (·.factor)) : (mk us).addTerm t = .ok ⟨us ++ [t]⟩ :=
  addTerm_eq_ok.mpr (.inr ⟨ht, Term.addTo_of_notMem h⟩)

/-- What adding one term to a sum preserves, adding a list of terms preserves. -/
theorem foldlM_addTerm_induction {P : Expr → Prop} {ts : List Term} {e s : Expr} (he : P e)
    (step : ∀ t ∈ ts, ∀ e s : Expr, P e → e.addTerm t = .ok s → P s)
    (h : ts.foldlM addTerm e = .ok s) : P s := by
  induction ts generalizing e with
  | nil => exact Except.ok.inj h ▸ he
  | cons t ts ih =>
    rw [List.foldlM_cons, bind_eq_ok] at h
    obtain ⟨e', he', h⟩ := h
    exact ih (step t List.mem_cons_self e e' he he')
      (fun u hu => step u (List.mem_cons_of_mem t hu)) h

/-- Every sum is merged. -/
theorem merged_of_sum {ts : List Term} {e : Expr} (h : sum ts = .ok e) :
    Term.Merged e.terms :=
  foldlM_addTerm_induction (P := fun e => Term.Merged e.terms) .nil
    (fun _ _ _ _ he ht => merged_addTerm he ht) h

/-- The factors of a sum are among those of its terms. -/
theorem mem_factors_of_sum {ts : List Term} {e : Expr} (h : sum ts = .ok e) {v : Term}
    (hv : v ∈ e.terms) : ∃ t ∈ ts, t.factor = v.factor := by
  have hall : ∀ v ∈ e.terms, v.factor ∈ ts.map (·.factor) := by
    refine foldlM_addTerm_induction (P := fun e => ∀ v ∈ e.terms, v.factor ∈ ts.map (·.factor))
      (fun _ hv => (List.not_mem_nil hv).elim) (fun t ht e s he hs v hv => ?_) h
    rcases mem_factors_of_addTerm hs hv with heq | hold
    · exact heq ▸ List.mem_map_of_mem ht
    · obtain ⟨u, hu, hfactor⟩ := List.mem_map.mp hold
      exact hfactor ▸ he u hu
  exact List.mem_map.mp (hall v hv)

/-- Terms that fit behind a list of summands are appended to it. -/
theorem foldlM_addTerm_of_merged {us ts : List Term} (h : Term.Merged (us ++ ts)) :
    ts.foldlM addTerm (mk us) = .ok ⟨us ++ ts⟩ := by
  induction ts generalizing us with
  | nil => rw [List.append_nil]; rfl
  | cons t ts ih =>
    rw [List.append_cons] at h ⊢
    have ht : t.coeff ≠ 0 := h.nonzero t (by simp)
    have hnot : t.factor ∉ us.map (·.factor) := by
      have hdistinct := h.distinct
      rw [List.map_append, List.map_append, List.append_assoc] at hdistinct
      intro hmem
      exact (List.nodup_append.mp hdistinct).2.2 _ hmem _ (by simp) rfl
    rw [List.foldlM_cons, bind_eq_ok]
    exact ⟨_, addTerm_of_notMem ht hnot, ih h⟩

/-- A merged sum is the sum of its summands. -/
theorem sum_of_merged {e : Expr} (h : Term.Merged e.terms) : sum e.terms = .ok e := by
  obtain ⟨ts⟩ := e
  exact @foldlM_addTerm_of_merged [] ts h

/-! ## Other ways to form a sum -/

/-- A multiple by zero is the empty sum; otherwise every summand is multiplied in place. -/
theorem scale_eq_ok {c : Coeff} {e s : Expr} :
    e.scale c = .ok s ↔ (c = 0 ∧ s = 0) ∨
      (c ≠ 0 ∧ List.Forall₂ (fun t u => t.coeff.mul c = .ok u.coeff ∧ u.factor = t.factor)
        e.terms s.terms) := by
  rw [scale_eq]
  by_cases hc : c = 0
  · simp [hc, eq_comm]
  · obtain ⟨us⟩ := s
    have hstep : ∀ t u : Term, (do return t.withCoeff (← t.coeff.mul c)) = Except.ok u ↔
        t.coeff.mul c = .ok u.coeff ∧ u.factor = t.factor := by
      rintro ⟨d, f⟩ ⟨d', f'⟩
      rw [bind_pure_eq_ok]
      simp [Term.withCoeff, eq_comm]
    rw [if_neg hc, bind_pure_eq_ok]
    constructor
    · rintro ⟨_, h, ⟨⟩⟩
      exact .inr ⟨hc, (mapM_eq_ok.mp h).imp fun t u => (hstep t u).mp⟩
    · rintro (⟨hzero, _⟩ | ⟨_, h⟩)
      · exact absurd hzero hc
      · exact ⟨us, mapM_eq_ok.mpr (h.imp fun t u => (hstep t u).mpr), rfl⟩

/-- The sum of one term is merged. -/
theorem merged_ofTerm (t : Term) : Term.Merged (ofTerm t).terms := by
  rw [ofTerm]
  by_cases ht : t.coeff = 0
  · rw [if_pos ht]
    exact .nil
  · rw [if_neg ht]
    exact Term.merged_cons.mpr ⟨ht, List.not_mem_nil, .nil⟩

/-- Adding a second sum to a merged sum gives a merged sum. -/
theorem merged_add {e o s : Expr} (he : Term.Merged e.terms) (h : e.add o = .ok s) :
    Term.Merged s.terms := by
  rw [add_eq] at h
  exact foldlM_addTerm_induction (P := fun e => Term.Merged e.terms) he
    (fun _ _ _ _ he ht => merged_addTerm he ht) h

/-- A multiple of a merged sum is merged. -/
theorem merged_scale {c : Coeff} {e s : Expr} (he : Term.Merged e.terms)
    (h : e.scale c = .ok s) : Term.Merged s.terms := by
  rcases scale_eq_ok.mp h with ⟨_, rfl⟩ | ⟨hc, hpairs⟩
  · exact .nil
  · constructor
    · intro u hu
      obtain ⟨t, ht, hcoeff, _⟩ := exists_of_forall₂ hpairs.flip hu
      have hval : u.coeff.val = t.coeff.val * c.val := Coeff.checked_eq_ok_iff.mp hcoeff
      have ht0 := he.nonzero t ht
      rw [ne_eq, Coeff.eq_zero_iff] at hc ht0 ⊢
      rw [hval]
      exact Int.mul_ne_zero ht0 hc
    · rw [map_eq_map_of_forall₂ hpairs fun _ _ _ h => h.2]
      exact he.distinct

variable {Q : Factor → Prop}

/-- What holds of the factors of a sum and of a term holds of the factors of both together. -/
theorem forall_factor_addTerm {e s : Expr} {t : Term} (he : ∀ v ∈ e.terms, Q v.factor)
    (ht : Q t.factor) (h : e.addTerm t = .ok s) : ∀ v ∈ s.terms, Q v.factor := by
  intro v hv
  rcases mem_factors_of_addTerm h hv with heq | hold
  · exact heq ▸ ht
  · obtain ⟨u, hu, hfactor⟩ := List.mem_map.mp hold
    exact hfactor ▸ he u hu

/-- What holds of the factors of two sums holds of the factors of both together. -/
theorem forall_factor_add {e o s : Expr} (he : ∀ v ∈ e.terms, Q v.factor)
    (ho : ∀ v ∈ o.terms, Q v.factor) (h : e.add o = .ok s) : ∀ v ∈ s.terms, Q v.factor := by
  rw [add_eq] at h
  exact foldlM_addTerm_induction (P := fun e => ∀ v ∈ e.terms, Q v.factor) he
    (fun t ht _ _ he => forall_factor_addTerm he (ho t ht)) h

/-- What holds of the factor of a term holds of the factors of its sum. -/
theorem forall_factor_ofTerm {t : Term} (ht : Q t.factor) : ∀ v ∈ (ofTerm t).terms, Q v.factor := by
  rw [ofTerm]
  by_cases hzero : t.coeff = 0
  · rw [if_pos hzero]
    exact nofun
  · rw [if_neg hzero]
    exact List.forall_mem_singleton.mpr ht

/-- What holds of the factors of a sum holds of the factors of its multiples. -/
theorem forall_factor_scale {c : Coeff} {e s : Expr} (he : ∀ v ∈ e.terms, Q v.factor)
    (h : e.scale c = .ok s) : ∀ v ∈ s.terms, Q v.factor := by
  rcases scale_eq_ok.mp h with ⟨_, rfl⟩ | ⟨_, hpairs⟩
  · exact nofun
  · intro u hu
    obtain ⟨t, ht, _, hfactor⟩ := exists_of_forall₂ hpairs.flip hu
    exact hfactor ▸ he t ht

/-! ## Steps in place -/

/-- Adding a term changes nothing if it fails, as the coefficient is checked first. -/
theorem InPlace.atomic_addTerm (t : Term) : (InPlace.addTerm t).Atomic := by
  rw [InPlace.addTerm]
  by_cases h : t.coeff = 0
  · rw [if_pos h]
    exact Update.atomic_of_forall_ok fun _ => ⟨(), rfl⟩
  · rw [if_neg h]
    exact Update.atomic_replace (fun e => t.addTo e.terms) mk

/-- Adding an expression changes nothing if it fails, as the terms are added to a copy. -/
theorem InPlace.atomic_add (o : Expr) : (InPlace.add o).Atomic :=
  Update.atomic_replace (fun e => o.terms.foldlM Expr.addTerm e) id

/-- Multiplying changes nothing if it fails, as all products are formed first. -/
theorem InPlace.atomic_scale (c : Coeff) : (InPlace.scale c).Atomic := by
  rw [InPlace.scale]
  by_cases h : c = 0
  · rw [if_pos h]
    exact Update.atomic_set 0
  · rw [if_neg h]
    exact Update.atomic_replace
      (fun e => e.terms.mapM fun t => return t.withCoeff (← t.coeff.mul c)) mk

end Expr

end AffineCalls
