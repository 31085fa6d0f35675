import AffineCalls.Proofs.Expr.Total

/-!
# Adding two sums

Two merged sums are added by their totals: a factor keeps its place in the first sum unless its
total becomes zero, and the new factors of the second sum follow in their order. A factor
occurs at most once in each, so the only totals on the way are those before and after, and
addition fails exactly if one of the latter is out of range.
-/

namespace AffineCalls

/-- A part of a list without repetitions is what the list has of it. -/
theorem eq_filter_of_sublist {α : Type} {p : α → Bool} {xs ys : List α} (h : xs.Sublist ys)
    (hys : ys.Nodup) (hp : ∀ y ∈ ys, y ∈ xs ↔ p y = true) : xs = ys.filter p := by
  induction h with
  | slnil => rfl
  | @cons xs ys y hsub ih =>
    obtain ⟨hnot, hnodup⟩ := List.nodup_cons.mp hys
    obtain ⟨hy, hall⟩ := List.forall_mem_cons.mp hp
    rw [List.filter_cons_of_neg (mt hy.mpr fun h => hnot (hsub.subset h))]
    exact ih hnodup hall
  | @cons_cons xs ys y hsub ih =>
    obtain ⟨hnot, hnodup⟩ := List.nodup_cons.mp hys
    obtain ⟨hy, hall⟩ := List.forall_mem_cons.mp hp
    rw [List.filter_cons_of_pos (hy.mp List.mem_cons_self), ← ih hnodup fun z hz => ?_]
    rw [← hall z hz, List.mem_cons]
    exact ⟨.inr, fun h => h.resolve_left fun heq => hnot (heq ▸ hz)⟩

namespace Term

variable {f : Factor} {t : Term} {ts : List Term}

/-- A part of a merged list is merged. -/
theorem Merged.sublist {us : List Term} (hts : Merged ts) (h : us.Sublist ts) : Merged us :=
  ⟨fun t ht => hts.nonzero t (h.subset ht), hts.distinct.sublist (h.map _)⟩

/-- In a prefix of a merged list, a factor has its whole total or none. -/
theorem Merged.total_take (hts : Merged ts) (f : Factor) (k : Nat) :
    total f (ts.take k) = total f ts ∨ total f (ts.take k) = 0 := by
  have hsub := List.take_sublist k ts
  by_cases hf : f ∈ (ts.take k).map (·.factor)
  · obtain ⟨t, ht, rfl⟩ := List.mem_map.mp hf
    left
    rw [(hts.sublist hsub).total_eq ht, hts.total_eq (hsub.subset ht)]
  · exact .inr (total_of_notMem hf)

end Term

namespace Expr

variable {e o s : Expr} {t : Term} {ts : List Term}

/-- Adding to a factor that is there already leaves the factors in order, and the factor
disappears if its total becomes zero. -/
theorem factors_addTerm_of_mem (he : Term.Merged e.terms)
    (hmem : t.factor ∈ e.terms.map (·.factor)) (h : e.addTerm t = .ok s) :
    s.terms.map (·.factor) =
      (e.terms.map (·.factor)).filter fun f => Term.total f s.terms ≠ 0 := by
  have hsub : (s.terms.map (·.factor)).Sublist (e.terms.map (·.factor)) :=
    (sublist_factors_addTerm h).resolve_right fun ⟨hnot, _⟩ => hnot hmem
  refine eq_filter_of_sublist hsub he.distinct fun f _ => ?_
  rw [(merged_addTerm he h).mem_factors_iff, decide_eq_true_iff]

/-- Adding a term does not matter to whether another factor is there. -/
theorem mem_factors_addTerm_of_ne {f : Factor} (he : Term.Merged e.terms)
    (h : e.addTerm t = .ok s) (hne : t.factor ≠ f) :
    f ∈ s.terms.map (·.factor) ↔ f ∈ e.terms.map (·.factor) := by
  rw [(merged_addTerm he h).mem_factors_iff, he.mem_factors_iff, total_addTerm h,
    Term.total_singleton_of_ne hne, Int.add_zero]

variable {total : Factor → Int}

/-- After adding to a factor that is there already, the same factors have other totals than zero
in the end, whatever happens to the totals of the other factors. -/
theorem filter_factors_addTerm_of_mem (he : Term.Merged e.terms)
    (hmem : t.factor ∈ e.terms.map (·.factor)) (h : e.addTerm t = .ok s)
    (htotal : total t.factor = Term.total t.factor s.terms) :
    (s.terms.map (·.factor)).filter (total · ≠ 0) =
      (e.terms.map (·.factor)).filter (total · ≠ 0) := by
  rw [factors_addTerm_of_mem he hmem h, List.filter_filter]
  refine List.filter_congr fun f hf => ?_
  -- The only factor that may be gone has its final total already.
  have hgone : Term.total f s.terms = 0 → total f = 0 := by
    intro hzero
    by_cases hfactor : t.factor = f
    · rw [← hfactor, htotal, hfactor, hzero]
    · have hkept := (mem_factors_addTerm_of_ne he h hfactor).mpr hf
      exact absurd hzero ((merged_addTerm he h).mem_factors_iff.mp hkept)
  by_cases hzero : total f = 0
  · simp [hzero]
  · simp [hzero, mt hgone hzero]

/-- A new factor with a total other than zero in the end stands behind the other ones. -/
theorem filter_factors_addTerm_of_notMem (hcoeff : t.coeff ≠ 0)
    (hmem : t.factor ∉ e.terms.map (·.factor)) (h : e.addTerm t = .ok s)
    (htotal : total t.factor = Term.total t.factor s.terms) :
    (s.terms.map (·.factor)).filter (total · ≠ 0) =
      (e.terms.map (·.factor)).filter (total · ≠ 0) ++ [t.factor] := by
  obtain ⟨us⟩ := e
  cases h.symm.trans (addTerm_of_notMem hcoeff hmem)
  have hself : total t.factor ≠ 0 := by
    rw [htotal, Term.total_append, Term.total_of_notMem hmem, Term.total_singleton_self,
      Int.zero_add]
    exact mt Coeff.eq_zero_iff.mpr hcoeff
  have hlast : [t.factor].filter (total · ≠ 0) = [t.factor] :=
    List.filter_cons_of_pos (decide_eq_true hself)
  rw [List.map_append, List.filter_append, List.map_singleton, hlast]

/-- If merged terms are added to a merged sum, the factors that do not cancel stay in order and
the new ones follow in order. -/
theorem factors_foldlM_addTerm (he : Term.Merged e.terms) (hts : Term.Merged ts)
    (h : ts.foldlM addTerm e = .ok s) :
    s.terms.map (·.factor) =
      ((e.terms.map (·.factor)).filter fun f => Term.total f s.terms ≠ 0) ++
        (ts.map (·.factor)).filter (· ∉ e.terms.map (·.factor)) := by
  induction ts generalizing e with
  | nil =>
    cases h
    rw [List.map_nil, List.filter_nil, List.append_nil, eq_comm, List.filter_eq_self]
    exact fun f hf => decide_eq_true (he.mem_factors_iff.mp hf)
  | cons t ts ih =>
    obtain ⟨hcoeff, hnot, hmerged⟩ := Term.merged_cons.mp hts
    rw [List.foldlM_cons, bind_eq_ok] at h
    obtain ⟨e', he', h⟩ := h
    have hlater : Term.total t.factor s.terms = Term.total t.factor e'.terms := by
      rw [total_foldlM_addTerm h, Term.total_of_notMem hnot, Int.add_zero]
    -- The later terms have other factors than the first one.
    have hrest : (ts.map (·.factor)).filter (· ∉ e'.terms.map (·.factor)) =
        (ts.map (·.factor)).filter (· ∉ e.terms.map (·.factor)) := by
      refine List.filter_congr fun f hf => ?_
      have hne : t.factor ≠ f := fun heq => hnot (heq ▸ hf)
      simp only [mem_factors_addTerm_of_ne he he' hne]
    rw [ih (merged_addTerm he he') hmerged h, hrest, List.map_cons]
    by_cases hmem : t.factor ∈ e.terms.map (·.factor)
    · rw [List.filter_cons_of_neg (by simpa using hmem),
        filter_factors_addTerm_of_mem he hmem he' hlater]
    · rw [List.filter_cons_of_pos (by simpa using hmem),
        filter_factors_addTerm_of_notMem hcoeff hmem he' hlater, List.append_assoc,
        List.singleton_append]

/-- The entries of two sums added up: those of the first one in order, with the coefficients of
the second one added and without those that cancel, and then the new ones of the second one in
order. -/
def merge (e o : Expr) : List (Factor × Int) :=
  (e.terms.map fun t => (t.factor, t.coeff.val + Term.total t.factor o.terms)).filter (·.2 ≠ 0) ++
    (o.terms.filter (·.factor ∉ e.terms.map (·.factor))).map Term.entry

/-- The sum of two merged sums has the entries of both added up. -/
theorem map_entry_add (he : Term.Merged e.terms) (ho : Term.Merged o.terms)
    (h : e.add o = .ok s) : s.terms.map Term.entry = e.merge o := by
  have hsum : o.terms.foldlM addTerm e = .ok s := (add_eq e o).symm.trans h
  have htotal : ∀ f, Term.total f s.terms = Term.total f e.terms + Term.total f o.terms :=
    total_foldlM_addTerm hsum
  have hall : (e.terms.map fun t => (t.factor, t.coeff.val + Term.total t.factor o.terms)) =
      (e.terms.map (·.factor)).map fun f => (f, Term.total f s.terms) := by
    rw [List.map_map]
    refine List.map_congr_left fun t ht => ?_
    change _ = (t.factor, Term.total t.factor s.terms)
    rw [htotal, he.total_eq ht]
  have hfirst : ((e.terms.map (·.factor)).map fun f => (f, Term.total f s.terms)).filter
      (·.2 ≠ 0) = ((e.terms.map (·.factor)).filter fun f => Term.total f s.terms ≠ 0).map
        fun f => (f, Term.total f s.terms) := List.filter_map
  have hsecond : (o.terms.filter (·.factor ∉ e.terms.map (·.factor))).map Term.entry =
      ((o.terms.map (·.factor)).filter (· ∉ e.terms.map (·.factor))).map
        fun f => (f, Term.total f s.terms) := by
    rw [List.filter_map, List.map_map]
    refine List.map_congr_left fun t ht => ?_
    obtain ⟨ht, hnew⟩ := List.mem_filter.mp ht
    change _ = (t.factor, Term.total t.factor s.terms)
    rw [htotal, ho.total_eq ht, Term.total_of_notMem (of_decide_eq_true hnew), Int.zero_add]
    rfl
  rw [(merged_add he h).map_entry, factors_foldlM_addTerm he ho hsum, merge, hall, hfirst, hsecond,
    List.map_append]

/-- Merged terms can be added to a merged sum exactly if every total of both is in range. -/
theorem exists_add_iff (he : Term.Merged e.terms) (ho : Term.Merged o.terms) :
    (∃ s, e.add o = .ok s) ↔
      ∀ f, Coeff.InRange (Term.total f e.terms + Term.total f o.terms) := by
  rw [add_eq, exists_foldlM_addTerm_iff he]
  refine ⟨fun h f => ?_, fun h f k => ?_⟩
  · have hwhole := h f o.terms.length
    rwa [List.take_length] at hwhole
  · rcases ho.total_take f k with htake | htake
    · rw [htake]
      exact h f
    · rw [htake, Int.add_zero]
      exact he.inRange_total f

/-- Addition fails exactly if a factor of both sums has coefficients whose exact sum is out of
range. -/
theorem add_eq_overflow_iff (he : Term.Merged e.terms) (ho : Term.Merged o.terms) :
    e.add o = .error .coefficient ↔ ∃ t ∈ e.terms, ∃ u ∈ o.terms,
      t.sameFactor u = true ∧ ¬Coeff.InRange (t.coeff.val + u.coeff.val) := by
  rw [eq_overflow_iff, exists_add_iff he ho, not_forall]
  constructor
  · rintro ⟨f, hf⟩
    have hmem : f ∈ e.terms.map (·.factor) := by
      by_contra hnot
      rw [Term.total_of_notMem hnot, Int.zero_add] at hf
      exact hf (ho.inRange_total f)
    have hmem' : f ∈ o.terms.map (·.factor) := by
      by_contra hnot
      rw [Term.total_of_notMem hnot, Int.add_zero] at hf
      exact hf (he.inRange_total f)
    obtain ⟨t, ht, rfl⟩ := List.mem_map.mp hmem
    obtain ⟨u, hu, hfactor⟩ := List.mem_map.mp hmem'
    rw [he.total_eq ht, ← hfactor, ho.total_eq hu] at hf
    exact ⟨t, ht, u, hu, decide_eq_true hfactor.symm, hf⟩
  · rintro ⟨t, ht, u, hu, hsame, hrange⟩
    refine ⟨t.factor, ?_⟩
    rw [he.total_eq ht, of_decide_eq_true hsame, ho.total_eq hu]
    exact hrange

/-- A sum is that of two merged sums exactly if it has the entries of both added up. -/
theorem add_eq_ok_iff (he : Term.Merged e.terms) (ho : Term.Merged o.terms) :
    e.add o = .ok s ↔ s.terms.map Term.entry = e.merge o := by
  refine ⟨map_entry_add he ho, fun h => ?_⟩
  have hadds : ∃ s, e.add o = .ok s := by
    by_contra hfails
    obtain ⟨t, ht, u, hu, hsame, hrange⟩ :=
      (add_eq_overflow_iff he ho).mp (eq_overflow_iff.mpr hfails)
    -- A coefficient out of range is not zero, so it would be that of a summand.
    have hentry : (t.factor, t.coeff.val + u.coeff.val) ∈ e.merge o := by
      have htotal : Term.total t.factor o.terms = u.coeff.val := by
        rw [of_decide_eq_true hsame, ho.total_eq hu]
      have hne : t.coeff.val + u.coeff.val ≠ 0 := fun hzero => hrange (hzero ▸ Coeff.inRange_zero)
      refine List.mem_append_left _ (List.mem_filter.mpr ⟨?_, decide_eq_true hne⟩)
      exact htotal ▸ List.mem_map_of_mem ht
    rw [← h] at hentry
    obtain ⟨v, _, hv⟩ := List.mem_map.mp hentry
    exact hrange ((Prod.mk.inj hv).2 ▸ v.coeff.inRange_val)
  obtain ⟨⟨us⟩, hus⟩ := hadds
  obtain ⟨ts⟩ := s
  obtain rfl : us = ts :=
    List.map_injective_iff.mpr Term.entry_injective ((map_entry_add he ho hus).trans h.symm)
  exact hus

end Expr

end AffineCalls
