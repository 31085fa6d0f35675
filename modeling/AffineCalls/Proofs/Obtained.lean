import AffineCalls.Proofs.CallTable.History
import AffineCalls.Proofs.CallTable.Restoration
import AffineCalls.Proofs.Notation.Normal
import AffineCalls.Proofs.TupleSet.Settled

/-!
# Expressions that can be obtained

Expressions are formed from terms, read from texts, taken from the constraints of sets, made
by abstraction and restoration, and found inside other expressions and in tables of calls.
All of these are normal. Most of the ways form their sums anew and need to know nothing of
what they start from; only where a given sum is changed must it be normal before.
-/

namespace AffineCalls

/-- The expressions that an operation on a table is given. -/
def CallTable.Operation.given : Operation → List Expr
  | .insert c => c.args
  | .abstract e => [e]

open CallTable (Operation reached)

/-- The expressions that can be obtained. Terms may have any coefficients, also zero, but
the arguments of their calls are obtained before; so are the expressions that a table of
calls has been given. -/
inductive Expr.Obtained : Expr → Prop
  /-- The empty sum. -/
  | zero : Obtained 0
  /-- The sum of one term. -/
  | ofTerm {t : Term} (ht : ∀ a ∈ t.factor.args, a.Obtained) : (ofTerm t).Obtained
  /-- The sum of a list of terms. -/
  | sum {ts : List Term} {e : Expr} (hts : ∀ t ∈ ts, ∀ a ∈ t.factor.args, a.Obtained)
    (h : sum ts = .ok e) : e.Obtained
  /-- A term is added, or this overflows. -/
  | addTerm {e : Expr} {t : Term} (he : e.Obtained) (ht : ∀ a ∈ t.factor.args, a.Obtained) :
    ((InPlace.addTerm t).after e).Obtained
  /-- An expression is added, or this overflows. -/
  | add {e o : Expr} (he : e.Obtained) (ho : o.Obtained) : ((InPlace.add o).after e).Obtained
  /-- An expression is multiplied, or this overflows. -/
  | scale {c : Coeff} {e : Expr} (he : e.Obtained) : ((InPlace.scale c).after e).Obtained
  /-- An argument of a call in an expression. -/
  | arg {e a : Expr} {t : Term} (he : e.Obtained) (ht : t ∈ e.terms) (ha : a ∈ t.factor.args) :
    a.Obtained
  /-- An expression is read. -/
  | parse {text : String} {e : Expr} (h : parse text = .ok e) : e.Obtained
  /-- A side of a constraint of a set that is read. -/
  | parseSet {text : String} {s : TupleSet} {e : Expr} (h : TupleSet.parse text = .ok s)
    (he : e ∈ s.sides) : e.Obtained
  /-- A side of a constraint of a set that is made from constraints. -/
  | ofConstraints {tuple : List Coordinate} {cs : List Constraint} {s : TupleSet} {e : Expr}
    (hl : ∀ c ∈ cs, c.lhs.Obtained) (hr : ∀ c ∈ cs, c.rhs.Obtained)
    (h : TupleSet.ofConstraints tuple cs = .ok s) (he : e ∈ s.sides) : e.Obtained
  /-- The result of abstraction. -/
  | abstract {os : List Operation} {e r : Expr} (hos : ∀ o ∈ os, ∀ a ∈ o.given, a.Obtained)
    (he : e.Obtained) (h : ((reached os).abstract e).1 = .ok r) : r.Obtained
  /-- The result of restoration. -/
  | restore {os : List Operation} {e r : Expr} (hos : ∀ o ∈ os, ∀ a ∈ o.given, a.Obtained)
    (he : e.Obtained) (h : (reached os).restore e = .ok r) : r.Obtained
  /-- An argument of a call in a table. -/
  | stored {os : List Operation} {k : String} {p : Placeholder} {c : Call} {a : Expr}
    (hos : ∀ o ∈ os, ∀ a ∈ o.given, a.Obtained) (h : (reached os).forward[k]? = some (p, c))
    (ha : a ∈ c.args) : a.Obtained

/-! ## Sets -/

/-- The sides of the constraints of a set that is read are normal. -/
theorem TupleSet.normal_of_parse {text : String} {s : TupleSet} (h : parse text = .ok s) :
    ∀ e ∈ s.sides, e.Normal := fun e he => ((settled_of_parse h).sides e he).toNormal

/-! ## Tables of calls -/

/-- Putting keys in the place of calls keeps arguments normal. -/
theorem Substitution.keepsNormal_keys : keys.KeepsNormal where
  symbol _ _ h := by
    cases h
    exact List.forall_mem_nil _
  call _ _ _ h := by
    cases h
    exact List.forall_mem_nil _

namespace CallTable

/-- Entering a call with normal arguments, or abstracting any expression, leads to a table
whose calls have normal arguments. -/
theorem wellKept_of_given {os : List Operation} (h : ∀ o ∈ os, ∀ a ∈ o.given, a.Normal) :
    (reached os).WellKept fun c => ∀ a ∈ c.args, a.Normal := by
  induction os using List.reverseRecOn with
  | nil => exact wellKept_empty
  | append_singleton os o ih =>
    obtain ⟨hos, ho⟩ := List.forall_mem_append.mp h
    have ho := List.forall_mem_singleton.mp ho
    have hlast : reached (os ++ [o]) = o.after (reached os) := List.foldl_concat ..
    rw [hlast]
    cases o with
    | insert c => exact (ih hos).insert ho
    | abstract e =>
      obtain ⟨_, _, hwell, _⟩ := (ih hos).abstract (e := e) fun _ _ _ hd =>
        Call.normal_of_substituteArgs Substitution.keepsNormal_keys hd
      exact hwell

/-- The result of abstraction is normal. -/
theorem normal_of_abstract {os : List Operation} {e r : Expr}
    (h : ((reached os).abstract e).1 = .ok r) : r.Normal := by
  obtain ⟨hresult, _⟩ := (wellKept_reached os).abstract (e := e) fun _ _ _ _ => trivial
  exact Expr.normal_of_substitute Substitution.keepsNormal_keys (hresult.symm.trans h)

/-- Restoring symbols keeps arguments normal. -/
theorem keepsNormal_restoring (t : CallTable) : t.restoring.KeepsNormal where
  symbol n g h := by
    change t.restoreSymbol n = .ok g at h
    induction hlength : n.length using Nat.strongRecOn generalizing n g with
    | ind length ih =>
      subst hlength
      rw [restoreSymbol] at h
      cases hn : t.callNamed? n with
      | none =>
        rw [hn] at h
        cases h
        exact List.forall_mem_nil _
      | some c =>
        rw [hn] at h
        obtain ⟨d, hd, rfl⟩ := bind_pure_eq_ok.mp h
        refine Call.normal_of_substituteArgs ⟨fun m g hg => ?_, fun c g hc hg => ?_⟩ hd
        · by_cases hm : m.length < n.length
          · exact ih m.length hm m g ((if_pos hm).symm.trans hg) rfl
          · cases (if_neg hm).symm.trans hg
            exact List.forall_mem_nil _
        · cases hg
          exact hc
  call _ _ hc h := by
    cases h
    exact hc

/-- The result of restoration is normal. -/
theorem normal_of_restore {t : CallTable} {e r : Expr} (h : t.restore e = .ok r) : r.Normal :=
  Expr.normal_of_substitute t.keepsNormal_restoring h

end CallTable

/-! ## All expressions -/

/-- Every expression that can be obtained is normal. -/
theorem Expr.Obtained.normal {e : Expr} (h : e.Obtained) : e.Normal := by
  induction h with
  | zero => exact normal_zero
  | ofTerm _ ih => exact normal_ofTerm ih
  | sum _ h ih => exact normal_of_sum ih h
  | addTerm _ _ ihe iht =>
    exact (InPlace.atomic_addTerm _).after_induction ihe fun _ => normal_addTerm ihe iht
  | add _ _ ihe iho => exact (InPlace.atomic_add _).after_induction ihe fun _ => normal_add ihe iho
  | scale _ ih => exact (InPlace.atomic_scale _).after_induction ih fun _ => normal_scale ih
  | arg _ ht ha ih => exact (normal_iff.mp ih).2 _ ht _ ha
  | parse h => exact normal_of_parse h
  | parseSet h he => exact TupleSet.normal_of_parse h _ he
  | ofConstraints _ _ h he => exact TupleSet.normal_of_ofConstraints h _ he
  | abstract _ _ h => exact CallTable.normal_of_abstract h
  | restore _ _ h => exact CallTable.normal_of_restore h
  | stored _ h ha ih => exact ((CallTable.wellKept_of_given ih).entry _ _ _ h).2.2 _ ha

/-- In every expression that can be obtained, and at every depth inside it, no summand has
the coefficient zero and no two summands of one sum have the same factor. -/
theorem Expr.Obtained.merged_within {e a : Expr} (he : e.Obtained) (ha : a.Within e) :
    (∀ t ∈ a.terms, t.coeff ≠ 0) ∧ a.terms.Pairwise fun t u => t.sameFactor u = false := by
  have hnormal := he.normal
  refine ⟨hnormal.nonzero a ha, ?_⟩
  have hdistinct : a.terms.Pairwise fun t u => t.factor ≠ u.factor :=
    List.pairwise_map.mp (hnormal.distinct a ha)
  exact hdistinct.imp fun h => decide_eq_false h

/-- With a coordinate `i`, the argument in the constraint `f(i + __tv0) = 0` becomes one
summand. -/
theorem Expr.Obtained.merged_within_resolved :
    ∃ (s : TupleSet) (e a : Expr), TupleSet.ofConstraints [.name "i"]
        [⟨⟨[⟨1, .call ⟨"f", [⟨[⟨1, .symbol "i"⟩, ⟨1, .position 0⟩]⟩]⟩⟩]⟩, .eq, 0⟩] = .ok s ∧
      e ∈ s.sides ∧ a.Within e ∧ a.text = "2*__tv0" ∧ (∀ t ∈ a.terms, t.coeff ≠ 0) ∧
      a.terms.Pairwise fun t u => t.sameFactor u = false := by
  have hsum : Expr.sum [⟨1, .symbol "i"⟩, ⟨1, .position 0⟩] =
      .ok ⟨[⟨1, .symbol "i"⟩, ⟨1, .position 0⟩]⟩ := rfl
  have hargument : Expr.Obtained ⟨[⟨1, .symbol "i"⟩, ⟨1, .position 0⟩]⟩ := by
    refine .sum ?_ hsum
    exact List.forall_mem_cons.mpr ⟨nofun, List.forall_mem_singleton.mpr nofun⟩
  have hcall : Expr.Obtained ⟨[⟨1, .call ⟨"f", [⟨[⟨1, .symbol "i"⟩, ⟨1, .position 0⟩]⟩]⟩⟩]⟩ :=
    .ofTerm (t := ⟨1, .call ⟨"f", [⟨[⟨1, .symbol "i"⟩, ⟨1, .position 0⟩]⟩]⟩⟩)
      (List.forall_mem_singleton.mpr hargument)
  have hset : TupleSet.ofConstraints [.name "i"]
      [⟨⟨[⟨1, .call ⟨"f", [⟨[⟨1, .symbol "i"⟩, ⟨1, .position 0⟩]⟩]⟩⟩]⟩, .eq, 0⟩] =
        .ok ⟨[.name "i"], [⟨⟨[⟨1, .call ⟨"f",
          [⟨[⟨⟨2, by decide, by decide⟩, .position 0⟩]⟩]⟩⟩]⟩, .eq, 0⟩]⟩ := rfl
  have hside : Expr.Obtained ⟨[⟨1, .call ⟨"f", [⟨[⟨⟨2, by decide, by decide⟩, .position 0⟩]⟩]⟩⟩]⟩ :=
    .ofConstraints (List.forall_mem_singleton.mpr hcall) (List.forall_mem_singleton.mpr .zero) hset
      List.mem_cons_self
  have hinside : Expr.Within ⟨[⟨⟨2, by decide, by decide⟩, .position 0⟩]⟩
      ⟨[⟨1, .call ⟨"f", [⟨[⟨⟨2, by decide, by decide⟩, .position 0⟩]⟩]⟩⟩]⟩ :=
    .arg List.mem_cons_self List.mem_cons_self (.refl _)
  exact ⟨_, _, _, hset, List.mem_cons_self, hinside, rfl, merged_within hside hinside⟩

end AffineCalls
