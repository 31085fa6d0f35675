import AffineCalls.Proofs.Expr.Substitute

/-!
# The value of an expression

An interpretation gives integers to positions and symbols and a function on lists
of integers to each function name. It extends to expressions by exact integer
arithmetic. Sums that do not overflow have the exact value, and a substitution
that respects the values of symbols and calls respects those of expressions.
-/

namespace AffineCalls

/-- What positions, symbols and function names mean. -/
@[ext] structure Interpretation where
  /-- The value of each position. -/
  position : Nat → Int
  /-- The value of each symbol. -/
  symbol : String → Int
  /-- The function that each function name stands for. -/
  function : String → List Int → Int

mutual

/-- The value of a factor. -/
def Factor.value (I : Interpretation) : Factor → Int
  | .one => 1
  | .position i => I.position i
  | .symbol name => I.symbol name
  | .call c => c.value I
termination_by structural f => f

/-- The value of a call: the function applied to the values of the arguments. -/
def Call.value (I : Interpretation) : Call → Int
  | ⟨name, args⟩ => I.function name (Expr.valueEach I args)
termination_by structural c => c

/-- The values of the members of a list of expressions. -/
def Expr.valueEach (I : Interpretation) : List Expr → List Int
  | [] => []
  | e :: es => e.value I :: Expr.valueEach I es
termination_by structural es => es

/-- The value of an expression: the sum of the values of its summands. -/
def Expr.value (I : Interpretation) : Expr → Int
  | ⟨ts⟩ => Term.valueSum I ts
termination_by structural e => e

/-- The sum of the values of a list of terms. -/
def Term.valueSum (I : Interpretation) : List Term → Int
  | [] => 0
  | t :: ts => t.value I + Term.valueSum I ts
termination_by structural ts => ts

/-- The value of a term: the coefficient times the value of the factor. -/
def Term.value (I : Interpretation) : Term → Int
  | ⟨c, f⟩ => c.val * f.value I
termination_by structural t => t

end

variable {I : Interpretation}

theorem Term.value_eq (t : Term) : t.value I = t.coeff.val * t.factor.value I := by
  cases t
  rfl

theorem Expr.value_eq (e : Expr) : e.value I = Term.valueSum I e.terms := by
  cases e
  rfl

theorem Term.valueSum_eq (ts : List Term) :
    Term.valueSum I ts = (ts.map (·.value I)).foldr (· + ·) 0 := by
  induction ts with
  | nil => rfl
  | cons t ts ih => rw [Term.valueSum, ih, List.map_cons, List.foldr_cons]

/-- The value of a call depends on the values of its arguments. -/
theorem Call.value_eq (c : Call) :
    c.value I = I.function c.name (c.args.map (·.value I)) := by
  have heach (es : List Expr) : Expr.valueEach I es = es.map (·.value I) := by
    induction es with
    | nil => rfl
    | cons e es ih => rw [Expr.valueEach, ih, List.map_cons]
  cases c
  rw [← heach]
  rfl

/-- Adding a term to summands adds its value. -/
theorem Term.valueSum_addTo {t : Term} {us vs : List Term} (h : t.addTo us = .ok vs) :
    Term.valueSum I vs = Term.valueSum I us + t.value I := by
  induction us generalizing vs with
  | nil =>
    cases h
    simp only [Term.valueSum]
    omega
  | cons u us ih =>
    rw [Term.valueSum]
    rcases Term.addTo_cons_eq_ok.mp h with ⟨hfactor, c, hc, rfl⟩ | ⟨_, ws, hws, rfl⟩
    · have hval : c.val = u.coeff.val + t.coeff.val := Coeff.checked_eq_ok_iff.mp hc
      have hmerged : c.val * u.factor.value I = u.value I + t.value I := by
        rw [hval, Int.add_mul, Term.value_eq, Term.value_eq, hfactor]
      by_cases hzero : c = 0
      · rw [if_pos hzero]
        rw [Coeff.eq_zero_iff.mp hzero, Int.zero_mul] at hmerged
        omega
      · rw [if_neg hzero, Term.valueSum, Term.value_eq]
        change c.val * u.factor.value I + _ = _
        omega
    · rw [Term.valueSum, ih hws]
      omega

namespace Expr

/-- Adding a term to a sum adds its value. -/
theorem value_addTerm {e s : Expr} {t : Term} (h : e.addTerm t = .ok s) :
    s.value I = e.value I + t.value I := by
  rcases addTerm_eq_ok.mp h with ⟨hzero, rfl⟩ | ⟨_, h⟩
  · rw [Term.value_eq, Coeff.eq_zero_iff.mp hzero, Int.zero_mul, Int.add_zero]
  · rw [value_eq, value_eq]
    exact Term.valueSum_addTo h

/-- Adding a list of terms adds the sum of their values. -/
theorem value_foldlM_addTerm {ts : List Term} {e s : Expr} (h : ts.foldlM addTerm e = .ok s) :
    s.value I = e.value I + Term.valueSum I ts := by
  induction ts generalizing e with
  | nil =>
    cases h
    rw [Term.valueSum, Int.add_zero]
  | cons t ts ih =>
    rw [List.foldlM_cons, bind_eq_ok] at h
    obtain ⟨e', he', h⟩ := h
    rw [ih h, value_addTerm he', Term.valueSum, Int.add_assoc]

/-- The value of a sum is the sum of the values of its terms. -/
theorem value_sum {ts : List Term} {e : Expr} (h : sum ts = .ok e) :
    e.value I = Term.valueSum I ts := by
  rw [value_foldlM_addTerm h, value_eq, terms_zero, Term.valueSum, Int.zero_add]

/-- The value of a multiple is the multiple of the value. -/
theorem value_scale {c : Coeff} {e s : Expr} (h : e.scale c = .ok s) :
    s.value I = c.val * e.value I := by
  rcases scale_eq_ok.mp h with ⟨rfl, rfl⟩ | ⟨_, hpairs⟩
  · rw [Coeff.val_zero, Int.zero_mul]
    rfl
  · rw [value_eq, value_eq]
    generalize e.terms = ts, s.terms = us at hpairs
    induction hpairs with
    | nil => rw [Term.valueSum, Int.mul_zero]
    | @cons t u _ _ htu _ ih =>
      obtain ⟨hcoeff, hfactor⟩ := htu
      have hval : u.coeff.val = t.coeff.val * c.val := Coeff.checked_eq_ok_iff.mp hcoeff
      rw [Term.valueSum, Term.valueSum, ih, Term.value_eq, Term.value_eq, hval, hfactor,
        Int.mul_add, Int.mul_comm t.coeff.val, Int.mul_assoc]

/-- Substitution preserves the value if it preserves the values of the symbols and
of the calls with new arguments that it meets. -/
theorem value_substitute {σ : Substitution (Except Overflow)} {e s : Expr}
    (hsymbol : ∀ name f, σ.symbol name = .ok f → f.value I = I.symbol name)
    (hcall : ∀ c d f, (Factor.call c).OccursIn e → c.substituteArgs σ = .ok d →
      σ.call d = .ok f → f.value I = d.value I)
    (h : e.substitute σ = .ok s) : s.value I = e.value I := by
  induction e using Expr.induction generalizing s with
  | step e ih =>
    obtain ⟨us, hus, hsum⟩ := substitute_eq_ok.mp h
    have hfactor : ∀ t ∈ e.terms, ∀ g, t.factor.substitute σ = .ok g →
        g.value I = t.factor.value I := by
      rintro ⟨c, f⟩ ht g hg
      cases f with
      | one => cases hg; rfl
      | position i => cases hg; rfl
      | symbol name => exact hsymbol name g hg
      | call d =>
        obtain ⟨d', hd', hg⟩ := Factor.substitute_call_eq_ok.mp hg
        obtain ⟨hname, hargs⟩ := Call.substituteArgs_eq_ok.mp hd'
        have hvalues : d'.args.map (·.value I) = d.args.map (·.value I) :=
          map_eq_map_of_forall₂ hargs fun a ha b hb =>
            ih _ ht a ha (fun c d f hc => hcall c d f (hc.arg ht ha)) hb
        rw [hcall d d' g (.summand ht) hd' hg, Call.value_eq, hname, hvalues]
        exact (Call.value_eq d).symm
    have hterms : us.map (·.value I) = e.terms.map (·.value I) := by
      refine map_eq_map_of_forall₂ hus fun t ht u hu => ?_
      obtain ⟨hcoeff, hu⟩ := Term.substitute_eq_ok.mp hu
      rw [Term.value_eq, Term.value_eq, hcoeff, hfactor t ht _ hu]
    rw [value_sum hsum, value_eq, Term.valueSum_eq, Term.valueSum_eq, hterms]

/-- The value depends on the values of the symbols inside only, as far as symbols go. -/
theorem value_congr {I J : Interpretation} {e : Expr} (hposition : I.position = J.position)
    (hfunction : I.function = J.function)
    (hsymbol : ∀ n, (Factor.symbol n).OccursIn e → I.symbol n = J.symbol n) :
    e.value I = e.value J := by
  induction e using Expr.induction with
  | step e ih =>
    have hfactor : ∀ t ∈ e.terms, t.factor.value I = t.factor.value J := by
      rintro ⟨c, f⟩ ht
      cases f with
      | one => rfl
      | position i => exact congrFun hposition i
      | symbol n => exact hsymbol n (.summand ht)
      | call c =>
        have hargs : c.args.map (·.value I) = c.args.map (·.value J) :=
          List.map_congr_left fun a ha => ih _ ht a ha fun n hn => hsymbol n (hn.arg ht ha)
        change c.value I = c.value J
        rw [Call.value_eq, Call.value_eq, hfunction, hargs]
    have hterms : e.terms.map (·.value I) = e.terms.map (·.value J) := by
      refine List.map_congr_left fun t ht => ?_
      rw [Term.value_eq, Term.value_eq, hfactor t ht]
    rw [value_eq, value_eq, Term.valueSum_eq, Term.valueSum_eq, hterms]

end Expr

/-- The value of a call depends on the values of the symbols inside only, as far as
symbols go. -/
theorem Call.value_congr {I J : Interpretation} {c : Call} (hposition : I.position = J.position)
    (hfunction : I.function = J.function)
    (hsymbol : ∀ a ∈ c.args, ∀ n, (Factor.symbol n).OccursIn a → I.symbol n = J.symbol n) :
    c.value I = c.value J := by
  have hargs : c.args.map (·.value I) = c.args.map (·.value J) :=
    List.map_congr_left fun a ha => Expr.value_congr hposition hfunction (hsymbol a ha)
  rw [Call.value_eq, Call.value_eq, hfunction, hargs]

/-- Substitution in the arguments preserves the value of a call if it preserves the
values of the symbols and of the calls with new arguments that it meets. -/
theorem Call.value_substituteArgs {σ : Substitution (Except Overflow)} {c d : Call}
    (hsymbol : ∀ name f, σ.symbol name = .ok f → f.value I = I.symbol name)
    (hcall : ∀ (c d : Call) f, c.substituteArgs σ = .ok d → σ.call d = .ok f →
      f.value I = d.value I)
    (h : c.substituteArgs σ = .ok d) : d.value I = c.value I := by
  obtain ⟨hname, hargs⟩ := Call.substituteArgs_eq_ok.mp h
  have hvalues : d.args.map (·.value I) = c.args.map (·.value I) :=
    map_eq_map_of_forall₂ hargs fun _ _ _ hb =>
      Expr.value_substitute hsymbol (fun c d f _ => hcall c d f) hb
  rw [Call.value_eq, Call.value_eq, hname, hvalues]

end AffineCalls
