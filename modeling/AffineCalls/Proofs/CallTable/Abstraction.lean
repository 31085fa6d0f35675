import AffineCalls.Proofs.CallTable.Filing
import AffineCalls.Proofs.Expr.Keyed

/-!
# What abstraction does

The result of abstraction does not depend on the table: it is that of putting the
symbol named by its key in the place of each call. Afterwards the table has the key
of every call that was met. If abstraction overflows, it does so at a term up to
which everything has been entered, so that the front of a sum, with all its calls
known to the table, already fails.
-/

namespace AffineCalls

/-- The substitution that enters each call and puts its placeholder in its place. -/
def Substitution.filing : Substitution Filing where
  call := Filing.file

/-- `b.FrontWithin e`: the summands of `b` are the first ones of a sum inside `e`. -/
def Expr.FrontWithin (b e : Expr) : Prop := ∃ a : Expr, a.Within e ∧ b.terms <+: a.terms

namespace CallTable

/-- If the factor is a call, the table has its key. -/
def KnowsFactor (t : CallTable) (f : Factor) : Prop :=
  ∀ c, f = .call c → ∃ d, c.substituteArgs .keys = .ok d ∧ d.key ∈ t.forward

/-- The table has the key of every call in the expression. -/
def Knows (t : CallTable) (e : Expr) : Prop := ∀ f : Factor, f.OccursIn e → t.KnowsFactor f

/-- The calls of some front of a sum inside the expression are known to the table, and
yet the front cannot be abstracted. -/
def Stuck (t : CallTable) (e : Expr) : Prop :=
  ∃ b : Expr, b.FrontWithin e ∧ (∃ o, b.keyed = .error o) ∧ t.Knows b

variable {t u : CallTable} {e : Expr}

/-- The calls of a sum are its summands and those in their arguments. -/
theorem knows_iff :
    t.Knows e ↔ ∀ v ∈ e.terms, t.KnowsFactor v.factor ∧ ∀ a ∈ v.factor.args, t.Knows a :=
  Factor.forall_occursIn_iff

/-- A larger table knows what a smaller one knows. -/
theorem Knows.mono (h : t.Knows e) (hle : t ≤ u) : u.Knows e := by
  intro f hf c hc
  obtain ⟨d, hd, hkey⟩ := h f hf c hc
  exact ⟨d, hd, mem_of_le hle hkey⟩

/-- A longer front is known if the next term is. -/
theorem Knows.concat {us : List Term} {v : Term} (hus : t.Knows ⟨us⟩)
    (hv : t.KnowsFactor v.factor ∧ ∀ a ∈ v.factor.args, t.Knows a) : t.Knows ⟨us ++ [v]⟩ := by
  rw [knows_iff] at hus ⊢
  exact List.forall_mem_append.mpr ⟨hus, List.forall_mem_singleton.mpr hv⟩

/-- An expression cannot be abstracted if one of its arguments cannot be. -/
theorem Stuck.arg {v : Term} {a : Expr} (hv : v ∈ e.terms) (ha : a ∈ v.factor.args)
    (h : t.Stuck a) : t.Stuck e := by
  obtain ⟨b, ⟨a', ha', hfront⟩, hfail, hknows⟩ := h
  exact ⟨b, ⟨a', .arg hv ha ha', hfront⟩, hfail, hknows⟩

end CallTable

namespace Filing

variable {P : Call → Prop} {S : CallTable → Prop} {t : CallTable}

/-- The arguments of a call are abstracted one after the other. -/
theorem runs_substituteEach {es : List Expr}
    (h : ∀ a ∈ es, ∀ t : CallTable, t.WellKept P →
      Runs P (a.substitute .filing) a.keyed t (·.Knows a) S) (ht : t.WellKept P) :
    Runs P (Expr.substituteEach .filing es) (Expr.substituteEach .keys es) t
      (fun u => ∀ a ∈ es, u.Knows a) S := by
  induction es generalizing t with
  | nil => exact .pure ht [] nofun
  | cons e es ih =>
    obtain ⟨he, hes⟩ := List.forall_mem_cons.mp h
    unfold Expr.substituteEach
    refine (he t ht).bind fun e' _ u _ hu hknows => ?_
    refine (ih hes hu).bind fun es' _ u' hle hu' hknows' => ?_
    exact .pure hu' _ (List.forall_mem_cons.mpr ⟨hknows.mono hle, hknows'⟩)

/-- A factor is abstracted by entering it if it is a call, after its arguments. -/
theorem runs_factor {f : Factor}
    (h : ∀ a ∈ f.args, ∀ t : CallTable, t.WellKept P →
      Runs P (a.substitute .filing) a.keyed t (·.Knows a) S)
    (hP : ∀ c d, f = .call c → c.substituteArgs .keys = .ok d → P d) (ht : t.WellKept P) :
    Runs P (f.substitute .filing) (f.substitute .keys) t
      (fun u => u.KnowsFactor f ∧ ∀ a ∈ f.args, u.Knows a) S := by
  cases f with
  | one => exact .pure ht _ ⟨nofun, nofun⟩
  | position i => exact .pure ht _ ⟨nofun, nofun⟩
  | symbol name => exact .pure ht _ ⟨nofun, nofun⟩
  | call c =>
    have hargs : Runs P (c.substituteArgs .filing) (c.substituteArgs .keys) t
        (fun u => ∀ a ∈ c.args, u.Knows a) S := by
      obtain ⟨name, args⟩ := c
      unfold Call.substituteArgs
      exact (runs_substituteEach h ht).bind fun args' _ u _ hu hknows => .pure hu _ hknows
    unfold Factor.substitute
    refine hargs.bind fun d hd u _ hu hknows => ?_
    refine (Runs.file hu (hP c d rfl hd)).imp (fun u' hle hkey => ?_) (fun _ _ hS => hS)
    refine ⟨?_, fun a ha => (hknows a ha).mono hle⟩
    rintro c' hc'
    cases hc'
    exact ⟨d, hd, hkey⟩

/-- Terms are abstracted and added one after the other. The terms `us` have already
been added to `sum`. -/
theorem runs_substituteOnto {e : Expr} {us ts : List Term} {sum : Expr}
    (hsplit : e.terms = us ++ ts) (hsum : Expr.keyed ⟨us⟩ = .ok sum)
    (h : ∀ v ∈ e.terms, ∀ t : CallTable, t.WellKept P →
      Runs P (v.factor.substitute .filing) (v.factor.substitute .keys) t
        (fun u => u.KnowsFactor v.factor ∧ ∀ a ∈ v.factor.args, u.Knows a) (·.Stuck e))
    (ht : t.WellKept P) (hknows : t.Knows ⟨us⟩) :
    Runs P (Term.substituteOnto .filing ts sum) (Term.substituteOnto .keys ts sum) t
      (·.Knows e) (·.Stuck e) := by
  induction ts generalizing us sum t with
  | nil =>
    obtain ⟨ts⟩ := e
    rw [List.append_nil] at hsplit
    rw [← hsplit] at hknows
    exact .pure ht sum hknows
  | cons v ts ih =>
    have hv : v ∈ e.terms := by
      rw [hsplit]
      exact List.mem_append_right us List.mem_cons_self
    have hterm : Runs P (v.substitute .filing) (v.substitute .keys) t
        (·.Knows ⟨us ++ [v]⟩) (·.Stuck e) := by
      have hfactor := h v hv t ht
      obtain ⟨c, f⟩ := v
      unfold Term.substitute
      exact hfactor.bind fun f' _ u hle hu hknows' => .pure hu _ ((hknows.mono hle).concat hknows')
    unfold Term.substituteOnto
    refine hterm.bind fun v' hv' u _ hu hknows' => ?_
    -- The front that ends with this term has the sum that is checked here.
    have hfront := Expr.keyed_concat hsum hv'
    have hchecked : Runs P (liftM (sum.addTerm v') : Filing Expr) (sum.addTerm v') u
        (·.Knows ⟨us ++ [v]⟩) (·.Stuck e) := by
      refine .lift hu hknows' fun o ho => ?_
      refine ⟨⟨us ++ [v]⟩, ⟨e, .refl e, ts, ?_⟩, ⟨o, hfront.trans ho⟩, hknows'⟩
      rw [hsplit, List.append_assoc, List.singleton_append]
    refine hchecked.bind fun sum' hsum' u' _ hu' hknows'' => ?_
    exact ih (by rw [hsplit, List.append_assoc, List.singleton_append]) (hfront.trans hsum') hu'
      hknows''

/-- Abstraction has the result of putting keys in the place of calls. Afterwards the
table knows the expression, or abstraction is stuck in it. -/
theorem runs_substitute {e : Expr}
    (hP : ∀ c d, (Factor.call c).OccursIn e → c.substituteArgs .keys = .ok d → P d)
    (ht : t.WellKept P) :
    Runs P (e.substitute .filing) e.keyed t (·.Knows e) (·.Stuck e) := by
  induction e using Expr.induction generalizing t with
  | step e ih =>
    have hfactor : ∀ v ∈ e.terms, ∀ t : CallTable, t.WellKept P →
        Runs P (v.factor.substitute .filing) (v.factor.substitute .keys) t
          (fun u => u.KnowsFactor v.factor ∧ ∀ a ∈ v.factor.args, u.Knows a) (·.Stuck e) := by
      intro v hv t ht
      refine runs_factor (fun a ha t ht => ?_) (fun c d hc => ?_) ht
      · have harg := ih v hv a ha (fun c d hc => hP c d (hc.arg hv ha)) ht
        exact harg.imp (fun _ _ hK => hK) (fun _ _ hS => hS.arg hv ha)
      · have hcall : (Factor.call c).OccursIn e := hc ▸ .summand hv
        exact hP c d hcall
    have hempty : t.Knows 0 := CallTable.knows_iff.mpr nofun
    obtain ⟨ts⟩ := e
    have hsplit : (Expr.mk ts).terms = [] ++ ts := rfl
    exact runs_substituteOnto hsplit rfl hfactor ht hempty

end Filing

namespace CallTable

variable {P C : Call → Prop} {E : Expr → Prop} {t u : CallTable} {e : Expr}

/-- Abstraction has the result of putting keys in the place of calls, and it keeps the
table well kept. Afterwards the table knows the expression, or abstraction is stuck. -/
theorem WellKept.abstract (ht : t.WellKept P)
    (hP : ∀ c d, (Factor.call c).OccursIn e → c.substituteArgs .keys = .ok d → P d) :
    (t.abstract e).1 = e.keyed ∧ t ≤ (t.abstract e).2 ∧ (t.abstract e).2.WellKept P ∧
      (∀ r, e.keyed = .ok r → (t.abstract e).2.Knows e) ∧
      ∀ o, e.keyed = .error o → (t.abstract e).2.Stuck e := by
  have hruns := Filing.runs_substitute hP ht
  exact ⟨hruns.result, hruns.le, hruns.wellKept, hruns.known, hruns.stuck⟩

/-- Along a run, tables only grow and stay well kept. -/
theorem Leads.wellKept (h : Leads C E t u) (ht : t.WellKept P) (hC : ∀ c, C c → P c)
    (hE : ∀ e c d, E e → (Factor.call c).OccursIn e → c.substituteArgs .keys = .ok d → P d) :
    t ≤ u ∧ u.WellKept P := by
  induction h with
  | refl => exact ⟨le_refl t, ht⟩
  | insert _ hc ih =>
    obtain ⟨hle, hu⟩ := ih
    exact ⟨hle.trans (le_insert _ _), hu.insert (hC _ hc)⟩
  | abstract _ he ih =>
    obtain ⟨hle, hu⟩ := ih
    obtain ⟨_, hle', hu', _⟩ := hu.abstract fun c d hc => hE _ c d he hc
    exact ⟨hle.trans hle', hu'⟩

/-- Along a run of plain calls and expressions, all the calls of the tables are plain. -/
theorem Leads.plain (h : Leads Call.Plain Expr.Plain t u) (ht : t.WellKept Call.Plain) :
    t ≤ u ∧ u.WellKept Call.Plain :=
  h.wellKept ht (fun _ hc => hc) fun _ _ _ he hc hd => (he.call hc).substituteArgs hd

end CallTable

end AffineCalls
