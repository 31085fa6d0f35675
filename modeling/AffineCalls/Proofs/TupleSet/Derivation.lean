import AffineCalls.Proofs.Notation.Grammar
import AffineCalls.Proofs.TupleSet.Grammar
import AffineCalls.Proofs.TupleSet.Resolve

/-!
# Derivations of sets

A derivation of a text as a set is a form that the text spells and whose numbers are all
at most the greatest coefficient. What it denotes is said here without computing it: the
coordinates one by one, and for each chain the comparisons of its neighbours. A text is read
as the set that its derivation denotes, and as nothing if there is no such derivation.
-/

namespace AffineCalls

/-! ## Numbers -/

/-- The numbers written in a coordinate. -/
def CoordinateForm.numbers : CoordinateForm → List Nat
  | .name _ => []
  | .number n => [n]
  | .negated n => [n]

/-- The expressions of a chain. -/
def ChainForm.sums (c : ChainForm) : List SumForm :=
  c.first :: (c.link :: c.links).map LinkForm.rhs

/-- The comparisons between the expressions of a chain. -/
def ChainForm.comparisons (c : ChainForm) : List Comparison :=
  (c.link :: c.links).map LinkForm.comparison

/-- The numbers written in a chain. -/
def ChainForm.numbers (c : ChainForm) : List Nat :=
  c.sums.flatMap SumForm.numbers

/-- The numbers written in a set. -/
def SetForm.numbers (d : SetForm) : List Nat :=
  d.tuple.flatMap CoordinateForm.numbers ++ (d.chains.getD []).flatMap ChainForm.numbers

/-- `d.DerivedFrom cs`: the form is a derivation of the whole text. -/
structure SetForm.DerivedFrom (d : SetForm) (cs : List Char) : Prop where
  /-- The text spells the form. -/
  spelled : d.Spelled cs []
  /-- Every number in the form is at most the greatest coefficient. -/
  numbers : ∀ n ∈ d.numbers, n ≤ 9223372036854775807

/-! ## What derivations denote -/

/-- `a.Denotes x`: the coordinate is what the form says. -/
inductive CoordinateForm.Denotes : CoordinateForm → Coordinate → Prop
  | name (name : String) : CoordinateForm.Denotes (.name name) (.name name)
  | number {n : Nat} {c : Coeff} (h : c.val = n) : CoordinateForm.Denotes (.number n) (.fixed c)
  | negated {n : Nat} {c : Coeff} (h : c.val = -n) :
    CoordinateForm.Denotes (.negated n) (.fixed c)

/-- The constraints are the comparisons of neighbouring expressions. -/
structure Constraint.Neighbours (es : List Expr) (comparisons : List Comparison)
    (cs : List Constraint) : Prop where
  /-- The left sides are all the expressions but the last one. -/
  lhs : cs.map Constraint.lhs = es.dropLast
  /-- The comparisons are those given. -/
  comparison : cs.map Constraint.comparison = comparisons
  /-- The right sides are all the expressions but the first one. -/
  rhs : cs.map Constraint.rhs = es.tail

/-- `c.Denotes cs`: the constraints are what the chain says. -/
def ChainForm.Denotes (c : ChainForm) (cs : List Constraint) : Prop :=
  ∃ es, List.Forall₂ (fun s e => s.eval = .ok e) c.sums es ∧
    Constraint.Neighbours es c.comparisons cs

/-- `d.Denotes s`: the set is what the form says. -/
structure SetForm.Denotes (d : SetForm) (s : TupleSet) : Prop where
  /-- The coordinates are those of the form. -/
  tuple : List.Forall₂ CoordinateForm.Denotes d.tuple s.tuple
  /-- The constraints are those of the chains, with the names of coordinates resolved. -/
  constraints : ∃ css, List.Forall₂ ChainForm.Denotes (d.chains.getD []) css ∧
    TupleSet.ofConstraints s.tuple css.flatten = .ok s

/-- A number of at most the greatest coefficient is a coefficient. -/
theorem Coeff.exists_checked {n : Nat} (h : n ≤ 9223372036854775807) :
    ∃ c, checked n = .ok c :=
  ⟨⟨n, by omega, by omega⟩, checked_eq_ok_iff.mpr rfl⟩

/-- A coordinate stands for what it denotes if its number is in range without the sign. -/
theorem CoordinateForm.eval_eq_ok_iff {a : CoordinateForm} {x : Coordinate} :
    a.eval = .ok x ↔ (∀ n ∈ a.numbers, n ≤ 9223372036854775807) ∧ a.Denotes x := by
  constructor
  · intro h
    cases a with
    | name name =>
      cases h
      exact ⟨nofun, .name name⟩
    | number n =>
      obtain ⟨c, hc, rfl⟩ := CoordinateForm.eval_number_eq_ok.mp h
      exact ⟨List.forall_mem_singleton.mpr (Coeff.le_of_checked hc),
        .number (Coeff.checked_eq_ok_iff.mp hc)⟩
    | negated n =>
      obtain ⟨c, hc, c', hc', rfl⟩ := CoordinateForm.eval_negated_eq_ok.mp h
      refine ⟨List.forall_mem_singleton.mpr (Coeff.le_of_checked hc), .negated ?_⟩
      rw [Coeff.checked_eq_ok_iff.mp hc', Coeff.checked_eq_ok_iff.mp hc]
  · rintro ⟨hnumbers, hx⟩
    cases hx with
    | name name => rfl
    | @number n c hc =>
      exact CoordinateForm.eval_number_eq_ok.mpr ⟨c, Coeff.checked_eq_ok_iff.mpr hc, rfl⟩
    | @negated n c hc =>
      obtain ⟨c', hc'⟩ := Coeff.exists_checked (hnumbers n List.mem_cons_self)
      have hneg : Coeff.checked (-c'.val) = .ok c := by
        rw [Coeff.checked_eq_ok_iff, Coeff.checked_eq_ok_iff.mp hc', hc]
      exact CoordinateForm.eval_negated_eq_ok.mpr ⟨c', hc', c, hneg, rfl⟩

/-! ## Chains -/

/-- The constraints of a chain are the comparisons of its neighbours and nothing else. -/
theorem Constraint.ofChain_eq_iff {first : Expr} {links : List (Comparison × Expr)}
    {cs : List Constraint} :
    ofChain first links = cs ↔
      Neighbours (first :: links.map Prod.snd) (links.map Prod.fst) cs := by
  induction links generalizing first cs with
  | nil =>
    constructor
    · rintro rfl
      exact ⟨rfl, rfl, rfl⟩
    · intro h
      exact (List.map_eq_nil_iff.mp h.comparison).symm
  | cons l links ih =>
    obtain ⟨comparison, next⟩ := l
    constructor
    · rintro rfl
      obtain ⟨hlhs, hcomparison, hrhs⟩ := ih.mp (Eq.refl (ofChain next links))
      exact ⟨congrArg (first :: ·) hlhs, congrArg (comparison :: ·) hcomparison,
        congrArg (next :: ·) hrhs⟩
    · rintro ⟨hlhs, hcomparison, hrhs⟩
      obtain ⟨c, cs, rfl, rfl, hcomparisons⟩ := List.map_eq_cons_iff.mp hcomparison
      obtain ⟨rfl, hlefts⟩ := List.cons.inj hlhs
      obtain ⟨rfl, hrights⟩ := List.cons.inj hrhs
      exact congrArg (c :: ·) (ih.mpr ⟨hlefts, hcomparisons, hrights⟩)

/-- The values of links are their comparisons with the values of their right sides. -/
theorem LinkForm.mapM_eval_eq_ok {ls : List LinkForm} {xs : List (Comparison × Expr)} :
    ls.mapM LinkForm.eval = .ok xs ↔
      List.Forall₂ (fun s e => s.eval = .ok e) (ls.map LinkForm.rhs) (xs.map Prod.snd) ∧
        xs.map Prod.fst = ls.map LinkForm.comparison := by
  rw [mapM_eq_ok]
  induction ls generalizing xs with
  | nil =>
    constructor
    · rintro ⟨⟩
      exact ⟨.nil, rfl⟩
    · rintro ⟨_, h⟩
      rw [List.map_eq_nil_iff.mp h]
      exact .nil
  | cons l ls ih =>
    constructor
    · rintro (_ | ⟨hl, hls⟩)
      obtain ⟨e, he, rfl⟩ := LinkForm.eval_eq_ok.mp hl
      obtain ⟨hvalues, hcomparisons⟩ := ih.mp hls
      exact ⟨.cons he hvalues, congrArg (l.comparison :: ·) hcomparisons⟩
    · rintro ⟨hvalues, hcomparisons⟩
      obtain ⟨x, xs, rfl, hx, hrest⟩ := List.map_eq_cons_iff.mp hcomparisons
      obtain _ | ⟨he, hvalues⟩ := hvalues
      exact .cons (LinkForm.eval_eq_ok.mpr ⟨x.2, he, hx ▸ rfl⟩) (ih.mpr ⟨hvalues, hrest⟩)

/-- A chain stands for what it denotes, and then its numbers are in range. -/
theorem ChainForm.eval_eq_ok_iff {c : ChainForm} {cs : List Constraint} :
    c.eval = .ok cs ↔ (∀ n ∈ c.numbers, n ≤ 9223372036854775807) ∧ c.Denotes cs := by
  rw [ChainForm.eval_eq_ok]
  constructor
  · rintro ⟨first, hfirst, links, hlinks, hcs⟩
    obtain ⟨hvalues, hcomparisons⟩ := LinkForm.mapM_eval_eq_ok.mp hlinks
    have hneighbours := Constraint.ofChain_eq_iff.mp hcs
    rw [hcomparisons] at hneighbours
    have hsums : List.Forall₂ (fun s e => s.eval = .ok e) c.sums _ := .cons hfirst hvalues
    refine ⟨List.forall_mem_flatMap.mpr fun s hs => ?_, _, hsums, hneighbours⟩
    obtain ⟨e, _, he⟩ := exists_of_forall₂ hsums hs
    exact SumForm.numbers_le he
  · rintro ⟨_, es, hsums, hneighbours⟩
    obtain ⟨first, rest, hfirst, hrest, rfl⟩ := List.forall₂_cons_left_iff.mp hsums
    have hlength : rest.length = c.comparisons.length := by
      rw [← hrest.length_eq, List.length_map, comparisons, List.length_map]
    have hcomparisons := List.map_fst_zip (Nat.le_of_eq hlength.symm)
    have hvalues := List.map_snd_zip (Nat.le_of_eq hlength)
    refine ⟨first, hfirst, c.comparisons.zip rest, LinkForm.mapM_eval_eq_ok.mpr ⟨?_, ?_⟩,
      Constraint.ofChain_eq_iff.mpr ?_⟩
    · rw [hvalues]
      exact hrest
    · exact hcomparisons
    · rw [hvalues, hcomparisons]
      exact hneighbours

/-! ## Sets -/

/-- A form of a set stands for what it denotes, and then its numbers are in range. -/
theorem SetForm.eval_eq_ok_iff {d : SetForm} {s : TupleSet} :
    d.eval = .ok s ↔ (∀ n ∈ d.numbers, n ≤ 9223372036854775807) ∧ d.Denotes s := by
  have htuple : ∀ {xs}, d.tuple.mapM CoordinateForm.eval = .ok xs ↔
      (∀ a ∈ d.tuple, ∀ n ∈ a.numbers, n ≤ 9223372036854775807) ∧
        List.Forall₂ CoordinateForm.Denotes d.tuple xs := by
    intro xs
    simp only [mapM_eq_ok, CoordinateForm.eval_eq_ok_iff, List.forall₂_and_left]
  have hchains : ∀ {css}, (d.chains.getD []).mapM ChainForm.eval = .ok css ↔
      (∀ c ∈ d.chains.getD [], ∀ n ∈ c.numbers, n ≤ 9223372036854775807) ∧
        List.Forall₂ ChainForm.Denotes (d.chains.getD []) css := by
    intro css
    simp only [mapM_eq_ok, ChainForm.eval_eq_ok_iff, List.forall₂_and_left]
  rw [SetForm.eval_eq_ok, numbers, List.forall_mem_append, List.forall_mem_flatMap,
    List.forall_mem_flatMap]
  constructor
  · rintro ⟨tuple, hxs, css, hcss, hset⟩
    obtain ⟨rfl, _⟩ := TupleSet.ofConstraints_eq_ok.mp hset
    obtain ⟨hle, hxs⟩ := htuple.mp hxs
    obtain ⟨hle', hcss⟩ := hchains.mp hcss
    exact ⟨⟨hle, hle'⟩, hxs, css, hcss, hset⟩
  · rintro ⟨⟨hle, hle'⟩, hxs, css, hcss, hset⟩
    exact ⟨s.tuple, htuple.mpr ⟨hle, hxs⟩, css, hchains.mpr ⟨hle', hcss⟩, hset⟩

/-- A text is read as a set exactly when it has a derivation that denotes the set, and no text
has two derivations. Whatever is read as a number may be negated. -/
theorem TupleSet.parse_iff_denotes :
    (∀ (t : String) (s : TupleSet), TupleSet.parse t = .ok s ↔
      ∃ d : SetForm, d.DerivedFrom (Text.trim t.toList) ∧ d.Denotes s) ∧
    (∀ (cs : List Char) (d d' : SetForm), d.DerivedFrom cs → d'.DerivedFrom cs → d = d') ∧
    ∀ (cs rest : List Char) (n : Coeff), Reader.number.taken cs = some (n, rest) →
      Coeff.InRange (-n.val) := by
  refine ⟨fun t s => ?_, fun cs d d' hd hd' => (hd.spelled.unique hd'.spelled).1,
    fun cs rest n hn => ?_⟩
  · rw [TupleSet.parse_eq_ok_iff]
    constructor
    · rintro ⟨d, hd, hs⟩
      obtain ⟨hle, hs⟩ := SetForm.eval_eq_ok_iff.mp hs
      exact ⟨d, ⟨hd, hle⟩, hs⟩
    · rintro ⟨d, hd, hs⟩
      exact ⟨d, hd.spelled, SetForm.eval_eq_ok_iff.mpr ⟨hd.numbers, hs⟩⟩
  · obtain ⟨_, m, _, _, _, hm⟩ := Reader.taken_number_eq_some.mp hn
    have hval := Coeff.checked_eq_ok_iff.mp hm
    have hupper := n.upper
    constructor <;> omega

/-- The chain in `{[i,-5]:0<=i<n}` is read as two constraints. The text
`{[-9223372036854775808]}` is refused, as its number is no coefficient without the sign, and
the greatest number that is read may be negated. -/
theorem TupleSet.parse_derivation_chain :
    TupleSet.parse "\x7b[i,-5]:0<=i<n\x7d" = .ok
      ⟨[.name "i", .fixed ⟨-5, by decide, by decide⟩],
        [⟨0, .le, ⟨[⟨1, .position 0⟩]⟩⟩, ⟨⟨[⟨1, .position 0⟩]⟩, .lt, ⟨[⟨1, .symbol "n"⟩]⟩⟩]⟩ ∧
    (∀ s, TupleSet.parse "\x7b[-9223372036854775808]\x7d" ≠ .ok s) ∧
    Coeff.InRange (-9223372036854775807) := by
  obtain ⟨hread, _, hnegated⟩ := TupleSet.parse_iff_denotes
  refine ⟨?_, fun s hs => ?_, ?_⟩
  · have hcoordinates : Text.Separated [','] CoordinateForm.Spelled [.name "i", .negated 5]
        "i,-5]:0<=i<n\x7d".toList "]:0<=i<n\x7d".toList :=
      .cons (.name rfl (by decide)) (.cons ⟨_, _, .refl _, .refl _,
        .negated rfl (.refl _) (Text.spellsNumber_digits 5)⟩ .nil)
    have hi : LinkForm.Spelled ⟨.le, ⟨false, .factor (.symbol "i"), []⟩⟩
        "<=i<n\x7d".toList "<n\x7d".toList :=
      ⟨_, _, .refl _, .refl _, .positive (.factor (.symbol rfl (by decide))) .nil⟩
    have hn : LinkForm.Spelled ⟨.lt, ⟨false, .factor (.symbol "n"), []⟩⟩
        "<n\x7d".toList "\x7d".toList :=
      ⟨_, _, .refl _, .refl _, .positive (.factor (.symbol rfl (by decide))) .nil⟩
    have hchain : ChainForm.Spelled ⟨⟨false, .number 0, []⟩, _, [_]⟩
        "0<=i<n\x7d".toList "\x7d".toList :=
      ⟨_, .positive (.number rfl (Text.spellsNumber_digits 0)) .nil, .cons hi (.cons hn .nil)⟩
    have hset : SetForm.Spelled ⟨[.name "i", .negated 5], some [_]⟩
        "\x7b[i,-5]:0<=i<n\x7d".toList [] :=
      ⟨_, _, _, rfl, .refl _, ⟨_, _, .refl _, hcoordinates, .refl _⟩,
        _, .refl _, _, _, .refl _, .cons hchain .nil, .refl _⟩
    exact (hread _ _).mpr ⟨_, ⟨hset, by decide⟩, (SetForm.eval_eq_ok_iff.mp rfl).2⟩
  · obtain ⟨d, hd, _⟩ := (hread _ s).mp hs
    have hleast : SetForm.Spelled ⟨[.negated 9223372036854775808], none⟩
        "\x7b[-9223372036854775808]\x7d".toList [] :=
      ⟨_, _, _, rfl, .refl _, ⟨_, _, .refl _,
        .cons (.negated rfl (.refl _) (Text.spellsNumber_digits _)) .nil, .refl _⟩, .refl _⟩
    obtain ⟨rfl, _⟩ := hd.spelled.unique hleast
    exact absurd (hd.numbers 9223372036854775808 List.mem_cons_self) (by decide)
  · have htaken : Reader.number.taken "9223372036854775807".toList =
        some (⟨9223372036854775807, by decide, by decide⟩, []) :=
      Reader.taken_number_eq_some.mpr
        ⟨_, _, rfl, Text.spellsNumber_digits 9223372036854775807, rfl, rfl⟩
    exact hnegated _ _ _ htaken

end AffineCalls
