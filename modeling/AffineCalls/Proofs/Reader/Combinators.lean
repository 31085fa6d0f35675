import AffineCalls.Reader.Taken

/-!
# Successful reading

When a reader succeeds, the way it was made says how: a fixed piece of text stands
in front, a repetition consists of steps, and a rule that refers to itself has read
its parts in the same way. These are the inversions by which a grammar is compared
with its readers.
-/

namespace AffineCalls.Reader

variable {α β : Type}

/-- A reader fails where there is nothing that it takes. -/
theorem taken_eq_none_iff {p : Reader α} {cs : List Char} :
    p.taken cs = none ↔ ∀ a rest, p.taken cs ≠ some (a, rest) := by
  rw [Option.eq_none_iff_forall_ne_some, Prod.forall]

/-- Two readers one after the other fail where the first one does. -/
theorem taken_bind_of_eq_none {p : Reader α} {f : α → Reader β} {cs : List Char}
    (h : p.taken cs = none) : (p >>= f).taken cs = none := by
  rw [taken_bind, h, Option.bind_none]

/-- The second of two readers has read what the first one left. -/
theorem taken_bind_eq_some {p : Reader α} {f : α → Reader β} {cs rest : List Char} {b : β} :
    (p >>= f).taken cs = some (b, rest) ↔
      ∃ a mid, p.taken cs = some (a, mid) ∧ (f a).taken mid = some (b, rest) := by
  rw [taken_bind, Option.bind_eq_some_iff]
  constructor
  · rintro ⟨⟨a, mid⟩, ha, h⟩
    exact ⟨a, mid, ha, h⟩
  · rintro ⟨a, mid, ha, h⟩
    exact ⟨⟨a, mid⟩, ha, h⟩

/-- A choice has read what the first alternative reads, or else the second one. -/
theorem taken_orElse_eq_some {p q : Reader α} {cs rest : List Char} {a : α} :
    (p <|> q).taken cs = some (a, rest) ↔
      p.taken cs = some (a, rest) ∨ p.taken cs = none ∧ q.taken cs = some (a, rest) := by
  rw [taken_orElse, Option.or_eq_some_iff]

/-- The result of a check is taken where it is no failure. -/
theorem taken_inRange_eq_some {ε : Type} {x : Except ε α} {cs rest : List Char} {a : α} :
    (inRange x).taken cs = some (a, rest) ↔ x = .ok a ∧ cs = rest := by
  rw [taken_inRange]
  cases x <;> simp [Except.toOption]

/-- A value that was computed is taken where there is one. -/
theorem taken_ofOption_eq_some {e : Expectation} {x : Option α} {cs rest : List Char} {a : α} :
    (ofOption e x).taken cs = some (a, rest) ↔ x = some a ∧ cs = rest := by
  rw [taken_ofOption]
  cases x <;> simp

/-- A fixed piece of text is taken exactly where it stands. -/
theorem taken_literal_eq_some {s : String} {cs rest : List Char} {u : Unit} :
    (literal s).taken cs = some (u, rest) ↔ cs = s.toList ++ rest := by
  rw [taken_literal]
  constructor
  · intro h
    split at h
    · next hfront =>
      obtain ⟨ds, rfl⟩ := hfront
      rw [List.drop_left, Option.some.injEq, Prod.mk.injEq] at h
      rw [h.2]
    · exact nomatch h
  · rintro rfl
    rw [if_pos (List.prefix_append _ _), List.drop_left]

/-- A value that takes no text ends the repetition. -/
theorem taken_many_of_not_lt {p : Reader α} {cs rest : List Char} {a : α}
    (h : p.taken cs = some (a, rest)) (hle : ¬rest.length < cs.length) :
    p.many.taken cs = some ([a], rest) := by
  change (p.manyReply (.before cs)).result.map _ = _
  rw [taken] at h
  rw [manyReply]
  rcases hp : p.reply (.before cs) with ⟨_ | ⟨b, k⟩, w⟩
  · rw [hp] at h
    cases h
  · rw [hp] at h
    obtain ⟨rfl, rfl⟩ : b = a ∧ k.rest = rest := by simpa using h
    have hleft : ¬k.left < (Cursor.before cs).left := by rw [k.left_eq]; exact hle
    simp only [hleft, if_false]
    rfl

/-- What a repetition reads consists of what its steps read one after the other. -/
theorem taken_many_induction {p : Reader α} {R : List Char → List α → List Char → Prop}
    (nil : ∀ cs, R cs [] cs)
    (cons : ∀ cs a mid as rest, p.taken cs = some (a, mid) → R mid as rest →
      R cs (a :: as) rest)
    {cs rest : List Char} {as : List α} (h : p.many.taken cs = some (as, rest)) :
    R cs as rest := by
  induction hn : cs.length using Nat.strongRecOn generalizing cs as with
  | _ n ih =>
    cases hp : p.taken cs with
    | none =>
      rw [taken_many_of_eq_none hp, Option.some.injEq, Prod.mk.injEq] at h
      obtain ⟨rfl, rfl⟩ := h
      exact nil _
    | some x =>
      obtain ⟨a, mid⟩ := x
      by_cases hlt : mid.length < cs.length
      · rw [taken_many_of_eq_some hp hlt, Option.map_eq_some_iff] at h
        obtain ⟨⟨as', rest'⟩, hmany, heq⟩ := h
        cases heq
        exact cons cs a mid as' _ hp (ih mid.length (hn ▸ hlt) hmany rfl)
      · rw [taken_many_of_not_lt hp hlt, Option.some.injEq, Prod.mk.injEq] at h
        obtain ⟨rfl, rfl⟩ := h
        exact cons _ a _ [] _ hp (nil _)

/-- A separated list starts with a value, or it is empty where no value can be read. -/
theorem taken_sepBy_eq_some {p : Reader α} {sep : Reader Unit} {cs rest : List Char}
    {as : List α} (h : (sepBy p sep).taken cs = some (as, rest)) :
    (∃ a mid as', p.taken cs = some (a, mid) ∧
      (many (do sep; p)).taken mid = some (as', rest) ∧ as = a :: as') ∨
    (as = [] ∧ rest = cs) := by
  rw [sepBy] at h
  rcases taken_orElse_eq_some.mp h with h | ⟨_, h⟩
  · obtain ⟨a, mid, ha, h⟩ := taken_bind_eq_some.mp h
    obtain ⟨as', rest', has, h⟩ := taken_bind_eq_some.mp h
    cases h
    exact .inl ⟨a, mid, as', ha, has, rfl⟩
  · cases h
    exact .inr ⟨rfl, rfl⟩

/-- A separated list is read when its first value and the others are. -/
theorem taken_sepBy_of_eq_some {p : Reader α} {sep : Reader Unit} {cs mid rest : List Char}
    {a : α} {as : List α} (ha : p.taken cs = some (a, mid))
    (has : (many (do sep; p)).taken mid = some (as, rest)) :
    (sepBy p sep).taken cs = some (a :: as, rest) := by
  rw [sepBy]
  refine taken_orElse_eq_some.mpr (.inl ?_)
  exact taken_bind_eq_some.mpr ⟨a, mid, ha, taken_bind_eq_some.mpr ⟨as, rest, has, rfl⟩⟩

/-- A separated list is empty where no value can be read. -/
theorem taken_sepBy_of_eq_none {p : Reader α} {sep : Reader Unit} {cs : List Char}
    (h : p.taken cs = none) : (sepBy p sep).taken cs = some ([], cs) := by
  rw [sepBy, taken_orElse, taken_bind, h, Option.bind_none, Option.none_or, taken_pure]

/-- What passes from the parts of a rule to the whole holds of all that the rule reads. -/
theorem taken_fix_induction {rule : Reader α → Reader α}
    {R : List Char → α → List Char → Prop}
    (step : ∀ p : Reader α, (∀ cs a rest, p.taken cs = some (a, rest) → R cs a rest) →
      ∀ cs a rest, (rule p).taken cs = some (a, rest) → R cs a rest)
    {cs rest : List Char} {a : α} (h : (fix rule).taken cs = some (a, rest)) : R cs a rest := by
  induction hn : cs.length using Nat.strongRecOn generalizing cs a rest with
  | _ n ih =>
    rw [taken_fix] at h
    refine step _ (fun ds b rest' hb => ?_) cs a rest h
    rw [taken_below] at hb
    split at hb
    · next hlt => exact ih ds.length (hn ▸ hlt) hb rfl
    · exact nomatch hb

end AffineCalls.Reader
