import AffineCalls.Proofs.Text.Name

/-!
# Where words and gaps end

A word is a longest run of characters of one class, and a gap is a run of
separators. If what follows does not go on with the class, a text can be cut in one
way only. The first character behind a gap decides how a text goes on.
-/

namespace AffineCalls.Text

/-- `Skip cs ds`: the text `ds` is what is left of `cs` after some separators, maybe none. -/
def Skip (cs ds : List Char) : Prop :=
  ∃ bs : List Char, (∀ b ∈ bs, isSeparator b) ∧ cs = bs ++ ds

/-- The text is a run of digits that spells the given number. -/
structure SpellsNumber (ds : List Char) (n : Nat) : Prop where
  /-- There is a digit. -/
  ne_nil : ds ≠ []
  /-- Every character is a digit. -/
  digits : ∀ d ∈ ds, d.isDigit
  /-- The digits spell the number. -/
  value_eq : value ds = n

/-- The text does not start with a character of the class. -/
def Stops (p : Char → Bool) (cs : List Char) : Prop := cs.head?.any p = false

/-- The first character behind the separators. -/
def next? (cs : List Char) : Option Char := (cs.dropWhile isSeparator).head?

/-! ## Words -/

theorem stops_cons {p : Char → Bool} {c : Char} {cs : List Char} :
    Stops p (c :: cs) ↔ p c = false := by
  rw [Stops, List.head?_cons, Option.any_some]

/-- What starts with no character of a class starts with none of a smaller class. -/
theorem Stops.mono {p q : Char → Bool} {cs : List Char} (h : Stops q cs)
    (hpq : ∀ c, p c → q c) : Stops p cs := by
  cases cs with
  | nil => rfl
  | cons c cs =>
    rw [stops_cons, Bool.eq_false_iff] at h ⊢
    intro hc
    exact h (hpq c hc)

/-- If a character of a class starts a text but not the rest behind a word, it starts
the word. -/
theorem Stops.any_head? {p : Char → Bool} {cs rest : List Char} (hrest : Stops p rest)
    (h : (cs ++ rest).head?.any p) : cs.head?.any p := by
  cases cs with
  | nil =>
    rw [List.nil_append] at h
    exact absurd h (Bool.eq_false_iff.mp hrest)
  | cons c cs => exact h

/-- A run is the longest one if the text stops behind it. -/
theorem takeWhile_append_of_stops {p : Char → Bool} {cs rest : List Char}
    (hcs : ∀ c ∈ cs, p c) (hrest : Stops p rest) : (cs ++ rest).takeWhile p = cs := by
  rw [List.takeWhile_append_of_pos hcs]
  cases rest with
  | nil => exact List.append_nil cs
  | cons c rest =>
    rw [List.takeWhile_cons_of_neg (by rw [stops_cons.mp hrest]; decide), List.append_nil]

/-- The rest is left over if the text stops behind a run. -/
theorem dropWhile_append_of_stops {p : Char → Bool} {cs rest : List Char}
    (hcs : ∀ c ∈ cs, p c) (hrest : Stops p rest) : (cs ++ rest).dropWhile p = rest := by
  rw [List.dropWhile_append_of_pos hcs]
  cases rest with
  | nil => rfl
  | cons c rest => rw [List.dropWhile_cons_of_neg (by rw [stops_cons.mp hrest]; decide)]

/-- A text can be cut behind its first word in one way only. -/
theorem word_unique {p : Char → Bool} {cs ds rest rest' : List Char} (hcs : ∀ c ∈ cs, p c)
    (hds : ∀ d ∈ ds, p d) (hrest : Stops p rest) (hrest' : Stops p rest')
    (h : cs ++ rest = ds ++ rest') : cs = ds ∧ rest = rest' := by
  have hword := takeWhile_append_of_stops hcs hrest
  have hleft := dropWhile_append_of_stops hcs hrest
  rw [h] at hword hleft
  exact ⟨hword.symm.trans (takeWhile_append_of_stops hds hrest'),
    hleft.symm.trans (dropWhile_append_of_stops hds hrest')⟩

/-- The letters `__tv` are characters of identifiers. -/
theorem SpellsPosition.isIdentChar {cs : List Char} {i : Nat} (h : SpellsPosition cs i) :
    ∀ c ∈ cs, isIdentChar c := by
  obtain ⟨ds, rfl, _, hds, _⟩ := h
  intro c hc
  rcases List.mem_append.mp hc with hc | hc
  · have hmark : "__tv".toList.all Text.isIdentChar := by decide
    exact List.all_eq_true.mp hmark c hc
  · exact isIdentChar_of_isDigit (hds c hc)

/-- A text spells one index at most. -/
theorem SpellsPosition.unique {cs : List Char} {i j : Nat} (hi : SpellsPosition cs i)
    (hj : SpellsPosition cs j) : i = j := by
  obtain ⟨ds, rfl, _, _, rfl, _⟩ := hi
  obtain ⟨ds', hds', _, _, rfl, _⟩ := hj
  rw [List.append_cancel_left hds']

/-- A number starts with a digit. -/
theorem SpellsNumber.exists_cons {ds : List Char} {n : Nat} (h : SpellsNumber ds n) :
    ∃ d es, ds = d :: es ∧ d.isDigit := by
  cases ds with
  | nil => exact absurd rfl h.ne_nil
  | cons d es => exact ⟨d, es, rfl, h.digits d List.mem_cons_self⟩

/-- No number starts with a character that is no digit. -/
theorem SpellsNumber.ne_cons {ds cs cs₁ : List Char} {c : Char} {n : Nat}
    (h : SpellsNumber ds n) (hc : c.isDigit = false) : ds ++ cs ≠ c :: cs₁ := by
  intro heq
  obtain ⟨d, es, rfl, hd⟩ := h.exists_cons
  obtain rfl : d = c := (List.cons.inj heq).1
  exact Bool.eq_false_iff.mp hc hd

/-- The decimal form of a number spells the number. -/
theorem spellsNumber_digits (n : Nat) : SpellsNumber (digits n) n :=
  ⟨digits_ne_nil n, fun _ => isDigit_of_mem_digits, value_digits n⟩

/-! ## Gaps -/

/-- A gap may be empty. -/
theorem Skip.refl (cs : List Char) : Skip cs cs := ⟨[], nofun, rfl⟩

/-- A separator is a gap. -/
theorem skip_cons {b : Char} (hb : isSeparator b) (cs : List Char) : Skip (b :: cs) cs :=
  ⟨[b], List.forall_mem_singleton.mpr hb, rfl⟩

/-- The longest gap leads to what follows all separators. -/
theorem skip_dropWhile (cs : List Char) : Skip cs (cs.dropWhile isSeparator) :=
  ⟨cs.takeWhile isSeparator, List.all_eq_true.mp List.all_takeWhile,
    List.takeWhile_append_dropWhile.symm⟩

/-- Two gaps make one gap. -/
theorem Skip.trans {cs ds es : List Char} (h : Skip cs ds) (h' : Skip ds es) : Skip cs es := by
  obtain ⟨bs, hbs, rfl⟩ := h
  obtain ⟨bs', hbs', rfl⟩ := h'
  refine ⟨bs ++ bs', fun b hb => ?_, (List.append_assoc _ _ _).symm⟩
  exact (List.mem_append.mp hb).elim (hbs b) (hbs' b)

/-- What is left behind a gap is no longer than the text. -/
theorem Skip.length_le {cs ds : List Char} (h : Skip cs ds) : ds.length ≤ cs.length := by
  obtain ⟨bs, _, rfl⟩ := h
  rw [List.length_append]
  omega

/-- What is left behind a gap and a mark is shorter than the text. -/
theorem Skip.length_lt {c : Char} {cs ds : List Char} (h : Skip cs (c :: ds)) :
    ds.length < cs.length := by
  have hle := h.length_le
  rw [List.length_cons] at hle
  omega

/-- The separators that follow are the same before a gap and behind it. -/
theorem Skip.dropWhile_eq {cs ds : List Char} (h : Skip cs ds) :
    cs.dropWhile isSeparator = ds.dropWhile isSeparator := by
  obtain ⟨bs, hbs, rfl⟩ := h
  exact List.dropWhile_append_of_pos hbs

/-- A gap does not change the first character behind the separators. -/
theorem Skip.next?_eq {cs ds : List Char} (h : Skip cs ds) : next? cs = next? ds := by
  rw [next?, h.dropWhile_eq, next?]

/-- A character other than a separator is the first one behind the separators. -/
theorem next?_cons {c : Char} (hc : isSeparator c = false) (cs : List Char) :
    next? (c :: cs) = some c := by
  rw [next?, List.dropWhile_cons_of_neg (by rw [hc]; decide), List.head?_cons]

/-- A gap in front of a text that starts with no separator is the longest one. -/
theorem Skip.dropWhile_eq_of_stops {cs ds : List Char} (h : Skip cs ds)
    (hds : Stops isSeparator ds) : cs.dropWhile isSeparator = ds := by
  rw [h.dropWhile_eq]
  exact @dropWhile_append_of_stops isSeparator [] ds nofun hds

/-- The texts behind the separators of one text agree. -/
theorem Skip.unique {cs ds es : List Char} (h : Skip cs ds) (h' : Skip cs es)
    (hds : Stops isSeparator ds) (hes : Stops isSeparator es) : ds = es :=
  (h.dropWhile_eq_of_stops hds).symm.trans (h'.dropWhile_eq_of_stops hes)

/-- The marks behind the separators of one text agree. -/
theorem Skip.mark_unique {c d : Char} {cs ds es : List Char} (h : Skip cs (c :: ds))
    (h' : Skip cs (d :: es)) (hc : isSeparator c = false) (hd : isSeparator d = false) :
    c = d ∧ ds = es :=
  List.cons.inj (h.unique h' (stops_cons.mpr hc) (stops_cons.mpr hd))

end AffineCalls.Text
