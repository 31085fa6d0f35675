import AffineCalls.Reader.Report

/-!
# What a reader takes

Apart from what it expects, a reader is a partial function that splits a text into
a value and the rest. This file describes that function for each way of making a
reader, so that a grammar is reasoned about without cursors and expectations.
-/

namespace AffineCalls.Reader

variable {α β : Type}

/-- What a reader takes from the front of a text, and the rest of the text. -/
def taken (p : Reader α) (cs : List Char) : Option (α × List Char) :=
  (p.reply (.before cs)).result.map fun x => (x.1, x.2.rest)

/-- What a reader takes depends on the text at the cursor only. -/
theorem map_result (p : Reader α) (k : Cursor) :
    (p.reply k).result.map (fun x => (x.1, x.2.rest)) = p.taken k.rest := by
  rw [taken, ← k.eq_before]

/-- Nothing is taken for a value that is given. -/
@[simp] theorem taken_pure (a : α) (cs : List Char) :
    (pure a : Reader α).taken cs = some (a, cs) := rfl

/-- The second reader goes on where the first one stops. -/
@[simp] theorem taken_bind (p : Reader α) (f : α → Reader β) (cs : List Char) :
    (p >>= f).taken cs = (p.taken cs).bind fun x => (f x.1).taken x.2 := by
  change ((Reader.bind p f).reply (.before cs)).result.map _ = _
  simp only [Reader.bind, taken]
  rcases p.reply (.before cs) with ⟨_ | ⟨a, k⟩, w⟩
  · rfl
  · exact map_result (f a) k

/-- The second alternative counts where the first one fails. -/
@[simp] theorem taken_orElse (p q : Reader α) (cs : List Char) :
    (p <|> q).taken cs = (p.taken cs).or (q.taken cs) := by
  change ((Reader.orElse p fun _ => q).reply (.before cs)).result.map _ = _
  simp only [Reader.orElse, taken]
  rcases p.reply (.before cs) with ⟨_ | ⟨a, k⟩, w⟩ <;> rfl

/-- A fixed piece of text is taken as a whole. -/
theorem taken_literal (s : String) (cs : List Char) :
    (literal s).taken cs =
      if s.toList <+: cs then some ((), cs.drop s.toList.length) else none := by
  by_cases h : s.toList <+: cs <;> simp [taken, literal, h]

/-- A run goes up to the first character that is not of the class. -/
@[simp] theorem taken_span (p : Char → Bool) (cs : List Char) :
    (span p).taken cs = some (cs.takeWhile p, cs.dropWhile p) := by
  have h : cs.drop (cs.takeWhile p).length = cs.dropWhile p := by
    conv => lhs; arg 2; rw [← List.takeWhile_append_dropWhile (p := p) (l := cs)]
    rw [List.drop_left]
  exact congrArg (fun rest => some (cs.takeWhile p, rest)) h

theorem taken_startingWith (p : Char → Bool) (e : Expectation) (q : Reader α) (cs : List Char) :
    (startingWith p e q).taken cs = if cs.head?.any p then q.taken cs else none := by
  by_cases h : cs.head?.any p = true <;> simp [taken, startingWith, h]

theorem taken_notBefore (p : Char → Bool) (cs : List Char) :
    (notBefore p).taken cs = if cs.head?.any p then none else some ((), cs) := by
  by_cases h : cs.head?.any p = true <;> simp [taken, notBefore, h]

theorem taken_endOfText (cs : List Char) :
    endOfText.taken cs = if cs.isEmpty then some ((), cs) else none := by
  cases cs <;> rfl

@[simp] theorem taken_ofOption (e : Expectation) (x : Option α) (cs : List Char) :
    (ofOption e x).taken cs = x.map (·, cs) := by
  cases x <;> rfl

@[simp] theorem taken_inRange {ε : Type} (x : Except ε α) (cs : List Char) :
    (inRange x).taken cs = x.toOption.map (·, cs) := by
  cases x <;> rfl

theorem taken_below (n : Nat) (p : Reader α) (cs : List Char) :
    (p.below n).taken cs = if cs.length < n then p.taken cs else none := by
  by_cases h : cs.length < n <;> simp [taken, below, h]

/-- A repetition ends where no value is taken. -/
theorem taken_many_of_eq_none {p : Reader α} {cs : List Char} (h : p.taken cs = none) :
    p.many.taken cs = some ([], cs) := by
  change (p.manyReply (.before cs)).result.map _ = _
  rw [taken, Option.map_eq_none_iff] at h
  rw [manyReply]
  rcases hp : p.reply (.before cs) with ⟨_ | x, w⟩
  · rfl
  · rw [hp] at h
    exact nomatch h

/-- A repetition goes on after a value that takes some text. -/
theorem taken_many_of_eq_some {p : Reader α} {cs rest : List Char} {a : α}
    (h : p.taken cs = some (a, rest)) (hlt : rest.length < cs.length) :
    p.many.taken cs = (p.many.taken rest).map fun x => (a :: x.1, x.2) := by
  change (p.manyReply (.before cs)).result.map _ = _
  rw [taken] at h
  rw [manyReply]
  rcases hp : p.reply (.before cs) with ⟨_ | ⟨b, k⟩, w⟩
  · rw [hp] at h
    exact nomatch h
  · rw [hp] at h
    obtain ⟨rfl, rfl⟩ : b = a ∧ k.rest = rest := by simpa using h
    have hleft : k.left < (Cursor.before cs).left := by rw [k.left_eq]; exact hlt
    have hmany : (p.manyReply k).result.map (fun x => (x.1, x.2.rest)) =
        p.many.taken k.rest := map_result p.many k
    simp only [hleft, if_true, ← hmany]
    cases (p.manyReply k).result <;> rfl

/-- A rule that refers to itself may do so on shorter texts. -/
theorem taken_fix (rule : Reader α → Reader α) (cs : List Char) :
    (fix rule).taken cs = (rule ((fix rule).below cs.length)).taken cs := by
  rw [taken, reply_fix]
  rfl

theorem taken_complete (p : Reader α) (cs : List Char) :
    p.complete.taken cs = (p.taken cs).filter (·.2.isEmpty) := by
  simp only [complete, taken_bind, taken_endOfText, taken_pure]
  rcases p.taken cs with _ | ⟨a, _ | ⟨c, rest⟩⟩ <;> rfl

/-- A whole text is read exactly when the reader takes all of it. -/
theorem readAll_eq_ok_iff {p : Reader α} {cs : List Char} {a : α} :
    p.readAll cs = .ok a ↔ p.taken cs = some (a, []) := by
  have h := taken_complete p cs
  rw [taken] at h
  simp only [readAll]
  cases hr : (p.complete.reply (.before cs)).result with
  | none =>
    rw [hr] at h
    constructor
    · intro h'
      exact nomatch h'
    · intro htaken
      rw [htaken] at h
      exact nomatch h
  | some r =>
    rw [hr] at h
    obtain ⟨htaken, hempty⟩ := Option.filter_eq_some_iff.mp h.symm
    have hrest : r.2.rest = [] := List.isEmpty_iff.mp hempty
    simp [htaken, hrest]

end AffineCalls.Reader
