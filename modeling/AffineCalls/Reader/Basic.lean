import AffineCalls.Reader.Furthest

/-!
# Readers

A reader takes a value from the front of a text or fails. Choice is ordered: the
second alternative is tried only where the first one fails, and what the first
one read is not revisited. Repetition takes as many values as it can. A reader
also notes what it expected furthest on, whether it succeeds or fails, because a
later failure reports that.
-/

namespace AffineCalls

/-- What a reader answers: the value with the place after it, if there is one,
and what was expected furthest on. -/
structure Reply (α : Type) where
  /-- The value read and the place after it. -/
  result : Option (α × Cursor)
  /-- What was expected furthest on. -/
  furthest : Furthest

/-- A way of reading a value from a place in a text. -/
structure Reader (α : Type) where
  /-- What is answered at a place. -/
  reply : Cursor → Reply α

namespace Reader

variable {α β : Type}

/-- Reads nothing and gives a value. -/
protected def pure (a : α) : Reader α where
  reply k := ⟨some (a, k), .none⟩

/-- Reads a value and then what depends on it. -/
protected def bind (p : Reader α) (f : α → Reader β) : Reader β where
  reply k :=
    match p.reply k with
    | ⟨none, w⟩ => ⟨none, w⟩
    | ⟨some (a, k'), w⟩ =>
      let r := (f a).reply k'
      ⟨r.result, w.join r.furthest⟩

instance : Monad Reader where
  pure := Reader.pure
  bind := Reader.bind

/-- Reads by the first reader or, where that one fails, by the second. -/
protected def orElse (p : Reader α) (q : Unit → Reader α) : Reader α where
  reply k :=
    match p.reply k with
    | ⟨none, w⟩ =>
      let r := (q ()).reply k
      ⟨r.result, w.join r.furthest⟩
    | ⟨some x, w⟩ => ⟨some x, w⟩

instance : OrElse (Reader α) := ⟨Reader.orElse⟩

/-- Fails and notes an expectation. -/
def expected (e : Expectation) : Reader α where
  reply k := ⟨none, .note k e⟩

/-- Reads a fixed piece of text. -/
def literal (s : String) : Reader Unit where
  reply k :=
    if s.toList.isPrefixOf k.rest then ⟨some ((), k.drop s.toList.length), .none⟩
    else ⟨none, .note k (.literal s)⟩

/-- Reads the longest run, maybe empty, of characters of a class. -/
def span (p : Char → Bool) : Reader (List Char) where
  reply k :=
    let cs := k.rest.takeWhile p
    ⟨some (cs, k.drop cs.length), .none⟩

/-- Reads as another reader does, provided that the next character is of a class,
and notes one expectation where it is not. -/
def startingWith (p : Char → Bool) (e : Expectation) (q : Reader α) : Reader α where
  reply k := if k.rest.head?.any p then q.reply k else ⟨none, .note k e⟩

/-- Reads nothing, provided that the next character is not of a class. -/
def notBefore (p : Char → Bool) : Reader Unit where
  reply k := if k.rest.head?.any p then ⟨none, .none⟩ else ⟨some ((), k), .none⟩

/-- Reads nothing at the end of the text. -/
def endOfText : Reader Unit where
  reply k := if k.rest.isEmpty then ⟨some ((), k), .none⟩ else ⟨none, .note k .endOfText⟩

/-- Takes a value that was computed, or notes an expectation where there is none. -/
def ofOption (e : Expectation) : Option α → Reader α
  | some a => pure a
  | none => expected e

/-- Takes the outcome of checked arithmetic. -/
def inRange {ε : Type} : Except ε α → Reader α
  | .ok a => pure a
  | .error _ => expected .coefficientInRange

/-- Reads at shorter texts than a given number of characters only. -/
def below (n : Nat) (p : Reader α) : Reader α where
  reply k := if k.left < n then p.reply k else ⟨none, .none⟩

/-- What repeated reading answers at a place. -/
def manyReply (p : Reader α) (k : Cursor) : Reply (List α) :=
  match p.reply k with
  | ⟨none, w⟩ => ⟨some ([], k), w⟩
  | ⟨some (a, k'), w⟩ =>
    if k'.left < k.left then
      let r := p.manyReply k'
      ⟨r.result.map fun (as, k'') => (a :: as, k''), w.join r.furthest⟩
    else ⟨some ([a], k'), w⟩
termination_by k.left

/-- Reads values one after the other until the reader fails. A value that takes
no text ends the repetition. -/
def many (p : Reader α) : Reader (List α) := ⟨p.manyReply⟩

/-- Reads one value or more. -/
def many1 (p : Reader α) : Reader (List α) := do
  let a ← p
  let as ← p.many
  return a :: as

/-- Reads values, maybe none, with separators between them. A separator that no
value follows is not taken. -/
def sepBy (p : Reader α) (sep : Reader Unit) : Reader (List α) :=
  (do
    let a ← p
    let as ← many (do sep; p)
    return a :: as) <|>
  pure []

/-- What a rule that refers to itself answers at a place. -/
def fixReply (rule : Reader α → Reader α) (k : Cursor) : Reply α :=
  (rule ⟨fun k' => if k'.left < k.left then fixReply rule k' else ⟨none, .none⟩⟩).reply k
termination_by k.left

/-- The reader that a grammar rule defines in terms of itself. The rule may use
itself only after it has taken some text, so that reading ends. -/
def fix (rule : Reader α → Reader α) : Reader α := ⟨fixReply rule⟩

/-- A rule refers to itself on shorter texts. -/
theorem reply_fix (rule : Reader α → Reader α) (k : Cursor) :
    (fix rule).reply k = (rule ((fix rule).below k.left)).reply k := by
  change fixReply rule k = _
  rw [fixReply]
  rfl

end Reader

end AffineCalls
