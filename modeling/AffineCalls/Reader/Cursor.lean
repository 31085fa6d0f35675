/-!
# Places in a text

A cursor is a place in a text: what is left to read there. It carries the number
of characters left, so that two places are compared without counting.
-/

namespace AffineCalls

/-- What is left of a text, with its length at hand. -/
@[ext] structure Cursor where
  /-- The characters still to be read. -/
  rest : List Char
  /-- The number of characters still to be read. -/
  left : Nat
  /-- The number belongs to the text. -/
  left_eq : left = rest.length

namespace Cursor

/-- The place before a text. -/
def before (cs : List Char) : Cursor := ⟨cs, cs.length, rfl⟩

/-- The place after a character and before the rest of a cursor's text. -/
def tail (k : Cursor) {c : Char} {cs : List Char} (h : k.rest = c :: cs) : Cursor :=
  ⟨cs, k.left - 1, by rw [k.left_eq, h, List.length_cons, Nat.add_sub_cancel]⟩

/-- The place after a number of characters. -/
def drop (k : Cursor) (n : Nat) : Cursor :=
  ⟨k.rest.drop n, k.left - n, by rw [k.left_eq, List.length_drop]⟩

/-- A cursor is determined by the text left. -/
theorem eq_before (k : Cursor) : k = before k.rest :=
  Cursor.ext rfl k.left_eq

@[simp] theorem rest_before (cs : List Char) : (before cs).rest = cs := rfl

@[simp] theorem left_before (cs : List Char) : (before cs).left = cs.length := rfl

@[simp] theorem rest_drop (k : Cursor) (n : Nat) : (k.drop n).rest = k.rest.drop n := rfl

end Cursor

end AffineCalls
