/-!
# Coefficients

Coefficients are integers of the signed 64-bit range. Their arithmetic is exact
integer arithmetic followed by a range check, so an operation either gives the
exact result or reports an `Overflow`; nothing wraps around.
-/

namespace AffineCalls

/-- The reason for which arithmetic on coefficients fails. -/
inductive Overflow where
  /-- An exact result lies outside the range of coefficients. -/
  | coefficient
  deriving DecidableEq

/-- The wording of an overflow. -/
def Overflow.message : Overflow → String
  | .coefficient => "coefficient overflow"

/-- An integer of the signed 64-bit range, from `-2 ^ 63` to `2 ^ 63 - 1`. -/
@[ext] structure Coeff where
  /-- The integer itself. -/
  val : Int
  /-- The least coefficient is `-2 ^ 63`. -/
  lower : -9223372036854775808 ≤ val := by decide
  /-- The greatest coefficient is `2 ^ 63 - 1`. -/
  upper : val ≤ 9223372036854775807 := by decide
  deriving DecidableEq

namespace Coeff

instance : Zero Coeff := ⟨⟨0, by decide, by decide⟩⟩

instance : One Coeff := ⟨⟨1, by decide, by decide⟩⟩

/-- The coefficient by which a sum is multiplied to negate it. -/
def minusOne : Coeff := ⟨-1, by decide, by decide⟩

/-- Whether an integer is in the range of coefficients. -/
def InRange (n : Int) : Prop := -9223372036854775808 ≤ n ∧ n ≤ 9223372036854775807

instance (n : Int) : Decidable (InRange n) := inferInstanceAs (Decidable (_ ∧ _))

/-- The coefficient equal to an integer, if it is in range. -/
def ofInt? (n : Int) : Option Coeff :=
  if h : InRange n then some ⟨n, h.1, h.2⟩ else none

/-- The coefficient equal to an exact result, or an overflow. -/
def checked (n : Int) : Except Overflow Coeff :=
  match ofInt? n with
  | some c => .ok c
  | none => .error .coefficient

/-- Checked addition. -/
def add (a b : Coeff) : Except Overflow Coeff :=
  checked (a.val + b.val)

/-- Checked multiplication. -/
def mul (a b : Coeff) : Except Overflow Coeff :=
  checked (a.val * b.val)

/-- Coefficients are ordered as integers. -/
protected def compare (a b : Coeff) : Ordering :=
  Ord.compare a.val b.val

instance : Ord Coeff := ⟨Coeff.compare⟩

@[simp] theorem val_zero : (0 : Coeff).val = 0 := rfl

@[simp] theorem val_one : (1 : Coeff).val = 1 := rfl

@[simp] theorem val_minusOne : minusOne.val = -1 := rfl

theorem one_ne_zero : (1 : Coeff) ≠ 0 := by decide

theorem val_inj {a b : Coeff} : a.val = b.val ↔ a = b :=
  ⟨Coeff.ext, congrArg val⟩

theorem eq_zero_iff {a : Coeff} : a = 0 ↔ a.val = 0 :=
  val_inj.symm

/-- The value of a coefficient is in range. -/
theorem inRange_val (a : Coeff) : InRange a.val := ⟨a.lower, a.upper⟩

/-- `ofInt?` gives exactly the coefficient with that value. -/
theorem ofInt?_eq_some_iff {n : Int} {c : Coeff} : ofInt? n = some c ↔ c.val = n := by
  unfold ofInt?
  constructor
  · intro h
    split at h
    · rw [← Option.some.inj h]
    · exact nomatch h
  · rintro rfl
    rw [dif_pos c.inRange_val]

/-- A checked result is the coefficient with the exact value. -/
theorem checked_eq_ok_iff {n : Int} {c : Coeff} : checked n = .ok c ↔ c.val = n := by
  rw [← ofInt?_eq_some_iff]
  unfold checked
  cases ofInt? n <;> simp

end Coeff

end AffineCalls
