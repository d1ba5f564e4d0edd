import TweetNacl.Lib.MachineInt

/-!
# Signed arithmetic that stops at an overflow

The signed integer types of C leave an overflow and a division by zero undefined. The operations
here are partial: they have a result exactly if the mathematical one is a word of the type, and then
that word. A program written with them has a result only if nothing in it overflows.
-/

namespace CheckedInt

open MachineInt

/-- A type of signed words: the number of their bits, and the integers that they are. -/
class SignedWord (α : Type) where
  bits : ℕ
  toInt : α → ℤ
  ofInt : ℤ → α
  range : ∀ x, -2 ^ (bits - 1) ≤ toInt x ∧ toInt x < 2 ^ (bits - 1)
  ofInt_toInt : ∀ x, ofInt (toInt x) = x
  toInt_ofInt : ∀ z, -2 ^ (bits - 1) ≤ z → z < 2 ^ (bits - 1) → toInt (ofInt z) = z

instance : SignedWord Int64 where
  bits := 64
  toInt := Int64.toInt
  ofInt := Int64.ofInt
  range x := ⟨Int64.le_toInt x, Int64.toInt_lt x⟩
  ofInt_toInt := Int64.ofInt_toInt
  toInt_ofInt _ hlow hhigh := MachineInt.toInt_ofInt ⟨hlow, hhigh⟩

instance : SignedWord Int32 where
  bits := 32
  toInt := Int32.toInt
  ofInt := Int32.ofInt
  range x := ⟨Int32.le_toInt x, Int32.toInt_lt x⟩
  ofInt_toInt := Int32.ofInt_toInt
  toInt_ofInt _ hlow hhigh := Int32.toInt_ofInt_of_le hlow hhigh

section Operations

variable (α : Type) [SignedWord α]

/-- The integers that are words. -/
def Fits (z : ℤ) : Prop := -2 ^ (SignedWord.bits α - 1) ≤ z ∧ z < 2 ^ (SignedWord.bits α - 1)

instance (z : ℤ) : Decidable (Fits α z) := inferInstanceAs (Decidable (_ ∧ _))

variable {α}

/-- The word that is the integer, if there is one. -/
def exact (z : ℤ) : Option α := if Fits α z then some (SignedWord.ofInt z) else none

def add (a b : α) : Option α := exact (SignedWord.toInt a + SignedWord.toInt b)

def sub (a b : α) : Option α := exact (SignedWord.toInt a - SignedWord.toInt b)

def mul (a b : α) : Option α := exact (SignedWord.toInt a * SignedWord.toInt b)

/-- The quotient, truncated towards zero. -/
def div (a b : α) : Option α :=
  if SignedWord.toInt b = 0 then none else exact ((SignedWord.toInt a).tdiv (SignedWord.toInt b))

/-- The left shift, as a multiplication. -/
def shiftLeft (a : α) (k : ℕ) : Option α := exact (SignedWord.toInt a * 2 ^ k)

/-- `x && y`: the second operand is evaluated only if the first one holds. -/
def andAlso (x : Prop) [Decidable x] (y : Option Bool) : Option Bool := if x then y else some false

/-- `x || y`: the second operand is evaluated only if the first one does not hold. -/
def orElse (x y : Option Bool) : Option Bool := x.bind fun holds => if holds then some true else y

/-- A result is exact. -/
theorem exact_eq_some_iff {z : ℤ} {x : α} : exact z = some x ↔ SignedWord.toInt x = z := by
  rw [exact]
  split
  next h =>
    rw [Option.some.injEq]
    constructor
    · rintro rfl
      exact SignedWord.toInt_ofInt z h.1 h.2
    · rintro rfl
      exact SignedWord.ofInt_toInt x
  next h =>
    refine ⟨fun hnone => (by cases hnone), ?_⟩
    rintro rfl
    exact absurd (SignedWord.range x) h

end Operations

section Int64

variable {a b : Int64} {x y : ℤ}

/-- An operation has a result if the one of the wrapping words is exact. -/
theorem add_exact (ha : a.toInt = x) (hb : b.toInt = y) (h : (a + b).toInt = x + y) :
    add a b = some (a + b) := by
  subst ha hb
  exact exact_eq_some_iff.mpr h

/-- A subtraction whose 64-bit result is the exact one passes the check. -/
theorem sub_exact (ha : a.toInt = x) (hb : b.toInt = y) (h : (a - b).toInt = x - y) :
    sub a b = some (a - b) := by
  subst ha hb
  exact exact_eq_some_iff.mpr h

/-- A multiplication whose 64-bit result is the exact one passes the check. -/
theorem mul_exact (ha : a.toInt = x) (hb : b.toInt = y) (h : (a * b).toInt = x * y) :
    mul a b = some (a * b) := by
  subst ha hb
  exact exact_eq_some_iff.mpr h

/-- Where the exact results fit, the operations are those of the wrapping words. -/
theorem add_eq (ha : a.toInt = x) (hb : b.toInt = y) (h : InI64 (x + y)) :
    add a b = some (a + b) := by
  subst ha hb
  exact add_exact rfl rfl (toInt_add h)

/-- A subtraction with a difference in range passes the check. -/
theorem sub_eq (ha : a.toInt = x) (hb : b.toInt = y) (h : InI64 (x - y)) :
    sub a b = some (a - b) := by
  subst ha hb
  exact sub_exact rfl rfl (toInt_sub h)

/-- A multiplication with a product in range passes the check. -/
theorem mul_eq (ha : a.toInt = x) (hb : b.toInt = y) (h : InI64 (x * y)) :
    mul a b = some (a * b) := by
  subst ha hb
  exact mul_exact rfl rfl (toInt_mul h)

/-- A shift whose value stays in range passes the check. -/
theorem shiftLeft_eq (ha : a.toInt = x) {k : ℕ} (hk : k < 63) (h : InI64 (x * 2 ^ k)) :
    shiftLeft a k = some (a <<< Int64.ofNat k) := by
  subst ha
  exact exact_eq_some_iff.mpr (toInt_shiftLeft hk h)

/-- A shift passes the check when its result is known. -/
theorem shiftLeft_exact {k : ℕ} {c : Int64} (ha : a.toInt = x) (h : c.toInt = x * 2 ^ k) :
    shiftLeft a k = some c := by
  subst ha
  exact exact_eq_some_iff.mpr h

end Int64

section Int32

variable {z : ℤ}

/-- The values of `int`. -/
theorem exists_int_iff (z : ℤ) : (∃ x : Int32, x.toInt = z) ↔ -2147483648 ≤ z ∧ z ≤ 2147483647 := by
  constructor
  · rintro ⟨x, rfl⟩
    have := x.le_toInt
    have := x.toInt_lt
    omega
  · rintro ⟨hlow, hhigh⟩
    exact ⟨Int32.ofInt z, Int32.toInt_ofInt_of_le (by omega) (by omega)⟩

/-- The range of an `int`. -/
theorem int_range (a : Int32) : -2147483648 ≤ a.toInt ∧ a.toInt ≤ 2147483647 :=
  (exists_int_iff _).mp ⟨a, rfl⟩

/-- An `int` with the value `z` is what the checked arithmetic computes for `z`. -/
theorem exact_int (h : -2147483648 ≤ z ∧ z ≤ 2147483647) : ∃ x : Int32, exact z = some x ∧
    x.toInt = z := by
  obtain ⟨x, hx⟩ := (exists_int_iff z).mpr h
  exact ⟨x, exact_eq_some_iff.mpr hx, hx⟩

end Int32

end CheckedInt
