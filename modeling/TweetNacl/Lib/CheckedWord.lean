import Mathlib.Data.Nat.Bitwise
import Mathlib.Tactic.NormNum
import Mathlib.Tactic.Linarith

/-!
# 32-bit code that is run with and without overflow tracking

Multi-precision code is written once over a type of words. At `UInt32` it is the
program; at `Tracked` every word also records whether an addition or a multiplication
among the operations that led to it wrapped. `ExactWord` is what a correctness proof needs
of either: a relation between words and integers that every operation keeps as long as
the exact result fits. A proof from these rules therefore shows both that the program
is right and that nothing in it wraps.
-/

namespace CheckedWord

/-- The operations of the 32-bit code. -/
class Word (α : Type) extends Add α, Mul α, AndOp α, XorOp α where
  lit : UInt32 → α
  shr : α → ℕ → α
  neg : α → α

instance : Word UInt32 where
  lit c := c
  shr x k := x >>> UInt32.ofNat k
  neg x := -x

/-- A word with a flag that is set once an operation below it has wrapped. -/
structure Tracked where
  val : UInt32
  wrapped : Bool
deriving DecidableEq

instance : Word Tracked where
  add a b := ⟨a.val + b.val, a.wrapped || b.wrapped || decide (2 ^ 32 ≤ a.val.toNat + b.val.toNat)⟩
  mul a b := ⟨a.val * b.val, a.wrapped || b.wrapped || decide (2 ^ 32 ≤ a.val.toNat * b.val.toNat)⟩
  and a b := ⟨a.val &&& b.val, a.wrapped || b.wrapped⟩
  xor a b := ⟨a.val ^^^ b.val, a.wrapped || b.wrapped⟩
  lit c := ⟨c, false⟩
  shr a k := ⟨a.val >>> UInt32.ofNat k, a.wrapped⟩
  -- the negation is of a signed value and is meant to wrap
  neg a := ⟨-a.val, a.wrapped⟩

/-- Words with a meaning as integers that the operations respect where the exact result fits. -/
class ExactWord (α : Type) [Word α] where
  Is : α → ℤ → Prop
  range {x : α} {a : ℤ} : Is x a → 0 ≤ a ∧ a < 2 ^ 32
  lit (c : UInt32) : Is (Word.lit c) c.toNat
  add {x y : α} {a b : ℤ} : Is x a → Is y b → a + b < 2 ^ 32 → Is (x + y) (a + b)
  mul {x y : α} {a b : ℤ} : Is x a → Is y b → a * b < 2 ^ 32 → Is (x * y) (a * b)
  and {x y : α} {a b : ℕ} : Is x a → Is y b → Is (x &&& y) ((a &&& b : ℕ) : ℤ)
  shr {x : α} {a : ℤ} {k : ℕ} : Is x a → k < 32 → Is (Word.shr x k) (a / 2 ^ k)
  select_zero {s x y : α} {a b : ℤ} : Is s 0 → Is x a → Is y b →
    Is (x ^^^ (Word.neg s &&& (y ^^^ x))) a
  select_one {s x y : α} {a b : ℤ} : Is s 1 → Is x a → Is y b →
    Is (x ^^^ (Word.neg s &&& (y ^^^ x))) b

/-- A right shift divides. -/
theorem toNat_shr (x : UInt32) {k : ℕ} (hk : k < 32) :
    (x >>> UInt32.ofNat k).toNat = x.toNat / 2 ^ k := by
  rw [UInt32.toNat_shiftRight, UInt32.toNat_ofNat', Nat.shiftRight_eq_div_pow]
  congr 2
  omega

/-- A sum below `2 ^ 32` does not wrap. -/
theorem add_toNat {x y : UInt32} (h : x.toNat + y.toNat < 2 ^ 32) :
    (x + y).toNat = x.toNat + y.toNat := by
  rw [UInt32.toNat_add, Nat.mod_eq_of_lt h]

/-- A product below `2 ^ 32` does not wrap. -/
theorem mul_toNat {x y : UInt32} (h : x.toNat * y.toNat < 2 ^ 32) :
    (x * y).toNat = x.toNat * y.toNat := by
  rw [UInt32.toNat_mul, Nat.mod_eq_of_lt h]

/-- A zero mask keeps the first operand of a masked exchange. -/
theorem select_zero_eq (x y : UInt32) : x ^^^ (-0 &&& (y ^^^ x)) = x := by simp

/-- A full mask takes the second operand. -/
theorem select_one_eq (x y : UInt32) : x ^^^ (-1 &&& (y ^^^ x)) = y := by
  rw [UInt32.neg_one_and, UInt32.xor_comm y x, ← UInt32.xor_assoc, UInt32.xor_self, UInt32.zero_xor]

/-- The program itself. -/
instance : ExactWord UInt32 where
  Is x a := (x.toNat : ℤ) = a
  range {x a} h := by
    have := x.toNat_lt
    omega
  lit _ := rfl
  add {x y a b} hx hy h := by
    subst hx hy
    rw [add_toNat (by exact_mod_cast h), Nat.cast_add]
  mul {x y a b} hx hy h := by
    subst hx hy
    rw [mul_toNat (by exact_mod_cast h), Nat.cast_mul]
  and {x y a b} hx hy := by
    rw [UInt32.toNat_and, Int.ofNat_inj.mp hx, Int.ofNat_inj.mp hy]
  shr {x a k} hx hk := by
    subst hx
    change ((x >>> UInt32.ofNat k).toNat : ℤ) = _
    rw [toNat_shr x hk]
    simp
  select_zero {s x y a b} hs hx _ := by
    obtain rfl : s = 0 := UInt32.toNat_inj.mp (Int.ofNat_inj.mp hs)
    change ((x ^^^ (-0 &&& (y ^^^ x))).toNat : ℤ) = a
    rw [select_zero_eq, hx]
  select_one {s x y a b} hs _ hy := by
    obtain rfl : s = 1 := UInt32.toNat_inj.mp (Int.ofNat_inj.mp hs)
    change ((x ^^^ (-1 &&& (y ^^^ x))).toNat : ℤ) = b
    rw [select_one_eq, hy]

/-- The tracked program: a word that is exact has not wrapped. -/
instance : ExactWord Tracked where
  Is x a := (x.val.toNat : ℤ) = a ∧ x.wrapped = false
  range {x a} h := by
    have := x.val.toNat_lt
    omega
  lit _ := ⟨rfl, rfl⟩
  add {x y a b} hx hy h := by
    obtain ⟨rfl, hxw⟩ := hx
    obtain ⟨rfl, hyw⟩ := hy
    have hfit : x.val.toNat + y.val.toNat < 2 ^ 32 := by exact_mod_cast h
    refine ⟨?_, ?_⟩
    · change ((x.val + y.val).toNat : ℤ) = _
      rw [add_toNat hfit, Nat.cast_add]
    · change (x.wrapped || y.wrapped || decide (2 ^ 32 ≤ x.val.toNat + y.val.toNat)) = false
      rw [hxw, hyw, decide_eq_false (not_le.mpr hfit)]
      rfl
  mul {x y a b} hx hy h := by
    obtain ⟨rfl, hxw⟩ := hx
    obtain ⟨rfl, hyw⟩ := hy
    have hfit : x.val.toNat * y.val.toNat < 2 ^ 32 := by exact_mod_cast h
    refine ⟨?_, ?_⟩
    · change ((x.val * y.val).toNat : ℤ) = _
      rw [mul_toNat hfit, Nat.cast_mul]
    · change (x.wrapped || y.wrapped || decide (2 ^ 32 ≤ x.val.toNat * y.val.toNat)) = false
      rw [hxw, hyw, decide_eq_false (not_le.mpr hfit)]
      rfl
  and {x y a b} hx hy := by
    refine ⟨?_, ?_⟩
    · change ((x.val &&& y.val).toNat : ℤ) = _
      rw [UInt32.toNat_and, Int.ofNat_inj.mp hx.1, Int.ofNat_inj.mp hy.1]
    · change (x.wrapped || y.wrapped) = false
      simp [hx.2, hy.2]
  shr {x a k} hx hk := by
    obtain ⟨rfl, hxw⟩ := hx
    refine ⟨?_, hxw⟩
    change ((x.val >>> UInt32.ofNat k).toNat : ℤ) = _
    rw [toNat_shr x.val hk]
    simp
  select_zero {s x y a b} hs hx hy := by
    obtain ⟨sval, swrapped⟩ := s
    obtain rfl : sval = 0 := UInt32.toNat_inj.mp (Int.ofNat_inj.mp hs.1)
    refine ⟨?_, ?_⟩
    · change ((x.val ^^^ (-0 &&& (y.val ^^^ x.val))).toNat : ℤ) = a
      rw [select_zero_eq, hx.1]
    · change (x.wrapped || (swrapped || (y.wrapped || x.wrapped))) = false
      simp [hx.2, hy.2, show swrapped = false from hs.2]
  select_one {s x y a b} hs hx hy := by
    obtain ⟨sval, swrapped⟩ := s
    obtain rfl : sval = 1 := UInt32.toNat_inj.mp (Int.ofNat_inj.mp hs.1)
    refine ⟨?_, ?_⟩
    · change ((x.val ^^^ (-1 &&& (y.val ^^^ x.val))).toNat : ℤ) = b
      rw [select_one_eq, hy.1]
    · change (x.wrapped || (swrapped || (y.wrapped || x.wrapped))) = false
      simp [hx.2, hy.2, show swrapped = false from hs.2]

/-- Masking with `2 ^ k - 1` is the remainder. -/
theorem ExactWord.mask {α : Type} [Word α] [ExactWord α] {x : α} {a : ℤ} (hx : ExactWord.Is x a)
    {k : ℕ} {c : UInt32} (hc : c.toNat = 2 ^ k - 1) :
    ExactWord.Is (x &&& Word.lit c) (a % 2 ^ k) := by
  obtain ⟨n, rfl⟩ := Int.eq_ofNat_of_zero_le (ExactWord.range hx).1
  have h := ExactWord.and hx (ExactWord.lit (α := α) c)
  rw [hc, Nat.and_two_pow_sub_one_eq_mod] at h
  exact_mod_cast h

section Vectors

variable {α : Type} [Word α] [ExactWord α] {n : ℕ} {v : Vector α n} {f : ℕ → ℤ}

/-- Every word of an array is exact, with the integers of a sequence as meanings. -/
def ExactVec (v : Vector α n) (f : ℕ → ℤ) : Prop := ∀ i (hi : i < n), ExactWord.Is v[i] (f i)

/-- Setting an entry of an exact array to an exact word. -/
theorem ExactVec.set (h : ExactVec v f) {i : ℕ} (hi : i < n) {x : α} {a : ℤ}
    (hx : ExactWord.Is x a) : ExactVec (v.set i x) (Function.update f i a) := by
  intro k hk
  rw [Vector.getElem_set]
  by_cases hik : i = k
  · subst hik
    rw [if_pos rfl, Function.update_self]
    exact hx
  · rw [if_neg hik, Function.update_of_ne (Ne.symm hik)]
    exact h k hk

/-- Exactness depends on the values of the entries only. -/
theorem ExactVec.congr (h : ExactVec v f) {g : ℕ → ℤ} (hfg : ∀ i < n, f i = g i) : ExactVec v g :=
  fun i hi => hfg i hi ▸ h i hi

/-- The next word of an array has been replaced, after the ones below it. -/
theorem ExactVec.push {g : ℕ → ℤ} {i : ℕ} (h : ExactVec v fun k => if k < i then f k else g k)
    (hi : i < n) {x : α} {a : ℤ} (hx : ExactWord.Is x a) :
    ExactVec (v.set i x) fun k => if k < i + 1 then Function.update f i a k else g k := by
  refine (h.set hi hx).congr fun k _ => ?_
  rcases lt_trichotomy k i with hlt | rfl | hgt
  · rw [Function.update_of_ne hlt.ne, Function.update_of_ne hlt.ne, if_pos hlt, if_pos (by omega)]
  · rw [Function.update_self, Function.update_self, if_pos (by omega)]
  · rw [Function.update_of_ne hgt.ne', if_neg (by omega), if_neg (by omega)]

/-- An array built entry by entry. -/
theorem ExactVec.ofFn {x : Fin n → α} (h : ∀ i (hi : i < n), ExactWord.Is (x ⟨i, hi⟩) (f i)) :
    ExactVec (Vector.ofFn x) f := fun i hi => by
  rw [Vector.getElem_ofFn]
  exact h i hi

end Vectors

end CheckedWord
