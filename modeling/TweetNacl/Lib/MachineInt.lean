import Mathlib.Data.Int.Basic
import Mathlib.Tactic.Linarith
import Mathlib.Tactic.NormNum
import Mathlib.Tactic.Ring

/-!
# Exactness of 64-bit signed arithmetic

`Int64` operations wrap. Each lemma gives the range of the exact result under which the
machine operation is the integer operation, so that a bound on the operands is all a
caller has to supply. Shifts and masks by a power of two are floor division and
remainder for every operand, negative ones included.
-/

namespace MachineInt

/-- The integers a signed 64-bit word holds. -/
def InI64 (z : ℤ) : Prop := -2 ^ 63 ≤ z ∧ z < 2 ^ 63

/-- A symmetric bound below `2 ^ 63` keeps a value representable. -/
theorem inI64_of_abs_le {z b : ℤ} (hz : |z| ≤ b) (hb : b < 2 ^ 63) : InI64 z := by
  rw [abs_le] at hz
  exact ⟨by linarith [hz.1], by linarith [hz.2]⟩

/-- Reduction to 64 bits changes nothing in range. -/
theorem bmod_of_inI64 {z : ℤ} (h : InI64 z) : z.bmod (2 ^ 64) = z := by
  apply Int.bmod_eq_of_le
  · have := h.1; norm_num at this ⊢; exact this
  · have := h.2; norm_num at this ⊢; exact this

/-- A number in range is the value of its 64-bit integer. -/
theorem toInt_ofInt {z : ℤ} (h : InI64 z) : (Int64.ofInt z).toInt = z := by
  rw [Int64.toInt_ofInt]
  exact bmod_of_inI64 h

/-- A sum in range is exact. -/
theorem toInt_add {a b : Int64} (h : InI64 (a.toInt + b.toInt)) :
    (a + b).toInt = a.toInt + b.toInt := by
  rw [Int64.toInt_add, bmod_of_inI64 h]

/-- A difference in range is exact. -/
theorem toInt_sub {a b : Int64} (h : InI64 (a.toInt - b.toInt)) :
    (a - b).toInt = a.toInt - b.toInt := by
  rw [Int64.toInt_sub, bmod_of_inI64 h]

/-- A product in range is exact. -/
theorem toInt_mul {a b : Int64} (h : InI64 (a.toInt * b.toInt)) :
    (a * b).toInt = a.toInt * b.toInt := by
  rw [Int64.toInt_mul, bmod_of_inI64 h]

/-- A shift amount below 64 is taken as it is. -/
private theorem shiftAmount {k : ℕ} (hk : k < 64) :
    ((Int64.ofNat k).toBitVec.smod 64).toNat = k := by
  have h : ∀ k < 64, ((Int64.ofNat k).toBitVec.smod 64).toNat = k := by decide
  exact h k hk

/-- The arithmetic right shift is floor division. -/
theorem toInt_shiftRight (x : Int64) {k : ℕ} (hk : k < 64) :
    (x >>> Int64.ofNat k).toInt = x.toInt / 2 ^ k := by
  rw [← Int64.toInt_toBitVec, Int64.toBitVec_shiftRight, BitVec.toInt_sshiftRight', shiftAmount hk,
    Int.shiftRight_eq_div_pow]
  simp

/-- The left shift is multiplication by a power of two, modulo `2 ^ 64`. -/
theorem shiftLeft_eq_mul (x : Int64) {k : ℕ} (hk : k < 64) :
    x <<< Int64.ofNat k = x * Int64.ofInt (2 ^ k) := by
  apply Int64.toBitVec_inj.mp
  rw [Int64.toBitVec_shiftLeft, BitVec.shiftLeft_eq', shiftAmount hk, Int64.toBitVec_mul,
    Int64.toBitVec_ofInt, BitVec.shiftLeft_eq_mul_twoPow]
  congr 1
  apply BitVec.eq_of_toNat_eq
  have hlt : (2 : ℕ) ^ k < 2 ^ 64 := Nat.pow_lt_pow_right (by norm_num) hk
  have hcast : (2 : ℤ) ^ k = ((2 ^ k : ℕ) : ℤ) := by push_cast; rfl
  simp only [BitVec.toNat_twoPow, BitVec.toNat_ofInt, hcast]
  omega

/-- A left shift that stays in range multiplies. -/
theorem toInt_shiftLeft {x : Int64} {k : ℕ} (hk : k < 63) (h : InI64 (x.toInt * 2 ^ k)) :
    (x <<< Int64.ofNat k).toInt = x.toInt * 2 ^ k := by
  have hpow : InI64 (2 ^ k) :=
    ⟨by have : (0 : ℤ) < 2 ^ k := by positivity
        linarith, pow_lt_pow_right₀ (by norm_num) hk⟩
  rw [shiftLeft_eq_mul x (by omega), toInt_mul (by rwa [toInt_ofInt hpow]), toInt_ofInt hpow]

/-- Masking with `2 ^ k - 1` is the nonnegative remainder. -/
theorem toInt_and_mask (x : Int64) {k : ℕ} (hk : k < 63) :
    (x &&& Int64.ofInt (2 ^ k - 1)).toInt = x.toInt % 2 ^ k := by
  have hlt : (2 : ℕ) ^ k < 2 ^ 63 := Nat.pow_lt_pow_right (by norm_num) hk
  have hpos : 0 < (2 : ℕ) ^ k := Nat.two_pow_pos k
  have hcast : (2 : ℤ) ^ k = ((2 ^ k : ℕ) : ℤ) := by push_cast; rfl
  have hdvd : (2 : ℤ) ^ k ∣ ((2 ^ 64 : ℕ) : ℤ) := by
    push_cast
    exact pow_dvd_pow 2 (show k ≤ 64 by omega)
  have hnat : (x &&& Int64.ofInt (2 ^ k - 1)).toBitVec.toNat = x.toBitVec.toNat % 2 ^ k := by
    rw [Int64.toBitVec_and, BitVec.toNat_and, Int64.toBitVec_ofInt, BitVec.toNat_ofInt,
      ← Nat.and_two_pow_sub_one_eq_mod]
    congr 1
    rw [hcast]
    omega
  have hsmall : x.toBitVec.toNat % 2 ^ k < 2 ^ k := Nat.mod_lt _ hpos
  have hint : (x &&& Int64.ofInt (2 ^ k - 1)).toBitVec.toInt =
      ((x &&& Int64.ofInt (2 ^ k - 1)).toBitVec.toNat : ℤ) :=
    BitVec.toInt_eq_toNat_of_lt (by rw [hnat]; omega)
  rw [← Int64.toInt_toBitVec, hint, hnat, ← Int64.toInt_toBitVec, BitVec.toInt_eq_toNat_bmod,
    Int.natCast_mod, ← hcast, ← Int.emod_emod_of_dvd (Int.bmod _ _) hdvd, Int.bmod_emod,
    Int.emod_emod_of_dvd _ hdvd]

/-! The shift amounts and masks that occur with 16-bit and 8-bit limbs. -/

/-- A right shift by four divides by `2 ^ 4`, rounding down. -/
theorem toInt_shiftRight_four (x : Int64) : (x >>> 4).toInt = x.toInt / 2 ^ 4 :=
  toInt_shiftRight x (by norm_num : 4 < 64)

/-- A right shift by eight divides by `2 ^ 8`, rounding down. -/
theorem toInt_shiftRight_eight (x : Int64) : (x >>> 8).toInt = x.toInt / 2 ^ 8 :=
  toInt_shiftRight x (by norm_num : 8 < 64)

/-- A right shift by sixteen divides by `2 ^ 16`, rounding down. -/
theorem toInt_shiftRight_sixteen (x : Int64) : (x >>> 16).toInt = x.toInt / 2 ^ 16 :=
  toInt_shiftRight x (by norm_num : 16 < 64)

/-- A left shift by eight that stays in range multiplies by `2 ^ 8`. -/
theorem toInt_shiftLeft_eight {x : Int64} (h : InI64 (x.toInt * 2 ^ 8)) :
    (x <<< 8).toInt = x.toInt * 2 ^ 8 :=
  toInt_shiftLeft (by norm_num : 8 < 63) h

/-- A left shift by sixteen that stays in range multiplies by `2 ^ 16`. -/
theorem toInt_shiftLeft_sixteen {x : Int64} (h : InI64 (x.toInt * 2 ^ 16)) :
    (x <<< 16).toInt = x.toInt * 2 ^ 16 :=
  toInt_shiftLeft (by norm_num : 16 < 63) h

/-- The last bit is the remainder modulo 2. -/
theorem toInt_and_one (x : Int64) : (x &&& 1).toInt = x.toInt % 2 := by
  rw [show (1 : Int64) = Int64.ofInt (2 ^ 1 - 1) by decide, toInt_and_mask x (by norm_num), pow_one]

/-- The low byte is the remainder modulo `2 ^ 8`. -/
theorem toInt_and_ff (x : Int64) : (x &&& 0xff).toInt = x.toInt % 2 ^ 8 := by
  rw [show (0xff : Int64) = Int64.ofInt (2 ^ 8 - 1) by decide, toInt_and_mask x (by norm_num)]

/-- The low 15 bits are the remainder modulo `2 ^ 15`. -/
theorem toInt_and_7fff (x : Int64) : (x &&& 0x7fff).toInt = x.toInt % 2 ^ 15 := by
  rw [show (0x7fff : Int64) = Int64.ofInt (2 ^ 15 - 1) by decide, toInt_and_mask x (by norm_num)]

/-- The low 16 bits are the remainder modulo `2 ^ 16`. -/
theorem toInt_and_ffff (x : Int64) : (x &&& 0xffff).toInt = x.toInt % 2 ^ 16 := by
  rw [show (0xffff : Int64) = Int64.ofInt (2 ^ 16 - 1) by decide, toInt_and_mask x (by norm_num)]

/-! Conversions between bytes and signed words. -/

/-- A property of all bytes can be checked byte by byte. -/
theorem forall_byte {P : UInt8 → Prop} (h : ∀ k < 256, P (UInt8.ofNat k)) (b : UInt8) : P b := by
  have := h b.toNat b.toNat_lt
  rwa [UInt8.ofNat_toNat] at this

/-- A byte widens to its value. -/
theorem toInt_ofByte (b : UInt8) : b.toUInt64.toInt64.toInt = b.toNat := by
  have hb := b.toNat_lt
  rw [← Int64.toInt_toBitVec, UInt64.toBitVec_toInt64, UInt8.toBitVec_toUInt64,
    BitVec.toInt_eq_toNat_of_lt]
  · simp
  · simp; omega

/-- A word truncates to its value modulo 256. -/
theorem toNat_truncate (x : Int64) : (x.toInt8.toUInt8.toNat : ℤ) = x.toInt % 2 ^ 8 := by
  have hbits : x.toInt8.toUInt8.toNat = x.toBitVec.toNat % 2 ^ 8 := by
    change (x.toBitVec.signExtend 8).toNat = _
    rw [BitVec.signExtend_eq_setWidth_of_le _ (by norm_num), BitVec.toNat_setWidth]
  rw [hbits, ← Int64.toInt_toBitVec, BitVec.toInt_eq_toNat_bmod, Int.natCast_mod,
    ← Int.emod_emod_of_dvd (Int.bmod _ _) (show ((2 : ℤ) ^ 8) ∣ ((2 ^ 64 : ℕ) : ℤ) by norm_num),
    Int.bmod_emod, Int.emod_emod_of_dvd _ (by norm_num)]
  norm_num

end MachineInt
