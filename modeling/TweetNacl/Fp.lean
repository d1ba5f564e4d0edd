import TweetNacl.Lib.Lucas
import Mathlib.Data.ZMod.Basic
import Mathlib.FieldTheory.Finite.Basic
import Mathlib.Tactic.NormNum.Prime

/-!
# The field of 2 ^ 255 - 19 elements

The modulus is prime by Lucas' test, applied to the large prime factors of `p - 1 = 2 ^ 2 * 3 *
65147 * q` and of their predecessors first. The consequences used later are that the power `2 ^ 255
- 21` is inversion and that `-1` and the Edwards coefficient have the quadratic characters the curve
formulas rely on.
-/

namespace TweetNacl

/-- The prime `2 ^ 255 - 19`. -/
@[irreducible] def p25519 : ℕ := 2 ^ 255 - 19

/-- The field of the two curves. -/
abbrev Fp := ZMod p25519

/-- The modulus is `2 ^ 255 - 19`. -/
theorem p25519_eq_pow : p25519 = 2 ^ 255 - 19 := by
  unfold p25519
  rfl

/-- The modulus in decimal. -/
theorem p25519_eq : p25519 =
    57896044618658097711785492504343953926634992332820282019728792003956564819949 := by
  unfold p25519
  norm_num

/-- The modulus as an integer. -/
theorem p25519_cast : (p25519 : ℤ) = 2 ^ 255 - 19 := by
  rw [p25519_eq]
  norm_num

/-- Two integers give the same field element exactly if they are congruent. -/
theorem intCast_eq_iff {x y : ℤ} : (x : Fp) = (y : Fp) ↔ x ≡ y [ZMOD 2 ^ 255 - 19] := by
  rw [← p25519_cast]
  exact ZMod.intCast_eq_intCast_iff _ _ _

/-- The primes that the certificate starts from. -/
private def smallFactors : List ℕ :=
  [2, 3, 5, 7, 13, 19, 31, 47, 107, 127, 223, 353, 2437, 4153, 57467, 65147, 75707, 132049,
   430751, 569003, 1923133, 8574133]

/-- The primes under `p - 1`. -/
private def fieldCertificate : List LucasEntry :=
  [⟨2773320623, 5, [2, 2437, 569003]⟩,
   ⟨72106336199, 7, [2, 13, 2773320623]⟩,
   ⟨1919519569386763, 2, [2, 3, 7, 19, 47, 47, 127, 8574133]⟩,
   ⟨31757755568855353, 10, [2, 2, 2, 3, 31, 107, 223, 4153, 430751]⟩,
   ⟨75445702479781427272750846543864801, 7,
     [2, 2, 2, 2, 2, 3, 3, 5, 5, 75707, 72106336199, 1919519569386763]⟩,
   ⟨74058212732561358302231226437062788676166966415465897661863160754340907, 2, [2, 3, 353,
     57467, 132049, 1923133, 31757755568855353, 75445702479781427272750846543864801]⟩,
   ⟨2 ^ 255 - 19, 2, [2, 2, 3, 65147,
     74058212732561358302231226437062788676166966415465897661863160754340907]⟩]

/-- Every listed factor is a prime. -/
private theorem smallFactors_prime : ∀ q ∈ smallFactors, q.Prime := by
  simp only [smallFactors, List.forall_mem_cons, List.not_mem_nil, false_imp_iff,
    implies_true, and_true]
  norm_num

/-- The modulus is prime. -/
theorem p25519_prime : Nat.Prime p25519 := by
  rw [p25519_eq_pow]
  exact prime_of_certifies smallFactors_prime
    (show certifies smallFactors fieldCertificate by decide +kernel) _
    (by decide +kernel)

instance : Fact p25519.Prime := ⟨p25519_prime⟩

/-- A positive integer below the modulus is not zero in the field. -/
theorem natCast_ne_zero {n : ℕ} (hpos : 0 < n) (hlt : n < 2 ^ 255 - 19) : (n : Fp) ≠ 0 := by
  intro h
  have hle := Nat.le_of_dvd hpos ((ZMod.natCast_eq_zero_iff n p25519).mp h)
  rw [p25519_eq] at hle
  omega

/-- Integers with the same remainder are equal in the field. -/
theorem natCast_eq_of_mod {a b : ℕ} (h : a % (2 ^ 255 - 19) = b % (2 ^ 255 - 19)) :
    (a : Fp) = b := by
  refine (ZMod.natCast_eq_natCast_iff a b p25519).mpr ?_
  rw [p25519_eq]
  exact h

end TweetNacl
