import TweetNacl.Fp
import TweetNacl.Lib.EdwardsExtended

/-!
# The curve of Ed25519

The twisted Edwards curve `-x ^ 2 + y ^ 2 = 1 + d x ^ 2 y ^ 2` over the field of `2 ^ 255 - 19`
elements is complete, its base point has order dividing `L`, and the candidate root of the decoding
is a root of the curve equation, or a root after multiplication by a square root of `-1`, whenever
there is one.
-/

namespace TweetNacl

open Edwards

/-- The residue of `-121665 / 121666`. -/
def dNat : ℕ := 0x52036cee2b6ffe738cc740797779e89800700a4d4141d8ab75eb4dca135978a3

/-- The residue of a square root of `-1`. -/
def iNat : ℕ := 0x2b8324804fc1df0b2b4d00993dfbd7a72f431806ad2fe478c4ee1b274a0ea0b0

/-- The curve coefficient. -/
def d25519 : Fp := (dNat : Fp)

/-- The square root of `-1` that the code uses. -/
def sqrtMinusOne : Fp := (iNat : Fp)

/-- The curve constant is `-121665/121666`. -/
theorem d25519_eq : 121666 * d25519 = -121665 := by
  have h := natCast_eq_of_mod (a := 121666 * dNat + 121665) (b := 0) (by decide +kernel)
  rw [Nat.cast_add, Nat.cast_mul, Nat.cast_zero] at h
  exact eq_neg_of_add_eq_zero_left h

/-- The constant squares to minus one. -/
theorem sqrtMinusOne_sq : sqrtMinusOne ^ 2 = -1 := by
  have h := natCast_eq_of_mod (a := iNat ^ 2 + 1) (b := 0) (by decide +kernel)
  rw [Nat.cast_add, Nat.cast_pow, Nat.cast_one, Nat.cast_zero] at h
  exact eq_neg_of_add_eq_zero_left h

/-- The power of Euler's criterion. -/
theorem d25519_pow :
    d25519 ^ 28948022309329048855892746252171976963317496166410141009864396001978282409974 =
      -1 := by
  have hpow := powMod_cast p25519 dNat (show
    28948022309329048855892746252171976963317496166410141009864396001978282409974 < 2 ^ 255
      by norm_num)
  have hvalue : powMod p25519 255 dNat
      28948022309329048855892746252171976963317496166410141009864396001978282409974 + 1 =
      p25519 := by
    rw [p25519_eq_pow]
    decide +kernel
  rw [d25519, ← hpow, eq_neg_iff_add_eq_zero, ← Nat.cast_add_one, hvalue, ZMod.natCast_self]

/-- The order of the multiplicative group. -/
theorem pow_order {x : Fp} (hx : x ≠ 0) :
    x ^ 57896044618658097711785492504343953926634992332820282019728792003956564819948 = 1 := by
  have h := ZMod.pow_card_sub_one_eq_one hx
  rwa [show p25519 - 1 =
      57896044618658097711785492504343953926634992332820282019728792003956564819948 by
    rw [p25519_eq]] at h

/-- The curve constant is not zero. -/
theorem d25519_ne_zero : d25519 ≠ 0 := natCast_ne_zero (by decide) (by decide)

/-- The field has odd characteristic. -/
theorem neg_one_ne_one : (-1 : Fp) ≠ 1 := by
  intro h
  have h2 : ((2 : ℕ) : Fp) = 0 := by
    rw [Nat.cast_ofNat]
    linear_combination -h
  exact natCast_ne_zero (by norm_num) (by norm_num) h2

/-- The curve constant is not a square, so the addition law is complete. -/
theorem d25519_nonsquare : ¬ IsSquare d25519 := by
  rintro ⟨s, hs⟩
  have hs0 : s ≠ 0 := by
    rintro rfl
    exact d25519_ne_zero (by rw [hs, mul_zero])
  have hpow := d25519_pow
  rw [hs, ← pow_two, ← pow_mul] at hpow
  exact neg_one_ne_one (hpow.symm.trans (pow_order hs0))

instance : Complete (-1 : Fp) d25519 where
  two_ne_zero := by simpa using natCast_ne_zero (n := 2) (by norm_num) (by norm_num)
  a_ne_zero := neg_ne_zero.mpr one_ne_zero
  a_square := ⟨sqrtMinusOne, by rw [← pow_two, sqrtMinusOne_sq]⟩
  d_nonsquare := d25519_nonsquare

/-- The points of the curve. -/
abbrev EdPoint := Edwards.Point (-1 : Fp) d25519

/-- The residue of the first coordinate of the base point. -/
def baseX : ℕ := 0x216936d3cd6e53fec0a4e231fdd6dc5c692cc7609525a7b2c9562d608f25d51a

/-- The residue of the second coordinate of the base point. -/
def baseY : ℕ := 0x6666666666666666666666666666666666666666666666666666666666666658

/-- The base point. -/
def B : EdPoint where
  x := (baseX : Fp)
  y := (baseY : Fp)
  on_curve := by
    have h := natCast_eq_of_mod (a := baseY ^ 2) (b := 1 + dNat * baseX ^ 2 * baseY ^ 2 + baseX ^ 2)
      (by decide +kernel)
    simp only [Nat.cast_add, Nat.cast_mul, Nat.cast_pow, Nat.cast_one] at h
    rw [d25519]
    linear_combination h

/-- The order of the base point. -/
def L : ℕ := 2 ^ 252 + 27742317777372353535851937790883648493

/-- The multiple of the base point by `L`, in extended coordinates with the modulus written out. -/
def orderMultiple : Extended ℕ :=
  Extended.mulMod (2 ^ 255 - 19) (2 * dNat) 253 L ⟨baseX, baseY, 1, baseX * baseY⟩

/-- Multiples of the base point, computed on natural numbers. -/
theorem mulMod_base_represents {bits n : ℕ} (hn : n < 2 ^ bits) :
    (Extended.cast p25519 (Extended.mulMod (2 ^ 255 - 19) (2 * dNat) bits n
      ⟨baseX, baseY, 1, baseX * baseY⟩)).Represents (n • B) := by
  have hbase : (Extended.cast p25519 ⟨baseX, baseY, 1, baseX * baseY⟩).Represents B := by
    have h := Extended.represents_affine B
    simpa [Extended.cast, B] using h
  have hcast : ((2 * dNat : ℕ) : Fp) = 2 * d25519 := by rw [Nat.cast_mul, Nat.cast_ofNat, d25519]
  have hmodulus : Extended.mulMod p25519 (2 * dNat) bits n ⟨baseX, baseY, 1, baseX * baseY⟩ =
      Extended.mulMod (2 ^ 255 - 19) (2 * dNat) bits n ⟨baseX, baseY, 1, baseX * baseY⟩ := by
    rw [show p25519 = 2 ^ 255 - 19 by rw [p25519_eq]; norm_num]
  rw [← hmodulus]
  exact Extended.mulMod_represents hcast hn hbase

/-- The order annihilates the base point. -/
theorem order_smul_base : L • B = 0 := by
  have h := mulMod_base_represents (show L < 2 ^ 253 by decide)
  rw [← orderMultiple] at h
  have hx : ((orderMultiple.x : ℕ) : Fp) = (0 : ℕ) := natCast_eq_of_mod (by decide +kernel)
  have hy : ((orderMultiple.y : ℕ) : Fp) = orderMultiple.z := natCast_eq_of_mod (by decide +kernel)
  rw [Nat.cast_zero] at hx
  exact h.eq_zero hx hy

section Root

/-- With the exponent of `pow2523`, squares yield a square root of one. -/
theorem pow_quarter {w : Fp} (hw : IsSquare w) (hw0 : w ≠ 0) :
    w * (w ^ (2 ^ 252 - 3)) ^ 2 = 1 ∨ w * (w ^ (2 ^ 252 - 3)) ^ 2 = -1 := by
  obtain ⟨s, rfl⟩ := hw
  have hsquare : ∀ e : ℕ, s * s * ((s * s) ^ e) ^ 2 * (s * s * ((s * s) ^ e) ^ 2) =
      s ^ (4 * (2 * e + 1)) :=
    fun e => by ring
  apply mul_self_eq_one_iff.mp
  rw [hsquare, ← pow_order (left_ne_zero_of_mul hw0)]
  congr 1

/-- The candidate for a root `x` of `x ^ 2 v = u`. -/
def candidate (u v : Fp) : Fp := u * v ^ 3 * (u * v ^ 7) ^ (2 ^ 252 - 3)

/-- The candidate is a root, or a root of the negated equation, if there is any root. -/
theorem candidate_sq {u v x : Fp} (hv : v ≠ 0) (hx : x ^ 2 * v = u) :
    candidate u v ^ 2 * v = u ∨ candidate u v ^ 2 * v = -u := by
  have hcandidate :
      candidate u v ^ 2 * v = u * (u * v ^ 7 * ((u * v ^ 7) ^ (2 ^ 252 - 3)) ^ 2) := by
    rw [candidate]
    generalize (u * v ^ 7) ^ (2 ^ 252 - 3) = r
    ring
  rw [hcandidate]
  by_cases hu : u = 0
  · left
    rw [hu, zero_mul]
  · have hsquare : IsSquare (u * v ^ 7) := ⟨x * v ^ 4, by rw [← hx]; ring⟩
    rcases pow_quarter hsquare (mul_ne_zero hu (pow_ne_zero 7 hv)) with h | h
    · left
      rw [h, mul_one]
    · right
      rw [h, mul_neg_one]

/-- The denominator of the curve equation solved for `x` does not vanish. -/
theorem one_add_d_sq_ne_zero (y : Fp) : 1 + d25519 * y ^ 2 ≠ 0 := by
  intro h
  have hy : y ≠ 0 := by
    rintro rfl
    simp at h
  refine d25519_nonsquare ⟨sqrtMinusOne / y, ?_⟩
  have hI := sqrtMinusOne_sq
  field_simp
  linear_combination h - hI

/-- The curve equation, solved for `x`. -/
theorem on_curve_iff {x y : Fp} :
    -1 * x ^ 2 + y ^ 2 = 1 + d25519 * x ^ 2 * y ^ 2 ↔ x ^ 2 * (1 + d25519 * y ^ 2) = y ^ 2 - 1 := by
  constructor
  · intro h
    linear_combination -h
  · intro h
    linear_combination -h

/-- A point is determined by its `y` coordinate up to the sign of `x`. -/
theorem EdPoint.eq_or_neg {P Q : EdPoint} (h : P.y = Q.y) : P.x = Q.x ∨ P.x = -Q.x := by
  have hP := on_curve_iff.mp P.on_curve
  have hQ := on_curve_iff.mp Q.on_curve
  rw [h, ← hQ] at hP
  exact sq_eq_sq_iff_eq_or_eq_neg.mp (mul_right_cancel₀ (one_add_d_sq_ne_zero _) hP)

end Root

end TweetNacl
