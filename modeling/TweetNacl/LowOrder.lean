import TweetNacl.CurveOrders

/-!
# The inputs X25519 maps to zero

Every field element is the coordinate of a point of Curve25519 or of its twist. A clamped scalar is
eight times a number below both large primes, so it annihilates exactly the points of order dividing
eight. Their coordinates are those that doubling twice takes to 0: 0, 1, -1 and two more. The result
does not depend on the scalar.
-/

namespace TweetNacl

open Limbs Montgomery

section Roots

/-- The residue of a square root of `486664`. -/
def rootNat : ℕ := 48802004052532134862652268456126542835229456083994414501085850622543968879637

/-- A coordinate of a point of order eight. -/
def order8 : ℕ := 325606250916557431795983626356110631294008115727848805560023387167927233504

/-- Its inverse, the other such coordinate. -/
def order8Inv : ℕ := 39382357235489614581723060781553021112529911719440698176882885853963445705823

/-- The residue squares to `486664`. -/
theorem rootNat_sq : (rootNat : Fp) ^ 2 = 486664 := by
  have h := natCast_eq_of_mod (a := rootNat ^ 2) (b := 486664) (by decide +kernel)
  exact_mod_cast h

/-- The sum of the two coordinates of order eight. -/
theorem order8_add_inv : (order8 : Fp) + order8Inv = 2 + 2 * rootNat := by
  have h := natCast_eq_of_mod (a := order8 + order8Inv) (b := 2 + 2 * rootNat) (by decide +kernel)
  exact_mod_cast h

/-- They are inverse to each other. -/
theorem order8_mul_inv : (order8 : Fp) * order8Inv = 1 := by
  have h := natCast_eq_of_mod (a := order8 * order8Inv) (b := 1) (by decide +kernel)
  exact_mod_cast h

/-- The discriminant of the quadratic factor of the curve equation is not a square. -/
theorem discriminant_nonsquare : ¬ IsSquare ((486662 : Fp) ^ 2 - 4) := by
  rintro ⟨s, hs⟩
  have hc : ((4 * 121666 * iNat : ℕ) : Fp) ≠ 0 := by
    rw [Nat.cast_mul]
    exact mul_ne_zero (natCast_ne_zero (by norm_num) (by norm_num))
      (natCast_ne_zero (by decide) (by decide))
  refine d25519_nonsquare ⟨s / (4 * 121666 * iNat : ℕ), ?_⟩
  have hd := d25519_eq
  have hI := sqrtMinusOne_sq
  rw [sqrtMinusOne] at hI
  field_simp
  push_cast
  linear_combination hs + 16 * 121666 ^ 2 * d25519 * hI - 16 * 121666 * hd

/-- The only coordinate of a point of order two is zero. -/
theorem quadratic_ne_zero (u : Fp) : u ^ 2 + 486662 * u + 1 ≠ 0 := by
  intro h
  exact discriminant_nonsquare ⟨2 * u + 486662, by linear_combination -4 * h⟩

/-- `A - 2` is not a square. -/
theorem coefficient_sub_two_nonsquare : ¬ IsSquare ((486662 : Fp) - 2) := by
  rintro ⟨s, hs⟩
  have hroot := rootNat_sq
  exact discriminant_nonsquare ⟨s * rootNat, by linear_combination 486664 * hs - s ^ 2 * hroot⟩

/-- The denominator of the doubling formula vanishes at 0 alone. -/
theorem denominator_ne_zero {u : Fp} (hu : u ≠ 0) : 4 * u * (u ^ 2 + 486662 * u + 1) ≠ 0 :=
  mul_ne_zero (mul_ne_zero four_ne_zero_fp hu) (quadratic_ne_zero u)

/-- The coordinates that double to 0. -/
theorem doubleCoord_eq_zero_iff {u : Fp} : doubleCoord 486662 u = 0 ↔ u = 0 ∨ u = 1 ∨ u = -1 := by
  by_cases hu : u = 0
  · simp [hu]
  · rw [doubleCoord, mul_eq_zero, or_iff_left (inv_ne_zero (denominator_ne_zero hu)),
      pow_eq_zero_iff two_ne_zero, sub_eq_zero, sq_eq_one_iff, or_iff_right hu]

/-- The second factor of the equation of order eight has no root. -/
theorem second_factor_ne_zero (u : Fp) : u ^ 2 - (2 - 2 * rootNat) * u + 1 ≠ 0 := by
  intro h
  have hroot := rootNat_sq
  have hsum := order8_add_inv
  have hprod := order8_mul_inv
  have hroot0 : (rootNat : Fp) ≠ 0 := natCast_ne_zero (by decide) (by decide)
  have h4 := four_ne_zero_fp
  refine coefficient_sub_two_nonsquare
    ⟨(2 * u - (2 - 2 * rootNat)) * (order8 - order8Inv) / (4 * rootNat), ?_⟩
  -- the discriminants of the two factors multiply to a square times `486660`
  have hu : (2 * u - (2 - 2 * (rootNat : Fp))) ^ 2 = 4 * rootNat * (rootNat - 2) := by
    linear_combination 4 * h
  have horder8 : ((order8 : Fp) - order8Inv) ^ 2 = 4 * rootNat * (rootNat + 2) := by
    linear_combination (order8 + order8Inv + 2 + 2 * rootNat) * hsum - 4 * hprod
  generalize 2 * u - (2 - 2 * (rootNat : Fp)) = v at hu ⊢
  generalize (order8 : Fp) - order8Inv = w at horder8 ⊢
  field_simp
  linear_combination -w ^ 2 * hu - 4 * rootNat * (rootNat - 2) * horder8 - 16 * rootNat ^ 2 * hroot

/-- Doubling reaches 1 from the two coordinates of order eight only. -/
theorem doubleCoord_eq_one_iff {u : Fp} : doubleCoord 486662 u = 1 ↔ u = order8 ∨
    u = order8Inv := by
  have hroot := rootNat_sq
  have hsum := order8_add_inv
  have hprod := order8_mul_inv
  have hfactor : (u ^ 2 - 1) ^ 2 - 4 * u * (u ^ 2 + 486662 * u + 1) =
      (u - order8) * (u - order8Inv) * (u ^ 2 - (2 - 2 * rootNat) * u + 1) := by
    linear_combination 4 * u ^ 2 * hroot + (u ^ 2 - (2 - 2 * rootNat) * u + 1) * (u * hsum - hprod)
  by_cases hu : u = 0
  · have horder8 : (0 : Fp) ≠ order8 := fun h0 => zero_ne_one (by rw [← hprod, ← h0, zero_mul])
    have hinv : (0 : Fp) ≠ order8Inv := fun h0 => zero_ne_one (by rw [← hprod, ← h0, mul_zero])
    simp [hu, horder8, hinv]
  · rw [doubleCoord, ← div_eq_mul_inv, div_eq_one_iff_eq (denominator_ne_zero hu),
      ← sub_eq_zero, hfactor, mul_eq_zero, or_iff_left (second_factor_ne_zero u), mul_eq_zero,
      sub_eq_zero, sub_eq_zero]

/-- Doubling does not reach -1. -/
theorem doubleCoord_ne_neg_one (u : Fp) : doubleCoord 486662 u ≠ -1 := by
  intro h
  have hu : u ≠ 0 := by
    rintro rfl
    rw [doubleCoord_zero, zero_eq_neg] at h
    exact one_ne_zero h
  rw [doubleCoord, ← div_eq_mul_inv, div_eq_iff (denominator_ne_zero hu)] at h
  have hI := sqrtMinusOne_sq
  have h2 := two_ne_zero_fp
  refine coefficient_sub_two_nonsquare ⟨sqrtMinusOne * (u + 1) ^ 2 / (2 * u), ?_⟩
  field_simp
  linear_combination -(u + 1) ^ 4 * hI + h

/-- The coordinates of the points whose order divides eight. -/
def lowOrderCoordinates : List Fp := [0, 1, -1, order8, order8Inv]

/-- The coordinates that double to 0 in two steps are those of low order. -/
theorem doubleCoord_doubleCoord_eq_zero_iff {u : Fp} :
    doubleCoord 486662 (doubleCoord 486662 u) = 0 ↔ u ∈ lowOrderCoordinates := by
  rw [doubleCoord_eq_zero_iff, doubleCoord_eq_zero_iff, doubleCoord_eq_one_iff,
    or_iff_left (doubleCoord_ne_neg_one u)]
  simp only [lowOrderCoordinates, List.mem_cons, List.not_mem_nil, or_false, or_assoc]

end Roots

section Points

variable {W : WeierstrassCurve.Affine Fp} {δ : Fp}

/-- The formula gives the coordinate of the doubled point. -/
theorem uCoord_double (hW : W = twist 486662 δ) (hδ : δ ≠ 0) (P : W.Point) :
    uCoord δ (P + P) = doubleCoord 486662 (uCoord δ P) :=
  uCoord_add_self hW hδ two_ne_zero_fp coefficient_sq_ne_four P

/-- The points whose order divides eight. -/
theorem eight_smul_eq_zero_iff (hW : W = twist 486662 δ) (hδ : δ ≠ 0) (P : W.Point) :
    8 • P = 0 ↔ uCoord δ P ∈ lowOrderCoordinates := by
  rw [show 8 • P = (P + P + (P + P)) + (P + P + (P + P)) by abel,
    add_self_eq_zero_iff hW hδ two_ne_zero_fp coefficient_sq_ne_four quadratic_ne_zero,
    uCoord_double hW hδ, uCoord_double hW hδ, doubleCoord_doubleCoord_eq_zero_iff]

/-- A multiple of eight annihilates the points of order dividing eight, and no others if it is
prime to the rest of the group order. -/
theorem smul_eq_zero_iff_of_coprime {G : Type*} [AddCommGroup G] {P : G} {l k : ℕ}
    (hl : (8 * l) • P = 0) (hcoprime : l.Coprime k) : (8 * k) • P = 0 ↔ 8 • P = 0 := by
  constructor
  · intro hk
    have hgcd :=
      Nat.dvd_gcd (addOrderOf_dvd_of_nsmul_eq_zero hl) (addOrderOf_dvd_of_nsmul_eq_zero hk)
    rw [Nat.gcd_mul_left, hcoprime.gcd_eq_one, mul_one] at hgcd
    exact addOrderOf_dvd_iff_nsmul_eq_zero.mp hgcd
  · intro h
    rw [mul_comm, mul_smul, h, smul_zero]

/-- The ladder on a clamped scalar yields zero exactly for the points of order dividing eight. -/
theorem x25519Ladder_eq_zero_iff (hW : W = twist 486662 δ) (hδ : δ ≠ 0) {P : W.Point} {l k : ℕ}
    (hl : (8 * l) • P = 0) (hcoprime : l.Coprime (2 * k)) (hk : 8 * k < 2 ^ 255) :
    x25519Ladder 255 (8 * k) (uCoord δ P) = 0 ↔ uCoord δ P ∈ lowOrderCoordinates := by
  rw [x25519Ladder_uCoord hW hδ hk,
    ← add_self_eq_zero_iff hW hδ two_ne_zero_fp coefficient_sq_ne_four
    quadratic_ne_zero, ← add_smul, show 8 * k + 8 * k = 8 * (2 * k) by ring,
    smul_eq_zero_iff_of_coprime hl hcoprime, eight_smul_eq_zero_iff hW hδ]

end Points

/-- A decoded scalar is eight times a number of 252 bits. -/
theorem exists_eight_mul (n : Vector UInt8 32) : ∃ k, decodeScalar25519 n = 8 * k ∧ 0 < k ∧
    k < 2 ^ 252 := by
  have hmod := Nat.mod_lt (leNat n / 8) (by norm_num : 0 < 2 ^ 251)
  refine ⟨2 ^ 251 + leNat n / 8 % 2 ^ 251, ?_, by positivity, ?_⟩
  · rw [decodeScalar25519]
    ring
  · calc 2 ^ 251 + leNat n / 8 % 2 ^ 251 < 2 ^ 251 + 2 ^ 251 := by gcongr
      _ = 2 ^ 252 := by norm_num

/-- No larger prime divides twice such a number. -/
theorem coprime_of_prime {l k : ℕ} (hl : l.Prime) (hpos : 0 < k) (hk : k < 2 ^ 252)
    (hlarge : 2 ^ 252 ≤ l) :
    l.Coprime (2 * k) := by
  rw [hl.coprime_iff_not_dvd, hl.dvd_mul]
  rintro (h | h)
  · have := Nat.le_of_dvd (by norm_num) h
    omega
  · have := Nat.le_of_dvd hpos h
    omega

/-- X25519 yields zero exactly on the coordinates of points whose order divides eight, for every
scalar. -/
theorem x25519_eq_zero_iff (n p : Vector UInt8 32) :
    x25519 n p = 0 ↔ fieldOfBytes p ∈ lowOrderCoordinates := by
  obtain ⟨k, hk, hpos, hlt⟩ := exists_eight_mul n
  rw [x25519, hk]
  generalize fieldOfBytes p = u
  by_cases hu : u = 0
  · rw [hu, x25519Ladder_zero]
    simp [lowOrderCoordinates]
  · have hcubic : cubic 486662 u ≠ 0 := by
      rw [cubic, show u ^ 3 + 486662 * u ^ 2 + u = u * (u ^ 2 + 486662 * u + 1) by ring]
      exact mul_ne_zero hu (quadratic_ne_zero u)
    have hbits : 8 * k < 2 ^ 255 := by omega
    obtain ⟨hone, htwo⟩ := ne_zero_of_not_isSquare not_isSquare_one_mul_two
    rcases exists_point two_ne_zero_fp not_isSquare_one_mul_two hcubic with ⟨P, rfl⟩ | ⟨P, rfl⟩
    · exact x25519Ladder_eq_zero_iff rfl hone (smul_curve_eq_zero P)
        (coprime_of_prime L_prime hpos hlt (by decide)) hbits
    · exact x25519Ladder_eq_zero_iff rfl htwo (smul_twist_eq_zero P)
        (coprime_of_prime twistL_prime hpos hlt (by decide)) hbits

end TweetNacl
