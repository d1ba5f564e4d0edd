import TweetNacl.Lib.Montgomery
import TweetNacl.X25519

/-!
# X25519 multiplies points

The coordinate map of Curve25519 and of its twists turns multiplication of points into the ladder of
X25519, for every point, including those of small order. Diffie-Hellman agreement follows from the
commutativity of the multiplication by two scalars, since the base point's coordinate 9 belongs to
a point over the field.
-/

namespace TweetNacl

open Limbs Montgomery

/-- Curve25519: `y ^ 2 = x ^ 3 + 486662 x ^ 2 + x`. -/
abbrev Curve25519 : WeierstrassCurve.Affine Fp := Montgomery.curve 486662

/-- Two is invertible in the field. -/
theorem two_ne_zero_fp : (2 : Fp) ≠ 0 := by
  simpa using natCast_ne_zero (n := 2) (by norm_num) (by norm_num)

/-- Four is invertible in the field. -/
theorem four_ne_zero_fp : (4 : Fp) ≠ 0 := by
  simpa using natCast_ne_zero (n := 4) (by norm_num) (by norm_num)

/-- The curve is nonsingular: `A ^ 2 ≠ 4`. -/
theorem coefficient_sq_ne_four : (486662 : Fp) ^ 2 ≠ 4 := by
  intro h
  have hzero : ((486662 ^ 2 - 4 : ℕ) : Fp) = 0 := by
    rw [Nat.cast_sub (by norm_num), sub_eq_zero]
    exact_mod_cast h
  exact natCast_ne_zero (by norm_num) (by norm_num) hzero

/-- The pair of projective coordinates represents two points of the curve. -/
structure XPair.Represents (s : XPair) (P Q : Curve25519.Point) : Prop where
  first : Montgomery.Represents s.x2 s.z2 P
  second : Montgomery.Represents s.x3 s.z3 Q

/-- The ladder of the coordinate 0 stays on pairs with a zero entry. -/
theorem ladderPair_zero (bits k : ℕ) :
    (ladderPair bits k 0).x2 * (ladderPair bits k 0).z2 = 0 := by
  have hloop := Loops.foldRev_invariant (n := bits)
    (f := fun t _ s => XPair.step 0 (k.testBit t) s) (s := ⟨1, 0, 0, 1⟩)
    (fun _ s => s.x2 * s.z2 = 0 ∧ s.x3 * s.z3 = 0) ⟨by ring, by ring⟩ fun t ht s hs => ?_
  · exact hloop.1
  · have hdouble : ∀ s : XPair, s.x2 * s.z2 = 0 → (s.doubleAdd 0).z2 = 0 ∧
        (s.doubleAdd 0).z3 = 0 := by
      refine fun s hs => ⟨?_, zero_mul _⟩
      simp only [XPair.doubleAdd]
      linear_combination 4 * ((s.x2 + s.z2) ^ 2 + 121665 * (4 * (s.x2 * s.z2))) * hs
    cases k.testBit t with
    | false =>
      obtain ⟨h2, h3⟩ := hdouble s hs.1
      exact ⟨mul_eq_zero_of_right _ h2, mul_eq_zero_of_right _ h3⟩
    | true =>
      obtain ⟨h2, h3⟩ := hdouble (s.cswap true) hs.2
      exact ⟨mul_eq_zero_of_right _ h3, mul_eq_zero_of_right _ h2⟩

/-- The ladder of the coordinate 0. -/
theorem x25519Ladder_zero (bits k : ℕ) : x25519Ladder bits k 0 = 0 := by
  rw [x25519Ladder_eq, XPair.output, pow_p25519_sub_two]
  rcases mul_eq_zero.mp (ladderPair_zero bits k) with h | h
  · rw [h, zero_mul]
  · rw [h, inv_zero, mul_zero]

section Twist

/-- The pair of projective coordinates represents two points of a twist of the curve. -/
structure XPair.TwistRepresents {W : WeierstrassCurve.Affine Fp} (δ : Fp) (s : XPair)
    (P Q : W.Point) :
    Prop where
  first : Montgomery.TwistRepresents δ s.x2 s.z2 P
  second : Montgomery.TwistRepresents δ s.x3 s.z3 Q

variable {W : WeierstrassCurve.Affine Fp} {δ : Fp} {s : XPair} {P Q : W.Point} {u : Fp}

/-- Swapping the two columns swaps the two points they stand for. -/
theorem XPair.TwistRepresents.cswap (h : s.TwistRepresents δ P Q) :
    (s.cswap true).TwistRepresents δ Q P :=
  ⟨h.second, h.first⟩

/-- Doubling and differential addition. -/
theorem XPair.TwistRepresents.doubleAdd (hW : W = twist 486662 δ) (hδ : δ ≠ 0)
    (h : s.TwistRepresents δ P Q) (hu : u ≠ 0) (hdiff : uCoord δ (P - Q) = u) :
    (s.doubleAdd u).TwistRepresents δ (P + P) (P + Q) := by
  have hdouble := h.first.double hW hδ two_ne_zero_fp coefficient_sq_ne_four
  have hadd := h.first.diffAdd hW hδ two_ne_zero_fp coefficient_sq_ne_four h.second (by rwa [hdiff])
  rw [hdiff] at hadd
  constructor
  · convert hdouble using 1 <;> simp only [XPair.doubleAdd] <;> ring
  · convert hadd.scale four_ne_zero_fp using 1 <;> simp only [XPair.doubleAdd] <;> ring

/-- A ladder step takes the multiples `n` and `n + 1` to `2 n + bit` and its successor. -/
theorem XPair.TwistRepresents.step (hW : W = twist 486662 δ) (hδ : δ ≠ 0) {n : ℕ}
    (h : s.TwistRepresents δ (n • P) ((n + 1) • P)) (hu : uCoord δ P ≠ 0) (bit : Bool) :
    (s.step (uCoord δ P) bit).TwistRepresents δ ((2 * n + bit.toNat) • P)
      ((2 * n + bit.toNat + 1) • P) := by
  cases bit with
  | false =>
    have hdiff : uCoord δ (n • P - (n + 1) • P) = uCoord δ P := by
      rw [add_smul, one_smul, sub_add_cancel_left, uCoord_neg]
    have hstep := h.doubleAdd hW hδ hu hdiff
    rw [← add_smul, ← add_smul,
      show n + n = 2 * n by ring, show n + (n + 1) = 2 * n + 1 by ring] at hstep
    exact hstep
  | true =>
    have hdiff : uCoord δ ((n + 1) • P - n • P) = uCoord δ P := by
      rw [add_smul, one_smul, add_sub_cancel_left]
    have hstep := (h.cswap.doubleAdd hW hδ hu hdiff).cswap
    rw [← add_smul, ← add_smul, show n + 1 + (n + 1) = 2 * n + 1 + 1 by ring,
      show n + 1 + n = 2 * n + 1 by ring] at hstep
    exact hstep

/-- The ladder pair of a point whose coordinate is not zero. -/
theorem ladderPair_twistRepresents (hW : W = twist 486662 δ) (hδ : δ ≠ 0) {bits k : ℕ}
    (hk : k < 2 ^ bits) (hu : uCoord δ P ≠ 0) :
    (ladderPair bits k (uCoord δ P)).TwistRepresents δ (k • P) ((k + 1) • P) := by
  refine Loops.foldRev_bits (fun n s => XPair.TwistRepresents δ s (n • P) ((n + 1) • P)) hk ?_
    fun t _ n s hs => hs.step hW hδ hu _
  rw [zero_nsmul, zero_add, one_nsmul]
  exact ⟨twistRepresents_zero, twistRepresents_one hδ hu⟩

/-- The ladder computes the coordinate of a multiple, for every point of every twist. -/
theorem x25519Ladder_uCoord (hW : W = twist 486662 δ) (hδ : δ ≠ 0) {bits k : ℕ} (hk : k < 2 ^ bits)
    (P : W.Point) : x25519Ladder bits k (uCoord δ P) = uCoord δ (k • P) := by
  by_cases hu : uCoord δ P = 0
  · rw [hu, x25519Ladder_zero, uCoord_smul_of_uCoord_eq_zero hW hδ hu]
  · rw [x25519Ladder_eq, XPair.output, pow_p25519_sub_two]
    exact (ladderPair_twistRepresents hW hδ hk hu).first.uCoord_eq hδ

end Twist

/-- The ladder pair of a point whose coordinate is not zero. -/
theorem ladderPair_represents {P : Curve25519.Point} {bits k : ℕ} (hk : k < 2 ^ bits)
    (hu : xCoord P ≠ 0) : (ladderPair bits k (xCoord P)).Represents (k • P) ((k + 1) • P) := by
  rw [xCoord_eq_uCoord] at hu ⊢
  have h := ladderPair_twistRepresents (curve_eq_twist _) one_ne_zero hk hu
  exact ⟨represents_iff.mpr h.first, represents_iff.mpr h.second⟩

/-- The ladder computes the coordinate of a multiple, for every point. -/
theorem x25519Ladder_xCoord {bits k : ℕ} (hk : k < 2 ^ bits) (P : Curve25519.Point) :
    x25519Ladder bits k (xCoord P) = xCoord (k • P) := by
  rw [xCoord_eq_uCoord, xCoord_eq_uCoord]
  exact x25519Ladder_uCoord (curve_eq_twist _) one_ne_zero hk P

/-- The `y` coordinate of the base point. -/
def basePointY : ℕ := 14781619447589544791020593568409986887264606134616475288964881837755586237401

/-- The base point satisfies the curve equation. -/
theorem basePoint_equation : (basePointY : Fp) ^ 2 = 9 ^ 3 + 486662 * 9 ^ 2 + 9 := by
  have h := natCast_eq_of_mod (a := basePointY ^ 2) (b := 9 ^ 3 + 486662 * 9 ^ 2 + 9)
    (by decide +kernel)
  exact_mod_cast h

/-- The base point. -/
def basePoint : Curve25519.Point :=
  .some 9 (basePointY : Fp) (curve_nonsingular two_ne_zero_fp
    (natCast_ne_zero (by decide) (by decide)) basePoint_equation)

/-- The constant `_9` decodes to the `x`-coordinate of the base point. -/
theorem fieldOfBytes_basePoint9 : fieldOfBytes basePoint9 = xCoord basePoint := by
  rw [fieldOfBytes, show leInt basePoint9 % 2 ^ 255 = 9 by decide +kernel]
  exact_mod_cast rfl

/-- The decoded scalar has 255 bits. -/
theorem decodeScalar25519_lt (n : Vector UInt8 32) : decodeScalar25519 n < 2 ^ 255 := by
  have hmod := Nat.mod_lt (leNat n / 8) (by norm_num : 0 < 2 ^ 251)
  rw [decodeScalar25519]
  generalize leNat n / 8 % 2 ^ 251 = r at hmod
  omega

/-- Decoding the bytes `crypto_scalarmult` computes gives X25519. -/
theorem fieldOfBytes_scalarmultBytes (n p : Vector UInt8 32) :
    fieldOfBytes (scalarmultBytes n p) = x25519 n p :=
  fieldOfBytes_of_leInt (leInt_scalarmultBytes n p)

/-- A public key is the coordinate of a multiple of the base point. -/
theorem x25519_basePoint9 (n : Vector UInt8 32) :
    x25519 n basePoint9 = xCoord (decodeScalar25519 n • basePoint) := by
  rw [x25519, fieldOfBytes_basePoint9, x25519Ladder_xCoord (decodeScalar25519_lt n)]

/-- The two parties compute the same bytes. -/
theorem scalarmultBytes_agree (a b : Vector UInt8 32) :
    scalarmultBytes a (scalarmultBytes b basePoint9) = scalarmultBytes b
      (scalarmultBytes a basePoint9) := by
  have hshared : ∀ a b : Vector UInt8 32, x25519 a (scalarmultBytes b basePoint9) =
      xCoord ((decodeScalar25519 a * decodeScalar25519 b) • basePoint) := fun a b => by
    rw [x25519, fieldOfBytes_scalarmultBytes, x25519_basePoint9,
      x25519Ladder_xCoord (decodeScalar25519_lt a), ← mul_smul]
  apply leInt_injective
  rw [leInt_scalarmultBytes, leInt_scalarmultBytes, hshared, hshared, mul_comm]

end TweetNacl
