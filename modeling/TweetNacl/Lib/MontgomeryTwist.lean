import Mathlib.AlgebraicGeometry.EllipticCurve.Affine.Point
import Mathlib.Tactic.FieldSimp
import Mathlib.Tactic.LinearCombination

/-!
# Arithmetic on the coordinate of a twisted Montgomery curve

The curve `δ v ^ 2 = u ^ 3 + A u ^ 2 + u` has the Weierstrass coordinates `x = δ u` and
`y = δ ^ 2 v`. A pair `X : Z` represents a point if `X / Z` is its `u` coordinate, with `Z = 0` for
the point at infinity. Doubling and differential addition act on such pairs by formulas in which
`δ` does not occur, without exceptional cases as long as the difference is neither zero nor
the point `(0, 0)`. The group law is Mathlib's.
-/

namespace Montgomery

open WeierstrassCurve.Affine

variable {F : Type*} [Field F] {A δ : F} {W : WeierstrassCurve.Affine F}

/-- The Montgomery curve with `B = δ`, in Weierstrass coordinates. -/
def twist (A δ : F) : WeierstrassCurve.Affine F := ⟨0, δ * A, 0, δ ^ 2, 0⟩

/-- The affine equation of the twist. -/
theorem twist_equation {x y : F} :
    (twist A δ).Equation x y ↔ y ^ 2 = x ^ 3 + δ * A * x ^ 2 + δ ^ 2 * x := by
  rw [WeierstrassCurve.Affine.equation_iff]
  simp [twist]

/-- An affine point with `y ≠ 0` is nonsingular. -/
theorem twist_nonsingular (h2 : (2 : F) ≠ 0) {x y : F} (hy : y ≠ 0)
    (h : y ^ 2 = x ^ 3 + δ * A * x ^ 2 + δ ^ 2 * x) : (twist A δ).Nonsingular x y := by
  rw [WeierstrassCurve.Affine.nonsingular_iff]
  refine ⟨twist_equation.mpr h, Or.inr ?_⟩
  simp only [twist]
  intro heq
  have : 2 * y = 0 := by linear_combination heq
  exact hy ((mul_eq_zero.mp this).resolve_left h2)

/-- The negative of a point of the twist has the opposite second coordinate. -/
@[simp] theorem twist_negY (x y : F) : (twist A δ).negY x y = -y := by
  simp [twist, WeierstrassCurve.Affine.negY]

/-- The `u` coordinate, with 0 at infinity. -/
def uCoord (δ : F) : W.Point → F
  | .zero => 0
  | .some x _ _ => x / δ

/-- The pair `X : Z` represents the point. -/
def TwistRepresents (δ X Z : F) : W.Point → Prop
  | .zero => X ≠ 0 ∧ Z = 0
  | .some x _ _ => Z ≠ 0 ∧ δ * X = x * Z

variable {X Z X' Z' : F} {P Q : W.Point}

/-- The point at infinity has the coordinate 0. -/
@[simp] theorem uCoord_zero : uCoord δ (0 : W.Point) = 0 := rfl

/-- A point and its negative have the same coordinate. -/
@[simp] theorem uCoord_neg (P : W.Point) : uCoord δ (-P) = uCoord δ P := by
  cases P <;> rfl

/-- The quotient of a representation is the coordinate. -/
theorem TwistRepresents.uCoord_eq (hδ : δ ≠ 0) (h : TwistRepresents δ X Z P) :
    X * Z⁻¹ = uCoord δ P := by
  cases P with
  | zero =>
    rw [show Z = 0 from h.2, inv_zero, mul_zero]
    rfl
  | some x y hxy =>
    obtain ⟨hZ, hX⟩ := h
    change X * Z⁻¹ = x / δ
    field_simp
    linear_combination hX

/-- A quotient with a denominator represents no point at infinity. -/
theorem TwistRepresents.ne_zero (h : TwistRepresents δ X Z P) (hZ : Z ≠ 0) : P ≠ 0 := by
  rintro rfl
  exact hZ h.2

/-- The quotient `1 / 0` represents the point at infinity. -/
theorem twistRepresents_zero : TwistRepresents δ 1 0 (0 : W.Point) := ⟨one_ne_zero, rfl⟩

/-- A point with a coordinate that is not zero over the denominator 1. -/
theorem twistRepresents_one (hδ : δ ≠ 0) (hP : uCoord δ P ≠ 0) :
    TwistRepresents δ (uCoord δ P) 1 P := by
  cases P with
  | zero => exact absurd rfl hP
  | some x y hxy => exact ⟨one_ne_zero, by rw [uCoord]; field_simp⟩

/-- A representation may be scaled. -/
theorem TwistRepresents.scale {c : F} (h : TwistRepresents δ X Z P) (hc : c ≠ 0) :
    TwistRepresents δ (c * X) (c * Z) P := by
  cases P with
  | zero => exact ⟨mul_ne_zero hc h.1, by rw [show Z = 0 from h.2, mul_zero]⟩
  | some x y hxy => exact ⟨mul_ne_zero hc h.1, by linear_combination c * h.2⟩

/-- A representation of an affine point is determined by its denominator. -/
theorem TwistRepresents.exists_u {x y : F} {hxy : W.Nonsingular x y} (hδ : δ ≠ 0)
    (h : TwistRepresents δ X Z (Point.some x y hxy)) : ∃ u, x = δ * u ∧ X = u * Z := by
  refine ⟨x / δ, by field_simp, ?_⟩
  field_simp
  linear_combination h.2

/-- The coordinates of the points of order two are not ±1. -/
theorem twist_sq_sub_one_ne_zero (hA : A ^ 2 ≠ 4) {u y : F}
    (h : y ^ 2 = δ ^ 3 * (u ^ 3 + A * u ^ 2 + u)) (hδ : δ ≠ 0) (hy : y = 0) : u ^ 2 - 1 ≠ 0 := by
  intro hu
  have hroot : u * (2 + A * u) = 0 := by
    refine (mul_eq_zero.mp ?_).resolve_left (pow_ne_zero 3 hδ)
    linear_combination -h + y * hy - δ ^ 3 * u * hu
  rcases mul_eq_zero.mp hroot with h0 | h0
  · rw [h0] at hu
    norm_num at hu
  · exact hA (by linear_combination (A * u - 2) * h0 - A ^ 2 * hu)

/-- The product of the coordinates of sum and difference. -/
theorem twist_addX_mul_addX {x y x' y' : F} (h : y ^ 2 = x ^ 3 + δ * A * x ^ 2 + δ ^ 2 * x)
    (h' : y' ^ 2 = x' ^ 3 + δ * A * x' ^ 2 + δ ^ 2 * x') (hx : x ≠ x') :
    (twist A δ).addX x x' ((y - y') / (x - x')) * ((twist A δ).addX x x' ((y - -y') / (x - x')) *
      (x - x') ^ 2) = (x * x' - δ ^ 2) ^ 2 := by
  have hsub : x - x' ≠ 0 := sub_ne_zero.mpr hx
  simp only [WeierstrassCurve.Affine.addX, twist]
  field_simp
  linear_combination
    (y ^ 2 + (x ^ 3 + δ * A * x ^ 2 + δ ^ 2 * x) - 2 * y' ^ 2 - 2 *
      ((δ * A + x + x') * (x - x') ^ 2)) * h +
    (y' ^ 2 + (x' ^ 3 + δ * A * x' ^ 2 + δ ^ 2 * x') - 2 * (x ^ 3 + δ * A * x ^ 2 + δ ^ 2 * x) -
      2 * ((δ * A + x + x') * (x - x') ^ 2)) * h'

/-- The map that doubling induces on coordinates. -/
def doubleCoord (A u : F) : F := (u ^ 2 - 1) ^ 2 * (4 * u * (u ^ 2 + A * u + 1))⁻¹

/-- Doubling keeps the coordinate 0. -/
@[simp] theorem doubleCoord_zero (A : F) : doubleCoord A 0 = 0 := by
  simp [doubleCoord]

section Addition

variable [DecidableEq F]

/-- Doubling a representation. -/
theorem TwistRepresents.double (hW : W = twist A δ) (hδ : δ ≠ 0) (h2 : (2 : F) ≠ 0) (hA : A ^ 2 ≠ 4)
    (h : TwistRepresents δ X Z P) :
    TwistRepresents δ ((X ^ 2 - Z ^ 2) ^ 2) (4 * X * Z * (X ^ 2 + A * X * Z + Z ^ 2)) (P + P) := by
  subst hW
  have h4 : (4 : F) ≠ 0 := by
    rw [show (4 : F) = 2 * 2 by norm_num]
    exact mul_ne_zero h2 h2
  cases P with
  | zero =>
    obtain ⟨hX, rfl⟩ := h
    rw [show (Point.zero + Point.zero : (twist A δ).Point) = 0 from add_zero _]
    exact ⟨pow_ne_zero 2 (by simpa using hX), by ring⟩
  | some x y hxy =>
    obtain ⟨u, rfl, rfl⟩ := h.exists_u hδ
    obtain ⟨hZ, -⟩ := h
    have hcurve : y ^ 2 = δ ^ 3 * (u ^ 3 + A * u ^ 2 + u) := by
      linear_combination twist_equation.mp hxy.1
    have hZ' : 4 * (u * Z) * Z * ((u * Z) ^ 2 + A * (u * Z) * Z + Z ^ 2) * δ ^ 3 =
        4 * y ^ 2 * Z ^ 4 := by
      linear_combination -4 * Z ^ 4 * hcurve
    by_cases hy : y = 0
    · rw [Point.add_self_of_Y_eq (by rw [twist_negY, hy, neg_zero])]
      refine ⟨pow_ne_zero 2 ?_, ?_⟩
      · rw [show (u * Z) ^ 2 - Z ^ 2 = Z ^ 2 * (u ^ 2 - 1) by ring]
        exact mul_ne_zero (pow_ne_zero 2 hZ) (twist_sq_sub_one_ne_zero hA hcurve hδ hy)
      · rw [hy] at hZ'
        exact (mul_eq_zero.mp (hZ'.trans (by ring))).resolve_right (pow_ne_zero 3 hδ)
    · have hne : y ≠ (twist A δ).negY (δ * u) y := by
        rw [twist_negY]
        intro heq
        have : 2 * y = 0 := by linear_combination heq
        exact hy ((mul_eq_zero.mp this).resolve_left h2)
      rw [Point.add_self_of_Y_ne hne]
      refine ⟨fun h0 => ?_, ?_⟩
      · rw [h0, zero_mul] at hZ'
        exact mul_ne_zero (mul_ne_zero h4 (pow_ne_zero 2 hy)) (pow_ne_zero 4 hZ) hZ'.symm
      · rw [slope_of_Y_ne rfl hne, WeierstrassCurve.Affine.addX, twist_negY]
        simp only [twist]
        have h2y : 2 * y ≠ 0 := mul_ne_zero h2 hy
        rw [show y - -y = 2 * y by ring]
        field_simp
        linear_combination
          (4 * δ * (u ^ 2 - 1) ^ 2 + 16 * δ * (A + 2 * u) * (u ^ 3 + A * u ^ 2 + u)) * hcurve

/-- If twice a point has a nonzero coordinate, its own coordinate is not ±1. -/
theorem twist_sq_ne_one_of_double (hW : W = twist A δ) (hδ : δ ≠ 0) (h2 : (2 : F) ≠ 0)
    (hA : A ^ 2 ≠ 4) {u y : F} {hxy : W.Nonsingular (δ * u) y}
    (hP : uCoord δ (Point.some (δ * u) y hxy + Point.some (δ * u) y hxy) ≠ 0) : u ^ 2 - 1 ≠ 0 := by
  intro hu
  have hP1 : TwistRepresents δ u 1 (Point.some (δ * u) y hxy) := ⟨one_ne_zero, (mul_one _).symm⟩
  have hdouble := (hP1.double hW hδ h2 hA).uCoord_eq hδ
  rw [one_pow, hu] at hdouble
  exact hP (by rw [← hdouble]; ring)

section Affine

variable {u y u' y' : F} {hxy : W.Nonsingular (δ * u) y} {hxy' : W.Nonsingular (δ * u') y'}

/-- Differential addition of points with the same coordinate. -/
theorem twistRepresents_diffAdd_of_eq (hW : W = twist A δ) (hδ : δ ≠ 0) (h2 : (2 : F) ≠ 0)
    (hA : A ^ 2 ≠ 4) (hZ : Z ≠ 0) (hZ' : Z' ≠ 0) (hx : δ * u = δ * u')
    (hdiff : uCoord δ (Point.some (δ * u) y hxy - Point.some (δ * u') y' hxy') ≠ 0) {d : F} :
    TwistRepresents δ ((u * Z * (u' * Z') - Z * Z') ^ 2) (d * (u * Z * Z' - Z * (u' * Z')) ^ 2)
      (Point.some (δ * u) y hxy + Point.some (δ * u') y' hxy') := by
  rcases Point.X_eq_iff.mp hx with heq | heq
  · rw [heq, sub_self] at hdiff
    exact absurd rfl hdiff
  · have hQ' : Point.some (δ * u') y' hxy' = -Point.some (δ * u) y hxy := by rw [heq, neg_neg]
    rw [hQ', sub_neg_eq_add] at hdiff
    have hsq := twist_sq_ne_one_of_double hW hδ h2 hA hdiff
    rw [hQ', add_neg_cancel, ← mul_left_cancel₀ hδ hx]
    refine ⟨pow_ne_zero 2 ?_, by ring⟩
    rw [show u * Z * (u * Z') - Z * Z' = Z * Z' * (u ^ 2 - 1) by ring]
    exact mul_ne_zero (mul_ne_zero hZ hZ') hsq

/-- Differential addition of points with different coordinates. -/
theorem twistRepresents_diffAdd_of_ne (hW : W = twist A δ) (hδ : δ ≠ 0) (hZ : Z ≠ 0) (hZ' : Z' ≠ 0)
    (hx : δ * u ≠ δ * u')
    (hdiff : uCoord δ (Point.some (δ * u) y hxy - Point.some (δ * u') y' hxy') ≠ 0) :
    TwistRepresents δ ((u * Z * (u' * Z') - Z * Z') ^ 2)
      (uCoord δ (Point.some (δ * u) y hxy - Point.some (δ * u') y' hxy') *
        (u * Z * Z' - Z * (u' * Z')) ^ 2)
      (Point.some (δ * u) y hxy + Point.some (δ * u') y' hxy') := by
  subst hW
  have hprod := twist_addX_mul_addX (twist_equation.mp hxy.1) (twist_equation.mp hxy'.1) hx
  have hsub : u - u' ≠ 0 := fun h0 => hx (by rw [sub_eq_zero.mp h0])
  have hminus := sub_eq_add_neg (Point.some (δ * u) y hxy) (Point.some (δ * u') y' hxy')
  rw [Point.neg_some, Point.add_of_X_ne hx] at hminus
  rw [hminus] at hdiff ⊢
  rw [Point.add_of_X_ne hx]
  simp only [uCoord, twist_negY, slope_of_X_ne hx] at hdiff ⊢
  refine ⟨mul_ne_zero hdiff (pow_ne_zero 2 ?_), ?_⟩
  · rw [show u * Z * Z' - Z * (u' * Z') = Z * Z' * (u - u') by ring]
    exact mul_ne_zero (mul_ne_zero hZ hZ') hsub
  · rw [div_mul_eq_mul_div, mul_div_assoc', eq_div_iff hδ]
    apply mul_left_cancel₀ (pow_ne_zero 2 hδ)
    linear_combination -(Z * Z') ^ 2 * hprod

end Affine

/-- Adding two representations whose difference is known. -/
theorem TwistRepresents.diffAdd (hW : W = twist A δ) (hδ : δ ≠ 0) (h2 : (2 : F) ≠ 0)
    (hA : A ^ 2 ≠ 4) (hP : TwistRepresents δ X Z P) (hQ : TwistRepresents δ X' Z' Q)
    (hdiff : uCoord δ (P - Q) ≠ 0) :
    TwistRepresents δ ((X * X' - Z * Z') ^ 2) (uCoord δ (P - Q) * (X * Z' - Z * X') ^ 2)
      (P + Q) := by
  cases P with
  | zero =>
    obtain ⟨hX, rfl⟩ := hP
    have hsub : (Point.zero - Q : W.Point) = -Q := zero_sub Q
    have hadd : (Point.zero + Q : W.Point) = Q := zero_add Q
    rw [hsub, uCoord_neg] at hdiff ⊢
    rw [hadd]
    cases Q with
    | zero => exact absurd rfl hdiff
    | some x y hxy =>
      obtain ⟨u, rfl, rfl⟩ := hQ.exists_u hδ
      refine ⟨mul_ne_zero hdiff (pow_ne_zero 2 ?_), ?_⟩
      · simpa using ⟨hX, hQ.1⟩
      · simp only [uCoord]
        field_simp
        ring
  | some x y hxy =>
    obtain ⟨u, rfl, rfl⟩ := hP.exists_u hδ
    obtain ⟨hZ, -⟩ := hP
    cases Q with
    | zero =>
      obtain ⟨hX', rfl⟩ := hQ
      have hsub : (Point.some (δ * u) y hxy - Point.zero : W.Point) = Point.some (δ * u) y hxy :=
        sub_zero _
      have hadd : (Point.some (δ * u) y hxy + Point.zero : W.Point) = Point.some (δ * u) y hxy :=
        add_zero _
      rw [hsub] at hdiff ⊢
      rw [hadd]
      refine ⟨mul_ne_zero hdiff (pow_ne_zero 2 ?_), ?_⟩
      · simpa using ⟨hZ, hX'⟩
      · simp only [uCoord]
        field_simp
        ring
    | some x' y' hxy' =>
      obtain ⟨u', rfl, rfl⟩ := hQ.exists_u hδ
      obtain ⟨hZ', -⟩ := hQ
      by_cases hx : δ * u = δ * u'
      · exact twistRepresents_diffAdd_of_eq hW hδ h2 hA hZ hZ' hx hdiff
      · exact twistRepresents_diffAdd_of_ne hW hδ hZ hZ' hx hdiff

/-- Twice a point with coordinate 0 is zero. -/
theorem add_self_of_uCoord_eq_zero (hW : W = twist A δ) (hδ : δ ≠ 0) (hP : uCoord δ P = 0) :
    P + P = 0 := by
  subst hW
  cases P with
  | zero => exact add_zero _
  | some x y hxy =>
    have hx : x = 0 := (div_eq_zero_iff.mp hP).resolve_right hδ
    have hy : y = 0 := by
      have h := twist_equation.mp hxy.1
      rw [hx] at h
      exact pow_eq_zero_iff two_ne_zero |>.mp (by rw [h]; ring)
    exact Point.add_self_of_Y_eq (by rw [twist_negY, hy, neg_zero])

/-- Multiples of a point with coordinate 0 have coordinate 0. -/
theorem uCoord_smul_of_uCoord_eq_zero (hW : W = twist A δ) (hδ : δ ≠ 0)
    (hP : uCoord δ P = 0) (k : ℕ) :
    uCoord δ (k • P) = 0 := by
  have hdouble := add_self_of_uCoord_eq_zero hW hδ hP
  obtain ⟨j, rfl | rfl⟩ := Nat.even_or_odd' k
  · rw [mul_comm, mul_smul, two_smul, hdouble, nsmul_zero, uCoord_zero]
  · rw [add_smul, mul_comm, mul_smul, two_smul, hdouble, nsmul_zero, zero_add, one_smul, hP]

/-- The coordinate of twice a point. -/
theorem uCoord_add_self (hW : W = twist A δ) (hδ : δ ≠ 0) (h2 : (2 : F) ≠ 0) (hA : A ^ 2 ≠ 4)
    (P : W.Point) :
    uCoord δ (P + P) = doubleCoord A (uCoord δ P) := by
  by_cases hP : uCoord δ P = 0
  · rw [add_self_of_uCoord_eq_zero hW hδ hP, uCoord_zero, hP, doubleCoord_zero]
  · have hdouble := ((twistRepresents_one hδ hP).double hW hδ h2 hA).uCoord_eq hδ
    rw [← hdouble, doubleCoord]
    congr 1 <;> ring

/-- The points of order dividing two are the one at infinity and `(0, 0)`, if no other has a
coordinate in the field. -/
theorem add_self_eq_zero_iff (hW : W = twist A δ) (hδ : δ ≠ 0) (h2 : (2 : F) ≠ 0) (hA : A ^ 2 ≠ 4)
    (hroots : ∀ u : F, u ^ 2 + A * u + 1 ≠ 0) (P : W.Point) : P + P = 0 ↔ uCoord δ P = 0 := by
  refine ⟨fun h => by_contra fun hP => ?_, add_self_of_uCoord_eq_zero hW hδ⟩
  have hdouble := (twistRepresents_one hδ hP).double hW hδ h2 hA
  have h4 : (4 : F) ≠ 0 := by
    rw [show (4 : F) = 2 * 2 by norm_num]
    exact mul_ne_zero h2 h2
  refine hdouble.ne_zero ?_ h
  rw [mul_one, mul_one, one_pow]
  exact mul_ne_zero (mul_ne_zero h4 hP) (hroots _)

end Addition

end Montgomery
