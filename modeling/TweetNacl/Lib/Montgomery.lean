import TweetNacl.Lib.MontgomeryTwist

/-!
# The Montgomery curve with `B = 1`

The twist by 1 of the curve `y ^ 2 = x ^ 3 + A x ^ 2 + x` is the curve itself, whose
coordinate `x` needs no division.
-/

namespace Montgomery

variable {F : Type*} [Field F] {A : F}

/-- The Montgomery curve with `B = 1`. -/
def curve (A : F) : WeierstrassCurve.Affine F := ⟨0, A, 0, 1, 0⟩

/-- The curve is its own twist by 1. -/
theorem curve_eq_twist (A : F) : curve A = twist A 1 := by
  simp [curve, twist]

/-- An affine point with `y ≠ 0` is nonsingular. -/
theorem curve_nonsingular (h2 : (2 : F) ≠ 0) {x y : F} (hy : y ≠ 0)
    (h : y ^ 2 = x ^ 3 + A * x ^ 2 + x) : (curve A).Nonsingular x y := by
  rw [curve_eq_twist]
  exact twist_nonsingular h2 hy (by linear_combination h)

/-- The `x` coordinate, with 0 at infinity. -/
def xCoord : (curve A).Point → F
  | .zero => 0
  | .some x _ _ => x

/-- The pair `X : Z` represents the point. -/
def Represents (X Z : F) : (curve A).Point → Prop
  | .zero => X ≠ 0 ∧ Z = 0
  | .some x _ _ => Z ≠ 0 ∧ X = x * Z

variable {X Z : F} {P : (curve A).Point}

/-- The coordinate on the curve is that on this twist. -/
theorem xCoord_eq_uCoord (P : (curve A).Point) : xCoord P = uCoord 1 P := by
  cases P with
  | zero => rfl
  | some x y hxy => exact (div_one x).symm

/-- A quotient represents a point of the curve as it does one of this twist. -/
theorem represents_iff : Represents X Z P ↔ TwistRepresents 1 X Z P := by
  cases P with
  | zero => rfl
  | some x y hxy => rw [Represents, TwistRepresents, one_mul]

end Montgomery
