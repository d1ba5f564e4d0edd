import Mathlib.Algebra.Group.Even
import Mathlib.Algebra.Group.Defs
import Mathlib.Algebra.Field.Basic
import Mathlib.Tactic.FieldSimp
import Mathlib.Tactic.LinearCombination
import Mathlib.Tactic.Ring

/-!
# The group of a complete twisted Edwards curve

For `a` a nonzero square and `d` not a square, the addition law of
`a x ^ 2 + y ^ 2 = 1 + d x ^ 2 y ^ 2` has no exceptional cases, and the points form a commutative
group.
-/

namespace Edwards

variable {F : Type*} [Field F]

/-- The coefficients make the addition law complete. -/
class Complete (a d : F) : Prop where
  two_ne_zero : (2 : F) ≠ 0
  a_ne_zero : a ≠ 0
  a_square : IsSquare a
  d_nonsquare : ¬ IsSquare d

/-- A point of the curve. -/
@[ext] structure Point (a d : F) where
  x : F
  y : F
  on_curve : a * x ^ 2 + y ^ 2 = 1 + d * x ^ 2 * y ^ 2

variable {a d : F}

section Completeness

variable {x₁ y₁ x₂ y₂ : F}

/-- The sum `s x + e y` of one point is a square root of `d` times that of the other when the
product of the coordinates is `e = ±1`. -/
theorem sq_of_exceptional {s e : F} (hs : a = s ^ 2) (he : e ^ 2 = 1)
    (h₁ : a * x₁ ^ 2 + y₁ ^ 2 = 1 + d * x₁ ^ 2 * y₁ ^ 2)
    (h₂ : a * x₂ ^ 2 + y₂ ^ 2 = 1 + d * x₂ ^ 2 * y₂ ^ 2) (hprod : d * x₁ * x₂ * y₁ * y₂ = e) :
    (s * x₁ + e * y₁) ^ 2 = d * (x₁ * y₁ * (s * x₂ + y₂)) ^ 2 := by
  grind

/-- The denominators of the addition law do not vanish. -/
theorem denominator_ne_zero [hc : Complete a d] {e : F} (he : e ^ 2 = 1)
    (h₁ : a * x₁ ^ 2 + y₁ ^ 2 = 1 + d * x₁ ^ 2 * y₁ ^ 2)
    (h₂ : a * x₂ ^ 2 + y₂ ^ 2 = 1 + d * x₂ ^ 2 * y₂ ^ 2) : d * x₁ * x₂ * y₁ * y₂ ≠ e := by
  intro hprod
  obtain ⟨s, hs⟩ := hc.a_square
  rw [← pow_two] at hs
  have he0 : e ≠ 0 := by
    rintro rfl
    simp at he
  have hs0 : s ≠ 0 := by
    rintro rfl
    exact hc.a_ne_zero (by rw [hs]; ring)
  -- A nonzero factor on the right exhibits `d` as a square.
  have hnonsq : ∀ u v : F, u ^ 2 = d * v ^ 2 → v = 0 := by
    intro u v huv
    by_contra hv
    refine hc.d_nonsquare ⟨u / v, ?_⟩
    field_simp
    linear_combination -huv
  have hx₁y₁ : x₁ * y₁ ≠ 0 := by
    intro h0
    exact he0 (by rw [← hprod]; linear_combination d * x₂ * y₂ * h0)
  have hplus := hnonsq _ _ (sq_of_exceptional hs he h₁ h₂ hprod)
  have hminus := hnonsq _ _ (sq_of_exceptional (s := -s) (by rw [hs]; ring) he h₁ h₂ hprod)
  have hsum := (mul_eq_zero.mp hplus).resolve_left hx₁y₁
  have hdiff := (mul_eq_zero.mp hminus).resolve_left hx₁y₁
  have hy₂ : y₂ = 0 := by
    have : 2 * y₂ = 0 := by linear_combination hsum + hdiff
    exact (mul_eq_zero.mp this).resolve_left hc.two_ne_zero
  exact he0 (by rw [← hprod, hy₂, mul_zero])

/-- The first denominator of the addition law is not zero on the curve. -/
theorem one_add_ne_zero [Complete a d] (h₁ : a * x₁ ^ 2 + y₁ ^ 2 = 1 + d * x₁ ^ 2 * y₁ ^ 2)
    (h₂ : a * x₂ ^ 2 + y₂ ^ 2 = 1 + d * x₂ ^ 2 * y₂ ^ 2) : 1 + d * x₁ * x₂ * y₁ * y₂ ≠ 0 := fun h =>
  denominator_ne_zero (e := -1) (by ring) h₁ h₂ (by linear_combination h)

/-- Neither is the second. -/
theorem one_sub_ne_zero [Complete a d] (h₁ : a * x₁ ^ 2 + y₁ ^ 2 = 1 + d * x₁ ^ 2 * y₁ ^ 2)
    (h₂ : a * x₂ ^ 2 + y₂ ^ 2 = 1 + d * x₂ ^ 2 * y₂ ^ 2) : 1 - d * x₁ * x₂ * y₁ * y₂ ≠ 0 := fun h =>
  denominator_ne_zero (e := 1) (by ring) h₁ h₂ (by linear_combination -h)

end Completeness

instance : Zero (Point a d) := ⟨⟨0, 1, by ring⟩⟩

instance : Neg (Point a d) := ⟨fun P => ⟨-P.x, P.y, by rw [neg_sq]; exact P.on_curve⟩⟩

/-- The neutral element has the first coordinate 0. -/
@[simp] theorem zero_x : (0 : Point a d).x = 0 := rfl

/-- The neutral element has the second coordinate 1. -/
@[simp] theorem zero_y : (0 : Point a d).y = 1 := rfl

/-- A negative has the opposite first coordinate. -/
@[simp] theorem neg_x (P : Point a d) : (-P).x = -P.x := rfl

/-- A negative has the same second coordinate. -/
@[simp] theorem neg_y (P : Point a d) : (-P).y = P.y := rfl

section Group

variable [hc : Complete a d]

/-- The sum of two points is on the curve. -/
theorem add_on_curve {x₁ y₁ x₂ y₂ : F} (h₁ : a * x₁ ^ 2 + y₁ ^ 2 = 1 + d * x₁ ^ 2 * y₁ ^ 2)
    (h₂ : a * x₂ ^ 2 + y₂ ^ 2 = 1 + d * x₂ ^ 2 * y₂ ^ 2) :
    a * ((x₁ * y₂ + y₁ * x₂) / (1 + d * x₁ * x₂ * y₁ * y₂)) ^ 2 +
        ((y₁ * y₂ - a * x₁ * x₂) / (1 - d * x₁ * x₂ * y₁ * y₂)) ^ 2 =
      1 + d * ((x₁ * y₂ + y₁ * x₂) / (1 + d * x₁ * x₂ * y₁ * y₂)) ^ 2 *
        ((y₁ * y₂ - a * x₁ * x₂) / (1 - d * x₁ * x₂ * y₁ * y₂)) ^ 2 := by
  have hcleared : a * (x₁ * y₂ + y₁ * x₂) ^ 2 * (1 - d * x₁ * x₂ * y₁ * y₂) ^ 2 +
      (y₁ * y₂ - a * x₁ * x₂) ^ 2 * (1 + d * x₁ * x₂ * y₁ * y₂) ^ 2 =
      (1 + d * x₁ * x₂ * y₁ * y₂) ^ 2 * (1 - d * x₁ * x₂ * y₁ * y₂) ^ 2 +
        d * (x₁ * y₂ + y₁ * x₂) ^ 2 * (y₁ * y₂ - a * x₁ * x₂) ^ 2 := by
    grind
  have hplus := one_add_ne_zero h₁ h₂
  have hminus := one_sub_ne_zero h₁ h₂
  generalize 1 + d * x₁ * x₂ * y₁ * y₂ = p at hplus hcleared ⊢
  generalize 1 - d * x₁ * x₂ * y₁ * y₂ = q at hminus hcleared ⊢
  generalize x₁ * y₂ + y₁ * x₂ = n at hcleared ⊢
  generalize y₁ * y₂ - a * x₁ * x₂ = m at hcleared ⊢
  field_simp
  linear_combination hcleared

instance : Add (Point a d) :=
  ⟨fun P Q =>
    { x := (P.x * Q.y + P.y * Q.x) / (1 + d * P.x * Q.x * P.y * Q.y)
      y := (P.y * Q.y - a * P.x * Q.x) / (1 - d * P.x * Q.x * P.y * Q.y)
      on_curve := add_on_curve P.on_curve Q.on_curve }⟩

variable (P Q R : Point a d)

/-- The first coordinate of a sum. -/
theorem add_x : (P + Q).x = (P.x * Q.y + P.y * Q.x) / (1 + d * P.x * Q.x * P.y * Q.y) := rfl

/-- The second coordinate of a sum. -/
theorem add_y : (P + Q).y = (P.y * Q.y - a * P.x * Q.x) / (1 - d * P.x * Q.x * P.y * Q.y) := rfl

/-- The denominators of the two coordinates of a sum are not zero. -/
theorem add_denominators : 1 + d * P.x * Q.x * P.y * Q.y ≠ 0 ∧ 1 - d * P.x * Q.x * P.y * Q.y ≠ 0 :=
  ⟨one_add_ne_zero P.on_curve Q.on_curve, one_sub_ne_zero P.on_curve Q.on_curve⟩

/-- Addition is symmetric in its arguments. -/
private theorem add_comm' : P + Q = Q + P := by
  ext
  · rw [add_x, add_x]
    congr 1 <;> ring
  · rw [add_y, add_y]
    congr 1 <;> ring

/-- The point `(0, 1)` is neutral. -/
private theorem zero_add' : 0 + P = P := by
  ext
  · simp [add_x]
  · simp [add_y]

/-- The reflected point is an inverse. -/
private theorem neg_add' : -P + P = 0 := by
  have hminus := (add_denominators (-P) P).2
  ext
  · rw [add_x]
    simp only [neg_x, neg_y, zero_x]
    rw [show -P.x * P.y + P.y * P.x = 0 by ring, zero_div]
  · rw [add_y, zero_y, div_eq_one_iff_eq hminus]
    simp only [neg_x, neg_y]
    linear_combination P.on_curve

/-- Adding to a point whose coordinates are fractions, with one denominator for each coordinate. -/
private theorem add_of_div {n m p q : F} (hp : p ≠ 0) (hq : q ≠ 0) (hx : P.x = n / p)
    (hy : P.y = m / q) :
    (p * q + d * n * m * Q.x * Q.y ≠ 0 ∧
      (P + Q).x = (n * q * Q.y + m * p * Q.x) / (p * q + d * n * m * Q.x * Q.y)) ∧
    (p * q - d * n * m * Q.x * Q.y ≠ 0 ∧
      (P + Q).y = (m * p * Q.y - a * n * q * Q.x) / (p * q - d * n * m * Q.x * Q.y)) := by
  obtain ⟨hplus, hminus⟩ := add_denominators P Q
  have hpq := mul_ne_zero hp hq
  rw [add_x, add_y, hx, hy]
  rw [hx, hy] at hplus hminus
  have hplus' : p * q + d * n * m * Q.x * Q.y =
      p * q * (1 + d * (n / p) * Q.x * (m / q) * Q.y) := by
    field_simp
  have hminus' : p * q - d * n * m * Q.x * Q.y =
      p * q * (1 - d * (n / p) * Q.x * (m / q) * Q.y) := by
    field_simp
  have hx' : n * q * Q.y + m * p * Q.x = p * q * (n / p * Q.y + m / q * Q.x) := by field_simp
  have hy' : m * p * Q.y - a * n * q * Q.x =
    p * q * (m / q * Q.y - a * (n / p) * Q.x) := by field_simp
  rw [hplus', hminus', hx', hy', mul_div_mul_left _ _ hpq, mul_div_mul_left _ _ hpq]
  exact ⟨⟨mul_ne_zero hpq hplus, rfl⟩, mul_ne_zero hpq hminus, rfl⟩

/-- The two ways to add three points agree modulo the equations of the points. -/
private theorem add_assoc' : P + Q + R = P + (Q + R) := by
  have h₁ := P.on_curve
  have h₂ := Q.on_curve
  have h₃ := R.on_curve
  obtain ⟨hpq, hpq'⟩ := add_denominators P Q
  obtain ⟨hqr, hqr'⟩ := add_denominators Q R
  obtain ⟨⟨hx, hleftx⟩, hy, hlefty⟩ := add_of_div (P + Q) R hpq hpq' (add_x P Q) (add_y P Q)
  obtain ⟨⟨hx', hrightx⟩, hy', hrighty⟩ := add_of_div (Q + R) P hqr hqr' (add_x Q R) (add_y Q R)
  rw [add_comm' P (Q + R)]
  ext
  · rw [hleftx, hrightx, div_eq_div_iff hx hx']
    clear hx hx' hy hy' hleftx hrightx hlefty hrighty hpq hpq' hqr hqr'
    grind
  · rw [hlefty, hrighty, div_eq_div_iff hy hy']
    clear hx hx' hy hy' hleftx hrightx hlefty hrighty hpq hpq' hqr hqr'
    grind

instance : AddCommGroup (Point a d) where
  add_assoc := add_assoc'
  zero_add := zero_add'
  add_zero P := by rw [add_comm', zero_add']
  neg_add_cancel := neg_add'
  add_comm := add_comm'
  nsmul := nsmulRec
  zsmul := zsmulRec

end Group

end Edwards
