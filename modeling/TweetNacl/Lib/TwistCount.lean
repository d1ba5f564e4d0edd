import Mathlib.NumberTheory.LegendreSymbol.QuadraticChar.Basic
import TweetNacl.Lib.MontgomeryTwist

/-!
# The points of a Montgomery curve and of its quadratic twist

Over a finite field a coordinate `u` belongs to a point of one of two twists whose parameters
multiply to a nonsquare, and the two curves together have at most `2 (q + 1)` points: the quadratic
characters of the right-hand side cancel. Points of large order on both curves then fix the numbers
of points.
-/

namespace Montgomery

open WeierstrassCurve.Affine

variable {F : Type*} [Field F] {A δ a b : F}

/-- The right-hand side of the curve equation. -/
def cubic (A u : F) : F := u ^ 3 + A * u ^ 2 + u

/-- A root of the right-hand side times `δ ^ 3` is the second coordinate of a point. -/
theorem exists_uCoord (h2 : (2 : F) ≠ 0) (hδ : δ ≠ 0) {u y : F} (hy : y ≠ 0)
    (h : y ^ 2 = δ ^ 3 * cubic A u) : ∃ P : (twist A δ).Point, uCoord δ P = u := by
  have hcurve : y ^ 2 = (δ * u) ^ 3 + δ * A * (δ * u) ^ 2 + δ ^ 2 * (δ * u) := by
    rw [h, cubic]
    ring
  exact ⟨.some (δ * u) y (twist_nonsingular h2 hy hcurve), mul_div_cancel_left₀ u hδ⟩

/-- Factors of a number that is no square are not zero. -/
theorem ne_zero_of_not_isSquare (hab : ¬ IsSquare (a * b)) : a ≠ 0 ∧ b ≠ 0 := by
  rw [← mul_ne_zero_iff]
  intro h0
  exact hab (by rw [h0]; exact IsSquare.zero)

/-- The coordinates of a point, with the root in the fibre over `u`. -/
def fibre (hδ : δ ≠ 0) : (twist A δ).Point → Option (Σ u : F, {y : F | y ^ 2 = δ ^ 3 * cubic A u})
  | .zero => none
  | .some x y h => some ⟨x / δ, y, by
      rw [Set.mem_ofPred_eq, twist_equation.mp h.1, cubic]
      field_simp⟩

/-- Different points over one coordinate are told apart. -/
theorem fibre_injective (hδ : δ ≠ 0) : Function.Injective (fibre (A := A) hδ) := by
  intro P Q hPQ
  cases P with
  | zero =>
    cases Q with
    | zero => rfl
    | some x' y' h' => cases hPQ
  | some x y h =>
    cases Q with
    | zero => cases hPQ
    | some x' y' h' =>
      have hpair := congrArg (Option.map fun p => (p.1, (p.2 : F))) hPQ
      obtain ⟨hx, hy⟩ := Prod.ext_iff.mp (Option.some.inj hpair)
      have hx' : x = x' := (div_left_inj' hδ).mp hx
      exact Point.some.injEq _ _ _ _ _ _ |>.mpr ⟨hx', hy⟩

/-- Over a finite field the twist has finitely many points. -/
theorem finite_point [Finite F] (hδ : δ ≠ 0) : Finite (twist A δ).Point :=
  Finite.of_injective _ (fibre_injective hδ)

section Finite

variable [Fintype F] [DecidableEq F]

/-- In a finite field the product of two nonsquares is a square. -/
theorem isSquare_mul_or {r : F} (hab : ¬ IsSquare (a * b)) :
    IsSquare (a * r) ∨ IsSquare (b * r) := by
  by_contra h
  obtain ⟨ha, hb⟩ := not_or.mp h
  have ha' := quadraticChar_neg_one_iff_not_isSquare.mpr ha
  have hb' := quadraticChar_neg_one_iff_not_isSquare.mpr hb
  have hab' := quadraticChar_neg_one_iff_not_isSquare.mpr hab
  rw [map_mul] at ha' hb' hab'
  have hr : quadraticChar F r * quadraticChar F r = -1 := by
    linear_combination quadraticChar F r ^ 2 * hab' - quadraticChar F b * quadraticChar F
      r * ha' + hb'
  linarith only [hr, mul_self_nonneg (quadraticChar F r)]

/-- Every coordinate at which the right-hand side does not vanish belongs to a point of one of two
twists. -/
theorem exists_point (h2 : (2 : F) ≠ 0) (hab : ¬ IsSquare (a * b)) {u : F} (hu : cubic A u ≠ 0) :
    (∃ P : (twist A a).Point, uCoord a P = u) ∨ ∃ P : (twist A b).Point, uCoord b P = u := by
  obtain ⟨ha, hb⟩ := ne_zero_of_not_isSquare hab
  have hpoint : ∀ δ : F, δ ≠ 0 → IsSquare (δ * cubic A u) →
      ∃ P : (twist A δ).Point, uCoord δ P = u := by
    rintro δ hδ ⟨s, hs⟩
    have hs0 : s ≠ 0 := by
      rintro rfl
      exact mul_ne_zero hδ hu (by rw [hs, mul_zero])
    exact exists_uCoord h2 hδ (mul_ne_zero hδ hs0) (by linear_combination -δ ^ 2 * hs)
  exact (isSquare_mul_or hab).imp (hpoint a ha) (hpoint b hb)

/-- The number of points, as a character sum. -/
theorem card_point_le (h2 : ringChar F ≠ 2) (hδ : δ ≠ 0) :
    (Nat.card (twist A δ).Point : ℤ) ≤
      1 + ∑ u : F, (quadraticChar F δ * quadraticChar F (cubic A u) + 1) := by
  have hcard := (Nat.card_le_card_of_injective _ (fibre_injective (A := A) hδ)).trans_eq
    Nat.card_eq_fintype_card
  rw [Fintype.card_option, Fintype.card_sigma] at hcard
  have hfibre : ∀ u : F, (Fintype.card {y : F | y ^ 2 = δ ^ 3 * cubic A u} : ℤ) =
      quadraticChar F δ * quadraticChar F (cubic A u) + 1 := fun u => by
    rw [← Set.toFinset_card, quadraticChar_card_sqrts h2, map_mul, map_pow, pow_succ,
      quadraticChar_sq_one hδ, one_mul]
  have hcast := Int.ofNat_le.mpr hcard
  rw [Nat.cast_add, Nat.cast_sum, Finset.sum_congr rfl fun u _ => hfibre u, Nat.cast_one,
    add_comm] at hcast
  exact hcast

/-- A curve and its quadratic twist have at most `2 (q + 1)` points. -/
theorem card_add_card_le (h2 : ringChar F ≠ 2) (hab : ¬ IsSquare (a * b)) :
    Nat.card (twist A a).Point + Nat.card (twist A b).Point ≤ 2 * (Fintype.card F + 1) := by
  obtain ⟨ha, hb⟩ := ne_zero_of_not_isSquare hab
  have hsum : quadraticChar F a + quadraticChar F b = 0 := by
    have hab' := quadraticChar_neg_one_iff_not_isSquare.mpr hab
    rw [map_mul] at hab'
    linear_combination quadraticChar F a * hab' - quadraticChar F b * quadraticChar_sq_one ha
  have hle := add_le_add (card_point_le (A := A) h2 ha) (card_point_le (A := A) h2 hb)
  rw [add_add_add_comm, ← Finset.sum_add_distrib, Finset.sum_congr rfl fun u _ =>
    show _ = (2 : ℤ) by linear_combination quadraticChar F (cubic A u) * hsum, Finset.sum_const,
    Finset.card_univ, nsmul_eq_mul] at hle
  omega

/-- Points whose orders add up to the bound generate the groups of their curves. -/
theorem card_eq_addOrderOf (h2 : ringChar F ≠ 2) (hab : ¬ IsSquare (a * b)) {P : (twist A a).Point}
    {Q : (twist A b).Point} (horders : 2 * (Fintype.card F + 1) ≤ addOrderOf P + addOrderOf Q) :
    Nat.card (twist A a).Point = addOrderOf P ∧ Nat.card (twist A b).Point = addOrderOf Q := by
  obtain ⟨ha, hb⟩ := ne_zero_of_not_isSquare hab
  have := finite_point (A := A) ha
  have := finite_point (A := A) hb
  have hP := addOrderOf_le_card (x := P)
  have hQ := addOrderOf_le_card (x := Q)
  have hle := card_add_card_le (A := A) h2 hab
  omega

end Finite

end Montgomery
