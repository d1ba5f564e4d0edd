import TweetNacl.Lib.Edwards
import TweetNacl.Lib.Loops
import Mathlib.Algebra.Field.ZMod

/-!
# Extended coordinates on twisted Edwards curves

Four coordinates `X : Y : Z : T` with `X = x Z`, `Y = y Z` and `T = x y Z` represent the point
`(x, y)` of a curve with `a = -1`. One formula without inversions and without exceptional cases adds
representations. Computing with it modulo a prime on natural numbers evaluates multiples of
concrete points.
-/

namespace Edwards

/-- Extended coordinates. -/
@[ext] structure Extended (α : Type*) where
  x : α
  y : α
  z : α
  t : α
deriving DecidableEq

section Formula

variable {F : Type*} [Field F] {d : F}

/-- The addition formula for `a = -1`, with `k = 2 d`. -/
def Extended.add (k : F) (p q : Extended F) : Extended F :=
  let a := (p.y - p.x) * (q.y - q.x)
  let b := (p.x + p.y) * (q.x + q.y)
  let c := p.t * q.t * k
  let d := p.z * q.z + p.z * q.z
  let e := b - a
  let f := d - c
  let g := d + c
  let h := b + a
  ⟨e * f, h * g, g * f, e * h⟩

/-- The neutral element. -/
def Extended.zero : Extended F := ⟨0, 1, 1, 0⟩

/-- The coordinates represent the point. -/
structure Extended.Represents (p : Extended F) (P : Point (-1) d) : Prop where
  z_ne_zero : p.z ≠ 0
  x : p.x = P.x * p.z
  y : p.y = P.y * p.z
  t : p.t = P.x * P.y * p.z

/-- The extended coordinates of the neutral element. -/
theorem Extended.represents_zero : Extended.zero.Represents (0 : Point (-1) d) :=
  ⟨one_ne_zero, by simp [Extended.zero], by simp [Extended.zero], by simp [Extended.zero]⟩

/-- The affine coordinates of a point with `z = 1`. -/
theorem Extended.represents_affine (P : Point (-1) d) :
    (⟨P.x, P.y, 1, P.x * P.y⟩ : Extended F).Represents P :=
  ⟨one_ne_zero, (mul_one _).symm, (mul_one _).symm, (mul_one _).symm⟩

variable {p q : Extended F} {P Q : Point (-1) d}

/-- The affine coordinates are quotients. -/
theorem Extended.Represents.affine (hp : p.Represents P) :
    p.x * p.z⁻¹ = P.x ∧ p.y * p.z⁻¹ = P.y := by
  rw [hp.x, hp.y, mul_assoc, mul_assoc, mul_inv_cancel₀ hp.z_ne_zero, mul_one, mul_one]
  exact ⟨rfl, rfl⟩

/-- The formula adds points. -/
theorem Extended.Represents.add [hc : Complete (-1) d] (hp : p.Represents P) (hq : q.Represents Q) :
    (Extended.add (2 * d) p q).Represents (P + Q) := by
  obtain ⟨hplus, hminus⟩ := add_denominators P Q
  have h2 := hc.two_ne_zero
  have hpq : 2 * (p.z * q.z) ≠ 0 := mul_ne_zero h2 (mul_ne_zero hp.z_ne_zero hq.z_ne_zero)
  -- The four intermediate values of the formula, in terms of the affine coordinates.
  have he : (p.x + p.y) * (q.x + q.y) - (p.y - p.x) * (q.y - q.x) =
      2 * (p.z * q.z) * (P.x * Q.y + P.y * Q.x) := by
    rw [hp.x, hp.y, hq.x, hq.y]
    ring
  have hh : (p.x + p.y) * (q.x + q.y) + (p.y - p.x) * (q.y - q.x) =
      2 * (p.z * q.z) * (P.y * Q.y - -1 * P.x * Q.x) := by
    rw [hp.x, hp.y, hq.x, hq.y]
    ring
  have hf : p.z * q.z + p.z * q.z - p.t * q.t * (2 * d) =
      2 * (p.z * q.z) * (1 - d * P.x * Q.x * P.y * Q.y) := by
    rw [hp.t, hq.t]
    ring
  have hg : p.z * q.z + p.z * q.z + p.t * q.t * (2 * d) =
      2 * (p.z * q.z) * (1 + d * P.x * Q.x * P.y * Q.y) := by
    rw [hp.t, hq.t]
    ring
  have hx := add_x P Q
  have hy := add_y P Q
  simp only [Extended.add, he, hh, hf, hg]
  generalize 1 + d * P.x * Q.x * P.y * Q.y = u at hplus hx ⊢
  generalize 1 - d * P.x * Q.x * P.y * Q.y = v at hminus hy ⊢
  constructor
  · exact mul_ne_zero (mul_ne_zero hpq hplus) (mul_ne_zero hpq hminus)
  · rw [hx]
    field_simp
  · rw [hy]
    field_simp
  · rw [hx, hy]
    field_simp

/-- Coordinates with `x = 0` and `y = z` represent the neutral element. -/
theorem Extended.Represents.eq_zero (hp : p.Represents P) (hx : p.x = 0)
    (hy : p.y = p.z) : P = 0 := by
  obtain ⟨hx', hy'⟩ := hp.affine
  refine Point.ext ?_ ?_
  · rw [← hx', hx, zero_mul, zero_x]
  · rw [← hy', hy, mul_inv_cancel₀ hp.z_ne_zero, zero_y]

end Formula

section Evaluation

/-- Subtraction modulo `m`. -/
def subMod (m a b : ℕ) : ℕ := (a + (m - b % m)) % m

/-- The formula on natural numbers, reduced modulo `m`. -/
def Extended.addMod (m k : ℕ) (p q : Extended ℕ) : Extended ℕ :=
  let a := subMod m p.y p.x * subMod m q.y q.x % m
  let b := (p.x + p.y) * (q.x + q.y) % m
  let c := p.t * q.t % m * k % m
  let d := (p.z * q.z + p.z * q.z) % m
  let e := subMod m b a
  let f := subMod m d c
  let g := d + c
  let h := b + a
  ⟨e * f % m, h * g % m, g * f % m, e * h % m⟩

/-- Double and add over the bits of `n`. -/
def Extended.mulMod (m k bits n : ℕ) (p : Extended ℕ) : Extended ℕ :=
  Nat.foldRev bits (fun i _ s =>
    let s := Extended.addMod m k s s
    if n.testBit i then Extended.addMod m k s p else s) ⟨0, 1, 1, 0⟩

/-- The residues of natural coordinates. -/
def Extended.cast (m : ℕ) (p : Extended ℕ) : Extended (ZMod m) := ⟨p.x, p.y, p.z, p.t⟩

variable {m : ℕ} [NeZero m]

/-- Subtraction on natural numbers below a modulus is subtraction modulo it. -/
theorem cast_subMod (a b : ℕ) : ((subMod m a b : ℕ) : ZMod m) = a - b := by
  have hle : b % m ≤ m := (Nat.mod_lt _ (NeZero.pos m)).le
  rw [subMod, ZMod.natCast_mod, Nat.cast_add, Nat.cast_sub hle, ZMod.natCast_mod, ZMod.natCast_self]
  ring

end Evaluation

section Evaluation

variable {m : ℕ} [Fact m.Prime]

/-- The formula on residues is the formula of the field. -/
theorem Extended.cast_addMod (k : ℕ) (p q : Extended ℕ) :
    (Extended.addMod m k p q).cast m = Extended.add (k : ZMod m) (p.cast m) (q.cast m) := by
  ext <;> simp only [Extended.addMod, Extended.cast, Extended.add, cast_subMod, Nat.cast_add,
    Nat.cast_mul,
    ZMod.natCast_mod]

/-- Double and add represents the multiple. -/
theorem Extended.mulMod_represents {d : ZMod m} [Complete (-1) d] {k : ℕ}
    (hk : (k : ZMod m) = 2 * d) {bits n : ℕ} (hn : n < 2 ^ bits) {p : Extended ℕ} {P : Point (-1) d}
    (hp : (p.cast m).Represents P) :
    ((Extended.mulMod m k bits n p).cast m).Represents (n • P) := by
  refine Loops.foldRev_bits (fun n s => (Extended.cast m s).Represents (n • P)) hn ?_
    fun i _ j s hs => ?_
  · rw [zero_nsmul]
    simpa [Extended.cast, Extended.zero] using Extended.represents_zero (d := d)
  · have hdouble := hs.add hs
    rw [← hk, ← Extended.cast_addMod, ← add_nsmul, ← two_mul] at hdouble
    cases n.testBit i with
    | false => exact hdouble
    | true =>
      have hadd := hdouble.add hp
      rw [← hk, ← Extended.cast_addMod, ← succ_nsmul] at hadd
      exact hadd

end Evaluation

end Edwards
