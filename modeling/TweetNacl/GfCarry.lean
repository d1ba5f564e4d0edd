import TweetNacl.Gf
import TweetNacl.Lib.Limbs
import TweetNacl.Lib.Loops
import TweetNacl.Lib.MachineInt
import Mathlib.Tactic.LinearCombination
import Mathlib.Tactic.NormNum

/-!
# The carry pass

`car25519` rewrites the value of a field element in radix `2 ^ 16`: with `V` the integer
its limbs denote, the pass leaves the digits of `V mod 2 ^ 256` and adds
`38 * (V / 2 ^ 256)` to the lowest one, whatever the signs of the limbs. Everything later
files need of a carry pass follows from that one description and from a bound on `V`.
-/

namespace TweetNacl

open Limbs MachineInt

/-- The limbs of a field element as integers. -/
def Gf.limbs (a : Gf) : ℕ → ℤ := entries Int64.toInt a

/-- The integer a field element denotes, before reduction. -/
def Gf.value (a : Gf) : ℤ := limbSum (2 ^ 16) 16 a.limbs

/-- Every limb is at most `b` in absolute value. -/
def Gf.Bounded (b : ℤ) (a : Gf) : Prop := ∀ i < 16, |a.limbs i| ≤ b

/-- A looser bound holds as well. -/
theorem Gf.Bounded.mono {b b' : ℤ} {a : Gf} (h : a.Bounded b) (hb : b ≤ b') : a.Bounded b' :=
  fun i hi => (h i hi).trans hb

/-- Limb `i` is the integer in word `i`. -/
theorem Gf.limbs_getElem (a : Gf) {i : ℕ} (hi : i < 16) : a.limbs i = a[i].toInt :=
  entries_of_lt _ _ hi

/-- Setting a word updates its limb. -/
@[simp] theorem Gf.limbs_set (a : Gf) {i : ℕ} (hi : i < 16) (v : Int64) :
    Gf.limbs (a.set i v hi) = Function.update a.limbs i v.toInt := entries_set _ _ hi v

/-- The limbs of an array built entry by entry. -/
theorem Gf.limbs_ofFn (f : Fin 16 → Int64) {i : ℕ} (hi : i < 16) :
    Gf.limbs (Vector.ofFn f) i = (f ⟨i, hi⟩).toInt := by
  rw [Gf.limbs_getElem _ hi, Vector.getElem_ofFn]

/-- `set25519` copies its argument. -/
@[simp] theorem set25519_eq (a : Gf) : set25519 a = a := by
  ext i hi
  simp [set25519]

/-- Bounded limbs bound the value. -/
theorem Gf.Bounded.value_le {b : ℤ} {a : Gf} (h : a.Bounded b) :
    |a.value| ≤ b * ((2 ^ 256 - 1) / 65535) := by
  have hsum : |a.value| ≤ ∑ i ∈ Finset.range 16, b * (2 ^ 16) ^ i := by
    refine (Finset.abs_sum_le_sum_abs (fun i => a.limbs i * (2 ^ 16) ^ i) _).trans
      (Finset.sum_le_sum fun i hi => ?_)
    rw [abs_mul, abs_of_pos (by positivity : (0 : ℤ) < (2 ^ 16) ^ i)]
    exact mul_le_mul_of_nonneg_right (h i (Finset.mem_range.mp hi)) (by positivity)
  have hgeom : ∑ i ∈ Finset.range 16, b * (2 ^ 16) ^ i = b * ((2 ^ 256 - 1) / 65535) := by
    rw [← Finset.mul_sum]
    norm_num [Finset.sum_range_succ]
  exact hsum.trans_eq hgeom

/-- One pass of the loop of `car25519`. -/
def carryStep (i : ℕ) (hi : i < 16) (o : Gf) : Gf :=
  let o := o.set i (o[i] + ((1 : Int64) <<< 16))
  let c := o[i] >>> 16
  have := carryTarget_lt i
  let o := o.set (carryTarget i)
    (o[carryTarget i] + (c - 1 + 37 * (c - 1) * (if i = 15 then 1 else 0)))
  o.set i (o[i] - (c <<< 16))

/-- `car25519` is a fold of carry steps. -/
theorem car25519_eq_fold (o : Gf) : car25519 o = Nat.fold 16 carryStep o := rfl

/-- The weight of the limb a carry is added to, relative to the limb above. -/
def carryFactor (i : ℕ) : ℤ := if i = 15 then 38 else 1

/-- The words of one step are the integers that they stand for, with `q` the quotient of the limb.
The word `c` is one more than the quotient; the code subtracts the one again. -/
structure CarryWords (i : ℕ) (hi : i < 16) (o : Gf) (c : Int64) (q : ℤ) : Prop where
  raised : (o[i] + ((1 : Int64) <<< 16)).toInt = o.limbs i + 2 ^ 16
  carry : c.toInt = q + 1
  quotient : (c - 1).toInt = q
  times37 : (37 * (c - 1)).toInt = 37 * q
  wrapped : (37 * (c - 1) * (if i = 15 then 1 else 0)).toInt = 37 * q * (if i = 15 then 1 else 0)
  added : (c - 1 + 37 * (c - 1) * (if i = 15 then 1 else 0)).toInt = carryFactor i * q
  target : ∀ _ : carryTarget i < 16,
    (o[carryTarget i] + (c - 1 + 37 * (c - 1) * (if i = 15 then 1 else 0))).toInt =
    o.limbs (carryTarget i) + carryFactor i * q
  shifted : (c <<< 16).toInt = (q + 1) * 2 ^ 16
  rest : (o[i] + ((1 : Int64) <<< 16) - (c <<< 16)).toInt = o.limbs i % 2 ^ 16

/-- A carry goes to another limb than the one it leaves. -/
theorem carryTarget_ne (i : ℕ) : carryTarget i ≠ i := by
  unfold carryTarget
  by_cases h : i < 15 <;> simp [h]; omega

/-- Nothing wraps in a step on limbs in range. -/
theorem carryWords {i : ℕ} (hi : i < 16) {o : Gf} (ho : |o.limbs i| ≤ 2 ^ 62 + 2 ^ 47)
    (ht : |o.limbs (carryTarget i)| ≤ 2 ^ 62) :
    CarryWords i hi o ((o[i] + ((1 : Int64) <<< 16)) >>> 16) (o.limbs i / 2 ^ 16) := by
  have hlt := carryTarget_lt i
  rw [abs_le] at ho ht
  have hone : ((1 : Int64) <<< 16).toInt = 2 ^ 16 := by decide
  have hv : (o[i] + ((1 : Int64) <<< 16)).toInt = o.limbs i + 2 ^ 16 := by
    rw [Gf.limbs_getElem o hi] at ho ⊢
    rw [toInt_add (by rw [hone]; constructor <;> omega), hone]
  obtain ⟨q, hq⟩ : ∃ q, q = o.limbs i / 2 ^ 16 := ⟨_, rfl⟩
  obtain ⟨c, hcdef⟩ : ∃ c, c = (o[i] + ((1 : Int64) <<< 16)) >>> 16 := ⟨_, rfl⟩
  have hc : c.toInt = q + 1 := by
    rw [hcdef, toInt_shiftRight_sixteen, hv]
    omega
  have hqb : -2 ^ 47 ≤ q ∧ q ≤ 2 ^ 47 := by constructor <;> omega
  have hc1 : (c - 1).toInt = q := by
    have h1 : (1 : Int64).toInt = 1 := rfl
    rw [toInt_sub (by rw [hc, h1]; constructor <;> omega), hc, h1]
    ring
  have h37 : (37 * (c - 1)).toInt = 37 * q := by
    have h : (37 : Int64).toInt = 37 := rfl
    rw [toInt_mul (by rw [hc1, h]; constructor <;> omega), hc1, h]
  have hwrapped : (37 * (c - 1) * (if i = 15 then 1 else 0)).toInt =
      37 * q * (if i = 15 then 1 else 0) := by
    split
    · rw [Int64.mul_one, h37, mul_one]
    · rw [Int64.mul_zero, mul_zero, Int64.toInt_zero]
  have hcarry : (c - 1 + 37 * (c - 1) * (if i = 15 then 1 else 0)).toInt = carryFactor i * q := by
    unfold carryFactor
    rw [toInt_add (by rw [hc1, hwrapped]; split <;> constructor <;> omega), hc1, hwrapped]
    split <;> ring
  have hshift : (c <<< 16).toInt = (q + 1) * 2 ^ 16 := by
    rw [toInt_shiftLeft_sixteen, hc]
    rw [hc]; constructor <;> omega
  have hsum : (o[carryTarget i] + (c - 1 + 37 * (c - 1) * (if i = 15 then 1 else 0))).toInt =
      o.limbs (carryTarget i) + carryFactor i * q := by
    have hget := (Gf.limbs_getElem o hlt).symm
    rw [toInt_add, hcarry, hget]
    rw [hcarry, hget]
    unfold carryFactor
    split <;> constructor <;> omega
  have hlast : (o[i] + ((1 : Int64) <<< 16) - (c <<< 16)).toInt = o.limbs i % 2 ^ 16 := by
    rw [toInt_sub (by rw [hv, hshift]; constructor <;> omega), hv, hshift]
    omega
  rw [← hcdef, ← hq]
  exact ⟨hv, hc, hc1, h37, hwrapped, hcarry, fun _ => hsum, hshift, hlast⟩

/-- On limbs in range, one step leaves the remainder and adds the quotient to the target limb. -/
theorem limbs_carryStep {i : ℕ} (hi : i < 16) {o : Gf} (ho : |o.limbs i| ≤ 2 ^ 62 + 2 ^ 47)
    (ht : |o.limbs (carryTarget i)| ≤ 2 ^ 62) :
    (carryStep i hi o).limbs =
      Function.update
        (Function.update o.limbs (carryTarget i)
          (o.limbs (carryTarget i) + carryFactor i * (o.limbs i / 2 ^ 16))) i
        (o.limbs i % 2 ^ 16) := by
  have htarget := carryTarget_ne i
  have hwords := carryWords hi ho ht
  have hsum := hwords.target (carryTarget_lt i)
  funext k
  simp only [carryStep, Vector.getElem_set_self, Vector.getElem_set_ne _ _ htarget,
    Vector.getElem_set_ne _ _ htarget.symm, Gf.limbs_set, hwords.rest, hsum]
  by_cases hk : k = i
  · subst hk; simp
  · by_cases hkt : k = carryTarget i
    · subst hkt
      rw [Function.update_of_ne hk, Function.update_of_ne hk, Function.update_self,
        Function.update_self]
    · rw [Function.update_of_ne hk, Function.update_of_ne hk, Function.update_of_ne hkt,
        Function.update_of_ne hkt, Function.update_of_ne hk]

/-- After the steps below the top limb: the value is unchanged, the limbs passed are digits,
the next limb carries the last quotient and the limbs above are untouched. -/
structure PartialCarry (g : ℕ → ℤ) (i : ℕ) (o : Gf) : Prop where
  value_eq : o.value = limbSum (2 ^ 16) 16 g
  digit : ∀ k < i, 0 ≤ o.limbs k ∧ o.limbs k < 2 ^ 16
  current : |o.limbs i - g i| ≤ 2 ^ 47
  above : ∀ k, i < k → k < 16 → o.limbs k = g k

/-- Before the first step nothing has been carried. -/
theorem PartialCarry.start (o : Gf) : PartialCarry o.limbs 0 o :=
  ⟨rfl, by simp, by simp, fun _ _ _ => rfl⟩

/-- The limb of the next step and the limb its carry goes to are in range. -/
theorem PartialCarry.bounds {g : ℕ → ℤ} (hg : ∀ k < 16, |g k| ≤ 2 ^ 62) {i : ℕ}
    (hi : i < 16) {o : Gf} (h : PartialCarry g i o) : |o.limbs i| ≤ 2 ^ 62 + 2 ^ 47 ∧
    |o.limbs (carryTarget i)| ≤ 2 ^ 62 := by
  constructor
  · have := abs_add_le (o.limbs i - g i) (g i)
    rw [sub_add_cancel] at this
    have := hg i hi
    have := h.current
    linarith
  · rcases Nat.lt_succ_iff_lt_or_eq.mp hi with hlow | rfl
    · have htarget : carryTarget i = i + 1 := by simp [carryTarget, hlow]
      rw [htarget, h.above (i + 1) (by omega) (by omega)]
      exact hg (i + 1) (by omega)
    · have h0 := h.digit 0 (by omega)
      rw [show carryTarget 15 = 0 from rfl, abs_le]
      constructor <;> omega

/-- A step below the top limb keeps the partial carry description. -/
theorem PartialCarry.step {g : ℕ → ℤ} (hg : ∀ k < 16, |g k| ≤ 2 ^ 62) {i : ℕ} (hi : i < 15) {o : Gf}
    (h : PartialCarry g i o) : PartialCarry g (i + 1) (carryStep i (Nat.lt_succ_of_lt hi) o) := by
  have htarget : carryTarget i = i + 1 := by simp [carryTarget, hi]
  obtain ⟨hcur, hnext⟩ := h.bounds hg (by omega)
  have habove : o.limbs (i + 1) = g (i + 1) := h.above (i + 1) (by omega) (by omega)
  have hlimbs := limbs_carryStep (by omega : i < 16) hcur hnext
  rw [htarget, carryFactor, if_neg (by omega), one_mul] at hlimbs
  refine ⟨?_, fun k hk => ?_, ?_, fun k hk hk16 => ?_⟩
  · rw [Gf.value, hlimbs, limbSum_update (by omega), limbSum_update (by omega),
      Function.update_of_ne (by omega), ← h.value_eq, Gf.value]
    have := Int.emod_add_mul_ediv (o.limbs i) (2 ^ 16)
    rw [pow_succ ((2 : ℤ) ^ 16) i]
    linear_combination (2 ^ 16) ^ i * this
  · rw [hlimbs]
    by_cases hki : k = i
    · subst hki
      rw [Function.update_self]
      exact ⟨Int.emod_nonneg _ (by norm_num), Int.emod_lt_of_pos _ (by norm_num)⟩
    · rw [Function.update_of_ne hki, Function.update_of_ne (by omega)]
      exact h.digit k (by omega)
  · rw [hlimbs, Function.update_of_ne (by omega), Function.update_self, habove]
    rw [abs_le] at hcur ⊢
    constructor <;> omega
  · rw [hlimbs, Function.update_of_ne (by omega), Function.update_of_ne (by omega)]
    exact h.above k (by omega) hk16

/-- The result of a carry pass: the digits of the value modulo `2 ^ 256`, the lowest one
increased by 38 times the overflow. -/
theorem car25519_limbs {o : Gf} (ho : o.Bounded (2 ^ 62)) :
    ∃ w : ℕ → ℤ, (∀ k < 16, 0 ≤ w k ∧ w k < 2 ^ 16) ∧
      limbSum (2 ^ 16) 16 w = o.value % 2 ^ 256 ∧
      (car25519 o).limbs = Function.update w 0 (w 0 + 38 * (o.value / 2 ^ 256)) := by
  obtain ⟨s, hs, hcar⟩ : ∃ s, PartialCarry o.limbs 15 s ∧
      car25519 o = carryStep 15 (by norm_num) s := by
    refine ⟨Nat.fold 15 (fun i hi o => carryStep i (by omega) o) o, ?_, ?_⟩
    · exact Loops.fold_invariant (PartialCarry o.limbs) (.start o) fun i hi s hs => hs.step ho hi
    · rw [car25519_eq_fold, Nat.fold_succ]
  obtain ⟨hcur, hlow⟩ := hs.bounds ho (by norm_num)
  have hlimbs := limbs_carryStep (by norm_num : 15 < 16) hcur hlow
  rw [show carryTarget 15 = 0 from rfl, show carryFactor 15 = 38 from rfl] at hlimbs
  set w := Function.update s.limbs 15 (s.limbs 15 % 2 ^ 16) with hw
  have hdigit : ∀ k < 16, 0 ≤ w k ∧ w k < 2 ^ 16 := by
    intro k hk
    by_cases hk15 : k = 15
    · rw [hw, hk15, Function.update_self]
      exact ⟨Int.emod_nonneg _ (by norm_num), Int.emod_lt_of_pos _ (by norm_num)⟩
    · rw [hw, Function.update_of_ne hk15]
      exact hs.digit k (by omega)
  have hsum : limbSum (2 ^ 16) 16 w + 2 ^ 256 * (s.limbs 15 / 2 ^ 16) = o.value := by
    rw [hw, limbSum_update (by omega), ← Gf.value, hs.value_eq, ← Gf.value]
    have := Int.emod_add_mul_ediv (s.limbs 15) (2 ^ 16)
    linear_combination (2 ^ 16) ^ 15 * this
  -- the digits represent a number in `[0, 2 ^ 256)`, so the overflow is the floor quotient
  obtain ⟨hquot, hrem⟩ := (Int.ediv_emod_unique (by norm_num : (0 : ℤ) < 2 ^ 256)).mpr
    ⟨hsum, limbSum_nonneg (by norm_num) fun i hi => (hdigit i hi).1, by
      have := limbSum_lt (B := 2 ^ 16) (by norm_num) fun i hi => (hdigit i hi).2
      rwa [← pow_mul] at this⟩
  refine ⟨w, hdigit, hrem.symm, ?_⟩
  have hw0 : w 0 = s.limbs 0 := by rw [hw, Function.update_of_ne (by norm_num)]
  rw [hcar, hlimbs, hquot, hw0]
  exact Function.update_comm (by norm_num) _ _ _

end TweetNacl
