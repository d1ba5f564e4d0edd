import TweetNacl.Lib.CheckedInt

/-!
# The arithmetic utilities

The checked operations of `secure_utils.c` on `int` and `size_t`, and its branch-free minimum and
maximum. The operations on `int` are written with arithmetic that stops at an overflow, so that a
guard that overflows has no result. A `result` pointer is `none` if it is null, and else what it
points to.
-/

namespace TweetNacl.SecureUtils

open CheckedInt MachineInt

section Code

/-- `INT_MAX`. -/
def intMax : Int32 := 2147483647

/-- `INT_MIN`. -/
def intMin : Int32 := -2147483648

/-- `SIZE_MAX`. -/
def sizeMax : UInt64 := 0xffffffffffffffff

/-- The frame of the checked operations: `-1` if the pointer is null or the guard holds, else the
value is stored. -/
def guarded {α : Type} (guard : Option Bool) (value : Option α) (result : Option α) :
    Option (Int32 × Option α) :=
  match result with
  | none => some (-1, none)
  | some old => do
    let overflows ← guard
    if overflows then some (-1, some old) else value.map fun value => (0, some value)

/-- `safe_add_int`. -/
def safeAddInt (a b : Int32) (result : Option Int32) : Option (Int32 × Option Int32) :=
  guarded
    (orElse (andAlso (b > 0) ((CheckedInt.sub intMax b).map fun bound => a > bound))
      (andAlso (b < 0) ((CheckedInt.sub intMin b).map fun bound => a < bound)))
    (CheckedInt.add a b) result

/-- `safe_sub_int`. -/
def safeSubInt (a b : Int32) (result : Option Int32) : Option (Int32 × Option Int32) :=
  guarded
    (orElse (andAlso (b > 0) ((CheckedInt.add intMin b).map fun bound => a < bound))
      (andAlso (b < 0) ((CheckedInt.add intMax b).map fun bound => a > bound)))
    (CheckedInt.sub a b) result

/-- `safe_mul_int`. -/
def safeMulInt (a b : Int32) (result : Option Int32) : Option (Int32 × Option Int32) :=
  guarded
    (if a > 0 then
      if b > 0 then (CheckedInt.div intMax b).map fun bound => a > bound
      else (CheckedInt.div intMin a).map fun bound => b < bound
    else
      if b > 0 then (CheckedInt.div intMin b).map fun bound => a < bound
      else andAlso (a ≠ 0) ((CheckedInt.div intMax a).map fun bound => b < bound))
    (CheckedInt.mul a b) result

/-- `safe_add_size`. -/
def safeAddSize (a b : UInt64) (result : Option UInt64) : Option (Int32 × Option UInt64) :=
  guarded (some (a > sizeMax - b)) (some (a + b)) result

/-- The quotient of sizes. -/
def divSize (a b : UInt64) : Option UInt64 := if b = 0 then none else some (a / b)

/-- `safe_mul_size`. -/
def safeMulSize (a b : UInt64) (result : Option UInt64) : Option (Int32 × Option UInt64) :=
  match result with
  | none => some (-1, none)
  | some old =>
    if a = 0 ∨ b = 0 then some (0, some 0)
    else guarded ((divSize sizeMax b).map fun bound => a > bound) (some (a * b)) (some old)

/-- The mask of the branch-free functions: the sign of the difference as an `intptr_t`, in every
bit. -/
def signMask (a b : UInt64) : UInt64 :=
  let diff := a - b
  (diff.toInt64 >>> 63).toUInt64

/-- `constant_time_min`. -/
def constantTimeMin (a b : UInt64) : UInt64 := b ^^^ (signMask a b &&& (a ^^^ b))

/-- `constant_time_max`. -/
def constantTimeMax (a b : UInt64) : UInt64 := a ^^^ (signMask a b &&& (a ^^^ b))

end Code

section BranchFree

variable {a b : UInt64}

/-- The difference of two sizes is a signed word. -/
def DifferenceFits (a b : UInt64) : Prop := InI64 ((a.toNat : ℤ) - b.toNat)

/-- The arithmetic shift leaves the sign. -/
theorem shiftRight_sign (d : UInt64) :
    (d.toInt64 >>> 63).toUInt64 = if d.toNat < 2 ^ 63 then 0 else -1 := by
  have hshift : (d.toInt64 >>> 63).toInt = d.toInt64.toInt / 2 ^ 63 :=
    toInt_shiftRight _ (by norm_num : 63 < 64)
  have hsigned : d.toInt64.toInt = if d.toNat < 2 ^ 63 then
      (d.toNat : ℤ) else d.toNat - 2 ^ 64 := by
    rw [← Int64.toInt_toBitVec, UInt64.toBitVec_toInt64, BitVec.toInt_eq_toNat_cond,
      UInt64.toNat_toBitVec]
    split_ifs <;> first | rfl | omega
  have hd := d.toNat_lt
  split_ifs at hsigned ⊢ with hsmall
  · have hzero : d.toInt64 >>> 63 = 0 :=
      Int64.toInt_inj.mp (by rw [hshift, hsigned, Int64.toInt_zero]; omega)
    rw [hzero]
    rfl
  · have hones : d.toInt64 >>> 63 = -1 :=
      Int64.toInt_inj.mp (by rw [hshift, hsigned, show (-1 : Int64).toInt = -1 from rfl]; omega)
    rw [hones]
    rfl

/-- The functions decide by the sign of the wrapped difference. -/
theorem constantTimeMin_eq (a b : UInt64) :
    constantTimeMin a b = if (a - b).toNat < 2 ^ 63 then b else a := by
  rw [constantTimeMin, signMask, shiftRight_sign]
  split_ifs
  · rw [UInt64.zero_and, UInt64.xor_zero]
  · rw [UInt64.neg_one_and, UInt64.xor_comm a, ← UInt64.xor_assoc, UInt64.xor_self, UInt64.zero_xor]

/-- `constant_time_max` decides by the sign of the wrapped difference. -/
theorem constantTimeMax_eq (a b : UInt64) :
    constantTimeMax a b = if (a - b).toNat < 2 ^ 63 then a else b := by
  rw [constantTimeMax, signMask, shiftRight_sign]
  split_ifs
  · rw [UInt64.zero_and, UInt64.xor_zero]
  · rw [UInt64.neg_one_and, ← UInt64.xor_assoc, UInt64.xor_self, UInt64.zero_xor]

/-- The sign of the wrapped difference is the order exactly if the difference fits, for different
operands. -/
theorem sub_lt_iff_of_fits (h : DifferenceFits a b) : (a - b).toNat < 2 ^ 63 ↔ b ≤ a := by
  have ha := a.toNat_lt
  have hb := b.toNat_lt
  obtain ⟨hlow, hhigh⟩ := h
  rw [UInt64.le_iff_toNat_le, UInt64.toNat_sub]
  omega

/-- Where the difference does not fit, that sign is the wrong way round. -/
theorem sub_lt_iff_of_not_fits (h : ¬ DifferenceFits a b) : (a - b).toNat < 2 ^ 63 ↔ a < b := by
  have ha := a.toNat_lt
  have hb := b.toNat_lt
  rw [DifferenceFits, InI64] at h
  rw [UInt64.lt_iff_toNat_lt, UInt64.toNat_sub]
  omega

/-- Operands whose difference does not fit are different. -/
theorem ne_of_not_fits (h : ¬ DifferenceFits a b) : a ≠ b := by
  rintro rfl
  exact h ⟨by simp, by simp⟩

/-- `constant_time_min` and `constant_time_max` return the minimum and the maximum exactly if the
difference fits. -/
theorem constantTime_minmax_iff (a b : UInt64) :
    (constantTimeMin a b = (if a ≤ b then a else b) ↔ DifferenceFits a b) ∧
      (constantTimeMax a b = (if a ≤ b then b else a) ↔ DifferenceFits a b) := by
  rw [constantTimeMin_eq, constantTimeMax_eq]
  by_cases hfits : DifferenceFits a b
  · simp only [sub_lt_iff_of_fits hfits, hfits, iff_true]
    grind
  · have hne := ne_of_not_fits hfits
    simp only [sub_lt_iff_of_not_fits hfits, hfits, iff_false]
    grind

/-- Two sizes that are `2 ^ 63` apart. -/
theorem not_constantTime_minmax : ¬ ∀ a b : UInt64,
    constantTimeMin a b = (if a ≤ b then a else b) ∧
    constantTimeMax a b = (if a ≤ b then b else a) :=
  fun h => absurd (h 0x8000000000000000 0).1 (by decide)

end BranchFree

section Checked

/-- What a checked operation does for the result `z`: 0 exactly if `z` is a value of the type, which
is then stored, and else -1, with the old value. -/
def Stored {α : Type} (value : α → ℤ) (z : ℤ) (old : α) (call : Option (Int32 × Option α)) : Prop :=
  ∃ ret new, call = some (ret, some new) ∧ (ret = 0 ↔ ∃ x, value x = z) ∧
    (ret = 0 → value new = z) ∧
    (ret ≠ 0 → ret = -1 ∧ new = old)

/-- A guard that holds exactly if the result is no value of the type. -/
theorem stored_guarded {α : Type} {value : α → ℤ} {z : ℤ} {old : α} {guard : Option Bool}
    {result : Option α} {overflows : Prop} [Decidable overflows]
    (hguard : guard = some (decide overflows)) (hoverflows : overflows ↔ ¬ ∃ x, value x = z)
    (hresult : ∀ x, value x = z → ∃ y, result = some y ∧ value y = z) :
    Stored value z old (guarded guard result (some old)) := by
  rw [guarded, hguard]
  by_cases h : overflows
  · exact ⟨-1,
      old, by simp [h], iff_of_false (by decide) (hoverflows.mp h), nofun, fun _ => ⟨rfl, rfl⟩⟩
  · obtain ⟨x, hx⟩ := not_not.mp (mt hoverflows.mpr h)
    obtain ⟨y, hy, hvalue⟩ := hresult x hx
    exact ⟨0, y, by simp [h, hy], iff_of_true rfl ⟨x, hx⟩, fun _ => hvalue, fun hne =>
      absurd rfl hne⟩

variable {a b : Int32} {z : ℤ}

/-- A comparison with a bound that does not overflow. -/
theorem map_lt (h : -2147483648 ≤ z ∧ z ≤ 2147483647) :
    (exact z).map (fun bound => decide (a < bound)) = some (decide (a.toInt < z)) := by
  obtain ⟨x, hx, rfl⟩ := exact_int h
  simp [hx, Int32.lt_iff_toInt_lt]

/-- A guard against a bound that fits compares the exact integers. -/
theorem map_gt (h : -2147483648 ≤ z ∧ z ≤ 2147483647) :
    (exact z).map (fun bound => decide (a > bound)) = some (decide (a.toInt > z)) := by
  obtain ⟨x, hx, rfl⟩ := exact_int h
  simp [hx, Int32.lt_iff_toInt_lt]

/-- An operand that is evaluated only where the first one holds. -/
theorem andAlso_eq {holds p q : Prop} [Decidable holds] [Decidable p] [Decidable q]
    {operand : Option Bool} (hholds : holds ↔ p) (h : p → operand = some (decide q)) :
    andAlso holds operand = some (decide (p ∧ q)) := by
  unfold andAlso
  split_ifs with hcase
  · have hp := hholds.mp hcase
    simp [h hp, hp]
  · simp [mt hholds.mpr hcase]

/-- The guards are joined with `||`, on exact conditions. -/
theorem orElse_eq {p q : Prop} [Decidable p] [Decidable q] :
    orElse (some (decide p)) (some (decide q)) = some (decide (p ∨ q)) := by
  by_cases hp : p <;> simp [orElse, hp]

/-- An operation on `int` whose guard holds exactly if the result is out of range. -/
theorem stored_int {old : Int32} {guard : Option Bool} {overflows : Prop} [Decidable overflows]
    (hguard : guard = some (decide overflows))
    (hoverflows : overflows ↔ ¬ (-2147483648 ≤ z ∧ z ≤ 2147483647)) :
    Stored Int32.toInt z old (guarded guard (exact z) (some old)) := by
  refine stored_guarded hguard (by rw [hoverflows, exists_int_iff]) fun x hx =>
    ⟨x, exact_eq_some_iff.mpr hx, hx⟩

/-- A positive word is a positive integer. -/
theorem pos_iff (b : Int32) : b > 0 ↔ 0 < b.toInt := Int32.lt_iff_toInt_lt

/-- A negative word is a negative integer. -/
theorem neg_iff (b : Int32) : b < 0 ↔ b.toInt < 0 := Int32.lt_iff_toInt_lt

/-- `safe_add_int` stores the sum exactly if it fits. -/
theorem safeAddInt_stored (a b old : Int32) :
    Stored Int32.toInt (a.toInt + b.toInt) old (safeAddInt a b (some old)) := by
  have ha := int_range a
  have hb := int_range b
  have hguard :
    orElse (andAlso (b > 0) ((CheckedInt.sub intMax b).map fun bound => decide (a > bound)))
      (andAlso (b < 0) ((CheckedInt.sub intMin b).map fun bound => decide (a < bound))) =
        some (decide ((0 < b.toInt ∧ a.toInt > 2147483647 - b.toInt) ∨
          (b.toInt < 0 ∧ a.toInt < -2147483648 - b.toInt))) := by
    rw [← orElse_eq, ← andAlso_eq (pos_iff b) fun h => map_gt (by omega),
      ← andAlso_eq (neg_iff b) fun h => map_lt (by omega)]
    rfl
  exact stored_int hguard (by omega)

/-- `safe_sub_int` stores the difference exactly if it fits. -/
theorem safeSubInt_stored (a b old : Int32) :
    Stored Int32.toInt (a.toInt - b.toInt) old (safeSubInt a b (some old)) := by
  have ha := int_range a
  have hb := int_range b
  have hguard :
    orElse (andAlso (b > 0) ((CheckedInt.add intMin b).map fun bound => decide (a < bound)))
      (andAlso (b < 0) ((CheckedInt.add intMax b).map fun bound => decide (a > bound))) =
        some (decide ((0 < b.toInt ∧ a.toInt < -2147483648 + b.toInt) ∨
          (b.toInt < 0 ∧ a.toInt > 2147483647 + b.toInt))) := by
    rw [← orElse_eq, ← andAlso_eq (pos_iff b) fun h => map_lt (by omega),
      ← andAlso_eq (neg_iff b) fun h => map_gt (by omega)]
    rfl
  exact stored_int hguard (by omega)

/-- The quotient of a bound by a positive number, and what a comparison with it says about the
product. -/
theorem ediv_bound {n d x : ℤ} (hn : 0 ≤ n) (hd : 0 < d) : 0 ≤ n / d ∧ n / d ≤ n ∧
    (n / d < x ↔ n < x * d) :=
  ⟨Int.ediv_nonneg hn hd.le, Int.ediv_le_self d hn, Int.ediv_lt_iff_lt_mul hd⟩

/-- The quotients in the guards of the multiplication. -/
theorem div_intMax_pos {d : Int32} (hd : 0 < d.toInt) :
    CheckedInt.div intMax d = exact (2147483647 / d.toInt) := by
  have htrunc : (2147483647 : ℤ).tdiv d.toInt = 2147483647 / d.toInt :=
    Int.tdiv_eq_ediv_of_nonneg (by norm_num)
  rw [← htrunc]
  exact if_neg hd.ne'

/-- `INT_MIN` over a positive divisor, rounded towards zero. -/
theorem div_intMin_pos {d : Int32} (hd : 0 < d.toInt) :
    CheckedInt.div intMin d = exact (-(2147483648 / d.toInt)) := by
  have htrunc : (-2147483648 : ℤ).tdiv d.toInt = -(2147483648 / d.toInt) := by
    rw [Int.neg_tdiv, Int.tdiv_eq_ediv_of_nonneg (by norm_num)]
  rw [← htrunc]
  exact if_neg hd.ne'

/-- `INT_MAX` over a negative divisor, rounded towards zero. -/
theorem div_intMax_neg {d : Int32} (hd : d.toInt < 0) :
    CheckedInt.div intMax d = exact (-(2147483647 / -d.toInt)) := by
  have htrunc : (2147483647 : ℤ).tdiv d.toInt = -(2147483647 / -d.toInt) := by
    rw [← Int.tdiv_eq_ediv_of_nonneg (by norm_num), Int.tdiv_neg, neg_neg]
  rw [← htrunc]
  exact if_neg hd.ne

/-- `safe_mul_int` stores the product exactly if it fits. -/
theorem safeMulInt_stored (a b old : Int32) :
    Stored Int32.toInt (a.toInt * b.toInt) old (safeMulInt a b (some old)) := by
  have ha := int_range a
  have hb := int_range b
  unfold safeMulInt
  by_cases hapos : a > 0
  · have ha₀ := (pos_iff a).mp hapos
    rw [if_pos hapos]
    by_cases hbpos : b > 0
    · have hb₀ := (pos_iff b).mp hbpos
      obtain ⟨hlow, hhigh, hiff⟩ := ediv_bound (n := 2147483647) (x := a.toInt) (by norm_num) hb₀
      have hproduct := mul_pos ha₀ hb₀
      rw [if_pos hbpos, div_intMax_pos hb₀]
      exact stored_int (map_gt (by omega)) (by omega)
    · have hb₀ := not_lt.mp (mt (pos_iff b).mpr hbpos)
      obtain ⟨hlow, hhigh, hiff⟩ := ediv_bound (n := 2147483648) (x := -b.toInt) (by norm_num) ha₀
      have hproduct := mul_nonpos_of_nonneg_of_nonpos ha₀.le hb₀
      rw [if_neg hbpos, div_intMin_pos ha₀]
      rw [neg_mul, mul_comm] at hiff
      exact stored_int (map_lt (by omega)) (by omega)
  · have ha₀ := not_lt.mp (mt (pos_iff a).mpr hapos)
    rw [if_neg hapos]
    by_cases hbpos : b > 0
    · have hb₀ := (pos_iff b).mp hbpos
      obtain ⟨hlow, hhigh, hiff⟩ := ediv_bound (n := 2147483648) (x := -a.toInt) (by norm_num) hb₀
      have hproduct := mul_nonpos_of_nonpos_of_nonneg ha₀ hb₀.le
      rw [if_pos hbpos, div_intMin_pos hb₀]
      rw [neg_mul] at hiff
      exact stored_int (map_lt (by omega)) (by omega)
    · have hb₀ := not_lt.mp (mt (pos_iff b).mpr hbpos)
      have hproduct := mul_nonneg_of_nonpos_of_nonpos ha₀ hb₀
      have hneg : a ≠ 0 ↔ a.toInt < 0 := by
        rw [Ne, ← Int32.toInt_inj, Int32.toInt_zero]
        omega
      have hquotient : a.toInt < 0 →
        (0 ≤ 2147483647 / -a.toInt ∧ 2147483647 / -a.toInt ≤ 2147483647) ∧
          (2147483647 / -a.toInt < -b.toInt ↔ 2147483647 < a.toInt * b.toInt) := fun h => by
        obtain ⟨hlow, hhigh, hiff⟩ :=
          ediv_bound (n := 2147483647) (x := -b.toInt) (by norm_num) (neg_pos.mpr h)
        rw [neg_mul_neg, mul_comm] at hiff
        exact ⟨⟨hlow, hhigh⟩, hiff⟩
      rw [if_neg hbpos, andAlso_eq hneg fun h => by
        rw [div_intMax_neg h]
        exact map_lt (by have := hquotient h; omega)]
      refine stored_int rfl ?_
      by_cases h : a.toInt < 0
      · have := hquotient h
        omega
      · have hzero : a.toInt * b.toInt = 0 := by rw [show a.toInt = 0 by omega, zero_mul]
        omega

/-- The values of `size_t`. -/
theorem exists_size_iff (z : ℤ) : (∃ x : UInt64, (x.toNat : ℤ) = z) ↔ 0 ≤ z ∧ z < 2 ^ 64 := by
  constructor
  · rintro ⟨x, rfl⟩
    have := x.toNat_lt
    omega
  · rintro ⟨hlow, hhigh⟩
    exact ⟨UInt64.ofNat z.toNat, by rw [UInt64.toNat_ofNat']; omega⟩

/-- The largest size. -/
theorem toNat_sizeMax : sizeMax.toNat = 2 ^ 64 - 1 := rfl

/-- `safe_add_size` stores the sum exactly if it fits. -/
theorem safeAddSize_stored (a b old : UInt64) :
    Stored (fun x : UInt64 => (x.toNat : ℤ)) ((a.toNat : ℤ) + b.toNat) old
      (safeAddSize a b (some old)) := by
  have ha := a.toNat_lt
  have hb := b.toNat_lt
  have hle : b ≤ sizeMax := UInt64.le_iff_toNat_le.mpr (by rw [toNat_sizeMax]; omega)
  refine stored_guarded rfl ?_ fun x hx => ⟨a + b, rfl, ?_⟩
  · rw [exists_size_iff, gt_iff_lt, UInt64.lt_iff_toNat_lt, UInt64.toNat_sub_of_le _ _ hle,
      toNat_sizeMax]
    omega
  · have := x.toNat_lt
    rw [UInt64.toNat_add]
    omega

/-- `safe_mul_size` stores the product exactly if it fits. -/
theorem safeMulSize_stored (a b old : UInt64) :
    Stored (fun x : UInt64 => (x.toNat : ℤ)) ((a.toNat : ℤ) * b.toNat) old
      (safeMulSize a b (some old)) := by
  unfold safeMulSize
  by_cases hzero : a = 0 ∨ b = 0
  · have hproduct : (a.toNat : ℤ) * b.toNat = 0 := by obtain rfl | rfl := hzero <;> simp
    dsimp only
    rw [if_pos hzero, hproduct]
    exact ⟨0, 0, rfl, iff_of_true rfl ⟨0, rfl⟩, fun _ => rfl, fun hne => absurd rfl hne⟩
  · obtain ⟨-, hb⟩ := not_or.mp hzero
    dsimp only
    rw [if_neg hzero, divSize, if_neg hb]
    have hpos : 0 < b.toNat := UInt64.pos_iff_ne_zero.mpr hb
    refine stored_guarded rfl ?_ fun x hx => ⟨a * b, rfl, ?_⟩
    · rw [exists_size_iff, gt_iff_lt, UInt64.lt_iff_toNat_lt, UInt64.toNat_div, toNat_sizeMax,
        Nat.div_lt_iff_lt_mul hpos, ← Int.natCast_mul]
      omega
    · have := x.toNat_lt
      rw [UInt64.toNat_mul]
      rw [← Int.natCast_mul] at hx ⊢
      omega

/-- The function is exact for the operation: with every pointer that is not null it stores the
result if there is a value of the type for it. -/
def Exact {α : Type} (value : α → ℤ) (op : ℤ → ℤ → ℤ)
    (f : α → α → Option α → Option (Int32 × Option α)) : Prop :=
  ∀ a b old, Stored value (op (value a) (value b)) old (f a b (some old))

/-- The checked arithmetic is exact, and none of its guards overflows or divides by zero. -/
theorem checked_arithmetic_exact :
    Exact Int32.toInt (· + ·) safeAddInt ∧ Exact Int32.toInt (· - ·) safeSubInt ∧
      Exact Int32.toInt (· * ·) safeMulInt ∧
      Exact (fun x : UInt64 => (x.toNat : ℤ)) (· + ·) safeAddSize ∧
      Exact (fun x : UInt64 => (x.toNat : ℤ)) (· * ·) safeMulSize :=
  ⟨safeAddInt_stored, safeSubInt_stored, safeMulInt_stored, safeAddSize_stored, safeMulSize_stored⟩

end Checked
end TweetNacl.SecureUtils
