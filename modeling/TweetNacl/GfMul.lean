import TweetNacl.Fp
import TweetNacl.GfCarry

/-!
# Multiplication of field elements

`M` forms the 31 column sums of the schoolbook product, folds the upper ones down with
weight 38 and carries twice. On operands with limbs at most `2 ^ 26` in absolute value
nothing wraps, the product is right modulo `2 ^ 255 - 19`, and the limbs of the result
lie in `[-38, 2 ^ 16 + 38)`. `A` and `Z` add the limb bounds of their operands.
-/

namespace TweetNacl

open Limbs MachineInt

/-- The field element an array of limbs stands for. -/
def Gf.toField (a : Gf) : Fp := (a.value : Fp)

/-- The limb range a multiplication leaves. -/
def Gf.Tight (a : Gf) : Prop := ∀ i < 16, -38 ≤ a.limbs i ∧ a.limbs i < 2 ^ 16 + 38

/-- Tight limbs stay below `2 ^ 17` in size. -/
theorem Gf.Tight.bounded {a : Gf} (h : a.Tight) : a.Bounded (2 ^ 17) := fun i hi => by
  have := h i hi
  rw [abs_le]
  constructor <;> omega

/-- A carry pass keeps the field element: `2 ^ 256 - 38` is twice the prime. -/
theorem car25519_toField {o : Gf} (ho : o.Bounded (2 ^ 62)) : (car25519 o).toField = o.toField := by
  obtain ⟨w, -, hsum, hlimbs⟩ := car25519_limbs ho
  have hval : (car25519 o).value = o.value % 2 ^ 256 + 38 * (o.value / 2 ^ 256) := by
    rw [Gf.value, hlimbs, limbSum_update (by omega), hsum]
    ring
  apply intCast_eq_iff.mpr
  rw [hval]
  refine Int.modEq_iff_dvd.mpr ⟨2 * (o.value / 2 ^ 256), ?_⟩
  omega

/-- Every limb above the lowest is a digit. -/
def Gf.HighDigits (a : Gf) : Prop := ∀ i, 0 < i → i < 16 → 0 ≤ a.limbs i ∧ a.limbs i < 2 ^ 16

/-- Digits above a bounded lowest limb are all bounded. -/
theorem Gf.HighDigits.bounded {a : Gf} (h : a.HighDigits) (hlow : |a.limbs 0| ≤ 2 ^ 53) :
    a.Bounded (2 ^ 62) := by
  intro i hi
  rcases Nat.eq_zero_or_pos i with rfl | hpos
  · exact hlow.trans (by norm_num)
  · have := h i hpos hi
    rw [abs_le]
    constructor <;> omega

/-- Without its lowest limb the value is a multiple of the radix below `2 ^ 256`. -/
theorem Gf.HighDigits.value_eq {a : Gf} (h : a.HighDigits) :
    ∃ v, a.value = a.limbs 0 + 2 ^ 16 * v ∧ 0 ≤ v ∧ v < 2 ^ 240 := by
  refine ⟨limbSum (2 ^ 16) 15 fun i => a.limbs (i + 1), limbSum_succ' _ 15 _,
    limbSum_nonneg (by norm_num) fun i hi => (h (i + 1) (by omega) (by omega)).1, ?_⟩
  have := limbSum_lt (B := 2 ^ 16) (n := 15) (by norm_num)
    fun i hi => (h (i + 1) (by omega) (by omega)).2
  rwa [← pow_mul] at this

/-- A carry pass on limbs up to `2 ^ 62` leaves digits, but for the lowest limb. -/
theorem car25519_highDigits {o : Gf} (ho : o.Bounded (2 ^ 62)) :
    (car25519 o).HighDigits ∧ |(car25519 o).limbs 0| ≤ 2 ^ 53 := by
  obtain ⟨w, hw, -, hlimbs⟩ := car25519_limbs ho
  have hval := abs_le.mp ho.value_le
  have h0 := hw 0 (by omega)
  refine ⟨fun i hi hi16 => ?_, ?_⟩
  · rw [hlimbs, Function.update_of_ne hi.ne']
    exact hw i hi16
  · rw [hlimbs, Function.update_self, abs_le]
    constructor <;> omega

/-- A carry pass keeps the bound that a carry pass needs. -/
theorem car25519_bounded {o : Gf} (ho : o.Bounded (2 ^ 62)) : (car25519 o).Bounded (2 ^ 62) :=
  (car25519_highDigits ho).1.bounded (car25519_highDigits ho).2

/-- A second carry pass leaves the range of a product. -/
theorem car25519_tight {o : Gf} (ho : o.Bounded (2 ^ 62)) : (car25519 (car25519 o)).Tight := by
  obtain ⟨hhigh, hlow⟩ := car25519_highDigits ho
  obtain ⟨w, hw, -, hlimbs⟩ := car25519_limbs (hhigh.bounded hlow)
  obtain ⟨v, hv, hv0, hv1⟩ := hhigh.value_eq
  rw [abs_le] at hlow
  intro i hi
  have hwi := hw i hi
  rw [hlimbs]
  rcases Nat.eq_zero_or_pos i with rfl | hpos
  · rw [Function.update_self]
    constructor <;> omega
  · rw [Function.update_of_ne hpos.ne']
    constructor <;> omega

/-- The column sums of a product in progress. -/
def columns (t : Vector Int64 31) : ℕ → ℤ := entries Int64.toInt t

/-- The product is a fold of rows. -/
theorem Gf.product_eq_rows (a b : Gf) :
    Gf.product a b = Nat.fold 16 (productRow a b) (Vector.replicate 31 0) := rfl

section Indices

variable {i j : ℕ}

/-- A product of two limbs has its column. -/
theorem column_lt (hi : i < 16) (hj : j < 16) : i + j < 31 := by omega

/-- A lower column is a column. -/
theorem lowerColumn_lt (hi : i < 15) : i < 31 := by omega

/-- So is the upper column that is folded onto it. -/
theorem upperColumn_lt (hi : i < 15) : i + 16 < 31 := by omega

end Indices

/-- One step of a row. -/
def productStep (a b : Gf) (i : ℕ) (hi : i < 16) (j : ℕ) (hj : j < 16) (t : Vector Int64 31) :
    Vector Int64 31 :=
  have := column_lt hi hj
  t.set (i + j) (t[i + j] + a[i] * b[j])

/-- Row `i` of a product after `j` steps: the products made are added at their weights, and each
column has grown by at most one product of limbs. The columns ahead are those the row started
from. -/
structure ProductRow (a b : Gf) (i : ℕ) (t : Vector Int64 31) (j : ℕ)
    (s : Vector Int64 31) : Prop where
  sum_eq : limbSum (2 ^ 16) 31 (columns s) =
    limbSum (2 ^ 16) 31 (columns t) + a.limbs i * (2 ^ 16) ^ i * limbSum (2 ^ 16) j b.limbs
  bound : ∀ k < 31, |columns s k| ≤ (i + 1) * 2 ^ 52
  rest : ∀ k < 31, i + j ≤ k → |columns s k| ≤ i * 2 ^ 52

/-- A row starts with the columns that it was given. -/
theorem ProductRow.start (a b : Gf) {i : ℕ} {t : Vector Int64 31}
    (ht : ∀ k < 31, |columns t k| ≤ i * 2 ^ 52) :
    ProductRow a b i t 0 t :=
  ⟨by simp, fun k hk => (ht k hk).trans (by linarith), fun k hk _ => ht k hk⟩

section Row

variable {a b : Gf} (ha : a.Bounded (2 ^ 26)) (hb : b.Bounded (2 ^ 26))
include ha hb

/-- The product of two limbs. -/
theorem limb_product {i j : ℕ} (hi : i < 16) (hj : j < 16) :
    (a[i] * b[j]).toInt = a.limbs i * b.limbs j ∧ |a.limbs i * b.limbs j| ≤ 2 ^ 52 := by
  have hprod : |a.limbs i * b.limbs j| ≤ 2 ^ 52 := by
    rw [abs_mul]
    calc |a.limbs i| * |b.limbs j| ≤ 2 ^ 26 * 2 ^ 26 :=
          mul_le_mul (ha i hi) (hb j hj) (abs_nonneg _) (by norm_num)
      _ = 2 ^ 52 := by norm_num
  refine ⟨?_, hprod⟩
  rw [Gf.limbs_getElem a hi, Gf.limbs_getElem b hj] at hprod ⊢
  exact toInt_mul (inI64_of_abs_le hprod (by norm_num))

/-- A product is added without wrapping. -/
theorem ProductRow.words {i j : ℕ} {t s : Vector Int64 31} (hi : i < 16) (hj : j < 16)
    (hij : i + j < 31) (h : ProductRow a b i t j s) : (s[i + j] + a[i] * b[j]).toInt = columns s
    (i + j) + a.limbs i * b.limbs j ∧
      |columns s (i + j) + a.limbs i * b.limbs j| ≤ (i + 1) * 2 ^ 52 := by
  obtain ⟨hmul, hprod⟩ := limb_product ha hb hi hj
  have hcol := h.rest (i + j) (by omega) le_rfl
  have hnew : |columns s (i + j) + a.limbs i * b.limbs j| ≤ (i + 1) * 2 ^ 52 :=
    (abs_add_le _ _).trans (by linarith)
  have hi' : (i : ℤ) ≤ 15 := by omega
  refine ⟨?_, hnew⟩
  rw [columns, entries_of_lt _ _ (by omega), ← hmul] at hnew ⊢
  exact toInt_add (inI64_of_abs_le hnew (by linarith))

/-- A step of a row adds one product of limbs to its column. -/
theorem ProductRow.step {i j : ℕ} {t s : Vector Int64 31} (hi : i < 16) (hj : j < 16)
    (h : ProductRow a b i t j s) :
    ProductRow a b i t (j + 1) (productStep a b i hi j hj s) := by
  obtain ⟨hexact, hnew⟩ := h.words ha hb hi hj (column_lt hi hj)
  have hset : columns (productStep a b i hi j hj s) =
      Function.update (columns s) (i + j) (columns s (i + j) + a.limbs i * b.limbs j) := by
    rw [columns, productStep, entries_set, hexact]
    rfl
  refine ⟨?_, fun k hk => ?_, fun k hk hjk => ?_⟩
  · rw [hset, limbSum_update (by omega), h.sum_eq, limbSum_succ _ j, pow_add]
    ring
  · rw [hset]
    by_cases hki : k = i + j
    · rw [hki, Function.update_self]
      exact hnew
    · rw [Function.update_of_ne hki]
      exact h.bound k hk
  · rw [hset, Function.update_of_ne (by omega)]
    exact h.rest k hk (by omega)

/-- A whole row adds one limb of `a` times `b`. -/
theorem productRow_spec {i : ℕ} (hi : i < 16) {t : Vector Int64 31}
    (ht : ∀ k < 31, |columns t k| ≤ i * 2 ^ 52) :
    ProductRow a b i t 16 (productRow a b i hi t) :=
  Loops.fold_invariant (ProductRow a b i t) (.start a b ht) fun _ hj _ hs => hs.step ha hb hi hj

end Row

/-- A product after `i` rows: the value of the limbs passed times the second operand, in columns
that have grown by at most one product of limbs in each row. -/
structure ProductRows (a b : Gf) (i : ℕ) (t : Vector Int64 31) : Prop where
  sum_eq : limbSum (2 ^ 16) 31 (columns t) = limbSum (2 ^ 16) i a.limbs * b.value
  bound : ∀ k < 31, |columns t k| ≤ i * 2 ^ 52

/-- The product starts with empty columns. -/
theorem ProductRows.start (a b : Gf) : ProductRows a b 0 (Vector.replicate 31 0) :=
  ⟨by simp [limbSum, columns, entries], fun k hk => by simp [columns, entries, hk]⟩

/-- One more row is one more limb of `a`. -/
theorem ProductRows.step {a b : Gf} (ha : a.Bounded (2 ^ 26)) (hb : b.Bounded (2 ^ 26)) {i : ℕ}
    (hi : i < 16) {t : Vector Int64 31} (h : ProductRows a b i t) :
    ProductRows a b (i + 1) (productRow a b i hi t) := by
  have hrow := productRow_spec ha hb hi h.bound
  refine ⟨?_, fun k hk => ?_⟩
  · rw [hrow.sum_eq, h.sum_eq, limbSum_succ _ i, ← Gf.value]
    ring
  · exact_mod_cast hrow.bound k hk

/-- The column sums are the product of the operands' values, without wrapping. -/
theorem Gf.product_spec {a b : Gf} (ha : a.Bounded (2 ^ 26)) (hb : b.Bounded (2 ^ 26)) :
    limbSum (2 ^ 16) 31 (columns (Gf.product a b)) = a.value * b.value ∧
      ∀ k < 31, |columns (Gf.product a b) k| ≤ 2 ^ 56 := by
  have hrows := Loops.fold_invariant (f := productRow a b) (ProductRows a b) (.start a b)
    fun _ hi _ ht => ht.step ha hb hi
  rw [Gf.product_eq_rows]
  exact ⟨hrows.sum_eq, fun k hk => (hrows.bound k hk).trans (by norm_num)⟩

/-- One step of the folding. -/
def foldStep (i : ℕ) (hi : i < 15) (t : Vector Int64 31) : Vector Int64 31 :=
  have := lowerColumn_lt hi
  have := upperColumn_lt hi
  t.set i (t[i] + 38 * t[i + 16])

/-- The folding is a fold of steps. -/
theorem Gf.foldColumns_eq (t : Vector Int64 31) : Gf.foldColumns t = Nat.fold 15 foldStep t := rfl

/-- The columns after `i` steps of folding: the lower ones passed have taken their upper ones with
weight 38. -/
def Folded (t : Vector Int64 31) (i : ℕ) (s : Vector Int64 31) : Prop :=
  ∀ k < 31, columns s k = columns t k + 38 * (if k < i then columns t (k + 16) else 0)

/-- Before the first step nothing has been folded. -/
theorem Folded.start (t : Vector Int64 31) : Folded t 0 t := fun k hk => by simp

section Fold

variable {t s : Vector Int64 31} {i : ℕ} (ht : ∀ k < 31, |columns t k| ≤ 2 ^ 56) (hi : i < 15)
  (h : Folded t i s)
include ht hi h

omit hi in
/-- An upper column is folded without wrapping. -/
theorem Folded.words (hlow : i < 31) (hup : i + 16 < 31) :
    (38 * s[i + 16]).toInt = 38 * columns t (i + 16) ∧
    (s[i] + 38 * s[i + 16]).toInt = columns t i + 38 * columns t (i + 16) := by
  have hcur := h i (by omega)
  have hhigh := h (i + 16) (by omega)
  simp only [lt_irrefl, if_false, mul_zero, add_zero, show ¬ i + 16 < i by omega] at hcur hhigh
  have h38 : (38 : Int64).toInt = 38 := rfl
  have hbi := abs_le.mp (ht i (by omega))
  have hbh := abs_le.mp (ht (i + 16) (by omega))
  have hsi : s[i].toInt = columns t i := by rw [← hcur, columns, entries_of_lt _ _ hlow]
  have hsup : s[i + 16].toInt = columns t (i + 16) := by
    rw [← hhigh, columns, entries_of_lt _ _ hup]
  have hmul : (38 * s[i + 16]).toInt = 38 * columns t (i + 16) := by
    rw [toInt_mul, h38, hsup]
    rw [h38, hsup]; constructor <;> omega
  refine ⟨hmul, ?_⟩
  rw [toInt_add, hmul, hsi]
  rw [hmul, hsi]; constructor <;> omega

/-- A step folds one upper column. -/
theorem Folded.step : Folded t (i + 1) (foldStep i hi s) := by
  intro k hk
  rw [columns, foldStep, entries_set, (h.words ht (lowerColumn_lt hi) (upperColumn_lt hi)).2]
  by_cases hki : k = i
  · rw [hki, Function.update_self, if_pos (by omega)]
  · rw [Function.update_of_ne hki, ← columns, h k hk]
    congr 3
    simp only [eq_iff_iff]
    omega

end Fold

/-- Folding keeps the field element of the sixteen lower columns. -/
theorem Gf.foldColumns_spec {t : Vector Int64 31} (ht : ∀ k < 31, |columns t k| ≤ 2 ^ 56) :
    ∀ k < 16, columns (Gf.foldColumns t) k =
      columns t k + 38 * (if k < 15 then columns t (k + 16) else 0) := by
  have hfolded := Loops.fold_invariant (f := foldStep) (Folded t) (.start t) fun _ hi _ hs =>
    hs.step ht hi
  exact fun k hk => hfolded k (by omega)

/-- `M` carries the folded limbs twice. -/
theorem Gf.M_eq (a b : Gf) : Gf.M a b = car25519 (car25519 (foldedLimbs a b)) := rfl

section Product

variable {a b : Gf} (ha : a.Bounded (2 ^ 26)) (hb : b.Bounded (2 ^ 26))
include ha hb

/-- A folded limb is a lower column with 38 times its upper one. -/
theorem foldedLimbs_limbs {k : ℕ} (hk : k < 16) :
    (foldedLimbs a b).limbs k = columns (Gf.product a b) k +
      38 * (if k < 15 then columns (Gf.product a b) (k + 16) else 0) := by
  rw [← Gf.foldColumns_spec (Gf.product_spec ha hb).2 k hk, columns, entries_of_lt _ _ (by omega),
    foldedLimbs, Gf.limbs_ofFn _ hk]
  rfl

/-- The folded columns still fit, with a factor of 39 over the column bound. -/
theorem foldedLimbs_bounded : (foldedLimbs a b).Bounded (2 ^ 62) := by
  intro k hk
  have hlow := abs_le.mp ((Gf.product_spec ha hb).2 k (by omega))
  rw [foldedLimbs_limbs ha hb hk, abs_le]
  split
  · have hhigh := abs_le.mp ((Gf.product_spec ha hb).2 (k + 16) (by omega))
    constructor <;> omega
  · constructor <;> omega

/-- Folding drops a multiple of `2 ^ 256 - 38`, twice the prime. -/
theorem foldedLimbs_toField : (foldedLimbs a b).toField = a.toField * b.toField := by
  set col := columns (Gf.product a b)
  have hhigh : limbSum (2 ^ 16) 16 (fun k => if k < 15 then col (k + 16) else 0) =
      limbSum (2 ^ 16) 15 (fun k => col (16 + k)) := by
    rw [limbSum_succ, if_neg (by omega), zero_mul, add_zero]
    exact limbSum_congr fun k hk => by rw [if_pos hk, add_comm]
  have hvalue : (foldedLimbs a b).value =
      limbSum (2 ^ 16) 16 col + 38 * limbSum (2 ^ 16) 15 (fun k => col (16 + k)) := by
    rw [Gf.value, limbSum_congr fun k hk => foldedLimbs_limbs ha hb hk, limbSum_add,
      limbSum_const_mul, hhigh]
  have hprod : limbSum (2 ^ 16) 16 col + (2 ^ 16) ^ 16 * limbSum (2 ^ 16) 15
      (fun k => col (16 + k)) = a.value * b.value := by
    rw [← limbSum_add_len]
    exact (Gf.product_spec ha hb).1
  rw [Gf.toField, Gf.toField, Gf.toField, ← Int.cast_mul, hvalue, ← hprod]
  apply intCast_eq_iff.mpr
  refine Int.modEq_iff_dvd.mpr ⟨2 * limbSum (2 ^ 16) 15 (fun k => col (16 + k)), ?_⟩
  ring

/-- Multiplication leaves the tight range. -/
theorem Gf.M_tight : (Gf.M a b).Tight := car25519_tight (foldedLimbs_bounded ha hb)

/-- Multiplication is multiplication in the field. -/
theorem Gf.M_toField : (Gf.M a b).toField = a.toField * b.toField := by
  have hfolded := foldedLimbs_bounded ha hb
  rw [Gf.M_eq, car25519_toField (car25519_bounded hfolded), car25519_toField hfolded,
    foldedLimbs_toField ha hb]

end Product

section Sum

variable {m n : ℤ} {a b : Gf} (ha : a.Bounded m) (hb : b.Bounded n) (hmn : m + n < 2 ^ 63)
include ha hb hmn

/-- A limb of a sum. -/
theorem Gf.Bounded.sum_limb (i : ℕ) (hi : i < 16) :
    (Gf.A a b).limbs i = a.limbs i + b.limbs i ∧ |a.limbs i + b.limbs i| ≤ m + n := by
  have h : |a.limbs i + b.limbs i| ≤ m + n :=
    (abs_add_le _ _).trans (add_le_add (ha i hi) (hb i hi))
  refine ⟨?_, h⟩
  rw [Gf.limbs_getElem a hi, Gf.limbs_getElem b hi] at h ⊢
  rw [Gf.A, Gf.limbs_ofFn _ hi]
  exact toInt_add (inI64_of_abs_le h hmn)

/-- A limb of a difference, and its bound. -/
theorem Gf.Bounded.difference_limb (i : ℕ) (hi : i < 16) :
    (Gf.Z a b).limbs i = a.limbs i - b.limbs i ∧ |a.limbs i - b.limbs i| ≤ m + n := by
  have h : |a.limbs i - b.limbs i| ≤ m + n := (abs_sub _ _).trans (add_le_add (ha i hi) (hb i hi))
  refine ⟨?_, h⟩
  rw [Gf.limbs_getElem a hi, Gf.limbs_getElem b hi] at h ⊢
  rw [Gf.Z, Gf.limbs_ofFn _ hi]
  exact toInt_sub (inI64_of_abs_le h hmn)

/-- Sums and differences add the bounds of their operands. -/
theorem Gf.Bounded.A : (Gf.A a b).Bounded (m + n) := fun i hi => by
  obtain ⟨hlimb, hbound⟩ := ha.sum_limb hb hmn i hi
  rwa [hlimb]

/-- The bound of a difference is the sum of the bounds. -/
theorem Gf.Bounded.Z : (Gf.Z a b).Bounded (m + n) := fun i hi => by
  obtain ⟨hlimb, hbound⟩ := ha.difference_limb hb hmn i hi
  rwa [hlimb]

end Sum

/-- The array `a` stands for the field element `x`, with limbs at most `b`. -/
structure Gf.Denotes (b : ℤ) (a : Gf) (x : Fp) : Prop where
  bounded : a.Bounded b
  toField_eq : a.toField = x

/-- An array stands for its field element. -/
theorem Gf.Bounded.denotes {b : ℤ} {a : Gf} (h : a.Bounded b) : Gf.Denotes b a a.toField := ⟨h, rfl⟩

namespace Gf.Denotes

variable {m n : ℤ} {a b : Gf} {x y : Fp}

/-- A looser bound holds as well. -/
theorem mono (h : Denotes m a x) (hmn : m ≤ n) : Denotes n a x := ⟨h.bounded.mono hmn, h.toField_eq⟩

/-- An equal field element is denoted as well. -/
theorem congr (h : Denotes m a x) (hxy : x = y) : Denotes m a y := hxy ▸ h

/-- A product of operands within the multiplication bound. -/
theorem M (ha : Denotes (2 ^ 26) a x) (hb : Denotes (2 ^ 26) b y) :
    Denotes (2 ^ 17) (Gf.M a b) (x * y) :=
  ⟨(Gf.M_tight ha.bounded hb.bounded).bounded, by
    rw [Gf.M_toField ha.bounded hb.bounded, ha.toField_eq, hb.toField_eq]⟩

/-- `S` denotes the square. -/
theorem S (ha : Denotes (2 ^ 26) a x) : Denotes (2 ^ 17) (Gf.S a) (x * x) := M ha ha

/-- A sum: the limb bounds add, as long as they stay in the machine word. -/
theorem A (ha : Denotes m a x) (hb : Denotes n b y) (hmn : m + n < 2 ^ 63) :
    Denotes (m + n) (Gf.A a b) (x + y) := by
  have hlimbs := fun i hi => (ha.bounded.sum_limb hb.bounded hmn i hi).1
  refine ⟨ha.bounded.A hb.bounded hmn, ?_⟩
  rw [Gf.toField, Gf.value, limbSum_congr hlimbs, limbSum_add, Int.cast_add, ← Gf.value, ← Gf.value,
    ← ha.toField_eq, ← hb.toField_eq]
  rfl

/-- A difference: the limb bounds add as well. -/
theorem Z (ha : Denotes m a x) (hb : Denotes n b y) (hmn : m + n < 2 ^ 63) :
    Denotes (m + n) (Gf.Z a b) (x - y) := by
  have hlimbs := fun i hi => (ha.bounded.difference_limb hb.bounded hmn i hi).1
  refine ⟨ha.bounded.Z hb.bounded hmn, ?_⟩
  rw [Gf.toField, Gf.value, limbSum_congr hlimbs, limbSum_sub, Int.cast_sub, ← Gf.value, ← Gf.value,
    ← ha.toField_eq, ← hb.toField_eq]
  rfl

end Gf.Denotes

end TweetNacl
