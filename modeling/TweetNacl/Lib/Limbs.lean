import Mathlib.Algebra.BigOperators.Intervals
import Mathlib.Algebra.Order.BigOperators.Group.Finset
import Mathlib.Algebra.Order.BigOperators.Ring.Finset
import Mathlib.Algebra.BigOperators.ModEq
import Mathlib.Data.Int.ModEq
import Mathlib.Tactic.Ring
import Mathlib.Tactic.Linarith

/-!
# Integers held as limbs

A multi-precision number is a sequence of integer limbs in a radix `B`, the least
significant first; limbs may be unreduced or negative. `limbSum` is its value.
`entries` reads a fixed-size array of machine words as such a sequence, so that an
array update is a `Function.update` and the value of an updated array differs in one
term.
-/

namespace Limbs

/-- The value of the first `n` limbs in radix `B`. -/
def limbSum (B : ℤ) (n : ℕ) (f : ℕ → ℤ) : ℤ := ∑ i ∈ Finset.range n, f i * B ^ i

section Sums

variable {B : ℤ} {n : ℕ} {f g : ℕ → ℤ}

/-- No limbs have the value zero. -/
@[simp] theorem limbSum_zero (B : ℤ) (f : ℕ → ℤ) : limbSum B 0 f = 0 := by simp [limbSum]

/-- The most significant limb splits off. -/
theorem limbSum_succ (B : ℤ) (n : ℕ) (f : ℕ → ℤ) :
    limbSum B (n + 1) f = limbSum B n f + f n * B ^ n := Finset.sum_range_succ _ _

/-- The least significant limb splits off. -/
theorem limbSum_succ' (B : ℤ) (n : ℕ) (f : ℕ → ℤ) :
    limbSum B (n + 1) f = f 0 + B * limbSum B n (fun i => f (i + 1)) := by
  rw [limbSum, Finset.sum_range_succ', limbSum, Finset.mul_sum, pow_zero, mul_one, add_comm]
  congr 1
  exact Finset.sum_congr rfl fun i _ => by ring

/-- A number of `m + n` limbs is its low `m` limbs plus its shifted high ones. -/
theorem limbSum_add_len (B : ℤ) (m n : ℕ) (f : ℕ → ℤ) :
    limbSum B (m + n) f = limbSum B m f + B ^ m * limbSum B n (fun i => f (m + i)) := by
  rw [limbSum, Finset.sum_range_add, limbSum, limbSum, Finset.mul_sum]
  congr 1
  exact Finset.sum_congr rfl fun i _ => by ring

/-- Adjacent limbs pair up into limbs of the squared radix. -/
theorem limbSum_pairs (B : ℤ) (n : ℕ) (f : ℕ → ℤ) :
    limbSum B (2 * n) f = limbSum (B ^ 2) n (fun i => f (2 * i) + B * f (2 * i + 1)) := by
  induction n with
  | zero => simp
  | succ n ih =>
    rw [Nat.mul_succ, limbSum_succ, limbSum_succ, limbSum_succ, ih, ← pow_mul]
    ring

/-- Only the first `n` limbs matter. -/
theorem limbSum_congr (h : ∀ i < n, f i = g i) : limbSum B n f = limbSum B n g :=
  Finset.sum_congr rfl fun i hi => by rw [h i (Finset.mem_range.mp hi)]

/-- Zero limbs on top do not count. -/
theorem limbSum_extend {m : ℕ} (hm : n ≤ m) (h : ∀ i, n ≤ i → i < m → f i = 0) :
    limbSum B m f = limbSum B n f := by
  refine (Finset.sum_subset (Finset.range_mono hm) fun i hi hni => ?_).symm
  rw [h i (by simpa using hni) (Finset.mem_range.mp hi), zero_mul]

/-- Values add up limb by limb. -/
theorem limbSum_add (B : ℤ) (n : ℕ) (f g : ℕ → ℤ) :
    limbSum B n (fun i => f i + g i) = limbSum B n f + limbSum B n g := by
  simp only [limbSum, add_mul, Finset.sum_add_distrib]

/-- Values are subtracted limb by limb. -/
theorem limbSum_sub (B : ℤ) (n : ℕ) (f g : ℕ → ℤ) :
    limbSum B n (fun i => f i - g i) = limbSum B n f - limbSum B n g := by
  simp only [limbSum, sub_mul, Finset.sum_sub_distrib]

/-- A factor of every limb is one of the value. -/
theorem limbSum_const_mul (B c : ℤ) (n : ℕ) (f : ℕ → ℤ) :
    limbSum B n (fun i => c * f i) = c * limbSum B n f := by
  simp only [limbSum, Finset.mul_sum, mul_assoc]

/-- Changing one limb changes the value by the difference at that limb's weight. -/
theorem limbSum_update {i : ℕ} (hi : i < n) (f : ℕ → ℤ) (v : ℤ) :
    limbSum B n (Function.update f i v) = limbSum B n f + (v - f i) * B ^ i := by
  have hmem : i ∈ Finset.range n := Finset.mem_range.mpr hi
  rw [limbSum, limbSum, ← Finset.add_sum_erase _ _ hmem,
    ← Finset.add_sum_erase (Finset.range n) (fun j => f j * B ^ j) hmem, Function.update_self]
  have hrest : ∑ j ∈ (Finset.range n).erase i, Function.update f i v j * B ^ j =
      ∑ j ∈ (Finset.range n).erase i, f j * B ^ j :=
    Finset.sum_congr rfl fun j hj => by rw [Function.update_of_ne (Finset.ne_of_mem_erase hj)]
  rw [hrest]
  ring

/-- A limb in front of the lower ones. -/
theorem limbSum_update_top (B : ℤ) (n : ℕ) (f : ℕ → ℤ) (v : ℤ) :
    limbSum B (n + 1) (Function.update f n v) = limbSum B n f + v * B ^ n := by
  rw [limbSum_succ, limbSum_congr fun k hk => Function.update_of_ne hk.ne v f, Function.update_self]

/-- A property of the limbs below the top one and of a new top limb. -/
theorem forall_update_top {P : ℤ → Prop} {v : ℤ} (hf : ∀ k < n, P (f k)) (hv : P v) :
    ∀ k < n + 1, P (Function.update f n v k) := by
  intro k hk
  rcases Nat.lt_succ_iff_lt_or_eq.mp hk with hlt | rfl
  · rw [Function.update_of_ne hlt.ne]
    exact hf k hlt
  · rwa [Function.update_self]

/-- Reduced limbs give a reduced number. -/
theorem limbSum_nonneg (hB : 0 ≤ B) (hf : ∀ i < n, 0 ≤ f i) : 0 ≤ limbSum B n f :=
  Finset.sum_nonneg fun i hi => mul_nonneg (hf i (Finset.mem_range.mp hi)) (pow_nonneg hB i)

/-- Limbs below the radix stay below its `n`-th power. -/
theorem limbSum_lt (hB : 0 < B) (hf : ∀ i < n, f i < B) : limbSum B n f < B ^ n := by
  induction n with
  | zero => simp
  | succ n ih =>
    have htop : f n * B ^ n ≤ (B - 1) * B ^ n :=
      mul_le_mul_of_nonneg_right (by have := hf n (by omega); omega) (pow_nonneg hB.le n)
    have hlow := ih fun i hi => hf i (by omega)
    rw [limbSum_succ, pow_succ]
    linarith

/-- The value is congruent to its least significant limb. -/
theorem limbSum_emod (hn : 0 < n) : limbSum B n f ≡ f 0 [ZMOD B] := by
  obtain ⟨m, rfl⟩ := Nat.exists_eq_succ_of_ne_zero hn.ne'
  rw [Nat.succ_eq_add_one, limbSum_succ']
  exact Int.modEq_iff_dvd.mpr ⟨-limbSum B m fun i => f (i + 1), by ring⟩

/-- Reduced limbs are determined by the value: this is the uniqueness of a radix expansion. -/
theorem limbs_unique (hB : 0 < B) (hf : ∀ i < n, 0 ≤ f i ∧ f i < B)
    (hg : ∀ i < n, 0 ≤ g i ∧ g i < B) (h : limbSum B n f = limbSum B n g) :
    ∀ i < n, f i = g i := by
  induction n generalizing f g with
  | zero => intro i hi; omega
  | succ n ih =>
    have h0 : f 0 = g 0 := by
      have hmod : f 0 ≡ g 0 [ZMOD B] :=
        (limbSum_emod (Nat.succ_pos n)).symm.trans (h ▸ limbSum_emod (Nat.succ_pos n))
      have hf0 := hf 0 (by omega)
      have hg0 := hg 0 (by omega)
      rwa [Int.ModEq, Int.emod_eq_of_lt hf0.1 hf0.2, Int.emod_eq_of_lt hg0.1 hg0.2] at hmod
    have htail : limbSum B n (fun i => f (i + 1)) = limbSum B n (fun i => g (i + 1)) := by
      rw [limbSum_succ', limbSum_succ', h0] at h
      exact mul_left_cancel₀ hB.ne' (add_left_cancel h)
    intro i hi
    cases i with
    | zero => exact h0
    | succ i =>
      exact ih (fun j hj => hf (j + 1) (by omega)) (fun j hj => hg (j + 1) (by omega)) htail i
        (by omega)

/-- The coefficient of limb `j` of one factor in column `i` of a product, when column `n` returns
to column `0` with weight `c`. -/
def wrapCoeff (c : ℤ) (n : ℕ) (f : ℕ → ℤ) (i j : ℕ) : ℤ :=
  if j ≤ i then f (i - j) else c * f (i + n - j)

/-- Shifting the limbs cyclically by `j` places multiplies by `B ^ j`, modulo `B ^ n - c`. -/
theorem limbSum_wrapCoeff {c p : ℤ} (hB : B ^ n ≡ c [ZMOD p]) (f : ℕ → ℤ) {j : ℕ} (hj : j < n) :
    limbSum B n (fun i => wrapCoeff c n f i j) ≡ B ^ j * limbSum B n f [ZMOD p] := by
  obtain ⟨k, rfl⟩ : ∃ k, n = k + 1 := ⟨n - 1, by omega⟩
  induction j with
  | zero => simp [wrapCoeff]
  | succ j ih =>
    have hlow : wrapCoeff c (k + 1) f 0 (j + 1) = c * f (k - j) := by
      rw [wrapCoeff, if_neg (by omega)]
      congr 2
      omega
    have hshift : ∀ i, wrapCoeff c (k + 1) f (i + 1) (j + 1) = wrapCoeff c (k + 1) f i j := by
      intro i
      simp only [wrapCoeff, Nat.succ_le_succ_iff, Nat.add_sub_add_right,
        show i + 1 + (k + 1) - (j + 1) = i + (k + 1) - j by omega]
    have htop : wrapCoeff c (k + 1) f k j = f (k - j) := by rw [wrapCoeff, if_pos (by omega)]
    have hsum : limbSum B (k + 1) (fun i => wrapCoeff c (k + 1) f i (j + 1)) =
        B * limbSum B (k + 1) (fun i => wrapCoeff c (k + 1) f i j) + f
        (k - j) * (c - B ^ (k + 1)) := by
      rw [limbSum_succ', hlow, limbSum_congr fun i _ => hshift i, limbSum_succ, htop]
      ring
    have hzero : f (k - j) * (c - B ^ (k + 1)) ≡ 0 [ZMOD p] := by
      simpa using (hB.symm.sub_right (B ^ (k + 1))).mul_left (f (k - j))
    calc limbSum B (k + 1) (fun i => wrapCoeff c (k + 1) f i (j + 1))
        ≡ B * (B ^ j * limbSum B (k + 1) f) + 0 [ZMOD p] := by
          rw [hsum]
          exact ((ih (by omega)).mul_left B).add hzero
      _ = B ^ (j + 1) * limbSum B (k + 1) f := by ring

/-- Schoolbook multiplication with wrapped columns is multiplication modulo `B ^ n - c`. -/
theorem limbSum_wrapProduct {c p : ℤ} (hB : B ^ n ≡ c [ZMOD p]) (f g : ℕ → ℤ) :
    limbSum B n (fun i => ∑ j ∈ Finset.range n, g j * wrapCoeff c n f i j) ≡
      limbSum B n g * limbSum B n f [ZMOD p] := by
  have hswap : limbSum B n (fun i => ∑ j ∈ Finset.range n, g j * wrapCoeff c n f i j) =
      ∑ j ∈ Finset.range n, g j * limbSum B n (fun i => wrapCoeff c n f i j) := by
    simp only [limbSum, Finset.sum_mul, Finset.mul_sum, mul_assoc]
    exact Finset.sum_comm
  rw [hswap, limbSum, Finset.sum_mul]
  refine Int.ModEq.sum fun j hj => ?_
  rw [mul_assoc]
  exact (limbSum_wrapCoeff hB f (Finset.mem_range.mp hj)).mul_left (g j)

end Sums

section Entries

variable {α : Type*} {n : ℕ}

/-- The limb sequence of an array, through the value of one entry; zero past the end. -/
def entries (val : α → ℤ) (x : Vector α n) (i : ℕ) : ℤ := if h : i < n then val x[i] else 0

/-- An entry of an array. -/
theorem entries_of_lt (val : α → ℤ) (x : Vector α n) {i : ℕ} (hi : i < n) :
    entries val x i = val x[i] := dif_pos hi

/-- Past its end an array counts as zeros. -/
theorem entries_of_ge (val : α → ℤ) (x : Vector α n) {i : ℕ} (hi : n ≤ i) :
    entries val x i = 0 := dif_neg (by omega)

/-- Writing an array entry updates the limb sequence at that index only. -/
@[simp] theorem entries_set (val : α → ℤ) (x : Vector α n) {i : ℕ} (hi : i < n) (v : α) :
    entries val (x.set i v hi) = Function.update (entries val x) i (val v) := by
  funext j
  by_cases hj : j < n
  · rw [entries_of_lt val _ hj, Vector.getElem_set]
    by_cases hij : i = j
    · subst hij; simp
    · rw [if_neg hij, Function.update_of_ne (Ne.symm hij), entries_of_lt val x hj]
  · rw [entries_of_ge val _ (by omega), Function.update_of_ne (by omega),
      entries_of_ge val x (by omega)]

/-- Arrays with the same entries are equal when the entry value is injective. -/
theorem entries_injective {val : α → ℤ} (hval : Function.Injective val) {x y : Vector α n}
    (h : ∀ i < n, entries val x i = entries val y i) : x = y := by
  ext i hi
  apply hval
  rw [← entries_of_lt val x hi, ← entries_of_lt val y hi, h i hi]

end Entries

section Bytes

variable {n : ℕ}

/-- The limbs of a byte array. -/
def byteLimbs (v : Vector UInt8 n) : ℕ → ℤ := entries (fun b => (b.toNat : ℤ)) v

/-- The integer a byte array denotes, the least significant byte first. -/
def leInt (v : Vector UInt8 n) : ℤ := limbSum (2 ^ 8) n (byteLimbs v)

/-- A limb of a byte string is one of its bytes. -/
theorem byteLimbs_getElem (v : Vector UInt8 n) {i : ℕ} (hi : i < n) : byteLimbs v i = v[i].toNat :=
  entries_of_lt _ _ hi

/-- Bytes are limbs in their range. -/
theorem byteLimbs_range (v : Vector UInt8 n) {i : ℕ} (hi : i < n) :
    0 ≤ byteLimbs v i ∧ byteLimbs v i < 2 ^ 8 := by
  have := (v[i]).toNat_lt
  rw [byteLimbs_getElem v hi]
  omega

/-- The number of a byte string is not negative. -/
theorem leInt_nonneg (v : Vector UInt8 n) : 0 ≤ leInt v :=
  limbSum_nonneg (by norm_num) fun _ hi => (byteLimbs_range v hi).1

/-- A string of `n` bytes is a number below `256 ^ n`. -/
theorem leInt_lt (v : Vector UInt8 n) : leInt v < (2 ^ 8) ^ n :=
  limbSum_lt (by norm_num) fun _ hi => (byteLimbs_range v hi).2

/-- A byte array is determined by the integer it denotes. -/
theorem leInt_injective : Function.Injective (leInt : Vector UInt8 n → ℤ) := by
  intro v w h
  refine entries_injective (fun a b hab => UInt8.toNat_inj.mp (Int.ofNat_inj.mp hab)) ?_
  exact limbs_unique (by norm_num) (fun _ hi => byteLimbs_range v hi)
    (fun _ hi => byteLimbs_range w hi) h

/-- Replacing a byte changes the integer at that byte's weight. -/
theorem leInt_set (v : Vector UInt8 n) {i : ℕ} (hi : i < n) (b : UInt8) :
    leInt (v.set i b) = leInt v + (b.toNat - v[i].toNat) * (2 ^ 8) ^ i := by
  rw [leInt, byteLimbs, entries_set, limbSum_update hi, entries_of_lt _ _ hi]
  rfl

/-- The first byte is the number modulo 256. -/
theorem leInt_emod (v : Vector UInt8 n) (hn : 0 < n) : leInt v % 2 ^ 8 = v[0].toNat := by
  have h := limbSum_emod (B := 2 ^ 8) (f := byteLimbs v) hn
  have hrange := byteLimbs_range v hn
  rw [Int.ModEq, Int.emod_eq_of_lt hrange.1 hrange.2, byteLimbs_getElem v hn] at h
  exact h

/-- The same integer as a natural number. -/
def leNat (v : Vector UInt8 n) : ℕ := (leInt v).toNat

/-- The natural number of a byte string is its integer. -/
@[simp] theorem leNat_cast (v : Vector UInt8 n) : (leNat v : ℤ) = leInt v :=
  Int.toNat_of_nonneg (leInt_nonneg v)

/-- A string of `n` bytes is a natural number below `256 ^ n`. -/
theorem leNat_lt (v : Vector UInt8 n) : leNat v < (2 ^ 8) ^ n := by
  have := leInt_lt v
  rw [← leNat_cast] at this
  exact_mod_cast this

/-- A byte array splits at an entry. -/
theorem leNat_split (v : Vector UInt8 n) {m : ℕ} (hm : m < n) :
    ∃ low high, leNat v = low + (2 ^ 8) ^ m * (v[m].toNat + 2 ^ 8 * high) ∧ low < (2 ^ 8) ^ m := by
  obtain ⟨k, rfl⟩ : ∃ k, n = m + (k + 1) := ⟨n - m - 1, by omega⟩
  obtain ⟨low, hlow⟩ := Int.eq_ofNat_of_zero_le (limbSum_nonneg (B := 2 ^ 8) (n := m) (by norm_num)
    fun i hi => (byteLimbs_range v (by omega : i < m + (k + 1))).1)
  obtain ⟨high, hhigh⟩ := Int.eq_ofNat_of_zero_le (limbSum_nonneg (B := 2 ^ 8) (n := k)
    (f := fun i => byteLimbs v (m + (i + 1))) (by norm_num)
    fun i hi => (byteLimbs_range v (by omega)).1)
  refine ⟨low, high, ?_, ?_⟩
  · apply Int.ofNat_inj.mp
    rw [leNat_cast, leInt, limbSum_add_len, limbSum_succ', hlow, hhigh,
      byteLimbs_getElem v (by omega)]
    push_cast
    rfl
  · have := limbSum_lt (B := 2 ^ 8) (n := m) (by norm_num)
      fun i hi => (byteLimbs_range v (by omega : i < m + (k + 1))).2
    rw [hlow] at this
    exact_mod_cast this

/-- Bit `i` of the number is bit `i % 8` of byte `i / 8`. -/
theorem leNat_testBit (v : Vector UInt8 n) {i : ℕ} (hi : i / 8 < n) :
    (leNat v).testBit i = v[i / 8].toNat.testBit (i % 8) := by
  obtain ⟨low, high, heq, hlow⟩ := leNat_split v hi
  have hpow : (2 : ℕ) ^ i = (2 ^ 8) ^ (i / 8) * 2 ^ (i % 8) := by
    rw [← pow_mul, ← pow_add, Nat.div_add_mod]
  have h8 : 2 ^ 8 * high = 2 ^ (i % 8) * (2 * (2 ^ (7 - i % 8) * high)) := by
    rw [← mul_assoc, ← mul_assoc, ← pow_succ, ← pow_add]
    congr 2
    omega
  rw [Nat.testBit_eq_decide_div_mod_eq, Nat.testBit_eq_decide_div_mod_eq, hpow,
    ← Nat.div_div_eq_div_mul, heq, Nat.add_mul_div_left _ _ (by positivity),
    Nat.div_eq_of_lt hlow, zero_add, h8, Nat.add_mul_div_left _ _ (by positivity),
    Nat.add_mul_mod_self_left]

/-- The bytes of a number, the least significant first. -/
def ofNatLE (n v : ℕ) : Vector UInt8 n := Vector.ofFn fun i => UInt8.ofNat (v / 2 ^ (8 * i.val))

/-- The bytes of a number that fits give the number back. -/
theorem leNat_ofNatLE {v : ℕ} (hv : v < 2 ^ (8 * n)) : leNat (ofNatLE n v) = v := by
  refine Nat.eq_of_testBit_eq fun i => ?_
  rcases Nat.lt_or_ge (i / 8) n with hi | hi
  · have hlow : i % 8 < 8 := Nat.mod_lt _ (by norm_num)
    rw [leNat_testBit _ hi, ofNatLE, Vector.getElem_ofFn, UInt8.toNat_ofNat',
      Nat.testBit_mod_two_pow, Nat.testBit_div_two_pow, decide_eq_true hlow, Bool.true_and,
      Nat.mod_add_div]
  · have hbig := (leNat_lt (ofNatLE n v)).trans_le
      ((pow_mul 2 8 n).symm.le.trans (Nat.pow_le_pow_right (by norm_num) (by omega : 8 * n ≤ i)))
    rw [Nat.testBit_lt_two_pow hbig,
      Nat.testBit_lt_two_pow (hv.trans_le (Nat.pow_le_pow_right (by norm_num) (by omega)))]

/-- The bitwise conjunction of byte arrays is that of the numbers. -/
theorem leNat_and (v w : Vector UInt8 n) :
    leNat (Vector.ofFn fun i => v[i] &&& w[i]) = leNat v &&& leNat w := by
  refine Nat.eq_of_testBit_eq fun i => ?_
  rcases Nat.lt_or_ge (i / 8) n with hi | hi
  · rw [Nat.testBit_and, leNat_testBit _ hi, leNat_testBit _ hi, leNat_testBit _ hi]
    simp
  · have hbig : ∀ x : Vector UInt8 n, (leNat x).testBit i = false := fun x => by
      refine Nat.testBit_lt_two_pow ((leNat_lt x).trans_le ?_)
      rw [← pow_mul]
      exact Nat.pow_le_pow_right (by norm_num) (by omega)
    rw [Nat.testBit_and, hbig, hbig, hbig, Bool.and_false]

/-- The integer a byte string denotes, the least significant byte first. -/
def leBytes (l : List UInt8) : ℤ := limbSum (2 ^ 8) l.length fun i => ((l.getD i 0).toNat : ℤ)

end Bytes

end Limbs
