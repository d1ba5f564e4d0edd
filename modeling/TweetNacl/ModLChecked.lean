import TweetNacl.Lib.CheckedInt
import TweetNacl.Lib.Indexing
import TweetNacl.ModL

/-!
# Reduction modulo the group order without overflow

The functions of the scalar arithmetic once more, with operations that stop where the exact result
is no signed 64-bit word. The products with the unsigned digits of the order are taken as signed
ones as well, so that a limb is always the integer that the source means. On the inputs of
`crypto_sign` and `crypto_sign_open` nothing stops.
-/

namespace TweetNacl

open Limbs MachineInt

namespace Ed25519

namespace Checked

section Indices

variable {i j k : ℕ} (hi : i < 32) (hj : j < 32) (hk : k < 20)
include hi

/-- A digit is one of the 64. -/
theorem digit_lt : i < 64 := by omega

/-- So is the one above it. -/
theorem nextDigit_lt : i + 1 < 64 := by omega

/-- So is the digit above a window. -/
theorem windowTop_lt : i + 20 < 64 := by omega

/-- So is the digit that a window clears. -/
theorem clearedDigit_lt : i + 32 < 64 := by omega

include hj in
/-- So is the column of a product. -/
theorem column_lt : i + j < 64 := by omega

include hk in
/-- So is a digit of a window. -/
theorem window_lt : i + k < 64 := by omega

omit hi in
include hk in
/-- A pass of a window reads the table inside its bounds. -/
theorem windowTable_lt : k < 32 := by omega

end Indices

section Code

/-- `x + (c - y * l)`. -/
def addSubMul (x c y : Int64) (l : UInt64) : Option Int64 := do
  let p ← CheckedInt.mul y l.toInt64
  let t ← CheckedInt.sub c p
  CheckedInt.add x t

/-- A pass of the inner loop that clears digit `i + 32`, with `j = i + k`. -/
def clearStep (i : ℕ) (hi : i < 32) (k : ℕ) (hk : k < 20) (s : CarryState) : Option CarryState := do
  have := clearedDigit_lt hi
  have := window_lt hi hk
  have := windowTable_lt hk
  let y ← CheckedInt.mul 16 s.x[i + 32]
  let xj ← addSubMul s.x[i + k] s.carry y LTable[k]
  let t ← CheckedInt.add xj 128
  let carry := t >>> 8
  let u ← CheckedInt.shiftLeft carry 8
  let xj ← CheckedInt.sub xj u
  some ⟨s.x.set (i + k) xj, carry⟩

/-- A pass of the first loop, which clears digit `i + 32`. -/
def clearDigit (i : ℕ) (hi : i < 32) (x : Vector Int64 64) : Option (Vector Int64 64) := do
  have := clearedDigit_lt hi
  have := windowTop_lt hi
  let s ← Loops.tryFold 20 (clearStep i hi) ⟨x, 0⟩
  let xj ← CheckedInt.add s.x[i + 20] s.carry
  let x := s.x.set (i + 20) xj
  some (x.set (i + 32) 0)

/-- A pass of the second loop. -/
def quotientStep (j : ℕ) (hj : j < 32) (s : CarryState) : Option CarryState := do
  have := digit_lt hj
  let xj ← addSubMul s.x[j] s.carry (s.x.nth 31 >>> 4) LTable[j]
  some ⟨s.x.set j (xj &&& 255), xj >>> 8⟩

/-- A pass of the third loop. -/
def correctStep (carry : Int64) (j : ℕ) (hj : j < 32) (x : Vector Int64 64) :
    Option (Vector Int64 64) := do
  have := digit_lt hj
  let p ← CheckedInt.mul carry LTable[j].toInt64
  let xj ← CheckedInt.sub x[j] p
  some (x.set j xj)

/-- A pass of the last loop, which writes byte `i` of the result. -/
def writeStep (i : ℕ) (hi : i < 32) (s : Vector Int64 64 × Vector UInt8 32) :
    Option (Vector Int64 64 × Vector UInt8 32) := do
  have := digit_lt hi
  have := nextDigit_lt hi
  let xj ← CheckedInt.add s.1[i + 1] (s.1[i] >>> 8)
  some (s.1.set (i + 1) xj, s.2.set i (s.1[i] &&& 255).toInt8.toUInt8)

/-- `modL`. -/
def modL (x : Vector Int64 64) : Option (Vector UInt8 32) := do
  let x ← Loops.tryFoldRev 32 clearDigit x
  let s ← Loops.tryFold 32 quotientStep ⟨x, 0⟩
  let x ← Loops.tryFold 32 (correctStep s.carry) s.x
  let s ← Loops.tryFold 32 writeStep (x, Vector.replicate 32 0)
  some s.2

/-- `reduce`. -/
def reduce (r : Vector UInt8 64) : Option (Vector UInt8 64) := do
  let low ← modL (Vector.ofFn fun i => (r.get i).toUInt64.toInt64)
  some (low ++ (Vector.replicate 32 0 : Vector UInt8 32))

/-- A pass of the inner loop over the products of bytes in `crypto_sign`. -/
def addProductStep (h d : Vector UInt8 64) (i : ℕ) (hi : i < 32) (j : ℕ) (hj : j < 32)
    (x : Vector Int64 64) :
    Option (Vector Int64 64) := do
  have := digit_lt hi
  have := digit_lt hj
  have := column_lt hi hj
  let p ← CheckedInt.mul h[i].toUInt64.toInt64 d[j].toUInt64.toInt64
  let xk ← CheckedInt.add x[i + j] p
  some (x.set (i + j) xk)

/-- The array `x` of `crypto_sign`. -/
def mulAdd (r h d : Vector UInt8 64) : Option (Vector Int64 64) :=
  Loops.tryFold 32 (fun i hi x => Loops.tryFold 32 (addProductStep h d i hi) x) (copyBytes r)

end Code

section Exact

/-- Converting the table to words keeps its values. -/
theorem LTable_toInt64 : ∀ j (hj : j < 32), LTable[j].toInt64.toInt = orderDigit j := by decide

/-- An `addSubMul` whose three results fit does not overflow. -/
theorem addSubMul_eq {x c y : Int64} {j : ℕ} (hj : j < 32) {a b p : ℤ} (hx : x.toInt = a)
    (hc : c.toInt = b) (hy : y.toInt * orderDigit j = p) (hp : InI64 p) (hd : InI64 (b - p))
    (h : InI64 (a + (b - p))) :
    addSubMul x c y LTable[j] = some (Ed25519.addSubMul x c y LTable[j]) := by
  have hl := LTable_toInt64 j hj
  have hmul : (y * LTable[j].toInt64).toInt = p := by
    rw [← hl] at hy
    rw [toInt_mul (hy ▸ hp), hy]
  have hsub : (c - y * LTable[j].toInt64).toInt = b - p := by
    rw [toInt_sub (by rwa [hc, hmul]), hc, hmul]
  simp only [addSubMul, CheckedInt.mul_eq rfl hl (hy ▸ hp), CheckedInt.sub_eq hc hmul hd,
    CheckedInt.add_eq hx hsub h, Option.bind_eq_bind, Option.bind_some]
  simp only [Ed25519.addSubMul, UInt64.toInt64_add, UInt64.toInt64_sub, UInt64.toInt64_mul,
    Int64.toInt64_toUInt64]

/-- A pass of the first loop does not overflow. -/
theorem clearStep_eq {x : ℕ → ℤ} {i k : ℕ} {u : ℤ} {s : CarryState} {hi : i < 32} {hk : k < 20}
    (h : ClearValues x i hi k hk s u) (hy : |x (i + 32)| ≤ 2 ^ 22)
    (hcarry : |s.carry.toInt| ≤ 2 ^ 30)
    (hu : |u| ≤ 2 ^ 40) : clearStep i hi k hk s = some (Ed25519.clearStep i hi k hk s) := by
  have hl := orderDigit_range k (by omega)
  have hproduct := abs_le.mp h.product
  rw [abs_le] at hy hcarry hu
  have hdigit := addSubMul_eq (x := s.x[i + k]) (c := s.carry) (y := 16 * s.x[i + 32])
    (show k < 32 by omega) rfl rfl
    (congrArg (· * orderDigit k) h.top16) (by constructor <;> omega) (by constructor <;> omega)
    (by rw [← h.u_eq]; constructor <;> omega)
  have hround :=
    CheckedInt.add_eq (b := 128) h.value rfl (by change InI64 (u + 128); constructor <;> omega)
  have hshift :=
    CheckedInt.shiftLeft_eq h.carry (show 8 < 63 by norm_num) (by constructor <;> omega)
  have hback := CheckedInt.sub_eq h.value h.back (by constructor <;> omega)
  simp only [clearStep, CheckedInt.mul_eq (show (16 : Int64).toInt = 16 from rfl) h.top
    (by constructor <;> omega), hdigit, hround, hshift, Option.bind_eq_bind, Option.bind_some]
  exact (congrArg (Option.bind · _) hback).trans rfl

/-- A pass of the first loop does not overflow. -/
theorem clearDigit_eq {v : ℤ} {i : ℕ} (hi : i < 32) {x : Vector Int64 64}
    (h : Cleared v (i + 1) (digits x)) :
    clearDigit i hi x = some (Ed25519.clearDigit i hi x) := by
  obtain ⟨a, b, hwindow, -, -⟩ := h.window hi
  have htop := h.bound (i + 20) (by omega)
  have hy := h.bound (i + 32) (by omega)
  have hloop := Loops.tryFold_eq (f := clearStep i hi) (g := Ed25519.clearStep i hi) (s := ⟨x, 0⟩)
    (fun k s => Clearing (digits x) i k (b k) s) hwindow.start
    (fun _ hk _ hs => hwindow.step hi hy hk hs) fun k hk s hs => ?_
  · have hclearing := hwindow.clearing hi hy
    rw [clearDigit, Ed25519.clearDigit, hloop]
    generalize Nat.fold 20 (Ed25519.clearStep i hi) ⟨x, 0⟩ = s at hclearing
    have hrest := hclearing.rest (i + 20) (by omega)
    have hcarry := abs_le.mp (hclearing.carry.trans (hwindow.fit 20 le_rfl))
    rw [digits_getElem _ (by omega)] at hrest
    rw [abs_le] at htop
    have hsum := CheckedInt.add_eq (b := s.carry) hrest rfl (by constructor <;> omega)
    simp only [hsum, Option.bind_eq_bind, Option.bind_some]
  · obtain ⟨u, hvalues, hu⟩ :=
      hs.values hi hk (hwindow.digit k hk) hy (hwindow.next k hk) (hwindow.fit _ (by omega))
    have hfit := hwindow.fit (k + 1) (by omega)
    exact clearStep_eq hvalues hy (hs.carry.trans (hwindow.fit k (by omega)))
      (hu.trans (by linarith))

/-- A pass of the second loop does not overflow. -/
theorem quotientStep_eq {x : ℕ → ℤ} {k : ℕ} {s : CarryState} (hk : k < 32)
    (hx : ∀ j < 32, |x j| ≤ 130) (h : Reducing x (x 31 / 2 ^ 4) k s) :
    quotientStep k hk s = some (Ed25519.quotientStep k hk s) := by
  have hxk := h.rest k le_rfl
  have hx31 := h.rest 31 (by omega)
  have hcarry := abs_le.mp h.carry
  have hdigit := abs_le.mp (hx k hk)
  have hproduct := abs_le.mp (quotient_product (hx 31 (by norm_num)) hk)
  rw [digits_getElem _ (by omega)] at hxk hx31
  have hq : (s.x[31] >>> 4).toInt = x 31 / 2 ^ 4 := by rw [toInt_shiftRight_four, hx31]
  have hvalue :=
    addSubMul_eq (c := s.carry) (y := s.x[31] >>> 4) hk hxk rfl (congrArg (· * orderDigit k) hq)
    (by constructor <;> omega) (by constructor <;> omega) (by constructor <;> omega)
  have hnth : s.x.nth 31 = s.x[31] := rfl
  simp only [quotientStep, hnth, hvalue, Option.bind_eq_bind, Option.bind_some,
    Ed25519.quotientStep]

/-- A pass of the correction does not overflow. -/
theorem correctStep_eq {x : ℕ → ℤ} {c : Int64} {k : ℕ} {x' : Vector Int64 64} (hk : k < 32)
    (hc : |c.toInt| ≤ 1) (hx : 0 ≤ x k ∧ x k < 2 ^ 8) (h : Correcting x c.toInt k x') :
    correctStep c k hk x' = some (Ed25519.correctStep c k hk x') := by
  have hl := LTable_toInt64 k hk
  have hproduct := abs_le.mp (carry_product hc hk)
  have hcurrent := h k
  rw [if_neg (by omega), digits_getElem _ (by omega)] at hcurrent
  have hmul : (c * LTable[k].toInt64).toInt = c.toInt * orderDigit k := by
    rw [toInt_mul (by rw [hl]; constructor <;> omega), hl]
  simp only [correctStep,
    CheckedInt.mul_eq rfl hl (show InI64 (c.toInt * orderDigit k) by constructor <;> omega),
    CheckedInt.sub_eq hcurrent hmul (by constructor <;> omega), Option.bind_eq_bind,
    Option.bind_some, Ed25519.correctStep, UInt64.toInt64_sub, UInt64.toInt64_mul,
    Int64.toInt64_toUInt64]

/-- A pass of the last loop does not overflow. -/
theorem writeStep_eq {x : ℕ → ℤ} {i : ℕ} {s : Vector Int64 64 × Vector UInt8 32} (hi : i < 32)
    (hx : |x (i + 1)| ≤ 2 ^ 10) (h : Writing x i s) :
    writeStep i hi s = some (Ed25519.writeStep i hi s) := by
  have hcurrent := abs_le.mp h.current
  have hnext := h.rest (i + 1) (by omega)
  rw [digits_getElem _ (by omega)] at hcurrent hnext
  rw [abs_le] at hx
  have hsum := CheckedInt.add_eq (b := s.1[i] >>> 8) hnext (toInt_shiftRight_eight _)
    (by constructor <;> omega)
  simp only [writeStep, hsum, Option.bind_eq_bind, Option.bind_some, Ed25519.writeStep]

/-- `modL` does not overflow on digits up to `2 ^ 21`. -/
theorem modL_eq {x : Vector Int64 64} (hx : ∀ j < 64, |digits x j| ≤ 2 ^ 21) :
    modL x = some (Ed25519.modL x) := by
  have hclear := Loops.tryFoldRev_eq (f := clearDigit) (g := Ed25519.clearDigit) (s := x)
    (fun i x' => Cleared (limbSum (2 ^ 8) 64 (digits x)) i (digits x')) (.start hx)
    (fun _ hi _ hx' => hx'.step hi) fun _ hi _ hx' => clearDigit_eq hi hx'
  have hcleared := clearDigits_spec hx
  generalize hx₁ : Nat.foldRev 32 Ed25519.clearDigit x = x₁ at hclear hcleared
  have hsmall := hcleared.small
  have hquotient := Loops.tryFold_eq (f := quotientStep) (g := Ed25519.quotientStep) (s := ⟨x₁, 0⟩)
    (Reducing (digits x₁) (digits x₁ 31 / 2 ^ 4)) (reducing_start x₁ _)
    (fun _ hk _ hs => hs.step hk hsmall) fun _ hk _ hs => quotientStep_eq hk hsmall hs
  have hreduce := reducing_loop hsmall
  generalize hs : Nat.fold 32 Ed25519.quotientStep ⟨x₁, 0⟩ = s at hquotient hreduce
  obtain ⟨-, -, -, hcases⟩ := hreduce.carry_cases hsmall rfl
  have hc := carry_le_one hcases
  have hcorrect :=
    Loops.tryFold_eq (f := correctStep s.carry) (g := Ed25519.correctStep s.carry) (s := s.x)
    (Correcting (digits s.x) s.carry.toInt) (.start s.x _)
      (fun _ hk _ h => h.step hc hk (hreduce.digit _ hk))
    fun _ hk _ h => correctStep_eq hk hc (hreduce.digit _ hk) h
  have hbound := corrected_bound hreduce hc (hcleared.cleared 32 (by norm_num) (by norm_num))
  generalize hx₂ : Nat.fold 32 (Ed25519.correctStep s.carry) s.x = x₂ at hcorrect hbound
  have hwrite :=
    Loops.tryFold_eq (f := writeStep) (g := Ed25519.writeStep) (s := (x₂, Vector.replicate 32 0))
    (Writing (digits x₂)) (writing_start x₂ (hbound 0 (by norm_num)))
      (fun i hi _ hs => hs.step hi (hbound _ (by omega)))
    fun i hi _ hs => writeStep_eq hi (hbound _ (by omega)) hs
  simp only [modL, hclear, hquotient, hcorrect, hwrite, Option.bind_eq_bind, Option.bind_some,
    Ed25519.modL, hx₁, hs, hx₂]

/-- A step of the product does not overflow. -/
theorem addProductStep_eq {h d : Vector UInt8 64} {i j : ℕ} {x : ℕ → ℤ} {x' : Vector Int64 64}
    (hi : i < 32) (hj : j < 32) (hx : 0 ≤ x (i + j) ∧ x (i + j) ≤ 2 ^ 22)
    (hrow : AddingRow h d i x j x') :
    addProductStep h d i hi j hj x' = some (Ed25519.addProductStep h d i hi j hj x') := by
  have hnext := hrow.digit_next hi hj
  have hprod := byteLimbs_product h d hi hj
  rw [digits_getElem _ (by omega)] at hnext
  rw [byteLimbs_getElem h (by omega), byteLimbs_getElem d (by omega)] at hprod
  have hmul := CheckedInt.mul_eq (toInt_ofByte h[i]) (toInt_ofByte d[j]) (by constructor <;> omega)
  have hvalue := toInt_mul (a := h[i].toUInt64.toInt64) (b := d[j].toUInt64.toInt64)
    (by rw [toInt_ofByte, toInt_ofByte]; constructor <;> omega)
  rw [toInt_ofByte, toInt_ofByte] at hvalue
  simp only [addProductStep, hmul, CheckedInt.add_eq hnext hvalue (by constructor <;> omega),
    Option.bind_eq_bind, Option.bind_some, Ed25519.addProductStep, UInt64.toInt64_add,
    UInt64.toInt64_mul, Int64.toInt64_toUInt64]

/-- The array `x` of `crypto_sign` is built without overflow. -/
theorem mulAdd_eq (r h d : Vector UInt8 64) : mulAdd r h d = some (Ed25519.mulAdd r h d) := by
  rw [mulAdd, mulAdd_eq_fold]
  refine Loops.tryFold_eq (Adding r h d) (.start r h d)
    (fun _ hi _ hx => hx.step hi) fun i hi x hx => ?_
  have hdigit : ∀ j < 32, 0 ≤ digits x (i + j) ∧ digits x (i + j) ≤ 2 ^ 22 := fun j hj => by
    have := hx.le hi.le (show i + j < 64 by omega)
    omega
  rw [addProductRow_eq_fold]
  exact Loops.tryFold_eq (AddingRow h d i (digits x)) (.start h d i x)
    (fun j hj _ hrow => hrow.step hi hj (hdigit j hj))
    fun j hj _ hrow => addProductStep_eq hi hj (hdigit j hj) hrow

/-- `reduce` does not overflow, whatever its bytes. -/
theorem reduce_eq (r : Vector UInt8 64) : reduce r = some (Ed25519.reduce r) := by
  have hdigits : ∀ j < 64, |digits (Vector.ofFn fun i => (r.get i).toUInt64.toInt64) j| ≤ 2 ^ 21 :=
      fun j hj => by
    have := byteLimbs_range r hj
    have hbytes : digits (Vector.ofFn fun i => (r.get i).toUInt64.toInt64) j = byteLimbs r j :=
      digits_bytes r hj
    rw [hbytes, abs_le]
    constructor <;> omega
  simp only [reduce, modL_eq hdigits, Option.bind_eq_bind, Option.bind_some]
  rfl

end Exact

end Checked

/-- A remainder is below the group order. -/
theorem emod_order_lt (z : ℤ) : z % L < L := Int.emod_lt_of_pos z (by norm_num [L])

/-- `reduce` and the scalar arithmetic of `crypto_sign` leave the least nonnegative residue, and no
limb overflows on the way. -/
theorem scalar_reduction :
    (∀ r : Vector UInt8 64, Checked.reduce r = some (reduce r) ∧
      leInt (low32 (reduce r)) = leInt r % L ∧
      leInt (low32 (reduce r)) < L) ∧
    ∀ r h d : Vector UInt8 64, Checked.mulAdd r h d = some (mulAdd r h d) ∧
      (∀ k < 64, digits (mulAdd r h d) k = (if k < 32 then byteLimbs r k else 0) +
        ∑ i ∈ Finset.range 32, ∑ j ∈ Finset.range 32,
        if i + j = k then byteLimbs h i * byteLimbs d j else 0) ∧
      Checked.modL (mulAdd r h d) = some (modL (mulAdd r h d)) ∧
      leInt (modL (mulAdd r h d)) = limbSum (2 ^ 8) 64 (digits (mulAdd r h d)) % L ∧
      leInt (modL (mulAdd r h d)) < L := by
  refine ⟨fun r => ⟨Checked.reduce_eq r, leInt_reduce r, ?_⟩, fun r h d => ?_⟩
  · rw [leInt_reduce]
    exact emod_order_lt _
  · have hdigits : ∀ j < 64, |digits (mulAdd r h d) j| ≤ 2 ^ 21 :=
      fun j hj => digits_mulAdd_le r h d hj
    refine ⟨Checked.mulAdd_eq r h d, (adding_mulAdd r h d).digit, Checked.modL_eq hdigits,
      leInt_modL hdigits, ?_⟩
    rw [leInt_modL hdigits]
    exact emod_order_lt _

end Ed25519

end TweetNacl
