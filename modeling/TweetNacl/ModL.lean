import TweetNacl.EdwardsCurve
import TweetNacl.Lib.Limbs
import TweetNacl.Lib.Loops
import TweetNacl.Lib.MachineInt

/-!
# Reduction modulo the group order

`modL` takes 64 signed digits in radix `2 ^ 8`. It clears the digits from 63 down to 32, each by
subtracting a multiple of the group order that moves it twelve places down, with a balanced carry
pass over twenty digits. What is left is within a few units of a digit everywhere, so one
multiple, estimated from digit 31, and one conditional addition of the order reach the least
nonnegative residue.
-/

namespace TweetNacl

open Limbs MachineInt

namespace Ed25519

section Code

/-- The table `L`: the bytes of the group order. -/
def LTable : Vector UInt64 32 :=
  #v[0xed, 0xd3, 0xf5, 0x5c, 0x1a, 0x63, 0x12, 0x58, 0xd6, 0x9c, 0xf7, 0xa2, 0xde, 0xf9, 0xde, 0x14,
    0, 0, 0, 0, 0, 0, 0, 0, 0, 0, 0, 0, 0, 0, 0, 0x10]

/-- `x + (c - y * l)`, where the unsigned operand `l` makes the arithmetic unsigned. -/
def addSubMul (x c y : Int64) (l : UInt64) : Int64 :=
  (x.toUInt64 + (c.toUInt64 - y.toUInt64 * l)).toInt64

/-- The digits and the carry of a loop of `modL`. -/
structure CarryState where
  x : Vector Int64 64
  carry : Int64

/-- A pass of the inner loop that clears digit `i + 32`, with `j = i + k`. -/
def clearStep (i : ℕ) (hi : i < 32) (k : ℕ) (hk : k < 20) (s : CarryState) : CarryState :=
  let xj := addSubMul s.x[i + k] s.carry (16 * s.x[i + 32]) LTable[k]
  let carry := (xj + 128) >>> 8
  ⟨s.x.set (i + k) (xj - (carry <<< 8)), carry⟩

/-- A pass of the first loop, which clears digit `i + 32`. -/
def clearDigit (i : ℕ) (hi : i < 32) (x : Vector Int64 64) : Vector Int64 64 :=
  let s := Nat.fold 20 (clearStep i hi) ⟨x, 0⟩
  let x := s.x.set (i + 20) (s.x[i + 20] + s.carry)
  x.set (i + 32) 0

/-- A pass of the second loop. -/
def quotientStep (j : ℕ) (hj : j < 32) (s : CarryState) : CarryState :=
  let xj := addSubMul s.x[j] s.carry (s.x[31] >>> 4) LTable[j]
  ⟨s.x.set j (xj &&& 255), xj >>> 8⟩

/-- A pass of the third loop. -/
def correctStep (carry : Int64) (j : ℕ) (hj : j < 32) (x : Vector Int64 64) : Vector Int64 64 :=
  x.set j (x[j].toUInt64 - carry.toUInt64 * LTable[j]).toInt64

/-- A pass of the last loop, which writes byte `i` of the result. -/
def writeStep (i : ℕ) (hi : i < 32) (s : Vector Int64 64 × Vector UInt8 32) :
    Vector Int64 64 × Vector UInt8 32 :=
  (s.1.set (i + 1) (s.1[i + 1] + (s.1[i] >>> 8)), s.2.set i (s.1[i] &&& 255).toInt8.toUInt8)

/-- `modL`: the bytes written to `r`. -/
def modL (x : Vector Int64 64) : Vector UInt8 32 :=
  let x := Nat.foldRev 32 clearDigit x
  let s := Nat.fold 32 quotientStep ⟨x, 0⟩
  let x := Nat.fold 32 (correctStep s.carry) s.x
  (Nat.fold 32 writeStep (x, Vector.replicate 32 0)).2

/-- `reduce`: the 64 bytes of `r` afterwards. -/
def reduce (r : Vector UInt8 64) : Vector UInt8 64 :=
  modL (Vector.ofFn fun i => r[i].toUInt64.toInt64) ++ (Vector.replicate 32 0 : Vector UInt8 32)

/-- The first 32 bytes of an array. -/
def low32 (r : Vector UInt8 64) : Vector UInt8 32 := Vector.ofFn fun i => r[i.val]

/-- The loop of `crypto_sign` that adds byte `i` of `h`, multiplied by the bytes of `d`, to `x`. -/
def addProductRow (h d : Vector UInt8 64) (i : ℕ) (hi : i < 32) (x : Vector Int64 64) :
    Vector Int64 64 :=
  Nat.fold 32 (fun j _ (x : Vector Int64 64) =>
    x.set (i + j) (x[i + j].toUInt64 + h[i].toUInt64 * d[j].toUInt64).toInt64) x

/-- The array `x` of `crypto_sign`: the digits of `r + h * d`. -/
def mulAdd (r h d : Vector UInt8 64) : Vector Int64 64 :=
  let x : Vector Int64 64 := Vector.replicate 64 0
  let x := Nat.fold 32 (fun i _ (x : Vector Int64 64) => x.set i r[i].toUInt64.toInt64) x
  Nat.fold 32 (addProductRow h d) x

end Code

section Digits

/-- The digits as integers. -/
def digits (x : Vector Int64 64) : ℕ → ℤ := entries Int64.toInt x

/-- Digit `j` is the integer in word `j`. -/
theorem digits_getElem (x : Vector Int64 64) {j : ℕ} (hj : j < 64) : digits x j = x[j].toInt :=
  entries_of_lt _ _ hj

/-- Setting a word updates its digit. -/
@[simp] theorem digits_set (x : Vector Int64 64) {j : ℕ} (hj : j < 64) (v : Int64) :
    digits (x.set j v hj) = Function.update (digits x) j v.toInt := entries_set _ _ hj v

/-- The digits of the group order. -/
def orderDigit : ℕ → ℤ := entries (fun l : UInt64 => (l.toNat : ℤ)) LTable

/-- The table holds bytes. -/
theorem orderDigit_range : ∀ j < 32, 0 ≤ orderDigit j ∧ orderDigit j < 2 ^ 8 := by decide

/-- The table holds the group order. -/
theorem limbSum_orderDigit : limbSum (2 ^ 8) 32 orderDigit = L := by decide

/-- Below digit 31 the order has only sixteen digits. -/
theorem limbSum_orderDigit_low : limbSum (2 ^ 8) 20 orderDigit = L - 16 * (2 ^ 8) ^ 31 := by decide

/-- The mixed expression is exact where the result fits. -/
theorem addSubMul_toInt {x c y : Int64} {j : ℕ} (hj : j < 32)
    (h : InI64 (x.toInt + (c.toInt - y.toInt * orderDigit j))) :
    (addSubMul x c y LTable[j]).toInt = x.toInt + (c.toInt - y.toInt * orderDigit j) := by
  have hdigit : ∀ j (hj : j < 32), LTable[j].toInt64.toInt = orderDigit j := by decide
  have hl := hdigit j hj
  have heq : addSubMul x c y LTable[j] = x + (c - y * LTable[j].toInt64) := by
    simp only [addSubMul, UInt64.toInt64_add, UInt64.toInt64_sub, UInt64.toInt64_mul,
      Int64.toInt64_toUInt64]
  rw [heq, Int64.toInt_add, Int64.toInt_sub, Int64.toInt_mul, hl, Int.sub_bmod_bmod,
    Int.add_bmod_bmod, bmod_of_inI64 h]

end Digits

section Clear

/-- The carry passes that clear digit `i + 32` of `x`, after `k` digits. -/
structure Clearing (x : ℕ → ℤ) (i k : ℕ) (bound : ℤ) (s : CarryState) : Prop where
  digit : ∀ j, i ≤ j → j < i + k → -128 ≤ digits s.x j ∧ digits s.x j ≤ 127
  rest : ∀ j, j < i ∨ i + k ≤ j → digits s.x j = x j
  carry : |s.carry.toInt| ≤ bound
  sum : limbSum (2 ^ 8) 64 (digits s.x) + s.carry.toInt * (2 ^ 8) ^ (i + k) =
    limbSum (2 ^ 8) 64 x - 16 * x (i + 32) * (2 ^ 8) ^ i * limbSum (2 ^ 8) k orderDigit

/-- The integers that a pass computes: `u` is the digit before its carry is taken out. -/
structure ClearValues (x : ℕ → ℤ) (i : ℕ) (hi : i < 32) (k : ℕ) (hk : k < 20) (s : CarryState)
    (u : ℤ) : Prop where
  u_eq : u = s.x[i + k].toInt + (s.carry.toInt - 16 * x (i + 32) * orderDigit k)
  product : |16 * x (i + 32) * orderDigit k| ≤ 2 ^ 26 * orderDigit k
  top : s.x[i + 32].toInt = x (i + 32)
  top16 : (16 * s.x[i + 32]).toInt = 16 * x (i + 32)
  value : (addSubMul s.x[i + k] s.carry (16 * s.x[i + 32]) LTable[k]).toInt = u
  carry : ((addSubMul s.x[i + k] s.carry (16 * s.x[i + 32]) LTable[k] + 128) >>> 8).toInt =
    (u + 128) / 2 ^ 8
  back : (((addSubMul s.x[i + k] s.carry (16 * s.x[i + 32]) LTable[k] + 128) >>> 8) <<< 8).toInt =
    (u + 128) / 2 ^ 8 * 2 ^ 8

/-- The integers of a pass fit their words, with the carry bounded by `c`. -/
theorem Clearing.values {x : ℕ → ℤ} {i k : ℕ} {a b c : ℤ} {s : CarryState} (hi : i < 32)
    (hk : k < 20) (h : Clearing x i k b s) (hx : |x (i + k)| ≤ a) (hy : |x (i + 32)| ≤ 2 ^ 22)
    (hc : a + b + 2 ^ 26 * orderDigit k + 128 ≤ 256 * c) (hfit : c ≤ 2 ^ 30) :
    ∃ u, ClearValues x i hi k hk s u ∧ |u| ≤ 256 * c - 128 := by
  have hcarry := h.carry
  have hl := orderDigit_range k (by omega)
  have hxk := h.rest (i + k) (by omega)
  have hxy := h.rest (i + 32) (by omega)
  rw [digits_getElem _ (by omega)] at hxk hxy
  obtain ⟨u, hu⟩ : ∃ u, u = s.x[i + k].toInt + (s.carry.toInt - 16 * x (i + 32) * orderDigit k) :=
    ⟨_, rfl⟩
  have hmul : |16 * x (i + 32) * orderDigit k| ≤ 2 ^ 26 * orderDigit k := by
    rw [abs_mul, abs_of_nonneg hl.1, abs_mul]
    refine mul_le_mul_of_nonneg_right ?_ hl.1
    norm_num
    omega
  rw [← hxk] at hx
  have hubound : |u| ≤ 256 * c - 128 := by
    rw [abs_le] at hx hcarry hmul ⊢
    constructor <;> omega
  have hy16 : (16 * s.x[i + 32]).toInt = 16 * x (i + 32) := by
    rw [abs_le] at hy
    have h16 : (16 : Int64).toInt = 16 := rfl
    rw [toInt_mul (by rw [h16, hxy]; constructor <;> omega), h16, hxy]
  have hurange := abs_le.mp hubound
  have hval : (addSubMul s.x[i + k] s.carry (16 * s.x[i + 32]) LTable[k]).toInt = u := by
    rw [addSubMul_toInt (by omega) (by rw [hy16, ← hu]; constructor <;> omega), hy16, hu]
  have h128 : (128 : Int64).toInt = 128 := rfl
  have hshift : ((addSubMul s.x[i + k] s.carry (16 * s.x[i + 32]) LTable[k] + 128) >>> 8).toInt =
      (u + 128) / 2 ^ 8 := by
    rw [toInt_shiftRight_eight, toInt_add (by rw [hval, h128]; constructor <;> omega), hval, h128]
  have hback :
    (((addSubMul s.x[i + k] s.carry (16 * s.x[i + 32]) LTable[k] + 128) >>> 8) <<< 8).toInt =
      (u + 128) / 2 ^ 8 * 2 ^ 8 := by
    rw [toInt_shiftLeft_eight (by rw [hshift]; constructor <;> omega), hshift]
  exact ⟨u, ⟨hu, hmul, hxy, hy16, hval, hshift, hback⟩, hubound⟩

/-- One pass leaves a balanced digit, and the carry into the next one. -/
theorem Clearing.step {x : ℕ → ℤ} {i k : ℕ} {a b c : ℤ} {s : CarryState} (hi : i < 32) (hk : k < 20)
    (h : Clearing x i k b s) (hx : |x (i + k)| ≤ a) (hy : |x (i + 32)| ≤ 2 ^ 22)
    (hc : a + b + 2 ^ 26 * orderDigit k + 128 ≤ 256 * c) (hfit : c ≤ 2 ^ 30) :
    Clearing x i (k + 1) c (clearStep i hi k hk s) := by
  obtain ⟨u, hvalues, hubound⟩ := h.values hi hk hx hy hc hfit
  have hval := hvalues.value
  have hshift := hvalues.carry
  have hback := hvalues.back
  have hu := hvalues.u_eq
  rw [abs_le] at hubound
  have hlimbs : digits (clearStep i hi k hk s).x =
      Function.update (digits s.x) (i + k) (u - (u + 128) / 2 ^ 8 * 2 ^ 8) := by
    rw [clearStep, digits_set, toInt_sub (by rw [hval, hback]; constructor <;> omega), hval, hback]
  refine ⟨fun j hij hj => ?_, fun j hj => ?_, ?_, ?_⟩
  · rw [hlimbs]
    by_cases hlt : j < i + k
    · rw [Function.update_of_ne (by omega)]
      exact h.digit j hij hlt
    · obtain rfl : j = i + k := by omega
      rw [Function.update_self]
      constructor <;> omega
  · rw [hlimbs, Function.update_of_ne (by omega)]
    exact h.rest j (by omega)
  · change |((addSubMul _ _ _ _ + 128) >>> 8).toInt| ≤ c
    rw [hshift, abs_le]
    constructor <;> omega
  · change _ + ((addSubMul _ _ _ _ + 128) >>> 8).toInt * _ = _
    rw [hlimbs, hshift, limbSum_update (by omega), limbSum_succ _ k orderDigit,
      digits_getElem _ (show i + k < 64 by omega)]
    have hsum := h.sum
    have hpow : ((2 : ℤ) ^ 8) ^ (i + (k + 1)) = (2 ^ 8) ^ i * (2 ^ 8) ^ k * 2 ^ 8 := by
      rw [← pow_add, ← pow_succ, Nat.add_assoc]
    rw [pow_add] at hsum
    rw [hpow, pow_add]
    linear_combination hsum + (2 ^ 8) ^ i * (2 ^ 8) ^ k * hu

/-- Bounds `a` on the digits that a pass goes through and `b` on its carries. -/
structure Window (x : ℕ → ℤ) (i : ℕ) (a b : ℕ → ℤ) : Prop where
  digit : ∀ k < 20, |x (i + k)| ≤ a k
  zero : 0 ≤ b 0
  fit : ∀ k ≤ 20, b k ≤ 2 ^ 30
  next : ∀ k < 20, a k + b k + 2 ^ 26 * orderDigit k + 128 ≤ 256 * b (k + 1)

/-- Before the first pass nothing is carried. -/
theorem Window.start {x : Vector Int64 64} {i : ℕ} {a b : ℕ → ℤ} (hx : Window (digits x) i a b) :
    Clearing (digits x) i 0 (b 0) ⟨x, 0⟩ :=
  ⟨fun j hij hj => by omega, fun j _ => rfl, hx.zero, by simp⟩

/-- A pass moves the bound of the carry along the window. -/
theorem Window.step {x : ℕ → ℤ} {i : ℕ} (hi : i < 32) {a b : ℕ → ℤ} (hx : Window x i a b)
    (hy : |x (i + 32)| ≤ 2 ^ 22) {k : ℕ} (hk : k < 20) {s : CarryState}
    (h : Clearing x i k (b k) s) :
    Clearing x i (k + 1) (b (k + 1)) (clearStep i hi k hk s) :=
  h.step hi hk (hx.digit k hk) hy (hx.next k hk) (hx.fit _ (by omega))

/-- The twenty passes that clear one digit. -/
theorem Window.clearing {x : Vector Int64 64} {i : ℕ} (hi : i < 32) {a b : ℕ → ℤ}
    (hx : Window (digits x) i a b) (hy : |digits x (i + 32)| ≤ 2 ^ 22) :
    Clearing (digits x) i 20 (b 20) (Nat.fold 20 (clearStep i hi) ⟨x, 0⟩) :=
  Loops.fold_invariant (fun k s => Clearing (digits x) i k (b k) s) hx.start fun _ hk _ hs =>
    hx.step hi hy hk hs

/-- A pass of the first loop clears a digit without changing the number modulo the order; the carry
`c` out of the twenty digits below it is bounded by the bounds `a` on those digits. -/
theorem clearDigit_spec {x : Vector Int64 64} {i : ℕ} (hi : i < 32) {a b : ℕ → ℤ}
    (hx : Window (digits x) i a b)
    (htop : |digits x (i + 20)| ≤ 2 ^ 22) (hy : |digits x (i + 32)| ≤ 2 ^ 22) :
    ∃ f c, digits (clearDigit i hi x) = Function.update
      (Function.update f (i + 20) (digits x (i + 20) + c)) (i + 32) 0 ∧
      |c| ≤ b 20 ∧ (∀ j, i ≤ j → j < i + 20 → -128 ≤ f j ∧ f j ≤ 127) ∧
      (∀ j, j < i ∨ i + 20 ≤ j → f j = digits x j) ∧
      limbSum (2 ^ 8) 64 (digits (clearDigit i hi x)) =
        limbSum (2 ^ 8) 64 (digits x) - 16 * digits x (i + 32) * (2 ^ 8) ^ i * L := by
  have hloop := hx.clearing hi hy
  generalize hs : Nat.fold 20 (clearStep i hi) ⟨x, 0⟩ = s at hloop
  have hcarry := abs_le.mp (hloop.carry.trans (hx.fit 20 le_rfl))
  have htop' := hloop.rest (i + 20) (by omega)
  have hy' := hloop.rest (i + 32) (by omega)
  rw [abs_le] at htop
  have hadd : (s.x[i + 20] + s.carry).toInt = digits x (i + 20) + s.carry.toInt := by
    rw [digits_getElem _ (by omega)] at htop'
    rw [toInt_add (by rw [htop']; constructor <;> omega), htop']
  have hdigits : digits (clearDigit i hi x) = Function.update (Function.update (digits s.x) (i + 20)
      (digits x (i + 20) + s.carry.toInt)) (i + 32) 0 := by
    simp only [clearDigit, hs, digits_set, hadd]
    rfl
  refine ⟨digits s.x, s.carry.toInt, hdigits, hloop.carry, hloop.digit, hloop.rest, ?_⟩
  have hsum := hloop.sum
  rw [limbSum_orderDigit_low] at hsum
  rw [hdigits, limbSum_update (by omega), limbSum_update (by omega),
    Function.update_of_ne (by omega), htop', hy']
  have hpow : ((2 : ℤ) ^ 8) ^ (i + 32) = (2 ^ 8) ^ i * (2 ^ 8) ^ 31 * 2 ^ 8 := by
    rw [← pow_add, ← pow_succ]
  rw [hpow]
  linear_combination hsum

/-- The number `v` modulo the order, as digits that are cleared from `i + 32` on. The digits the
last pass has gone through are balanced, and those it will not touch again are balanced up to a
carry. -/
structure Cleared (v : ℤ) (i : ℕ) (x : ℕ → ℤ) : Prop where
  bound : ∀ j < 64, |x j| ≤ 2 ^ 22
  input : i = 32 → ∀ j < 64, |x j| ≤ 2 ^ 21
  cleared : ∀ j < 64, i + 32 ≤ j → x j = 0
  balanced : i < 32 → ∀ j, i ≤ j → j < i + 20 → -128 ≤ x j ∧ x j ≤ 127
  settled : i < 32 → ∀ j, i + 20 ≤ j → j ≤ 50 → |x j| ≤ 130
  value : limbSum (2 ^ 8) 64 x ≡ v [ZMOD L]

/-- Bounds on the carries of a pass. -/
def carryBound (k : ℕ) : ℤ := if k ≤ 16 then 2 ^ 27 else if k = 17 then 2 ^ 20 else 2 ^ 15

/-- The same when the digits from 16 on are balanced. -/
def balancedCarryBound (k : ℕ) : ℤ :=
  if k ≤ 16 then 2 ^ 27 else if k = 17 then 2 ^ 20 else if k = 18 then 2 ^ 13
  else if k = 19 then 34 else 2

/-- The carry out of a pass is small, and the digits it goes through are balanced in all passes but
the first. -/
theorem Cleared.window {v : ℤ} {i : ℕ} (hi : i < 32) {x : ℕ → ℤ} (h : Cleared v (i + 1) x) :
    ∃ a b, Window x i a b ∧ b 20 ≤ 2 ^ 15 ∧ (i < 31 → b 20 ≤ 2) := by
  by_cases hlast : i = 31
  · exact ⟨fun _ => 2 ^ 22, carryBound,
      ⟨fun k hk => h.bound _ (by omega), by decide, by decide, by decide⟩,
      by decide, fun h => by omega⟩
  · have hwindow : ∀ k < 20, |x (i + k)| ≤ if k = 0 then 2 ^ 22 else 128 := fun k hk => by
      split
      next h0 => exact h.bound _ (by omega)
      next h0 =>
        have := h.balanced (by omega) (i + k) (by omega) (by omega)
        rw [abs_le]
        constructor <;> omega
    exact ⟨_, balancedCarryBound,
      ⟨hwindow, by decide, by decide, by decide⟩, by decide, fun _ => by decide⟩

/-- The digit that takes the carry out of a pass. -/
theorem Cleared.carried {v : ℤ} {i : ℕ} (hi : i < 32) {x : ℕ → ℤ} (h : Cleared v (i + 1) x) {c : ℤ}
    (hc : |c| ≤ 2 ^ 15) (hc' : i < 31 → |c| ≤ 2) : |x (i + 20) + c| ≤ 2 ^ 22 ∧
    (i < 31 → |x (i + 20) + c| ≤ 130) := by
  rw [abs_le] at hc
  by_cases hlast : i = 31
  · have hinput := h.input (by omega) (i + 20) (by omega)
    rw [abs_le] at hinput ⊢
    constructor <;> omega
  · have hbalanced := h.balanced (by omega) (i + 20) (by omega) (by omega)
    have hsmall : |x (i + 20) + c| ≤ 130 := by
      have := abs_le.mp (hc' (by omega))
      rw [abs_le]
      constructor <;> omega
    exact ⟨hsmall.trans (by norm_num), fun _ => hsmall⟩

/-- A pass clears the next digit. -/
theorem Cleared.step {v : ℤ} {i : ℕ} (hi : i < 32) {x : Vector Int64 64}
    (h : Cleared v (i + 1) (digits x)) : Cleared v i (digits (clearDigit i hi x)) := by
  obtain ⟨a, b, hwindow, hb, hb'⟩ := h.window hi
  obtain ⟨f, c, hdigits, hcb, hbal, hrest, hsum⟩ :=
    clearDigit_spec hi hwindow (h.bound _ (by omega)) (h.bound _ (by omega))
  obtain ⟨htop, htop'⟩ := h.carried hi (hcb.trans hb) fun hlast => hcb.trans (hb' hlast)
  have hother : ∀ j, j ≠ i + 20 → j ≠ i + 32 → digits (clearDigit i hi x) j = f j :=
      fun j h20 h32 => by
    rw [hdigits, Function.update_of_ne h32, Function.update_of_ne h20]
  have h20 : digits (clearDigit i hi x) (i + 20) = digits x (i + 20) + c := by
    rw [hdigits, Function.update_of_ne (by omega), Function.update_self]
  have h32 : digits (clearDigit i hi x) (i + 32) = 0 := by
    rw [hdigits, Function.update_self]
  refine ⟨fun j hj => ?_,
    fun h => by omega, fun j hj hij => ?_, fun _ j hij hj => ?_, fun _ j hij hj => ?_, ?_⟩
  · by_cases hj20 : j = i + 20
    · rw [hj20, h20]
      exact htop
    · by_cases hj32 : j = i + 32
      · rw [hj32, h32]
        norm_num
      · rw [hother j hj20 hj32]
        by_cases hwin : i ≤ j ∧ j < i + 20
        · have := hbal j hwin.1 hwin.2
          rw [abs_le]
          constructor <;> omega
        · rw [hrest j (by omega)]
          exact h.bound j hj
  · by_cases hj32 : j = i + 32
    · rw [hj32, h32]
    · rw [hother j (by omega) hj32, hrest j (by omega)]
      exact h.cleared j hj (by omega)
  · rw [hother j (by omega) (by omega)]
    exact hbal j hij hj
  · by_cases hj20 : j = i + 20
    · rw [hj20, h20]
      exact htop' (by omega)
    · by_cases hj32 : j = i + 32
      · rw [hj32, h32]
        norm_num
      · rw [hother j hj20 hj32, hrest j (by omega)]
        exact h.settled (by omega) j (by omega) hj
  · rw [hsum]
    refine Int.ModEq.trans ?_ h.value
    refine Int.modEq_iff_dvd.mpr ⟨16 * digits x (i + 32) * (2 ^ 8) ^ i, by ring⟩

/-- Before the first loop no digit is cleared. -/
theorem Cleared.start {x : ℕ → ℤ} (hx : ∀ j < 64, |x j| ≤ 2 ^ 21) :
    Cleared (limbSum (2 ^ 8) 64 x) 32 x :=
  ⟨fun j hj => (hx j hj).trans (by norm_num), fun _ => hx,
    fun j hj hij => by omega, fun h => by omega,
    fun h => by omega, Int.ModEq.refl _⟩

/-- The first loop leaves 32 almost balanced digits. -/
theorem clearDigits_spec {x : Vector Int64 64} (hx : ∀ j < 64, |digits x j| ≤ 2 ^ 21) :
    Cleared (limbSum (2 ^ 8) 64 (digits x)) 0 (digits (Nat.foldRev 32 clearDigit x)) :=
  Loops.foldRev_invariant
    (fun i x' => Cleared (limbSum (2 ^ 8) 64 (digits x)) i (digits x')) (.start hx)
    fun _ hi _ hx' => hx'.step hi

end Clear

section Finish

/-- The subtraction of `q` times the order, after `k` digits. -/
structure Reducing (x : ℕ → ℤ) (q : ℤ) (k : ℕ) (s : CarryState) : Prop where
  digit : ∀ j < k, 0 ≤ digits s.x j ∧ digits s.x j < 2 ^ 8
  rest : ∀ j, k ≤ j → digits s.x j = x j
  carry : |s.carry.toInt| ≤ 2 ^ 20
  sum : limbSum (2 ^ 8) 32 (digits s.x) + s.carry.toInt * (2 ^ 8) ^ k =
    limbSum (2 ^ 8) 32 x - q * limbSum (2 ^ 8) k orderDigit

/-- The bound of a product of the quotient with a digit of the order. -/
theorem quotient_product {x : ℤ} (hx : |x| ≤ 130) {k : ℕ} (hk : k < 32) :
    |x / 2 ^ 4 * orderDigit k| ≤ 9 * 2 ^ 8 := by
  have hl := orderDigit_range k hk
  rw [abs_le] at hx
  rw [abs_mul]
  exact mul_le_mul (abs_le.mpr (by constructor <;> omega)) (abs_le.mpr (by constructor <;> omega))
    (abs_nonneg _) (by norm_num)

/-- A pass of the second loop. -/
theorem Reducing.step {x : ℕ → ℤ} {k : ℕ} {s : CarryState} (hk : k < 32)
    (hx : ∀ j < 32, |x j| ≤ 130) (h : Reducing x (x 31 / 2 ^ 4) k s) :
    Reducing x (x 31 / 2 ^ 4) (k + 1) (quotientStep k hk s) := by
  have hcarry := abs_le.mp h.carry
  have hl := orderDigit_range k hk
  have hxk := h.rest k le_rfl
  have hx31 := h.rest 31 (by omega)
  have htop := abs_le.mp (hx 31 (by norm_num))
  have hxk' := abs_le.mp (hx k hk)
  rw [digits_getElem _ (by omega)] at hxk hx31
  have hq : (s.x[31] >>> 4).toInt = x 31 / 2 ^ 4 := by rw [toInt_shiftRight_four, hx31]
  obtain ⟨q, hqdef⟩ : ∃ q, q = x 31 / 2 ^ 4 := ⟨_, rfl⟩
  obtain ⟨u, hu⟩ : ∃ u, u = x k + (s.carry.toInt - q * orderDigit k) := ⟨_, rfl⟩
  have hmul := abs_le.mp (quotient_product (hx 31 (by norm_num)) hk)
  rw [← hqdef] at hmul
  have hval : (addSubMul s.x[k] s.carry (s.x[31] >>> 4) LTable[k]).toInt = u := by
    rw [addSubMul_toInt hk (by rw [hxk, hq, ← hqdef, ← hu]; constructor <;> omega), hxk, hq,
      ← hqdef, hu]
  have hmask : (addSubMul s.x[k] s.carry (s.x[31] >>> 4) LTable[k] &&& 255).toInt = u % 2 ^ 8 := by
    rw [← hval]
    exact toInt_and_ff _
  have hshift : (addSubMul s.x[k] s.carry (s.x[31] >>> 4) LTable[k] >>> 8).toInt = u / 2 ^ 8 := by
    rw [toInt_shiftRight_eight, hval]
  have hlimbs : digits (quotientStep k hk s).x = Function.update (digits s.x) k (u % 2 ^ 8) := by
    rw [quotientStep, digits_set, hmask]
  refine ⟨fun j hj => ?_, fun j hj => ?_, ?_, ?_⟩
  · rw [hlimbs]
    by_cases hlt : j < k
    · rw [Function.update_of_ne (by omega)]
      exact h.digit j hlt
    · obtain rfl : j = k := by omega
      rw [Function.update_self]
      constructor <;> omega
  · rw [hlimbs, Function.update_of_ne (by omega)]
    exact h.rest j (by omega)
  · change |(addSubMul _ _ _ _ >>> 8).toInt| ≤ _
    rw [hshift, abs_le]
    constructor <;> omega
  · change _ + (addSubMul _ _ _ _ >>> 8).toInt * _ = _
    have hsum := h.sum
    have hdiv : u % 2 ^ 8 = u - 2 ^ 8 * (u / 2 ^ 8) := by omega
    rw [hlimbs, hshift, limbSum_update hk, limbSum_succ _ k orderDigit, h.rest k le_rfl, hdiv,
      pow_succ ((2 : ℤ) ^ 8) k]
    rw [← hqdef] at hsum ⊢
    linear_combination hsum + (2 ^ 8) ^ k * hu

/-- The bound of a product of the carry with a digit of the order. -/
theorem carry_product {c : ℤ} (hc : |c| ≤ 1) {k : ℕ} (hk : k < 32) :
    |c * orderDigit k| ≤ 1 * 2 ^ 8 := by
  have hl := orderDigit_range k hk
  rw [abs_mul]
  exact mul_le_mul hc (abs_le.mpr (by constructor <;> omega)) (abs_nonneg _) (by norm_num)

/-- The subtraction of `c` times the order digit by digit, after `k` digits. -/
def Correcting (x : ℕ → ℤ) (c : ℤ) (k : ℕ) (x' : Vector Int64 64) : Prop :=
  ∀ j, digits x' j = if j < k then x j - c * orderDigit j else x j

/-- Before the correction nothing is subtracted. -/
theorem Correcting.start (x : Vector Int64 64) (c : ℤ) : Correcting (digits x) c 0 x := fun j => by
  rw [if_neg (by omega)]

/-- A pass of the correction. -/
theorem Correcting.step {x : ℕ → ℤ} {c : Int64} (hc : |c.toInt| ≤ 1) {k : ℕ} (hk : k < 32)
    (hx : 0 ≤ x k ∧ x k < 2 ^ 8) {x' : Vector Int64 64} (h : Correcting x c.toInt k x') :
    Correcting x c.toInt (k + 1) (correctStep c k hk x') := fun j => by
  have hcur := h k
  rw [if_neg (by omega), digits_getElem _ (by omega)] at hcur
  have hmul := abs_le.mp (carry_product hc hk)
  have hval : (x'[k].toUInt64 - c.toUInt64 * LTable[k]).toInt64.toInt =
      x k - c.toInt * orderDigit k := by
    have h := addSubMul_toInt (x := x'[k]) (c := 0) (y := c) hk
      (by rw [hcur]; change InI64 (_ + (0 - _)); constructor <;> omega)
    rw [hcur] at h
    change _ = _ + (0 - _) at h
    rw [show x k - c.toInt * orderDigit k =
      x k + (0 - c.toInt * orderDigit k) by ring, ← h, addSubMul]
    congr 2
    rw [show (0 : Int64).toUInt64 = 0 from rfl, UInt64.zero_sub, UInt64.sub_eq_add_neg]
  rw [correctStep, digits_set, hval]
  by_cases hjk : j = k
  · rw [hjk, Function.update_self, if_pos (by omega)]
  · rw [Function.update_of_ne hjk, h]
    by_cases hlt : j < k
    · rw [if_pos hlt, if_pos (by omega)]
    · rw [if_neg hlt, if_neg (by omega)]

/-- The third loop adds or subtracts the order digit by digit. -/
theorem correct_spec {x : Vector Int64 64} {c : Int64} (hc : |c.toInt| ≤ 1)
    (hx : ∀ j < 32, 0 ≤ digits x j ∧ digits x j < 2 ^ 8) :
    Correcting (digits x) c.toInt 32 (Nat.fold 32 (correctStep c) x) :=
  Loops.fold_invariant (Correcting (digits x) c.toInt) (.start x _) fun _ hk _ h =>
    h.step hc hk (hx _ hk)

/-- The bytes written so far and the digit they carry into make up the low part of the number. -/
structure Writing (x : ℕ → ℤ) (i : ℕ) (s : Vector Int64 64 × Vector UInt8 32) : Prop where
  rest : ∀ j, i < j → digits s.1 j = x j
  current : |digits s.1 i| ≤ 2 ^ 20
  sum : limbSum (2 ^ 8) i (byteLimbs s.2) + digits s.1 i * (2 ^ 8) ^ i = limbSum (2 ^ 8) (i + 1) x

/-- A pass of the last loop, which writes a byte. -/
theorem Writing.step {x : ℕ → ℤ} {i : ℕ} {s : Vector Int64 64 × Vector UInt8 32} (hi : i < 32)
    (hx : |x (i + 1)| ≤ 2 ^ 10) (h : Writing x i s) : Writing x (i + 1) (writeStep i hi s) := by
  have hcur := abs_le.mp h.current
  have hnext := h.rest (i + 1) (by omega)
  have hx' := abs_le.mp hx
  obtain ⟨u, hu⟩ : ∃ u, u = digits s.1 i := ⟨_, rfl⟩
  rw [← hu] at hcur
  have hui : s.1[i].toInt = u := by rw [hu, digits_getElem _ (by omega)]
  have hcarry : (s.1[i + 1] + (s.1[i] >>> 8)).toInt = x (i + 1) + u / 2 ^ 8 := by
    have hget := hnext
    rw [digits_getElem _ (by omega)] at hget
    have hshift : (s.1[i] >>> 8).toInt = u / 2 ^ 8 := by rw [toInt_shiftRight_eight, hui]
    rw [toInt_add (by rw [hget, hshift]; constructor <;> omega), hget, hshift]
  have hbyte : ((s.1[i] &&& 255).toInt8.toUInt8.toNat : ℤ) = u % 2 ^ 8 := by
    rw [toNat_truncate, show (255 : Int64) = 0xff by rfl, toInt_and_ff, hui]
    omega
  have hdigits : digits (writeStep i hi s).1 = Function.update (digits s.1) (i + 1)
      (x (i + 1) + u / 2 ^ 8) := by
    rw [writeStep, digits_set, hcarry]
  have hbytes : byteLimbs (writeStep i hi s).2 = Function.update (byteLimbs s.2) i (u % 2 ^ 8) := by
    rw [writeStep, byteLimbs, entries_set, hbyte]
    rfl
  refine ⟨fun j hj => ?_, ?_, ?_⟩
  · rw [hdigits, Function.update_of_ne (by omega)]
    exact h.rest j (by omega)
  · rw [hdigits, Function.update_self, abs_le]
    constructor <;> omega
  · have hsum := h.sum
    have hlow : limbSum (2 ^ 8) i (Function.update (byteLimbs s.2) i (u % 2 ^ 8)) =
        limbSum (2 ^ 8) i (byteLimbs s.2) :=
      limbSum_congr fun j hj => Function.update_of_ne (by omega) _ _
    have hdiv : u % 2 ^ 8 = u - 2 ^ 8 * (u / 2 ^ 8) := by omega
    rw [hdigits, hbytes, Function.update_self, limbSum_succ, hlow, Function.update_self,
      limbSum_succ _ (i + 1) x, hdiv, pow_succ ((2 : ℤ) ^ 8) i]
    rw [← hu] at hsum
    linear_combination hsum

/-- The multiple estimated from digit 31 leaves a remainder of at most the order in absolute
value. -/
theorem quotient_range {x : ℕ → ℤ} (hx : ∀ j < 32, |x j| ≤ 130) :
    -L < limbSum (2 ^ 8) 32 x - x 31 / 2 ^ 4 * L ∧ limbSum (2 ^ 8) 32 x - x 31 / 2 ^ 4 * L < L := by
  have htop := abs_le.mp (hx 31 (by norm_num))
  have hlow : |limbSum (2 ^ 8) 31 x| ≤ limbSum (2 ^ 8) 31 fun _ => 130 := by
    refine (Finset.abs_sum_le_sum_abs _ _).trans (Finset.sum_le_sum fun j hj => ?_)
    rw [abs_mul, abs_of_pos (by positivity : (0 : ℤ) < (2 ^ 8) ^ j)]
    have := Finset.mem_range.mp hj
    exact mul_le_mul_of_nonneg_right (hx j (by omega)) (by positivity)
  have hgeom : limbSum (2 ^ 8) 31 (fun _ => 130) ≤ 3 * 2 ^ 246 := by decide +kernel
  have hlow' := abs_le.mp (hlow.trans hgeom)
  rw [limbSum_succ _ 31, L]
  generalize limbSum (2 ^ 8) 31 x = low at hlow'
  push_cast
  constructor <;> omega

/-- The digits that the first loop leaves are within a few units of a digit. -/
theorem Cleared.small {v : ℤ} {x : ℕ → ℤ} (h : Cleared v 0 x) : ∀ j < 32, |x j| ≤ 130 :=
  fun j hj => by
  by_cases hlow : j < 20
  · have := h.balanced (by norm_num) j (by omega) (by omega)
    rw [abs_le]
    constructor <;> omega
  · exact h.settled (by norm_num) j (by omega) (by omega)

/-- Before the second loop nothing is subtracted. -/
theorem reducing_start (x : Vector Int64 64) (q : ℤ) : Reducing (digits x) q 0 ⟨x, 0⟩ :=
  ⟨fun j hj => by omega, fun j _ => rfl, by change |(0 : ℤ)| ≤ _; norm_num, by simp⟩

/-- All passes of the second loop. -/
theorem reducing_loop {x : Vector Int64 64} (hx : ∀ j < 32, |digits x j| ≤ 130) :
    Reducing (digits x) (digits x 31 / 2 ^ 4) 32 (Nat.fold 32 quotientStep ⟨x, 0⟩) :=
  Loops.fold_invariant (Reducing (digits x) (digits x 31 / 2 ^ 4))
    (reducing_start x _) fun _ hk _ hs => hs.step hk hx

/-- The second loop leaves a number below the order, and a carry that tells whether the order has to
be added. -/
theorem Reducing.carry_cases {x : ℕ → ℤ} {s : CarryState} (h : Reducing x (x 31 / 2 ^ 4) 32 s)
    (hx : ∀ j < 32, |x j| ≤ 130) {w : ℤ} (hw : w = limbSum (2 ^ 8) 32 x - x 31 / 2 ^ 4 * L) :
    -L < w ∧ w < L ∧ limbSum (2 ^ 8) 32 (digits s.x) + s.carry.toInt * (2 ^ 8) ^ 32 = w ∧
      (s.carry.toInt = 0 ∧ 0 ≤ w ∨ s.carry.toInt = -1 ∧ w < 0) := by
  have hsum := h.sum
  rw [limbSum_orderDigit, ← hw] at hsum
  have hwrange := quotient_range hx
  rw [← hw] at hwrange
  have hlow0 := limbSum_nonneg (B := 2 ^ 8) (n := 32) (by norm_num) fun j hj => (h.digit j hj).1
  have hlow1 := limbSum_lt (B := 2 ^ 8) (n := 32) (by norm_num) fun j hj => (h.digit j hj).2
  have hL : (L : ℤ) = 2 ^ 252 + 27742317777372353535851937790883648493 := by norm_num [L]
  refine ⟨hwrange.1, hwrange.2, hsum, ?_⟩
  omega

/-- A carry of 0 or -1 is at most one in size. -/
theorem carry_le_one {c w : ℤ} (h : c = 0 ∧ 0 ≤ w ∨ c = -1 ∧ w < 0) : |c| ≤ 1 := by
  rcases h with ⟨h, -⟩ | ⟨h, -⟩ <;> rw [h] <;> norm_num

/-- The digits that the third loop leaves, for the carry of the second one. -/
theorem corrected_bound {x : ℕ → ℤ} {q : ℤ} {s : CarryState} (h : Reducing x q 32 s)
    (hc : |s.carry.toInt| ≤ 1) (hzero : x 32 = 0) :
    ∀ j ≤ 32, |digits (Nat.fold 32 (correctStep s.carry) s.x) j| ≤ 2 ^ 10 := fun j hj => by
  rw [correct_spec hc h.digit]
  split
  next hlt =>
    have hd := h.digit j hlt
    have hmul := abs_le.mp (carry_product hc hlt)
    rw [abs_le]
    constructor <;> omega
  next hge =>
    rw [h.rest j (by omega), show j = 32 by omega, hzero]
    norm_num

/-- Before the last loop nothing is written. -/
theorem writing_start (x : Vector Int64 64) (hx : |digits x 0| ≤ 2 ^ 10) :
    Writing (digits x) 0 (x, Vector.replicate 32 0) :=
  ⟨fun j _ => rfl, hx.trans (by norm_num), by simp [limbSum_succ]⟩

/-- `modL` computes the least nonnegative residue modulo the group order. -/
theorem leInt_modL {x : Vector Int64 64} (hx : ∀ j < 64, |digits x j| ≤ 2 ^ 21) :
    leInt (modL x) = limbSum (2 ^ 8) 64 (digits x) % L := by
  have hclear := clearDigits_spec hx
  generalize hx₁ : Nat.foldRev 32 clearDigit x = x₁ at hclear
  have hreduce := reducing_loop hclear.small
  generalize hs : Nat.fold 32 quotientStep ⟨x₁, 0⟩ = s at hreduce
  obtain ⟨w, hw⟩ : ∃ w, w = limbSum (2 ^ 8) 32 (digits x₁) - digits x₁ 31 / 2 ^ 4 * L := ⟨_, rfl⟩
  obtain ⟨hw0, hw1, hsum, hcarry⟩ := hreduce.carry_cases hclear.small hw
  have hc := carry_le_one hcarry
  have hzero : digits x₁ 32 = 0 := hclear.cleared 32 (by norm_num) (by norm_num)
  have hcorrect := correct_spec hc hreduce.digit
  have hbound := corrected_bound hreduce hc hzero
  generalize hx₂ : Nat.fold 32 (correctStep s.carry) s.x = x₂ at hcorrect hbound
  have hsum₂ : limbSum (2 ^ 8) 32 (digits x₂) = limbSum (2 ^ 8) 32
      (digits s.x) - s.carry.toInt * L := by
    rw [← limbSum_orderDigit, ← limbSum_const_mul, ← limbSum_sub]
    exact limbSum_congr fun j hj => by rw [hcorrect, if_pos hj]
  have hwrite :=
    Loops.fold_invariant (f := writeStep) (Writing (digits x₂))
    (writing_start x₂ (hbound 0 (by norm_num))) fun i hi s hs => hs.step hi (hbound _ (by omega))
  have hresult : modL x = (Nat.fold 32 writeStep (x₂, Vector.replicate 32 0)).2 := by
    simp only [modL, hx₁, hs, hx₂]
  rw [hresult]
  generalize Nat.fold 32 writeStep (x₂, Vector.replicate 32 0) = out at hwrite
  have hout : leInt out.2 + digits out.1 32 * (2 ^ 8) ^ 32 = limbSum (2 ^ 8) 32 (digits x₂) := by
    have h := hwrite.sum
    rw [limbSum_succ _ 32, hcorrect 32, if_neg (by norm_num), hreduce.rest 32 le_rfl, hzero,
      zero_mul, add_zero] at h
    exact h
  have hout0 := leInt_nonneg out.2
  have hout1 := leInt_lt out.2
  have hL : (L : ℤ) = 2 ^ 252 + 27742317777372353535851937790883648493 := by norm_num [L]
  rw [hsum₂] at hout
  have hexact : leInt out.2 = w - s.carry.toInt * L := by
    rcases hcarry with ⟨h, hsign⟩ | ⟨h, hsign⟩ <;> rw [h] at hsum hout ⊢ <;> omega
  have hrange : 0 ≤ leInt out.2 ∧ leInt out.2 < L := by
    rcases hcarry with ⟨h, hsign⟩ | ⟨h, hsign⟩ <;> rw [h] at hexact <;> omega
  have hmod : leInt out.2 ≡ limbSum (2 ^ 8) 64 (digits x) [ZMOD L] := by
    refine Int.ModEq.trans ?_ hclear.value
    rw [limbSum_extend (n := 32) (by norm_num) fun j h32 h64 =>
      hclear.cleared j h64 (by omega), hexact, hw]
    exact Int.modEq_iff_dvd.mpr ⟨digits x₁ 31 / 2 ^ 4 + s.carry.toInt, by ring⟩
  rw [← hmod, Int.emod_eq_of_lt hrange.1 hrange.2]

end Finish

section Scalars

/-- The lower half keeps its bytes. -/
theorem getElem_low32 (r : Vector UInt8 64) {i : ℕ} (hi : i < 32) : (low32 r)[i] = r[i] := by
  simp [low32]

/-- The digits that `reduce` passes to `modL`. -/
theorem digits_bytes (r : Vector UInt8 64) {j : ℕ} (hj : j < 64) :
    digits (Vector.ofFn fun i => r[i].toUInt64.toInt64) j = byteLimbs r j := by
  rw [digits_getElem _ hj, byteLimbs_getElem _ hj, Vector.getElem_ofFn, toInt_ofByte]
  rfl

/-- The first half of the result of `reduce` is the residue of its argument. -/
theorem leInt_reduce (r : Vector UInt8 64) : leInt (low32 (reduce r)) = leInt r % L := by
  have hlow : low32 (reduce r) = modL (Vector.ofFn fun i => r[i].toUInt64.toInt64) := by
    refine Vector.ext fun i hi => ?_
    rw [getElem_low32 _ hi, reduce]
    exact Vector.getElem_append_left hi
  rw [hlow, leInt_modL fun j hj => ?_, limbSum_congr fun j hj => digits_bytes r hj, leInt]
  rw [digits_bytes r hj, abs_le]
  have := byteLimbs_range r hj
  constructor <;> omega

/-- A pass of the inner loop over the products of bytes. -/
def addProductStep (h d : Vector UInt8 64) (i : ℕ) (hi : i < 32) (j : ℕ) (hj : j < 32)
    (x : Vector Int64 64) :
    Vector Int64 64 :=
  x.set (i + j) (x[i + j].toUInt64 + h[i].toUInt64 * d[j].toUInt64).toInt64

/-- A row of the product is a fold of its steps. -/
theorem addProductRow_eq_fold (h d : Vector UInt8 64) (i : ℕ) (hi : i < 32) (x : Vector Int64 64) :
    addProductRow h d i hi x = Nat.fold 32 (addProductStep h d i hi) x := rfl

/-- The bounds of a product of two bytes. -/
theorem byteLimbs_product (h d : Vector UInt8 64) {i j : ℕ} (hi : i < 32) (hj : j < 32) :
    0 ≤ byteLimbs h i * byteLimbs d j ∧ byteLimbs h i * byteLimbs d j ≤ 255 * 255 := by
  have hh := byteLimbs_range h (show i < 64 by omega)
  have hd := byteLimbs_range d (show j < 64 by omega)
  exact ⟨mul_nonneg hh.1 hd.1, mul_le_mul (by omega) (by omega) hd.1 (by norm_num)⟩

/-- A step of a row adds one product to one column. -/
theorem digits_addProductStep (h d : Vector UInt8 64) {i j : ℕ} (hi : i < 32) (hj : j < 32)
    {x : Vector Int64 64} (hx : 0 ≤ digits x (i + j) ∧ digits x (i + j) ≤ 2 ^ 22) :
    digits (addProductStep h d i hi j hj x) =
      Function.update (digits x) (i + j) (digits x (i + j) + byteLimbs h i * byteLimbs d j) := by
  have hprod := byteLimbs_product h d hi hj
  rw [addProductStep, digits_set]
  rw [digits_getElem _ (by omega)] at hx ⊢
  rw [byteLimbs_getElem h (by omega), byteLimbs_getElem d (by omega)] at hprod ⊢
  rw [UInt64.toInt64_add, UInt64.toInt64_mul, Int64.toInt64_toUInt64, Int64.toInt_add,
    Int64.toInt_mul, toInt_ofByte, toInt_ofByte, Int.add_bmod_bmod,
    bmod_of_inI64 (by constructor <;> omega)]

/-- A row of the product in progress: each digit has grown by the product of bytes with its weight,
if any. -/
structure AddingRow (h d : Vector UInt8 64) (i : ℕ) (x : ℕ → ℤ) (j : ℕ)
    (x' : Vector Int64 64) : Prop where
  digit : ∀ k < 64, digits x' k = x k + ∑ j' ∈ Finset.range j,
    if i + j' = k then byteLimbs h i * byteLimbs d j' else 0
  sum : limbSum (2 ^ 8) 64 (digits x') =
    limbSum (2 ^ 8) 64 x + byteLimbs h i * (2 ^ 8) ^ i * limbSum (2 ^ 8) j (byteLimbs d)

/-- A row starts with the columns that it was given. -/
theorem AddingRow.start (h d : Vector UInt8 64) (i : ℕ) (x : Vector Int64 64) :
    AddingRow h d i (digits x) 0 x :=
  ⟨fun k _ => by rw [Finset.sum_range_zero, add_zero], by simp⟩

section Row

variable {h d : Vector UInt8 64} {i j : ℕ} {x : ℕ → ℤ} {b : ℤ} {x' : Vector Int64 64}

/-- The digit that the next pass changes has not been changed yet. -/
theorem AddingRow.digit_next (hrow : AddingRow h d i x j x') (hi : i < 32) (hj : j < 32) :
    digits x' (i + j) = x (i + j) := by
  rw [hrow.digit _ (by omega), Finset.sum_eq_zero fun j' hj' => ?_, add_zero]
  have := Finset.mem_range.mp hj'
  rw [if_neg (by omega)]

/-- A step of a row. -/
theorem AddingRow.step (hrow : AddingRow h d i x j x') (hi : i < 32) (hj : j < 32)
    (hx : 0 ≤ x (i + j) ∧ x (i + j) ≤ 2 ^ 22) :
    AddingRow h d i x (j + 1) (addProductStep h d i hi j hj x') := by
  have hnext := hrow.digit_next hi hj
  have hstep := digits_addProductStep h d hi hj (by rwa [hnext])
  refine ⟨fun k hk => ?_, ?_⟩
  · rw [hstep, Finset.sum_range_succ]
    by_cases hkj : i + j = k
    · subst hkj
      rw [Function.update_self, if_pos rfl, ← add_assoc, ← hrow.digit _ hk]
    · rw [Function.update_of_ne (Ne.symm hkj), if_neg hkj, add_zero, hrow.digit k hk]
  · rw [hstep, limbSum_update (by omega), hrow.sum, limbSum_succ _ j, pow_add]
    ring

/-- In a row each digit grows by at most one product of bytes. -/
theorem AddingRow.range (hrow : AddingRow h d i x j x') (hi : i < 32) (hj : j ≤ 32)
    (hx : ∀ k < 64, 0 ≤ x k ∧ x k ≤ b) {k : ℕ} (hk : k < 64) :
    0 ≤ digits x' k ∧ digits x' k ≤ b + 255 * 255 := by
  have hxk := hx k hk
  rw [hrow.digit k hk]
  by_cases hmem : i ≤ k ∧ k - i < j
  · rw [Finset.sum_eq_single_of_mem (k - i) (Finset.mem_range.mpr hmem.2) fun j' _ hne =>
      if_neg (by omega), if_pos (by omega)]
    have := byteLimbs_product h d hi (show k - i < 32 by omega)
    omega
  · rw [Finset.sum_eq_zero fun j' hj' => ?_]
    · omega
    · have := Finset.mem_range.mp hj'
      exact if_neg (by omega)

end Row

/-- One row of the product. -/
theorem addProductRow_spec (h d : Vector UInt8 64) {i : ℕ} (hi : i < 32) {x : Vector Int64 64}
    (hx : ∀ k < 64, 0 ≤ digits x k ∧ digits x k ≤ 2 ^ 22) :
    AddingRow h d i (digits x) 32 (addProductRow h d i hi x) := by
  rw [addProductRow_eq_fold]
  exact Loops.fold_invariant (AddingRow h d i (digits x)) (.start h d i x) fun j hj x' hrow =>
    hrow.step hi hj (hx _ (by omega))

/-- The lower half has the value of its 32 bytes. -/
theorem leInt_low32 (r : Vector UInt8 64) : leInt (low32 r) = limbSum (2 ^ 8) 32 (byteLimbs r) :=
  limbSum_congr fun i hi => by
    rw [byteLimbs_getElem _ hi, byteLimbs_getElem _ (by omega), getElem_low32 r hi]

/-- The copy of the first operand. -/
def copyBytes (r : Vector UInt8 64) : Vector Int64 64 :=
  Nat.fold 32 (fun i _ (x : Vector Int64 64) => x.set i r[i].toUInt64.toInt64)
    (Vector.replicate 64 0)

/-- The product and sum are a fold of rows. -/
theorem mulAdd_eq_fold (r h d : Vector UInt8 64) :
    mulAdd r h d = Nat.fold 32 (addProductRow h d) (copyBytes r) := rfl

/-- The copied bytes fill the lower half of the digits. -/
theorem digits_copyBytes (r : Vector UInt8 64) {k : ℕ} (hk : k < 64) :
    digits (copyBytes r) k = if k < 32 then byteLimbs r k else 0 := by
  refine Loops.fold_invariant (f := fun i _ (x : Vector Int64 64) => x.set i r[i].toUInt64.toInt64)
    (fun i x => digits x k = if k < i then byteLimbs r k else 0) ?_ fun i hi x hx => ?_
  · rw [digits_getElem _ hk, if_neg (by omega), Vector.getElem_replicate]
    rfl
  · rw [digits_set, toInt_ofByte, ← byteLimbs_getElem r (by omega)]
    by_cases hki : k = i
    · rw [hki, Function.update_self, if_pos (by omega)]
    · rw [Function.update_of_ne hki, hx]
      by_cases hlt : k < i
      · rw [if_pos hlt, if_pos (by omega)]
      · rw [if_neg hlt, if_neg (by omega)]

/-- The product in progress, after `i` rows. -/
structure Adding (r h d : Vector UInt8 64) (i : ℕ) (x : Vector Int64 64) : Prop where
  range : ∀ k < 64, 0 ≤ digits x k ∧ digits x k ≤ 255 + i * (255 * 255)
  digit : ∀ k < 64, digits x k = (if k < 32 then byteLimbs r k else 0) +
    ∑ i' ∈ Finset.range i,
    ∑ j ∈ Finset.range 32, if i' + j = k then byteLimbs h i' * byteLimbs d j else 0
  sum : limbSum (2 ^ 8) 64 (digits x) =
    leInt (low32 r) + limbSum (2 ^ 8) i (byteLimbs h) * leInt (low32 d)

/-- Before the first row only `r` is added. -/
theorem Adding.start (r h d : Vector UInt8 64) : Adding r h d 0 (copyBytes r) := by
  refine ⟨fun k hk => ?_, fun k hk => ?_, ?_⟩
  · rw [digits_copyBytes r hk]
    have := byteLimbs_range r hk
    split <;> omega
  · rw [digits_copyBytes r hk, Finset.sum_range_zero, add_zero]
  · rw [limbSum_zero, zero_mul, add_zero, leInt_low32 r,
      limbSum_extend (n := 32)
      (by norm_num) fun k h32 h64 => by rw [digits_copyBytes r h64, if_neg (by omega)]]
    exact limbSum_congr fun k hk => by rw [digits_copyBytes r (by omega), if_pos hk]

/-- While products are added the digits stay far from overflow. -/
theorem Adding.le {r h d : Vector UInt8 64} {i : ℕ} {x : Vector Int64 64} (hx : Adding r h d i x)
    (hi : i ≤ 32) {k : ℕ} (hk : k < 64) : 0 ≤ digits x k ∧ digits x k ≤ 2 ^ 21 + 2 ^ 7 := by
  have := hx.range k hk
  omega

/-- One more row. -/
theorem Adding.step {r h d : Vector UInt8 64} {i : ℕ} (hi : i < 32) {x : Vector Int64 64}
    (hx : Adding r h d i x) :
    Adding r h d (i + 1) (addProductRow h d i hi x) := by
  have hrow :=
    addProductRow_spec h d hi fun k hk => ⟨(hx.le hi.le hk).1,
      (hx.le hi.le hk).2.trans (by norm_num)⟩
  refine ⟨fun k hk => ?_, fun k hk => ?_, ?_⟩
  · have := hrow.range hi le_rfl hx.range hk
    push_cast
    omega
  · rw [hrow.digit k hk, hx.digit k hk, Finset.sum_range_succ _ i, add_assoc]
  · rw [hrow.sum, hx.sum, limbSum_succ _ i, leInt_low32 d]
    ring

/-- All rows together. -/
theorem adding_mulAdd (r h d : Vector UInt8 64) : Adding r h d 32 (mulAdd r h d) := by
  rw [mulAdd_eq_fold]
  exact Loops.fold_invariant (Adding r h d) (.start r h d) fun _ hi _ hx => hx.step hi

/-- The digits that `crypto_sign` reduces are within the range of `modL`. -/
theorem digits_mulAdd_le (r h d : Vector UInt8 64) {k : ℕ} (hk : k < 64) : |digits
    (mulAdd r h d) k| ≤ 2 ^ 21 := by
  have := (adding_mulAdd r h d).range k hk
  push_cast at this
  rw [abs_le]
  constructor <;> omega

/-- The scalar arithmetic of `crypto_sign`. -/
theorem leInt_modL_mulAdd (r h d : Vector UInt8 64) :
    leInt (modL (mulAdd r h d)) = (leInt (low32 r) + leInt (low32 h) * leInt (low32 d)) % L := by
  rw [leInt_modL fun j hj => digits_mulAdd_le r h d hj, (adding_mulAdd r h d).sum, leInt_low32 h]

end Scalars

end Ed25519

end TweetNacl
