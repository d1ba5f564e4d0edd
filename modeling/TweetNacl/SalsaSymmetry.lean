import TweetNacl.Lib.MachineInt
import TweetNacl.Salsa20Correct

/-!
# A symmetry of the Salsa20 core

The top bit of a word passes additions as a difference and rotations not at all, since every word
that is rotated is a sum of two. So the rounds map a state with all top bits flipped to the result
with all top bits flipped, and the feed-forward cancels the difference: `crypto_core_salsa20` has
the same block for two inputs, while `crypto_core_hsalsa20`, which has no feed-forward, keeps the
difference.
-/

namespace TweetNacl

namespace Salsa20

section Words

/-- The top bit of a word. -/
def topBit : UInt32 := 0x80000000

/-- The word with its top bit flipped. -/
def flipTop (x : UInt32) : UInt32 := x ^^^ topBit

/-- Flipping the top bit of a number of `w + 1` bits is an addition. -/
theorem xor_top {w n : ℕ} (hn : n < 2 ^ (w + 1)) : n ^^^ 2 ^ w = (2 ^ w + n) % 2 ^ (w + 1) := by
  refine Nat.eq_of_testBit_eq fun i => ?_
  rw [Nat.testBit_xor, Nat.testBit_two_pow, Nat.testBit_mod_two_pow]
  rcases lt_trichotomy i w with hlt | rfl | hgt
  · rw [Nat.testBit_two_pow_add_gt hlt, decide_eq_false hlt.ne',
      decide_eq_true (show i < w + 1 by omega), Bool.xor_false, Bool.true_and]
  · rw [Nat.testBit_two_pow_add_eq, decide_eq_true rfl, decide_eq_true (Nat.lt_succ_self i),
      Bool.xor_true, Bool.true_and]
  · have hbig : n < 2 ^ i := hn.trans_le (Nat.pow_le_pow_right (by norm_num) hgt)
    rw [decide_eq_false hgt.ne, decide_eq_false (show ¬ i < w + 1 by omega),
      Nat.testBit_lt_two_pow hbig]
    rfl

/-- Flipping the top bit adds `2 ^ 31`. -/
theorem flipTop_toNat (x : UInt32) : (flipTop x).toNat = (2 ^ 31 + x.toNat) % 2 ^ 32 := by
  rw [flipTop, UInt32.toNat_xor, ← xor_top x.toNat_lt]
  rfl

/-- Flipping the top bit of a byte adds `2 ^ 7`. -/
theorem flipBit_toNat (b : UInt8) : (b ^^^ 0x80).toNat = (2 ^ 7 + b.toNat) % 2 ^ 8 := by
  rw [UInt8.toNat_xor, ← xor_top b.toNat_lt]
  rfl

/-- A sum of two words does not see the flips. -/
theorem flipTop_add_flipTop (x y : UInt32) : flipTop x + flipTop y = x + y := by
  apply UInt32.toNat_inj.mp
  have hx := x.toNat_lt
  have hy := y.toNat_lt
  rw [UInt32.toNat_add, UInt32.toNat_add, flipTop_toNat, flipTop_toNat]
  omega

/-- A flip passes through an exclusive or on one side. -/
theorem flipTop_xor (x y : UInt32) : flipTop x ^^^ y = flipTop (x ^^^ y) := by
  rw [flipTop, flipTop, UInt32.xor_assoc, UInt32.xor_comm topBit, ← UInt32.xor_assoc]

end Words

section Rounds

/-- The state with all top bits flipped. -/
def flipState (x : Vector UInt32 16) : Vector UInt32 16 := x.map flipTop

/-- A quarter round flips its four results with its four words. -/
theorem quarterround_flipTop (y0 y1 y2 y3 : UInt32) :
    quarterround (flipTop y0) (flipTop y1) (flipTop y2) (flipTop y3) =
      let (z0, z1, z2, z3) := quarterround y0 y1 y2 y3
      (flipTop z0, flipTop z1, flipTop z2, flipTop z3) := by
  simp only [quarterround, flipTop_add_flipTop, flipTop_xor]

/-- Flipping a state flips its words. -/
theorem get_flipState (x : Vector UInt32 16) (i : Fin 16) :
    (flipState x).get i = flipTop (x.get i) :=
  Vector.getElem_map _ _

/-- A column round flips with its state. -/
theorem columnround_flipState (x : Vector UInt32 16) :
    columnround (flipState x) = flipState (columnround x) := by
  simp only [columnround, Vector.nth, get_flipState, quarterround_flipTop]
  simp only [flipState, Vector.map_mk, List.map_toArray, List.map_cons, List.map_nil]

/-- A row round flips with its state. -/
theorem rowround_flipState (x : Vector UInt32 16) :
    rowround (flipState x) = flipState (rowround x) := by
  simp only [rowround, Vector.nth, get_flipState, quarterround_flipTop]
  simp only [flipState, Vector.map_mk, List.map_toArray, List.map_cons, List.map_nil]

/-- The double rounds commute with the flip. -/
theorem iterate_doubleround_flipState (n : ℕ) (x : Vector UInt32 16) :
    doubleround^[n] (flipState x) = flipState (doubleround^[n] x) := by
  induction n with
  | zero => rfl
  | succ n ih =>
    rw [Function.iterate_succ_apply', Function.iterate_succ_apply', ih, doubleround,
      columnround_flipState, rowround_flipState, doubleround]

end Rounds

section Bytes

/-- The bytes with the top bit of every fourth one flipped: the words they stand for with their top
bits flipped. -/
def flipBytes {n : ℕ} (b : Vector UInt8 n) : Vector UInt8 n :=
  Vector.ofFn fun i => if i.val % 4 = 3 then b.get i ^^^ 0x80 else b.get i

/-- Flipping a string flips every fourth byte. -/
theorem getD_flipBytes {n : ℕ} (b : Vector UInt8 n) {i : ℕ} (hi : i < n) :
    (flipBytes b).getD i 0 = if i % 4 = 3 then b.getD i 0 ^^^ 0x80 else b.getD i 0 := by
  have hget : ∀ v : Vector UInt8 n, v.getD i 0 = v.get ⟨i, hi⟩ := fun v => by
    simp [Vector.getD, Vector.get, hi]
  rw [hget, hget]
  exact Vector.getElem_ofFn hi

/-- A string of at least one word changes. -/
theorem flipBytes_ne {n : ℕ} (b : Vector UInt8 n) (hn : 3 < n) : flipBytes b ≠ b := by
  intro heq
  have hbyte : b.getD 3 0 ^^^ 0x80 = b.getD 3 0 := by
    rw [← if_pos (c := 3 % 4 = 3) (t := b.getD 3 0 ^^^ 0x80) (e := b.getD 3 0) rfl,
      ← getD_flipBytes b hn, heq]
  have hnat := congrArg UInt8.toNat hbyte
  rw [flipBit_toNat] at hnat
  omega

/-- Flipping a string flips its words. -/
theorem littleendian_flipBytes {n : ℕ} (b : Vector UInt8 n) {i : ℕ} (hi : 4 * i + 3 < n) :
    littleendian (flipBytes b) i = flipTop (littleendian b i) := by
  apply UInt32.toNat_inj.mp
  rw [flipTop_toNat, littleendian, littleendian, getD_flipBytes b (by omega),
    getD_flipBytes b (by omega), getD_flipBytes b (by omega), getD_flipBytes b hi,
    if_neg (by omega), if_neg (by omega), if_neg (by omega),
    if_pos (by omega), flipBit_toNat, UInt32.toNat_ofNat', UInt32.toNat_ofNat']
  have h0 := (b.getD (4 * i) 0).toNat_lt
  have h1 := (b.getD (4 * i + 1) 0).toNat_lt
  have h2 := (b.getD (4 * i + 2) 0).toNat_lt
  have h3 := (b.getD (4 * i + 3) 0).toNat_lt
  omega

/-- Flipping a word flips its highest byte. -/
theorem wordByte_flipTop (x : UInt32) {r : ℕ} (hr : r < 4) :
    wordByte (flipTop x) r = if r = 3 then wordByte x r ^^^ 0x80 else wordByte x r := by
  have hx := x.toNat_lt
  apply UInt8.toNat_inj.mp
  split
  next htop =>
    rw [flipBit_toNat, wordByte, wordByte, flipTop_toNat, UInt8.toNat_ofNat',
      UInt8.toNat_ofNat', htop]
    omega
  next hlow =>
    rw [wordByte, wordByte, flipTop_toNat, UInt8.toNat_ofNat', UInt8.toNat_ofNat']
    interval_cases r <;> omega

end Bytes

section Core

variable (input : Vector UInt8 16) (k : Vector UInt8 32) (c : Vector UInt8 16)

/-- Flipped arguments set up the flipped state. -/
theorem initialState_flipBytes :
    initialState (flipBytes input) (flipBytes k) (flipBytes c) = flipState
      (initialState input k c) := by
  have hinput : ∀ i < 4, littleendian (flipBytes input) i = flipTop (littleendian input i) :=
      fun i hi =>
    littleendian_flipBytes input (by omega)
  have hk : ∀ i < 8, littleendian (flipBytes k) i = flipTop (littleendian k i) := fun i hi =>
    littleendian_flipBytes k (by omega)
  have hc : ∀ i < 4, littleendian (flipBytes c) i = flipTop (littleendian c i) := fun i hi =>
    littleendian_flipBytes c (by omega)
  simp (disch := omega) only [initialState, hinput, hk, hc]
  simp only [flipState, Vector.map_mk, List.map_toArray, List.map_cons, List.map_nil]

/-- The same for words read cyclically. -/
theorem cyc_flipState (x : Vector UInt32 16) (i : ℕ) : (flipState x).cyc i = flipTop (x.cyc i) :=
  get_flipState x _

/-- The feed-forward adds two flipped words. -/
theorem salsa20_flipBytes :
    salsa20 (flipBytes input) (flipBytes k) (flipBytes c) = salsa20 input k c := by
  simp only [salsa20, initialState_flipBytes, iterate_doubleround_flipState, cyc_flipState,
    flipTop_add_flipTop]

/-- The bytes that HSalsa20 writes, of the state after its rounds. -/
def outputBytes (z : Vector UInt32 16) : Vector UInt8 32 :=
  let out := #v[z.nth 0, z.nth 5, z.nth 10, z.nth 15, z.nth 6, z.nth 7, z.nth 8, z.nth 9]
  Vector.ofFn fun b => wordByte (out.cyc (b.val / 4)) (b.val % 4)

/-- HSalsa20 writes eight words of the last state. -/
theorem hsalsa20_outputBytes :
    hsalsa20 input k c = outputBytes (doubleround^[10] (initialState input k c)) := rfl

/-- The bytes of flipped words. -/
theorem wordBytes_flipTop (out : Vector UInt32 8) :
    (Vector.ofFn fun b : Fin 32 => wordByte ((out.map flipTop).cyc (b.val / 4)) (b.val % 4)) =
      flipBytes (Vector.ofFn fun b : Fin 32 => wordByte (out.cyc (b.val / 4)) (b.val % 4)) := by
  rw [flipBytes]
  refine congrArg Vector.ofFn (funext fun b => ?_)
  have hget : ∀ f : Fin 32 → UInt8, (Vector.ofFn f).get b = f b :=
    fun f => Vector.getElem_ofFn b.isLt
  have hcyc : (out.map flipTop).cyc (b.val / 4) = flipTop (out.cyc (b.val / 4)) :=
    Vector.getElem_map _ _
  rw [hget, hcyc, wordByte_flipTop _ (Nat.mod_lt b.val (show 0 < 4 by norm_num))]

/-- Flipping the last state flips the written bytes. -/
theorem outputBytes_flipState (z : Vector UInt32 16) :
    outputBytes (flipState z) = flipBytes (outputBytes z) := by
  have hwords : #v[(flipState z).nth 0, (flipState z).nth 5, (flipState z).nth 10,
      (flipState z).nth 15, (flipState z).nth 6, (flipState z).nth 7, (flipState z).nth 8,
      (flipState z).nth 9] = #v[z.nth 0, z.nth 5, z.nth 10, z.nth 15, z.nth 6, z.nth 7, z.nth 8,
      z.nth 9].map flipTop := by
    simp only [Vector.nth, get_flipState, Vector.map_mk, List.map_toArray, List.map_cons,
      List.map_nil]
  rw [outputBytes, hwords]
  exact wordBytes_flipTop _

/-- Without it every word of the output is flipped. -/
theorem hsalsa20_flipBytes :
    hsalsa20 (flipBytes input) (flipBytes k) (flipBytes c) = flipBytes (hsalsa20 input k c) := by
  rw [hsalsa20_outputBytes, hsalsa20_outputBytes, initialState_flipBytes,
    iterate_doubleround_flipState, outputBytes_flipState]

/-- Two inputs that differ in the top bit of every word of the state have one block, and HSalsa20
outputs that differ in the top bit of every word. -/
theorem core_topBits :
    flipBytes k ≠ k ∧ coreSalsa20 (flipBytes input) (flipBytes k)
      (flipBytes c) = coreSalsa20 input k c ∧
      coreHsalsa20 (flipBytes input) (flipBytes k) (flipBytes c) = flipBytes
        (coreHsalsa20 input k c) ∧
      coreHsalsa20 (flipBytes input) (flipBytes k) (flipBytes c) ≠ coreHsalsa20 input k c := by
  rw [coreSalsa20_eq, coreSalsa20_eq, coreHsalsa20_eq, coreHsalsa20_eq, hsalsa20_flipBytes]
  exact ⟨flipBytes_ne k (by norm_num), salsa20_flipBytes input k c, rfl,
    flipBytes_ne _ (by norm_num)⟩

end Core

end Salsa20

end TweetNacl
