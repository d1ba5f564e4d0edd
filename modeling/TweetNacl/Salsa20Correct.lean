import TweetNacl.Lib.Indexing
import TweetNacl.Lib.Loops
import TweetNacl.Salsa20
import Mathlib.Tactic.IntervalCases
import Mathlib.Tactic.NormNum
import Mathlib.Tactic.Ring

/-!
# The published Salsa20 and HSalsa20 functions

The specification alternates a round on the columns with a round on the rows. `core` has a single
round, which works on the columns and leaves its result transposed: two of them are one double
round.
-/

namespace TweetNacl

namespace Salsa20

section Spec

/-- The rotation by `c` bits to the left. -/
def rotl (x : UInt32) (c : ℕ) : UInt32 := ⟨x.toBitVec.rotateLeft c⟩

/-- `quarterround`. -/
def quarterround (y0 y1 y2 y3 : UInt32) : UInt32 × UInt32 × UInt32 × UInt32 :=
  let z1 := y1 ^^^ rotl (y0 + y3) 7
  let z2 := y2 ^^^ rotl (z1 + y0) 9
  let z3 := y3 ^^^ rotl (z2 + z1) 13
  let z0 := y0 ^^^ rotl (z3 + z2) 18
  (z0, z1, z2, z3)

/-- `rowround`. -/
def rowround (y : Vector UInt32 16) : Vector UInt32 16 :=
  let (z0, z1, z2, z3) := quarterround (y.nth 0) (y.nth 1) (y.nth 2) (y.nth 3)
  let (z5, z6, z7, z4) := quarterround (y.nth 5) (y.nth 6) (y.nth 7) (y.nth 4)
  let (z10, z11, z8, z9) := quarterround (y.nth 10) (y.nth 11) (y.nth 8) (y.nth 9)
  let (z15, z12, z13, z14) := quarterround (y.nth 15) (y.nth 12) (y.nth 13) (y.nth 14)
  #v[z0, z1, z2, z3, z4, z5, z6, z7, z8, z9, z10, z11, z12, z13, z14, z15]

/-- `columnround`. -/
def columnround (x : Vector UInt32 16) : Vector UInt32 16 :=
  let (y0, y4, y8, y12) := quarterround (x.nth 0) (x.nth 4) (x.nth 8) (x.nth 12)
  let (y5, y9, y13, y1) := quarterround (x.nth 5) (x.nth 9) (x.nth 13) (x.nth 1)
  let (y10, y14, y2, y6) := quarterround (x.nth 10) (x.nth 14) (x.nth 2) (x.nth 6)
  let (y15, y3, y7, y11) := quarterround (x.nth 15) (x.nth 3) (x.nth 7) (x.nth 11)
  #v[y0, y1, y2, y3, y4, y5, y6, y7, y8, y9, y10, y11, y12, y13, y14, y15]

/-- `doubleround`. -/
def doubleround (x : Vector UInt32 16) : Vector UInt32 16 := rowround (columnround x)

/-- Word `i` of a byte string, least significant byte first. -/
def littleendian {n : ℕ} (b : Vector UInt8 n) (i : ℕ) : UInt32 :=
  UInt32.ofNat ((b.getD (4 * i) 0).toNat + 2 ^ 8 * (b.getD (4 * i + 1) 0).toNat +
    2 ^ 16 * (b.getD (4 * i + 2) 0).toNat + 2 ^ 24 * (b.getD (4 * i + 3) 0).toNat)

/-- Byte `r` of a word. -/
def wordByte (x : UInt32) (r : ℕ) : UInt8 := UInt8.ofNat (x.toNat / 256 ^ r)

variable (input : Vector UInt8 16) (k : Vector UInt8 32) (c : Vector UInt8 16)

/-- The 4×4 state: the constant on the diagonal, the input between the halves of the key. -/
def initialState : Vector UInt32 16 :=
  #v[littleendian c 0, littleendian k 0, littleendian k 1, littleendian k 2,
    littleendian k 3, littleendian c 1, littleendian input 0, littleendian input 1,
    littleendian input 2, littleendian input 3, littleendian c 2, littleendian k 4,
    littleendian k 5, littleendian k 6, littleendian k 7, littleendian c 3]

/-- The Salsa20 block: `x + doubleround ^ 10 (x)`. -/
def salsa20 : Vector UInt8 64 :=
  let x := initialState input k c
  let z := doubleround^[10] x
  Vector.ofFn fun b => wordByte (x.cyc (b.val / 4) + z.cyc (b.val / 4)) (b.val % 4)

/-- HSalsa20: words 0, 5, 10, 15, 6, 7, 8 and 9 of `doubleround ^ 10 (x)`. -/
def hsalsa20 : Vector UInt8 32 :=
  let z := doubleround^[10] (initialState input k c)
  let out := #v[z.nth 0, z.nth 5, z.nth 10, z.nth 15, z.nth 6, z.nth 7, z.nth 8, z.nth 9]
  Vector.ofFn fun b => wordByte (out.cyc (b.val / 4)) (b.val % 4)

end Spec

section Words

/-- The rotation of the code is one. -/
theorem L32_rotl (x : UInt32) {c : ℕ} (hc : 0 < c) (hc' : c < 32) : L32 x c = rotl x c := by
  have hshift : ∀ n < 32, ((UInt32.ofNat n).toBitVec % 32).toNat = n := fun n hn => by
    rw [BitVec.toNat_umod]
    change n % 2 ^ 32 % 32 = n
    omega
  have hmask : x &&& 0xffffffff = x := UInt32.and_neg_one
  apply UInt32.toBitVec_inj.mp
  rw [L32, hmask, rotl, BitVec.rotateLeft_def, Nat.mod_eq_of_lt hc', UInt32.toBitVec_or,
    UInt32.toBitVec_shiftLeft, UInt32.toBitVec_shiftRight, BitVec.shiftLeft_eq',
    BitVec.ushiftRight_eq', hshift c hc', hshift (32 - c) (by omega)]

/-- A byte shifted in from the right. -/
theorem toNat_shiftIn (u : UInt32) (b : UInt8) (hu : u.toNat < 2 ^ 24) :
    ((u <<< 8) ||| b.toUInt32).toNat = 256 * u.toNat + b.toNat := by
  have hb : b.toNat < 2 ^ 8 := b.toNat_lt
  rw [UInt32.toNat_or]
  change (u.toNat <<< 8 % 2 ^ 32) ||| b.toNat = _
  rw [Nat.mod_eq_of_lt (by rw [Nat.shiftLeft_eq]; omega), ← Nat.shiftLeft_add_eq_or_of_lt hb,
    Nat.shiftLeft_eq]
  omega

/-- `ld32` reads a little-endian word. -/
theorem ld32_littleendian {n : ℕ} (b : Vector UInt8 n) (i : ℕ) :
    (ld32 fun j => b.getD (4 * i + j) 0) = littleendian b i := by
  have hbyte : ∀ b : UInt8, b.toNat < 256 := fun b => b.toNat_lt
  rw [ld32, littleendian, Nat.add_zero]
  generalize b.getD (4 * i) 0 = b0
  generalize b.getD (4 * i + 1) 0 = b1
  generalize b.getD (4 * i + 2) 0 = b2
  generalize b.getD (4 * i + 3) 0 = b3
  have h0 := hbyte b0
  have h1 := hbyte b1
  have h2 := hbyte b2
  have h3 := hbyte b3
  have hu3 : b3.toUInt32.toNat = b3.toNat := UInt8.toNat_toUInt32 b3
  have hu2 := toNat_shiftIn b3.toUInt32 b2 (by omega)
  have hu1 :=
    toNat_shiftIn _ b1 (show ((b3.toUInt32 <<< 8) ||| b2.toUInt32).toNat < 2 ^ 24 by omega)
  have hu0 := toNat_shiftIn _ b0
    (show ((((b3.toUInt32 <<< 8) ||| b2.toUInt32) <<< 8) ||| b1.toUInt32).toNat < 2 ^ 24 by omega)
  apply UInt32.toNat_inj.mp
  rw [hu0, hu1, hu2, hu3, UInt32.toNat_ofNat']
  omega

/-- `st32` writes one. -/
theorem st32_getElem (x : UInt32) {r : ℕ} (hr : r < 4) : (st32 x)[r] = wordByte x r := by
  apply UInt8.toNat_inj.mp
  have hshift : (UInt32.ofNat (8 * r)).toNat = 8 * r := by
    rw [UInt32.toNat_ofNat']
    omega
  rw [st32, Vector.getElem_ofFn, UInt32.toNat_toUInt8, UInt32.toNat_shiftRight, hshift, wordByte,
    UInt8.toNat_ofNat', Nat.mod_eq_of_lt (show 8 * r < 32 by omega),
    Nat.shiftRight_eq_div_pow, pow_mul]
  rfl

end Words

section Rounds

/-- The state with rows and columns exchanged. -/
def transposed (x : Vector UInt32 16) : Vector UInt32 16 :=
  #v[x.cyc 0, x.cyc 4, x.cyc 8, x.cyc 12, x.cyc 1, x.cyc 5, x.cyc 9, x.cyc 13,
    x.cyc 2, x.cyc 6, x.cyc 10, x.cyc 14, x.cyc 3, x.cyc 7, x.cyc 11, x.cyc 15]

/-- The reads of a round: word `m` of column `j` comes from place `(5 j + 4 m) % 16`. -/
theorem readColumn (x : Vector UInt32 16) (j : ℕ) :
    (Vector.ofFn fun m : Fin 4 => x.cyc (5 * j + 4 * m.val)) =
      #v[x.cyc (5 * j), x.cyc (5 * j + 4), x.cyc (5 * j + 8), x.cyc (5 * j + 12)] := by
  refine Vector.ext fun i hi => ?_
  rw [Vector.getElem_ofFn]
  interval_cases i <;> rfl

/-- The inner loop on column `j` is the specified quarter round on its rotated words. -/
theorem quarterRound_eq (x : Vector UInt32 16) (j : ℕ) : quarterRound x j =
    let (z0, z1, z2, z3) :=
      quarterround (x.cyc (5 * j)) (x.cyc (5 * j + 4)) (x.cyc (5 * j + 8)) (x.cyc (5 * j + 12))
    #v[z0, z1, z2, z3] := by
  have hread := readColumn x j
  generalize x.cyc (5 * j) = y0 at hread ⊢
  generalize x.cyc (5 * j + 4) = y1 at hread ⊢
  generalize x.cyc (5 * j + 8) = y2 at hread ⊢
  generalize x.cyc (5 * j + 12) = y3 at hread ⊢
  have hquarter : quarterRound x j =
      let t : Vector UInt32 4 := Vector.ofFn fun m : Fin 4 => x.cyc (5 * j + 4 * m.val)
      let t := t.set 1 (t[1] ^^^ L32 (t[0] + t[3]) 7)
      let t := t.set 2 (t[2] ^^^ L32 (t[1] + t[0]) 9)
      let t := t.set 3 (t[3] ^^^ L32 (t[2] + t[1]) 13)
      t.set 0 (t[0] ^^^ L32 (t[3] + t[2]) 18) := rfl
  rw [hquarter, hread]
  simp only [quarterround, L32_rotl _ (show 0 < 7 by omega) (show 7 < 32 by omega),
    L32_rotl _ (show 0 < 9 by omega) (show 9 < 32 by omega),
    L32_rotl _ (show 0 < 13 by omega) (show 13 < 32 by omega),
    L32_rotl _ (show 0 < 18 by omega) (show 18 < 32 by omega)]
  rfl

/-- The inner loop of a round: word `m` of column `j` goes to place `(j + m) % 4` of row `j`. -/
theorem storeColumn (t : Vector UInt32 4) (w : Vector UInt32 16) {j : ℕ} (hj : j < 4) {i : ℕ}
    (hi : i < 16) :
    (Nat.fold 4 (fun m _ (w : Vector UInt32 16) =>
      have : (j + m) % 4 < 4 := Nat.mod_lt _ (Nat.succ_pos 3)
      w.set (4 * j + (j + m) % 4) t[m]) w)[i] = if i / 4 = j then t.cyc (i + 4 - j) else w[i] := by
  have hloop := Loops.fold_invariant (n := 4) (s := w)
    (f := fun m _ (w : Vector UInt32 16) =>
      have : (j + m) % 4 < 4 := Nat.mod_lt _ (Nat.succ_pos 3)
      w.set (4 * j + (j + m) % 4) t[m])
    (fun m w' => w'[i] = if i / 4 = j ∧ (i + 4 - j) % 4 < m then t.cyc (i + 4 - j) else w[i])
    (by simp) fun m hm w' hw' => ?_
  · rw [hloop]
    simp only [Nat.mod_lt _ (Nat.succ_pos 3), and_true]
  · dsimp only
    rw [Vector.getElem_set, hw']
    by_cases hplace : 4 * j + (j + m) % 4 = i
    · have hword : (i + 4 - j) % 4 = m := by omega
      rw [if_pos hplace, if_pos ⟨by omega, by omega⟩]
      change t[m] = t[(i + 4 - j) % 4]
      simp only [hword]
    · rw [if_neg hplace]
      refine if_congr ⟨fun h => ⟨h.1, by omega⟩, fun h => ⟨h.1, ?_⟩⟩ rfl rfl
      obtain ⟨hrow, hlt⟩ := h
      omega

/-- Row `j` of the result of a round holds column `j`, rotated by `j` places. -/
theorem coreRound_getElem (x : Vector UInt32 16) {i : ℕ} (hi : i < 16) :
    (coreRound x)[i] = (quarterRound x (i / 4)).cyc (i + 4 - i / 4) := by
  have hloop := Loops.fold_invariant (n := 4) (s := Vector.replicate 16 (0 : UInt32))
    (f := fun j _ (w : Vector UInt32 16) =>
      let t := quarterRound x j
      Nat.fold 4 (fun m _ (w : Vector UInt32 16) =>
        have : (j + m) % 4 < 4 := Nat.mod_lt _ (Nat.succ_pos 3)
        w.set (4 * j + (j + m) % 4) t[m]) w)
    (fun j w => i / 4 < j → w[i] = (quarterRound x (i / 4)).cyc (i + 4 - i / 4))
    (fun hlt => absurd hlt (Nat.not_lt_zero _)) fun j hj w hw hlt => ?_
  · exact hloop (by omega)
  · refine (storeColumn (quarterRound x j) w hj hi).trans ?_
    by_cases hrow : i / 4 = j
    · rw [if_pos hrow, ← hrow]
    · rw [if_neg hrow]
      exact hw (by omega)

/-- The words of the transposed state. -/
theorem transposed_getElem (x : Vector UInt32 16) {i : ℕ} (hi : i < 16) :
    (transposed x)[i] = x.cyc (4 * i + i / 4) := by
  interval_cases i <;> rfl

/-- The column round of the specification on the columns that `core` reads. -/
theorem columnround_getElem (x : Vector UInt32 16) {i : ℕ} (hi : i < 16) :
    (columnround x)[i] = (quarterRound x (i % 4)).cyc (i / 4 + 4 - i % 4) := by
  have hcolumn : ∀ j y0 y1 y2 y3, x.cyc (5 * j) = y0 → x.cyc (5 * j + 4) = y1 →
    x.cyc (5 * j + 8) = y2 →
      x.cyc (5 * j + 12) = y3 → quarterRound x j =
        #v[(quarterround y0 y1 y2 y3).1, (quarterround y0 y1 y2 y3).2.1,
          (quarterround y0 y1 y2 y3).2.2.1, (quarterround y0 y1 y2 y3).2.2.2] := by
    rintro j _ _ _ _ rfl rfl rfl rfl
    exact quarterRound_eq x j
  have h0 := hcolumn 0 (x.nth 0) (x.nth 4) (x.nth 8) (x.nth 12) rfl rfl rfl rfl
  have h1 := hcolumn 1 (x.nth 5) (x.nth 9) (x.nth 13) (x.nth 1) rfl rfl rfl rfl
  have h2 := hcolumn 2 (x.nth 10) (x.nth 14) (x.nth 2) (x.nth 6) rfl rfl rfl rfl
  have h3 := hcolumn 3 (x.nth 15) (x.nth 3) (x.nth 7) (x.nth 11) rfl rfl rfl rfl
  have hround := columnround.eq_1 x
  dsimp only at hround
  generalize quarterround (x.nth 0) (x.nth 4) (x.nth 8) (x.nth 12) = column0 at h0 hround
  generalize quarterround (x.nth 5) (x.nth 9) (x.nth 13) (x.nth 1) = column1 at h1 hround
  generalize quarterround (x.nth 10) (x.nth 14) (x.nth 2) (x.nth 6) = column2 at h2 hround
  generalize quarterround (x.nth 15) (x.nth 3) (x.nth 7) (x.nth 11) = column3 at h3 hround
  simp only [hround]
  generalize quarterRound x = q at h0 h1 h2 h3 ⊢
  interval_cases i <;> simp only [Nat.reduceMod, Nat.reduceDiv, h0, h1, h2, h3] <;> rfl

/-- A round is the column round of the specification, transposed. -/
theorem coreRound_eq (x : Vector UInt32 16) : coreRound x = transposed (columnround x) := by
  refine Vector.ext fun i hi => ?_
  have hplace : (4 * i + i / 4) % 16 < 16 := Nat.mod_lt _ (Nat.succ_pos 15)
  rw [coreRound_getElem x hi, transposed_getElem _ hi]
  change _ = (columnround x)[(4 * i + i / 4) % 16]
  have hrow : (4 * i + i / 4) % 16 / 4 = i % 4 := by interval_cases i <;> rfl
  rw [columnround_getElem x hplace, show (4 * i + i / 4) % 16 % 4 = i / 4 by omega, hrow]
  exact Vector.cyc_congr _ _ (by omega)

/-- A row round is a column round of the transposed state. -/
theorem rowround_eq (x : Vector UInt32 16) :
    rowround x = transposed (columnround (transposed x)) := by
  rfl

/-- Two rounds are a double round of the specification. -/
theorem coreRound_coreRound (x : Vector UInt32 16) : coreRound (coreRound x) = doubleround x := by
  rw [coreRound_eq, coreRound_eq, doubleround, rowround_eq]

/-- The twenty rounds are ten double rounds. -/
theorem coreRounds_eq (input : Vector UInt8 16) (k : Vector UInt8 32) (c : Vector UInt8 16) :
    coreRounds input k c = doubleround^[10] (coreInput input k c) := by
  have hrounds : ∀ n (x : Vector UInt32 16), Nat.fold (2 * n) (fun _ _ x => coreRound x) x =
      doubleround^[n] x := by
    intro n x
    induction n with
    | zero => rfl
    | succ n ih =>
      rw [show 2 * (n + 1) =
        2 * n + 1 + 1 by ring, Nat.fold_succ, Nat.fold_succ, ih, coreRound_coreRound,
        Function.iterate_succ_apply']
  exact hrounds 10 _

end Rounds

section Core

variable (input : Vector UInt8 16) (k : Vector UInt8 32) (c : Vector UInt8 16)

/-- The state that `core` sets up is that of the specification. -/
theorem coreInput_eq : coreInput input k c = initialState input k c := by
  have hhigh : ∀ i, (ld32 fun b => k.getD (16 + 4 * i + b) 0) = littleendian k (4 + i) :=
      fun i => by
    rw [← ld32_littleendian]
    exact congrArg ld32 (funext fun b => by rw [show 16 + 4 * i + b = 4 * (4 + i) + b by ring])
  simp only [coreInput, ld32_littleendian, hhigh, initialState]
  generalize littleendian input = wordIn
  generalize littleendian k = wordK
  generalize littleendian c = wordC
  refine Vector.ext fun p hp => ?_
  simp only [Nat.fold_succ, Nat.fold_zero, Vector.getElem_set]
  interval_cases p <;> rfl

/-- `core` without `h` is the specified Salsa20. -/
theorem coreSalsa20_eq : coreSalsa20 input k c = salsa20 input k c := by
  refine Vector.ext fun b hb => ?_
  have hmod : b / 4 % 16 = b / 4 := Nat.mod_eq_of_lt (by omega)
  simp only [coreSalsa20, salsa20, Vector.getElem_ofFn, coreRounds_eq, coreInput_eq]
  rw [st32_getElem _ (Nat.mod_lt _ (by norm_num)), UInt32.add_comm]
  change _ = wordByte ((initialState input k c)[b / 4 % 16] +
    (doubleround^[10] (initialState input k c))[b / 4 % 16]) (b % 4)
  simp only [hmod]

/-- A word of the diagonal is one of the sixteen. -/
theorem diagonal_lt {i : ℕ} (hi : i < 4) : 5 * i < 16 := by omega

/-- A word of the input is one of the sixteen. -/
theorem input_lt {i : ℕ} (hi : i < 4) : 6 + i < 16 := by omega

/-- The final subtraction of `core`. -/
def subLoop (x : Vector UInt32 16) : Vector UInt32 16 :=
  Nat.fold 4 (fun i hi (x : Vector UInt32 16) =>
    let x := x.set (5 * i) (x.get ⟨5 * i, diagonal_lt hi⟩ - littleendian c i) (diagonal_lt hi)
    x.set (6 + i) (x.get ⟨6 + i, input_lt hi⟩ - littleendian input i) (input_lt hi)) x

/-- The eight words that are written have been changed once each. -/
theorem subLoop_cyc (x : Vector UInt32 16) {j : ℕ} (hj : j < 4) :
    (subLoop input c x).cyc (5 * j) = x.cyc (5 * j) - littleendian c j ∧
      (subLoop input c x).cyc (6 + j) = x.cyc (6 + j) - littleendian input j := by
  have hcyc : ∀ (w : Vector UInt32 16) i (hi : i < 16), w.cyc i = w[i] := fun w i hi =>
    congrArg w.get (Fin.ext (Nat.mod_eq_of_lt hi))
  have hloop := Loops.fold_invariant (n := 4) (s := x) (f := fun i _ (x : Vector UInt32 16) =>
      let x := x.set (5 * i) (x[5 * i] - littleendian c i)
      x.set (6 + i) (x[6 + i] - littleendian input i))
    (fun i w => w[5 * j] = (if j < i then x[5 * j] - littleendian c j else x[5 * j]) ∧
      w[6 + j] = if j < i then x[6 + j] - littleendian input j else x[6 + j])
    (by simp) fun i hi w hw => ?_
  · rw [if_pos hj, if_pos hj] at hloop
    rw [hcyc _ _ (by omega), hcyc _ _ (by omega), hcyc _ _ (by omega), hcyc _ _ (by omega)]
    exact hloop
  · obtain ⟨hdiag, hinput⟩ := hw
    simp only [Vector.getElem_set, show ¬ 6 + i = 5 * j by omega, show ¬ 5 * i = 6 + j by omega,
      show ¬ 5 * i = 6 + i by omega, if_false]
    by_cases hij : i = j
    · subst hij
      rw [if_neg (lt_irrefl i)] at hdiag hinput
      simp only [if_true, hdiag, hinput, Nat.lt_succ_self, and_self]
    · have hlt : j < i + 1 ↔ j < i := by omega
      simp only [show ¬ 5 * i =
        5 * j by omega, show ¬ 6 + i = 6 + j by omega, if_false, hdiag, hinput, hlt,
        and_self]

/-- What `core` subtracts are the words of the initial state. -/
theorem initialState_cyc {j : ℕ} (hj : j < 4) :
    (initialState input k c).cyc (5 * j) = littleendian c j ∧
      (initialState input k c).cyc (6 + j) = littleendian input j := by
  rw [initialState]
  generalize littleendian input = wordIn
  generalize littleendian k = wordK
  generalize littleendian c = wordC
  interval_cases j <;> exact ⟨rfl, rfl⟩

/-- The words that are written are those of the rounds: what was added to them is subtracted
again. -/
theorem subLoop_words (z : Vector UInt32 16) {j : ℕ} (hj : j < 4) :
    (subLoop input c (Vector.ofFn fun i => z.get i + (initialState input k c).get i)).cyc
      (5 * j) = z.cyc (5 * j) ∧
      (subLoop input c (Vector.ofFn fun i => z.get i + (initialState input k c).get i)).cyc
        (6 + j) = z.cyc (6 + j) := by
  obtain ⟨hdiag, hinput⟩ :=
    subLoop_cyc input c (Vector.ofFn fun i => z.get i + (initialState input k c).get i) hj
  obtain ⟨hdiag', hinput'⟩ := initialState_cyc input k c hj
  have hsum : ∀ i, (Vector.ofFn fun i => z.get i + (initialState input k c).get i :
      Vector UInt32 16).cyc i = z.cyc i + (initialState input k c).cyc i :=
      fun i => Vector.getElem_ofFn (Nat.mod_lt i (Nat.succ_pos 15))
  rw [hsum, hdiag', UInt32.add_sub_cancel] at hdiag
  rw [hsum, hinput', UInt32.add_sub_cancel] at hinput
  exact ⟨hdiag, hinput⟩

/-- The words of the HSalsa20 output, in the order of the code. -/
theorem hsalsa20_words (z : Vector UInt32 16) {j : ℕ} (hj : j < 4) :
    #v[z.nth 0, z.nth 5, z.nth 10, z.nth 15, z.nth 6, z.nth 7, z.nth 8, z.nth 9].cyc j =
      z.cyc (5 * j) ∧
      #v[z.nth 0, z.nth 5, z.nth 10, z.nth 15, z.nth 6, z.nth 7, z.nth 8, z.nth 9].cyc
        (4 + j) = z.cyc (6 + j) := by
  interval_cases j <;> exact ⟨rfl, rfl⟩

/-- `core` with `h` is the specified HSalsa20. -/
theorem coreHsalsa20_eq : coreHsalsa20 input k c = hsalsa20 input k c := by
  have hcyc : ∀ (w : Vector UInt32 16) i (hi : i < 16), w[i] = w.cyc i := fun w i hi =>
    congrArg w.get (Fin.ext (Nat.mod_eq_of_lt hi).symm)
  obtain ⟨z, hz⟩ : ∃ z, z = doubleround^[10] (initialState input k c) := ⟨_, rfl⟩
  refine Vector.ext fun b hb => ?_
  simp only [coreHsalsa20, hsalsa20, Vector.getElem_ofFn, coreRounds_eq, coreInput_eq,
    ld32_littleendian, ← hz]
  change (if h : b < 16 then
      (st32 (subLoop input c (Vector.ofFn fun i =>
        z.get i + (initialState input k c).get i))[5 * (b / 4)])[b % 4] else
      (st32 (subLoop input c (Vector.ofFn fun i =>
        z.get i + (initialState input k c).get i))[6 + (b - 16) / 4])[b % 4]) = _
  split
  next hlow =>
    have hj : b / 4 < 4 := by omega
    rw [st32_getElem _ (Nat.mod_lt _ (by norm_num)), hcyc, (subLoop_words input k c z hj).1,
      (hsalsa20_words z hj).1]
  next hhigh =>
    have hj : (b - 16) / 4 < 4 := by omega
    rw [st32_getElem _ (Nat.mod_lt _ (by norm_num)), hcyc, (subLoop_words input k c z hj).2,
      ← (hsalsa20_words z hj).2, show 4 + (b - 16) / 4 = b / 4 by omega]

/-- `core` computes the published functions: with its last argument 0 the Salsa20 block, with 1
HSalsa20. -/
theorem core_is_salsa20 :
    coreSalsa20 input k c = salsa20 input k c ∧ coreHsalsa20 input k c = hsalsa20 input k c :=
  ⟨coreSalsa20_eq input k c, coreHsalsa20_eq input k c⟩

end Core

end Salsa20

end TweetNacl
