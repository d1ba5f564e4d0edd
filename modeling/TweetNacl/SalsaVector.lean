import Mathlib.Tactic.IntervalCases
import TweetNacl.Lib.Indexing
import TweetNacl.Lib.Memory
import TweetNacl.Salsa20Correct

/-!
# The vector Salsa20 cores

`salsa20_sse2`, `salsa20_avx2` and `salsa20_neon` keep the state in four registers of 32-bit lanes.
The intrinsics are lane-wise, so the three round functions are one function of the number of lanes;
what differs is how the registers are stored and reloaded between the rounds.
-/

namespace TweetNacl

namespace Salsa20

open Memory

section Lanes

variable {n : ℕ}

/-- `_mm_add_epi32`, `_mm256_add_epi32`, `vaddq_u32`. -/
def addLanes (a b : Vector UInt32 n) : Vector UInt32 n := Vector.ofFn fun i => a.get i + b.get i

/-- `_mm_xor_si128`, `_mm256_xor_si256`, `veorq_u32`. -/
def xorLanes (a b : Vector UInt32 n) : Vector UInt32 n := Vector.ofFn fun i => a.get i ^^^ b.get i

/-- `_mm_or_si128`, `_mm256_or_si256`, `vorrq_u32`. -/
def orLanes (a b : Vector UInt32 n) : Vector UInt32 n := Vector.ofFn fun i => a.get i ||| b.get i

/-- `_mm_slli_epi32`, `_mm256_slli_epi32`, `vshlq_n_u32`. -/
def slliLanes (a : Vector UInt32 n) (count : UInt32) : Vector UInt32 n :=
  Vector.ofFn fun i => a.get i <<< count

/-- `_mm_srli_epi32`, `_mm256_srli_epi32`, `vshrq_n_u32`. -/
def srliLanes (a : Vector UInt32 n) (count : UInt32) : Vector UInt32 n :=
  Vector.ofFn fun i => a.get i >>> count

/-- The four registers of the state. -/
structure Registers (n : ℕ) where
  x0 : Vector UInt32 n
  x1 : Vector UInt32 n
  x2 : Vector UInt32 n
  x3 : Vector UInt32 n
deriving DecidableEq

/-- A round on every lane. -/
def vectorRound (r : Registers n) : Registers n :=
  let t := addLanes r.x0 r.x3
  let t := orLanes (slliLanes t 7) (srliLanes t 25)
  let x1 := xorLanes r.x1 t
  let t := addLanes x1 r.x0
  let t := orLanes (slliLanes t 9) (srliLanes t 23)
  let x2 := xorLanes r.x2 t
  let t := addLanes x2 x1
  let t := orLanes (slliLanes t 13) (srliLanes t 19)
  let x3 := xorLanes r.x3 t
  let t := addLanes x3 x2
  let t := orLanes (slliLanes t 18) (srliLanes t 14)
  let x0 := xorLanes r.x0 t
  ⟨x0, x1, x2, x3⟩

/-- The final addition of the initial state. -/
def addRegisters (r y : Registers n) : Registers n :=
  ⟨addLanes r.x0 y.x0, addLanes r.x1 y.x1, addLanes r.x2 y.x2, addLanes r.x3 y.x3⟩

/-- `salsa20_sse2_round`. -/
def salsa20Sse2Round : Registers 4 → Registers 4 := vectorRound

/-- `salsa20_avx2_round`. -/
def salsa20Avx2Round : Registers 8 → Registers 8 := vectorRound

/-- `salsa20_neon_round`. -/
def salsa20NeonRound : Registers 4 → Registers 4 := vectorRound

end Lanes

section Layout

variable (x : Vector UInt32 16)

/-- Four registers of four lanes stored one after the other. -/
def storeRegisters (r : Registers 4) : Vector UInt32 16 :=
  #v[r.x0.nth 0, r.x0.nth 1, r.x0.nth 2, r.x0.nth 3, r.x1.nth 0, r.x1.nth 1, r.x1.nth 2, r.x1.nth 3,
    r.x2.nth 0, r.x2.nth 1, r.x2.nth 2, r.x2.nth 3, r.x3.nth 0, r.x3.nth 1, r.x3.nth 2, r.x3.nth 3]

/-- The transposition of the SSE2 core, with its temporary array. -/
def transposeWords : Vector UInt32 16 :=
  #v[x.nth 0, x.nth 4, x.nth 8, x.nth 12, x.nth 1, x.nth 5, x.nth 9, x.nth 13, x.nth 2, x.nth 6,
    x.nth 10, x.nth 14, x.nth 3, x.nth 7, x.nth 11, x.nth 15]

/-- The columns of the state, with `_mm_setr_epi32`. -/
def loadColumns : Registers 4 where
  x0 := #v[x.nth 0, x.nth 4, x.nth 8, x.nth 12]
  x1 := #v[x.nth 1, x.nth 5, x.nth 9, x.nth 13]
  x2 := #v[x.nth 2, x.nth 6, x.nth 10, x.nth 14]
  x3 := #v[x.nth 3, x.nth 7, x.nth 11, x.nth 15]

/-- The rows of the state, with `vld1q_u32`. -/
def loadRows : Registers 4 where
  x0 := #v[x.nth 0, x.nth 1, x.nth 2, x.nth 3]
  x1 := #v[x.nth 4, x.nth 5, x.nth 6, x.nth 7]
  x2 := #v[x.nth 8, x.nth 9, x.nth 10, x.nth 11]
  x3 := #v[x.nth 12, x.nth 13, x.nth 14, x.nth 15]

/-- The columns of the state next to themselves, with `_mm256_setr_epi32`. -/
def loadColumnsTwice : Registers 8 where
  x0 := #v[x.nth 0, x.nth 4, x.nth 8, x.nth 12, x.nth 0, x.nth 4, x.nth 8, x.nth 12]
  x1 := #v[x.nth 1, x.nth 5, x.nth 9, x.nth 13, x.nth 1, x.nth 5, x.nth 9, x.nth 13]
  x2 := #v[x.nth 2, x.nth 6, x.nth 10, x.nth 14, x.nth 2, x.nth 6, x.nth 10, x.nth 14]
  x3 := #v[x.nth 3, x.nth 7, x.nth 11, x.nth 15, x.nth 3, x.nth 7, x.nth 11, x.nth 15]

/-- The columns of the state next to zeros. -/
def loadColumnsZero : Registers 8 where
  x0 := #v[x.nth 0, x.nth 4, x.nth 8, x.nth 12, 0, 0, 0, 0]
  x1 := #v[x.nth 1, x.nth 5, x.nth 9, x.nth 13, 0, 0, 0, 0]
  x2 := #v[x.nth 2, x.nth 6, x.nth 10, x.nth 14, 0, 0, 0, 0]
  x3 := #v[x.nth 3, x.nth 7, x.nth 11, x.nth 15, 0, 0, 0, 0]

/-- The first two registers of eight lanes stored one after the other. The other two are not
stored. -/
def storeWide (r : Registers 8) : Vector UInt32 16 :=
  #v[r.x0.nth 0, r.x0.nth 1, r.x0.nth 2, r.x0.nth 3, r.x0.nth 4, r.x0.nth 5, r.x0.nth 6, r.x0.nth 7,
    r.x1.nth 0, r.x1.nth 1, r.x1.nth 2, r.x1.nth 3, r.x1.nth 4, r.x1.nth 5, r.x1.nth 6, r.x1.nth 7]

/-- What the AVX2 and the NEON core do with the stored state in place of a transposition. -/
def shuffleWords : Vector UInt32 16 :=
  let t := x.nth 1
  let x := x.put 1 (x.nth 4)
  let x := x.put 4 (x.nth 1)
  let x := x.put 1 t
  let t := x.nth 6
  let x := x.put 6 (x.nth 9)
  let x := x.put 9 (x.nth 6)
  let x := x.put 6 t
  let x := x.put 11 (x.nth 14)
  x.put 14 (x.nth 11)

end Layout

section Cores

variable (input : Vector UInt8 16) (k : Vector UInt8 32) (c : Vector UInt8 16)

/-- The state that the three cores start from. -/
def vectorInput : Vector UInt32 16 :=
  let inputWord := fun i => ld32 fun b => input.getD (i + b) 0
  let keyWord := fun i => ld32 fun b => k.getD (i + b) 0
  let constantWord := fun i => ld32 fun b => c.getD (i + b) 0
  #v[constantWord 0, keyWord 0, inputWord 0, keyWord 16, keyWord 16, constantWord 4, keyWord 4,
    inputWord 4, inputWord 8, keyWord 20, constantWord 8, keyWord 8, keyWord 12, inputWord 12,
    keyWord 28, constantWord 12]

/-- One iteration of the loop of `salsa20_sse2`. -/
def sse2DoubleRound (r : Registers 4) : Registers 4 :=
  let x := storeRegisters (salsa20Sse2Round r)
  let t := transposeWords x
  let t := storeRegisters (salsa20Sse2Round (loadColumns t))
  let x := transposeWords t
  loadColumns x

/-- `salsa20_sse2`. -/
def salsa20Sse2 : Vector UInt8 64 :=
  let y := loadColumns (vectorInput input k c)
  let r := Nat.fold 10 (fun _ _ r => sse2DoubleRound r) y
  stateBytes (storeRegisters (addRegisters r y))

/-- One iteration of the loop of `salsa20_avx2`. -/
def avx2DoubleRound (r : Registers 8) : Registers 8 :=
  let x := shuffleWords (storeWide (salsa20Avx2Round r))
  let x := shuffleWords (storeWide (salsa20Avx2Round (loadColumnsZero x)))
  loadColumnsZero x

/-- `salsa20_avx2`. -/
def salsa20Avx2 : Vector UInt8 64 :=
  let y := loadColumnsTwice (vectorInput input k c)
  let r := Nat.fold 10 (fun _ _ r => avx2DoubleRound r) y
  stateBytes (storeWide (addRegisters r y))

/-- One iteration of the loop of `salsa20_neon`. -/
def neonDoubleRound (r : Registers 4) : Registers 4 :=
  let x := shuffleWords (storeRegisters (salsa20NeonRound r))
  let x := shuffleWords (storeRegisters (salsa20NeonRound (loadRows x)))
  loadRows x

/-- `salsa20_neon`. -/
def salsa20Neon : Vector UInt8 64 :=
  let y := loadRows (vectorInput input k c)
  let r := Nat.fold 10 (fun _ _ r => neonDoubleRound r) y
  stateBytes (storeRegisters (addRegisters r y))

end Cores

section Rounds

variable {n : ℕ}

/-- The four steps of a round on the four words of one lane. -/
def quarter (t : Vector UInt32 4) : Vector UInt32 4 :=
  let t := t.put 1 (t.nth 1 ^^^ L32 (t.nth 0 + t.nth 3) 7)
  let t := t.put 2 (t.nth 2 ^^^ L32 (t.nth 1 + t.nth 0) 9)
  let t := t.put 3 (t.nth 3 ^^^ L32 (t.nth 2 + t.nth 1) 13)
  t.put 0 (t.nth 0 ^^^ L32 (t.nth 3 + t.nth 2) 18)

/-- A rotation is two shifts. -/
theorem L32_eq (x : UInt32) (c : ℕ) :
    L32 x c = (x <<< UInt32.ofNat c) ||| (x >>> UInt32.ofNat (32 - c)) := by
  rw [L32, show (0xffffffff : UInt32) = -1 from rfl, UInt32.and_neg_one]

/-- The words in lane `i`. -/
def Registers.lane (r : Registers n) (i : Fin n) : Vector UInt32 4 :=
  #v[r.x0.get i, r.x1.get i, r.x2.get i, r.x3.get i]

/-- `addLanes` adds lane by lane. -/
@[simp] theorem get_addLanes (a b : Vector UInt32 n) (i : Fin n) :
    (addLanes a b).get i = a.get i + b.get i :=
  Vector.getElem_ofFn i.isLt

/-- `xorLanes` works lane by lane. -/
@[simp] theorem get_xorLanes (a b : Vector UInt32 n) (i : Fin n) :
    (xorLanes a b).get i = a.get i ^^^ b.get i :=
  Vector.getElem_ofFn i.isLt

/-- `orLanes` works lane by lane. -/
@[simp] theorem get_orLanes (a b : Vector UInt32 n) (i : Fin n) :
    (orLanes a b).get i = a.get i ||| b.get i :=
  Vector.getElem_ofFn i.isLt

/-- `slliLanes` shifts lane by lane. -/
@[simp] theorem get_slliLanes (a : Vector UInt32 n) (count : UInt32) (i : Fin n) :
    (slliLanes a count).get i = a.get i <<< count := Vector.getElem_ofFn i.isLt

/-- `srliLanes` shifts lane by lane. -/
@[simp] theorem get_srliLanes (a : Vector UInt32 n) (count : UInt32) (i : Fin n) :
    (srliLanes a count).get i = a.get i >>> count := Vector.getElem_ofFn i.isLt

/-- A quarter round on four named words. -/
theorem quarter_mk (a b c d : UInt32) :
    quarter #v[a, b, c, d] =
      let b := b ^^^ L32 (a + d) 7
      let c := c ^^^ L32 (b + a) 9
      let d := d ^^^ L32 (c + b) 13
      #v[a ^^^ L32 (d + c) 18, b, c, d] := rfl

/-- A shift to each side is a rotation of the lanes. -/
theorem get_rotate (t : Vector UInt32 n) (c : ℕ) (i : Fin n) :
    (orLanes (slliLanes t (UInt32.ofNat c)) (srliLanes t (UInt32.ofNat (32 - c)))).get i = L32
      (t.get i) c := by
  rw [L32_eq, get_orLanes, get_slliLanes, get_srliLanes]

/-- A vector round is a quarter round in each lane. -/
theorem lane_vectorRound (r : Registers n) (i : Fin n) :
    (vectorRound r).lane i = quarter (r.lane i) := by
  have h7 : ∀ t : Vector UInt32 n, (orLanes (slliLanes t 7) (srliLanes t 25)).get i = L32
      (t.get i) 7 := fun t =>
    get_rotate t 7 i
  have h9 : ∀ t : Vector UInt32 n, (orLanes (slliLanes t 9) (srliLanes t 23)).get i = L32
      (t.get i) 9 := fun t =>
    get_rotate t 9 i
  have h13 : ∀ t : Vector UInt32 n, (orLanes (slliLanes t 13) (srliLanes t 19)).get i = L32
      (t.get i) 13 := fun t =>
    get_rotate t 13 i
  have h18 : ∀ t : Vector UInt32 n, (orLanes (slliLanes t 18) (srliLanes t 14)).get i = L32
      (t.get i) 18 := fun t =>
    get_rotate t 18 i
  rw [Registers.lane, Registers.lane, quarter_mk]
  simp only [vectorRound, get_addLanes, get_xorLanes, h7, h9, h13, h18]

/-- Four lanes are the vector. -/
theorem four_lanes (a : Vector UInt32 4) : #v[a.nth 0, a.nth 1, a.nth 2, a.nth 3] = a := by
  refine Vector.ext fun i hi => ?_
  interval_cases i <;> rfl

/-- The transposition undoes the storing of the registers. -/
theorem loadColumns_transposeWords (r : Registers 4) :
    loadColumns (transposeWords (storeRegisters r)) = r := by
  change (⟨#v[r.x0.nth 0, r.x0.nth 1, r.x0.nth 2, r.x0.nth 3],
    #v[r.x1.nth 0, r.x1.nth 1, r.x1.nth 2, r.x1.nth 3],
    #v[r.x2.nth 0, r.x2.nth 1, r.x2.nth 2, r.x2.nth 3],
    #v[r.x3.nth 0, r.x3.nth 1, r.x3.nth 2, r.x3.nth 3]⟩ :
    Registers 4) = r
  rw [four_lanes, four_lanes, four_lanes, four_lanes]

/-- Between its rounds `salsa20_sse2` goes back to the layout it came from. -/
theorem sse2DoubleRound_eq (r : Registers 4) : sse2DoubleRound r = vectorRound (vectorRound r) := by
  simp only [sse2DoubleRound, loadColumns_transposeWords]
  rfl

/-- The state of `salsa20_sse2` in row `i`. -/
def sse2Row (x : Vector UInt32 16) (i : Fin 4) : Vector UInt32 4 := (loadColumns x).lane i

/-- `salsa20_sse2` runs twenty rounds on each row by itself, and writes the columns of the
result. -/
theorem salsa20Sse2_eq (input : Vector UInt8 16) (k : Vector UInt8 32) (c : Vector UInt8 16) :
    ∃ r : Registers 4, salsa20Sse2 input k c =
        stateBytes (storeRegisters (addRegisters r (loadColumns (vectorInput input k c)))) ∧
      ∀ i, r.lane i = quarter^[20] (sse2Row (vectorInput input k c) i) := by
  refine ⟨_, rfl, fun i => ?_⟩
  have hloop :
    ∀ l, (Nat.fold l (fun _ _ r => sse2DoubleRound r) (loadColumns (vectorInput input k c))).lane
      i = quarter^[2 * l] (sse2Row (vectorInput input k c) i) := fun l => by
    induction l with
    | zero => rfl
    | succ l ih =>
      rw [Nat.fold_succ, sse2DoubleRound_eq, lane_vectorRound, lane_vectorRound, ih, Nat.mul_succ,
        Function.iterate_succ_apply', Function.iterate_succ_apply']
  exact hloop 10

/-- The lanes of `salsa20_avx2` above the fourth are empty after every iteration. -/
theorem avx2DoubleRound_high (r : Registers 8) {i : ℕ} (hi : 4 ≤ i) (hi' : i < 8) :
    (avx2DoubleRound r).x0[i] = 0 ∧ (avx2DoubleRound r).x1[i] = 0 := by
  simp only [avx2DoubleRound, loadColumnsZero]
  interval_cases i <;> exact ⟨rfl, rfl⟩

/-- The wide store writes the upper lanes of two registers. -/
theorem storeWide_high (r : Registers 8) {i : ℕ} (hi : i < 4) :
    (storeWide r)[4 + i] = r.x0[4 + i] ∧ (storeWide r)[12 + i] = r.x1[4 + i] := by
  interval_cases i <;> exact ⟨rfl, rfl⟩

/-- The wide load fills the upper lanes with the columns again. -/
theorem loadColumnsTwice_high (x : Vector UInt32 16) {i : ℕ} (hi : i < 4) :
    (loadColumnsTwice x).x0[4 + i] = x[4 * i] ∧ (loadColumnsTwice x).x1[4 + i] = x[4 * i + 1] := by
  interval_cases i <;> exact ⟨rfl, rfl⟩

/-- `salsa20_avx2` writes eight words of its input as they are. -/
theorem salsa20Avx2_leaks (input : Vector UInt8 16) (k : Vector UInt8 32) (c : Vector UInt8 16) :
    ∃ x : Vector UInt32 16, salsa20Avx2 input k c = stateBytes x ∧
      ∀ i (hi : i < 4), x[4 + i] = (vectorInput input k c)[4 * i] ∧
        x[12 + i] = (vectorInput input k c)[4 * i + 1] := by
  generalize hy : vectorInput input k c = y
  obtain ⟨r, hr⟩ : ∃ r, r = Nat.fold 9 (fun _ _ r => avx2DoubleRound r) (loadColumnsTwice y) :=
    ⟨_, rfl⟩
  refine ⟨storeWide (addRegisters (avx2DoubleRound r) (loadColumnsTwice y)), ?_, fun i hi => ?_⟩
  · rw [hr, salsa20Avx2, hy, Nat.fold_succ]
  · obtain ⟨hr0, hr1⟩ := avx2DoubleRound_high r (show 4 ≤ 4 + i by omega) (by omega)
    obtain ⟨hy0, hy1⟩ := loadColumnsTwice_high y hi
    have hsum : ∀ a b : Vector UInt32 8, (addLanes a b)[4 + i] = a[4 + i] + b[4 + i] := fun a b =>
      get_addLanes a b ⟨4 + i, by omega⟩
    rw [(storeWide_high _ hi).1, (storeWide_high _ hi).2, ← hy0, ← hy1]
    simp only [addRegisters, hsum, hr0, hr1, UInt32.zero_add, and_self]

end Rounds

section Agreement

variable (input : Vector UInt8 16) (k : Vector UInt8 32) (c : Vector UInt8 16)

/-- The vector cores compute what the scalar one does. -/
def VectorCoresAgree : Prop :=
  salsa20Sse2 input k c = coreSalsa20 input k c ∧ salsa20Avx2 input k c = coreSalsa20 input k c ∧
    salsa20Neon input k c = coreSalsa20 input k c

instance : Decidable (VectorCoresAgree input k c) := inferInstanceAs (Decidable (_ ∧ _ ∧ _))

/-- Iterating a function does not leave a fixed point. -/
theorem fold_of_fixed {α : Type*} {f : α → α} {x : α} (hx : f x = x) (n : ℕ) :
    Nat.fold n (fun _ _ y => f y) x = x := by
  induction n with
  | zero => rfl
  | succ n ih => rw [Nat.fold_succ, ih, hx]

/-- A state of zeros is set up from zero words only. -/
theorem initialState_words {input : Vector UInt8 16} {k : Vector UInt8 32} {c : Vector UInt8 16}
    (h : initialState input k c = Vector.replicate 16 0) :
    (∀ i < 4, littleendian c i = 0) ∧ (∀ i < 8, littleendian k i = 0) ∧
      ∀ i < 4, littleendian input i = 0 := by
  have hword : ∀ i (hi : i < 16), (initialState input k c)[i] = 0 := fun i hi => by
    rw [h, Vector.getElem_replicate]
  clear h
  rw [initialState] at hword
  generalize littleendian c = wc at *
  generalize littleendian k = wk at *
  generalize littleendian input = wi at *
  refine ⟨fun i hi => ?_, fun i hi => ?_, fun i hi => ?_⟩
  · have hi' := hword (5 * i) (by omega)
    interval_cases i <;> exact hi'
  · have hlow := hword (1 + i % 4) (by omega)
    have hhigh := hword (11 + i % 4) (by omega)
    interval_cases i
    · exact hlow
    · exact hlow
    · exact hlow
    · exact hlow
    · exact hhigh
    · exact hhigh
    · exact hhigh
    · exact hhigh
  · have hi' := hword (6 + i) (by omega)
    interval_cases i <;> exact hi'

/-- The places of the words that the vector cores load. -/
def arranged (wi wk wc : ℕ → UInt32) : Vector UInt32 16 :=
  #v[wc 0, wk 0, wi 0, wk 16, wk 16, wc 4, wk 4, wi 4,
    wi 8, wk 20, wc 8, wk 8, wk 12, wi 12, wk 28, wc 12]

/-- The words are loaded from every fourth byte. -/
theorem vectorInput_arranged :
    vectorInput input k c = arranged (fun i => ld32 fun b => input.getD (i + b) 0)
      (fun i => ld32 fun b => k.getD (i + b) 0) (fun i => ld32 fun b => c.getD (i + b) 0) := by
  unfold vectorInput arranged
  exact Eq.refl _

/-- Zero words stay zero wherever they go. -/
theorem arranged_zero {wi wk wc : ℕ → UInt32} (hi : ∀ i < 4, wi (4 * i) = 0)
    (hk : ∀ i < 8, wk (4 * i) = 0) (hc : ∀ i < 4, wc (4 * i) = 0) :
    arranged wi wk wc = Vector.replicate 16 0 := by
  refine Vector.ext fun p hp => ?_
  rw [Vector.getElem_replicate]
  interval_cases p
  · exact hc 0 (by decide)
  · exact hk 0 (by decide)
  · exact hi 0 (by decide)
  · exact hk 4 (by decide)
  · exact hk 4 (by decide)
  · exact hc 1 (by decide)
  · exact hk 1 (by decide)
  · exact hi 1 (by decide)
  · exact hi 2 (by decide)
  · exact hk 5 (by decide)
  · exact hc 2 (by decide)
  · exact hk 2 (by decide)
  · exact hk 3 (by decide)
  · exact hi 3 (by decide)
  · exact hk 7 (by decide)
  · exact hc 3 (by decide)

/-- Every word that the vector cores load is one of the words that `core` loads. -/
theorem vectorInput_of_zero {input : Vector UInt8 16} {k : Vector UInt8 32} {c : Vector UInt8 16}
    (h : coreInput input k c = Vector.replicate 16 0) :
    vectorInput input k c = Vector.replicate 16 0 := by
  rw [coreInput_eq] at h
  obtain ⟨hc, hk, hinput⟩ := initialState_words h
  rw [vectorInput_arranged]
  refine arranged_zero (fun i hi => ?_) (fun i hi => ?_) fun i hi => ?_
  · rw [← hinput i hi]
    exact ld32_littleendian _ i
  · rw [← hk i hi]
    exact ld32_littleendian _ i
  · rw [← hc i hi]
    exact ld32_littleendian _ i

/-- All the cores take the zero state to the zero block. -/
theorem vectorCoresAgree_of_zero (hstate : coreInput input k c = Vector.replicate 16 0) :
    VectorCoresAgree input k c := by
  -- The zero state is a fixed point of every round, so the loops go before anything is evaluated.
  have hcore : coreRounds input k c = Vector.replicate 16 0 := by
    rw [coreRounds, hstate]
    exact fold_of_fixed (show coreRound _ = _ by decide +kernel) 20
  have hinput := vectorInput_of_zero hstate
  have hsse2 : sse2DoubleRound (loadColumns (Vector.replicate 16 0)) =
      loadColumns (Vector.replicate 16 0) := by decide +kernel
  have havx2 : avx2DoubleRound (loadColumnsTwice (Vector.replicate 16 0)) =
      loadColumnsTwice (Vector.replicate 16 0) := by decide +kernel
  have hneon : neonDoubleRound (loadRows (Vector.replicate 16 0)) =
      loadRows (Vector.replicate 16 0) := by decide +kernel
  rw [VectorCoresAgree, salsa20Sse2, salsa20Avx2, salsa20Neon, coreSalsa20, hcore, hstate, hinput,
    fold_of_fixed hsse2, fold_of_fixed havx2, fold_of_fixed hneon]
  clear hcore hstate hinput hsse2 havx2 hneon
  decide +kernel

/-- The zero input, key and constant give the zero state. -/
theorem vectorCoresAgree_zero :
    VectorCoresAgree (Vector.replicate 16 0) (Vector.replicate 32 0) (Vector.replicate 16 0) :=
  vectorCoresAgree_of_zero _ _ _ (by decide +kernel)

/-- With the constant of the stream functions none of them agrees, already under the zero key. -/
theorem vectorCores_differ :
    let input := Vector.replicate 16 0
    let k := Vector.replicate 32 0
    salsa20Sse2 input k sigma ≠ coreSalsa20 input k sigma ∧
    salsa20Avx2 input k sigma ≠ coreSalsa20 input k sigma ∧
      salsa20Neon input k sigma ≠ coreSalsa20 input k sigma := by
  have hcore : (coreSalsa20 (Vector.replicate 16 0) (Vector.replicate 32 0) sigma)[0] = 154 := by
    decide +kernel
  refine ⟨fun h => ?_, fun h => ?_, fun h => ?_⟩
  · exact absurd (congrArg (fun v => v[0]) h |>.trans hcore) (by decide +kernel)
  · exact absurd (congrArg (fun v => v[0]) h |>.trans hcore) (by decide +kernel)
  · exact absurd (congrArg (fun v => v[0]) h |>.trans hcore) (by decide +kernel)

end Agreement

section Hsalsa

/-- A vector core called through its pointers. -/
def vectorCore (f : Vector UInt8 16 → Vector UInt8 32 → Vector UInt8 16 → Vector UInt8 64)
    (out input k c : Addr) : Exec Int32 := do
  let input ← loadVec input 16
  let k ← loadVec k 32
  let c ← loadVec c 16
  storeVec out (f input k c)
  pure 0

/-- `hsalsa20_sse2`. -/
def hsalsa20Sse2 (out input k c : Addr) : Exec Int32 := vectorCore salsa20Sse2 out input k c

/-- `hsalsa20_avx2`. -/
def hsalsa20Avx2 (out input k c : Addr) : Exec Int32 := vectorCore salsa20Avx2 out input k c

/-- `hsalsa20_neon`. -/
def hsalsa20Neon (out input k c : Addr) : Exec Int32 := vectorCore salsa20Neon out input k c

/-- A call of `hsalsa20` writes the bytes of `crypto_core_hsalsa20` to `out`, and no others. -/
def HsalsaAgrees (hsalsa20 : Addr → Addr → Addr → Addr → Exec Int32) (mem : Mem)
    (out input k c : Addr) : Prop :=
  ∃ mem', Runs (hsalsa20 out input k c) mem 0 mem' ∧
    mem'.vec out 32 = coreHsalsa20 (mem.vec input 16) (mem.vec k 32) (mem.vec c 16) ∧
    mem.Frame mem' out 32

variable {f : Vector UInt8 16 → Vector UInt8 32 → Vector UInt8 16 → Vector UInt8 64} {mem : Mem}
  {out input k c : Addr}

/-- A vector core reads its three arguments and writes 64 bytes. -/
theorem vectorCore_runs (hout : mem.Valid out 64) (hinput : mem.Valid input 16)
    (hk : mem.Valid k 32) (hc : mem.Valid c 16) :
    Runs (vectorCore f out input k c) mem 0
      (mem.writeVec out (f (mem.vec input 16) (mem.vec k 32) (mem.vec c 16))) :=
  Runs.bind (Runs.loadVec hinput) (Runs.bind (Runs.loadVec hk) (Runs.bind (Runs.loadVec hc)
    (Runs.bind (Runs.storeVec hout _) (Runs.pure 0 _))))

/-- A core that writes 64 bytes runs over a shorter buffer. -/
theorem vectorCore_faults {n : ℕ} (hn : n < 64) (hout : mem.size out.obj = out.off + n)
    (hinput : mem.Valid input 16) (hk : mem.Valid k 32) (hc : mem.Valid c 16) :
    Faults (vectorCore f out input k c) mem (.store (out + n)) :=
  Faults.bind_right (Runs.loadVec hinput) (Faults.bind_right (Runs.loadVec hk) (Faults.bind_right
    (Runs.loadVec hc) (Faults.bind_left (Faults.fill _ hn hout))))

/-- A core that writes 64 bytes does not agree on a buffer of 32. -/
theorem vectorCore_not_agrees (hout : mem.size out.obj = out.off + 32) (hinput : mem.Valid input 16)
    (hk : mem.Valid k 32) (hc : mem.Valid c 16) : ¬ HsalsaAgrees (vectorCore f) mem out input k c :=
  fun ⟨_, hruns, _⟩ => hruns.not_faults (vectorCore_faults (by decide) hout hinput hk hc)

/-- None of the vector entry points writes what `crypto_core_hsalsa20` does: each of them goes on
past the 32 bytes that its callers pass. -/
theorem not_hsalsaAgrees (hout : mem.size out.obj = out.off + 32) (hinput : mem.Valid input 16)
    (hk : mem.Valid k 32) (hc : mem.Valid c 16) :
    ¬ HsalsaAgrees hsalsa20Sse2 mem out input k c ∧ ¬ HsalsaAgrees hsalsa20Avx2 mem out input k c ∧
      ¬ HsalsaAgrees hsalsa20Neon mem out input k c :=
  ⟨vectorCore_not_agrees hout hinput hk hc, vectorCore_not_agrees hout hinput hk hc,
    vectorCore_not_agrees hout hinput hk hc⟩

/-- None of the three agrees on the zero arguments. -/
theorem not_hsalsaAgrees_zero :
    let mem := Mem.ofSizes [32, 16, 32, 16]
    ¬ HsalsaAgrees hsalsa20Sse2 mem ⟨0, 0⟩ ⟨1, 0⟩ ⟨2, 0⟩ ⟨3, 0⟩ ∧
      ¬ HsalsaAgrees hsalsa20Avx2 mem ⟨0, 0⟩ ⟨1, 0⟩ ⟨2, 0⟩ ⟨3, 0⟩ ∧
      ¬ HsalsaAgrees hsalsa20Neon mem ⟨0, 0⟩ ⟨1, 0⟩ ⟨2, 0⟩ ⟨3, 0⟩ :=
  not_hsalsaAgrees rfl (by decide) (by decide) (by decide)

/-- Nor are the bytes that fit into the buffer those of the subkey, already for the zero key. -/
theorem not_hsalsaAgrees_sigma :
    let mem := (Mem.ofSizes [32, 16, 32, 16]).writeVec ⟨3, 0⟩ sigma
    (¬ HsalsaAgrees hsalsa20Sse2 mem ⟨0, 0⟩ ⟨1, 0⟩ ⟨2, 0⟩ ⟨3, 0⟩ ∧
      ¬ HsalsaAgrees hsalsa20Avx2 mem ⟨0, 0⟩ ⟨1, 0⟩ ⟨2, 0⟩ ⟨3, 0⟩ ∧
      ¬ HsalsaAgrees hsalsa20Neon mem ⟨0, 0⟩ ⟨1, 0⟩ ⟨2, 0⟩ ⟨3, 0⟩) ∧
    let input := Vector.replicate 16 0
    let k := Vector.replicate 32 0
    (coreHsalsa20 input k sigma).nth 0 ∉
      [(salsa20Sse2 input k sigma).nth 0, (salsa20Avx2 input k sigma).nth 0,
        (salsa20Neon input k sigma).nth 0] := by
  have hnot : ∀ f, ¬ HsalsaAgrees (vectorCore f)
      ((Mem.ofSizes [32, 16, 32, 16]).writeVec ⟨3, 0⟩ sigma) ⟨0, 0⟩ ⟨1, 0⟩ ⟨2, 0⟩ ⟨3, 0⟩ :=
      fun f => vectorCore_not_agrees rfl (by decide) (by decide) (by decide)
  exact ⟨⟨hnot _, hnot _, hnot _⟩, by decide +kernel⟩

end Hsalsa

end Salsa20

end TweetNacl
