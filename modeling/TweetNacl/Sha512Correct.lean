import TweetNacl.Fips180
import TweetNacl.Sha512
import TweetNacl.Lib.Loops
import Mathlib.Data.List.GetD
import Mathlib.Data.List.OfFn
import Mathlib.Tactic.NormNum
import Mathlib.Tactic.Ring

/-!
# The SHA-512 code computes the standard

The sixteen words of the code are, in round `i`, the words of the schedule from
`16 * (i / 16)` on; the in-place update of the window and the rotation of the working
variables are each one lemma. The two calls of `crypto_hashblocks` go through the padded
message of the standard, block after block.
-/

namespace TweetNacl

open Memory

namespace Sha512

open Fips180

section Functions

/-- A shift amount below 64 is taken as it is. -/
private theorem shiftAmount {c : ℕ} (hc : c < 64) : ((UInt64.ofNat c).toBitVec % 64).toNat = c := by
  have h : ∀ c < 64, ((UInt64.ofNat c).toBitVec % 64).toNat = c := by decide
  exact h c hc

/-- The rotation by shifts is the rotation of the standard. -/
theorem R_eq {c : ℕ} (hpos : 0 < c) (hc : c < 64) (x : UInt64) : R x c = ROTR c x := by
  apply UInt64.toBitVec_inj.mp
  simp only [R, ROTR, UInt64.toBitVec_or, UInt64.toBitVec_shiftRight, UInt64.toBitVec_shiftLeft,
    BitVec.shiftLeft_eq', BitVec.ushiftRight_eq', shiftAmount hc,
    shiftAmount (show 64 - c < 64 by omega)]
  rw [BitVec.rotateRight_def, Nat.mod_eq_of_lt hc]

/-- The code's `Sigma0` is that of the standard. -/
theorem Sigma0_eq (x : UInt64) : Sigma0 x = bigSigma0 x := by
  simp (disch := norm_num) only [Sigma0, bigSigma0, R_eq]

/-- The code's `Sigma1` is that of the standard. -/
theorem Sigma1_eq (x : UInt64) : Sigma1 x = bigSigma1 x := by
  simp (disch := norm_num) only [Sigma1, bigSigma1, R_eq]

/-- The code's `sigma0` is that of the standard. -/
theorem sigma0_eq (x : UInt64) : sigma0 x = smallSigma0 x := by
  simp (disch := norm_num) only [sigma0, smallSigma0, R_eq]
  rfl

/-- The code's `sigma1` is that of the standard. -/
theorem sigma1_eq (x : UInt64) : sigma1 x = smallSigma1 x := by
  simp (disch := norm_num) only [sigma1, smallSigma1, R_eq]
  rfl

/-- The primes that the standard's constants come from. -/
theorem primes_eq : Fips180.primes = [2, 3, 5, 7, 11, 13, 17, 19, 23, 29, 31, 37, 41,
    43, 47, 53, 59, 61, 67, 71, 73, 79, 83, 89, 97, 101, 103, 107, 109, 113, 127, 131, 137, 139,
    149, 151, 157, 163, 167, 173, 179, 181, 191, 193, 197, 199, 211, 223, 227, 229, 233, 239, 241,
    251, 257, 263, 269, 271, 277, 281, 283, 293, 307, 311, 313, 317, 331, 337, 347, 349, 353, 359,
    367, 373, 379, 383, 389, 397, 401, 409] := by decide +kernel

/-- The table of the code holds the constants of the standard. -/
theorem K_eq {i : ℕ} (hi : i < 80) : K[i] = Fips180.K i := by
  have h : ∀ i (hi : i < 80), K[i] = fractionBits 3 ([2, 3, 5, 7, 11, 13, 17, 19, 23,
    29, 31, 37, 41, 43, 47, 53, 59, 61, 67, 71, 73, 79, 83, 89, 97, 101, 103, 107, 109, 113, 127,
    131, 137, 139, 149, 151, 157, 163, 167, 173, 179, 181, 191, 193, 197, 199, 211, 223, 227, 229,
    233, 239, 241, 251, 257, 263, 269, 271, 277, 281, 283, 293, 307, 311, 313, 317, 331, 337, 347,
    349, 353, 359, 367, 373, 379, 383, 389, 397, 401, 409].getD i 0) := by decide +kernel
  rw [h i hi, Fips180.K, primes_eq]

end Functions

section Schedule

variable {M : ℕ → UInt64}

/-- The first sixteen words of the schedule are the block. -/
theorem W_of_lt {t : ℕ} (ht : t < 16) : W M t = M t := by
  rw [W, if_pos ht]

/-- A later word of the schedule comes from four earlier ones. -/
theorem W_of_ge {t : ℕ} (ht : 16 ≤ t) :
    W M t = smallSigma1 (W M (t - 2)) + W M (t - 7) + smallSigma0 (W M (t - 15)) + W M
      (t - 16) := by
  rw [W, if_neg (by omega)]

/-- The window of the code: sixteen consecutive words of the schedule. -/
def Window (M : ℕ → UInt64) (base : ℕ) (w : Vector UInt64 16) : Prop :=
  ∀ j (hj : j < 16), w[j] = W M (base + j)

/-- The in-place update moves the window on by sixteen words. An entry the update of entry `j` reads
has already been moved exactly when its index is below `j`. -/
theorem Window.extend {base : ℕ} {w : Vector UInt64 16} (h : Window M base w) :
    Window M (base + 16) (extendSchedule w) := by
  have hinv := Loops.fold_invariant (n := 16)
    (f := fun j _ (w : Vector UInt64 16) =>
      have : (j + 9) % 16 < 16 := Nat.mod_lt _ (by omega)
      have : (j + 1) % 16 < 16 := Nat.mod_lt _ (by omega)
      have : (j + 14) % 16 < 16 := Nat.mod_lt _ (by omega)
      w.set j (w[j] + (w[(j + 9) % 16] + sigma0 w[(j + 1) % 16] + sigma1 w[(j + 14) % 16])))
        (s := w)
    (fun n w => ∀ j (hj : j < 16), w[j] = if j < n then W M (base + 16 + j) else W M (base + j))
    (fun j hj => by simpa using h j hj) ?_
  · intro j hj
    have := hinv j hj
    rwa [if_pos hj] at this
  · intro i hi w hw j hj
    have h0 := hw i hi
    have h9 := hw ((i + 9) % 16) (Nat.mod_lt _ (by omega))
    have h1 := hw ((i + 1) % 16) (Nat.mod_lt _ (by omega))
    have h14 := hw ((i + 14) % 16) (Nat.mod_lt _ (by omega))
    rw [if_neg (lt_irrefl i)] at h0
    have h9' : w[(i + 9) % 16] = W M (base + 16 + i - 7) := by
      rw [h9]
      split_ifs <;> congr 1 <;> omega
    have h1' : w[(i + 1) % 16] = W M (base + 16 + i - 15) := by
      rw [h1]
      split_ifs <;> congr 1 <;> omega
    have h14' : w[(i + 14) % 16] = W M (base + 16 + i - 2) := by
      rw [h14]
      split_ifs <;> congr 1 <;> omega
    rw [Vector.getElem_set]
    by_cases hij : i = j
    · subst hij
      rw [if_pos rfl, if_pos (by omega), W_of_ge (by omega), h0, h9', h1', h14',
        sigma0_eq, sigma1_eq,
        show base + 16 + i - 16 = base + i by omega]
      ac_rfl
    · rw [if_neg hij, hw j hj]
      split_ifs <;> first | rfl | omega

end Schedule

section Rounds

variable {M : ℕ → UInt64}

/-- The working variables of the code as those of the standard. -/
def toWork (a : Vector UInt64 8) : Work := ⟨a[0], a[1], a[2], a[3], a[4], a[5], a[6], a[7]⟩

/-- The index permutation of the code is the renaming of the working variables. -/
theorem toWork_roundStep {i : ℕ} (hi : i < 80) {w : Vector UInt64 16}
    (hw : Window M (16 * (i / 16)) w)
    (a : Vector UInt64 8) : toWork (roundStep i hi w a) = (toWork a).round M i := by
  have hword : w[i % 16] = W M i := by
    rw [hw (i % 16) (Nat.mod_lt _ (by omega)), Nat.div_add_mod]
  simp [toWork, roundStep, Work.round, hword, K_eq hi, Sigma0_eq, Sigma1_eq, Vector.getElem_set,
    Ch, Maj, Fips180.Ch, Fips180.Maj, UInt64.add_assoc]

/-- The eighty rounds of the code are those of the standard. -/
theorem toWork_rounds {m : List UInt8} (hM : ∀ t (ht : t < 16), (blockWords m)[t] = M t)
    (a : Vector UInt64 8) :
    toWork (rounds a m) = Nat.fold 80 (fun t _ v => v.round M t) (toWork a) := by
  have hinv := Loops.fold_invariant (n := 80)
    (f := fun i hi (s : Vector UInt64 8 × Vector UInt64 16) =>
      (roundStep i hi s.2 s.1, if i % 16 = 15 then extendSchedule s.2 else s.2))
    (s := (a, blockWords m))
    (fun i s => toWork s.1 = Nat.fold i (fun t _ v => v.round M t) (toWork a) ∧
      Window M (16 * (i / 16)) s.2)
    ⟨rfl, fun j hj => by rw [hM j hj, Nat.zero_div, W_of_lt (by omega), Nat.mul_zero, Nat.zero_add]⟩
    ?_
  · exact hinv.1
  · rintro i hi ⟨a', w⟩ ⟨hwork, hwindow⟩
    refine ⟨?_, ?_⟩
    · rw [Nat.fold_succ, ← hwork]
      exact toWork_roundStep hi hwindow a'
    · by_cases h15 : i % 16 = 15
      · rw [if_pos h15, show 16 * ((i + 1) / 16) = 16 * (i / 16) + 16 by omega]
        exact hwindow.extend
      · rw [if_neg h15, show 16 * ((i + 1) / 16) = 16 * (i / 16) by omega]
        exact hwindow

/-- One block of the code is one step of the standard. -/
theorem toWork_hashBlock {m : List UInt8} (hM : ∀ t (ht : t < 16), (blockWords m)[t] = M t)
    (z : Vector UInt64 8) : toWork (hashBlock z m) = compress (toWork z) M := by
  rw [compress, ← toWork_rounds hM]
  simp [hashBlock, toWork, Work.add]

end Rounds

section Bytes

/-- A further byte is the lowest. -/
theorem bigEndian_append (l : List UInt8) (b : UInt8) :
    bigEndian (l ++ [b]) = 256 * bigEndian l + b.toNat := by
  simp [bigEndian]

/-- Shifting in a byte, as long as the word has room. -/
theorem shiftIn_toNat {u : UInt64} (hu : u.toNat < 2 ^ 56) (b : UInt8) :
    ((u <<< 8) ||| b.toUInt64).toNat = 256 * u.toNat + b.toNat := by
  have hb := b.toNat_lt
  rw [UInt64.toNat_or, UInt64.toNat_shiftLeft, UInt8.toNat_toUInt64]
  change (u.toNat <<< 8 % 2 ^ 64) ||| b.toNat = _
  rw [Nat.shiftLeft_eq, Nat.mod_eq_of_lt (by omega), ← Nat.shiftLeft_eq,
    ← Nat.shiftLeft_add_eq_or_of_lt hb, Nat.shiftLeft_eq]
  ring

/-- `dl64` reads eight bytes as a big-endian number. -/
theorem dl64_toNat (x : ℕ → UInt8) :
    (dl64 x).toNat = bigEndian (List.ofFn fun i : Fin 8 => x i.val) := by
  have hinv :=
    Loops.fold_invariant (n := 8) (f := fun i _ (u : UInt64) => (u <<< 8) ||| (x i).toUInt64)
    (s := (0 : UInt64))
    (fun n u => n ≤ 8 → u.toNat = bigEndian (List.ofFn fun i : Fin n => x i.val) ∧
      u.toNat < 256 ^ n) (fun _ => ⟨rfl, by norm_num⟩) ?_
  · exact (hinv le_rfl).1
  · intro i hi u hu _
    obtain ⟨hval, hlt⟩ := hu (by omega)
    have hroom : u.toNat < 2 ^ 56 := by
      refine hlt.trans_le ?_
      rw [show (2 : ℕ) ^ 56 = 256 ^ 7 by norm_num]
      exact Nat.pow_le_pow_right (by norm_num) (by omega)
    have hb := (x i).toNat_lt
    rw [shiftIn_toNat hroom, List.ofFn_succ', List.concat_eq_append, bigEndian_append, pow_succ]
    refine ⟨?_, by omega⟩
    rw [hval]
    rfl

/-- `dl64` reads eight bytes. -/
theorem dl64_congr {x y : ℕ → UInt8} (h : ∀ i < 8, x i = y i) : dl64 x = dl64 y := by
  apply UInt64.toNat_inj.mp
  rw [dl64_toNat, dl64_toNat]
  exact congrArg _ (congrArg List.ofFn (funext fun i => h i i.isLt))

/-- A byte of a word. -/
theorem ts64_getElem (u : UInt64) {i : ℕ} (hi : i < 8) :
    (ts64 u)[i].toNat = u.toNat / 256 ^ (7 - i) % 256 := by
  have hshift : ∀ k < 64, (UInt64.ofNat k).toNat % 64 = k := by decide
  rw [ts64, Vector.getElem_ofFn, UInt64.toNat_toUInt8, UInt64.toNat_shiftRight,
    Nat.shiftRight_eq_div_pow, hshift _ (by omega), pow_mul]
  rfl

/-- `dl64` undoes `ts64`. -/
theorem dl64_ts64 (u : UInt64) {x : ℕ → UInt8} (h : ∀ i (hi : i < 8), x i = (ts64 u)[i]) :
    dl64 x = u := by
  -- each byte moves the quotient one step down
  have hstep : ∀ k l, l = k + 1 →
      256 * (u.toNat / 256 ^ l) + u.toNat / 256 ^ k % 256 = u.toNat / 256 ^ k := by
    rintro k _ rfl
    rw [pow_succ, ← Nat.div_div_eq_div_mul]
    exact Nat.div_add_mod _ _
  have htop : 256 * 0 + u.toNat / 256 ^ 7 % 256 = u.toNat / 256 ^ 7 := by
    have h7 := hstep 7 8 rfl
    rwa [Nat.div_eq_of_lt (show u.toNat < 256 ^ 8 from u.toNat_lt)] at h7
  apply UInt64.toNat_inj.mp
  rw [dl64_toNat]
  simp only [List.ofFn_succ, List.ofFn_zero, Fin.val_zero, Fin.val_succ, bigEndian, List.foldl,
    h 0 (by omega), h (0 + 1) (by omega), h (0 + 1 + 1) (by omega), h (0 + 1 + 1 + 1) (by omega),
    h (0 + 1 + 1 + 1 + 1) (by omega), h (0 + 1 + 1 + 1 + 1 + 1) (by omega),
    h (0 + 1 + 1 + 1 + 1 + 1 + 1) (by omega), h (0 + 1 + 1 + 1 + 1 + 1 + 1 + 1) (by omega),
    ts64_getElem, Nat.reduceAdd, Nat.reduceSub, Nat.sub_zero]
  rw [htop, hstep 6 7 rfl, hstep 5 6 rfl, hstep 4 5 rfl, hstep 3 4 rfl, hstep 2 3 rfl,
    hstep 1 2 rfl, hstep 0 1 rfl, pow_zero, Nat.div_one]

/-- The chaining value survives between two calls. -/
theorem wordsOfBytes_bytesOfWords (z : Vector UInt64 8) : wordsOfBytes (bytesOfWords z) = z := by
  refine Vector.ext fun i hi => ?_
  rw [wordsOfBytes, Vector.getElem_ofFn]
  refine dl64_ts64 _ fun j hj => ?_
  have hdiv : (8 * i + j) / 8 = i := by omega
  have hmod : (8 * i + j) % 8 = j := by omega
  simp [Vector.getD, show 8 * i + j < 64 by omega, bytesOfWords, hdiv, hmod]

/-- The bytes of the chaining words are those of the standard. -/
theorem bytes_toWork (z : Vector UInt64 8) : (toWork z).bytes = (bytesOfWords z).toList := by
  have hword : ∀ u : UInt64, bigEndianBytes 8 u.toNat = (ts64 u).toList := by
    intro u
    refine List.ext_getElem (by simp [bigEndianBytes]) fun i h1 h2 => ?_
    have hi : i < 8 := by simpa using h2
    apply UInt8.toNat_inj.mp
    rw [Vector.getElem_toList, ts64_getElem u hi]
    simp only [bigEndianBytes, List.getElem_ofFn, UInt8.toNat_ofNat']
    exact Nat.mod_mod _ _
  have hlist :
      (bytesOfWords z).toList = (List.ofFn fun i : Fin 8 => (ts64 z[i]).toList).flatten := by
    rw [bytesOfWords, Vector.toList_ofFn]
    refine (List.ofFn_mul (m := 8) (n := 8) _).trans (congrArg List.flatten ?_)
    refine congrArg List.ofFn (funext fun i => List.ext_getElem (by simp) fun j h1 h2 => ?_)
    have hj : j < 8 := by rwa [List.length_ofFn] at h1
    have hdiv : (i.val * 8 + j) / 8 = i.val := by omega
    have hmod : (i.val * 8 + j) % 8 = j := by omega
    rw [List.getElem_ofFn, Vector.getElem_toList]
    simp only [hdiv, hmod, Fin.getElem_fin]
  rw [hlist]
  simp [Work.bytes, toWork, hword, List.ofFn_succ]

end Bytes

section Blocks

/-- Blocks are read from their own bytes only. -/
theorem rounds_append (z : Vector UInt64 8) (l l' : List UInt8) (hl : 128 ≤ l.length) :
    rounds z (l ++ l') = rounds z l := by
  have hwords : blockWords (l ++ l') = blockWords l := by
    refine Vector.ext fun i hi => ?_
    rw [blockWords, blockWords, Vector.getElem_ofFn, Vector.getElem_ofFn]
    exact dl64_congr fun j hj => List.getD_append _ _ _ _ (by omega)
  rw [rounds, rounds, hwords]

/-- A block is the first 128 bytes of what is left. -/
theorem hashBlock_append (z : Vector UInt64 8) (l l' : List UInt8) (hl : 128 ≤ l.length) :
    hashBlock z (l ++ l') = hashBlock z l := by
  rw [hashBlock, hashBlock, rounds_append z l l' hl]

/-- A block loop goes through the blocks of the two parts of a message, when the first part is made
of blocks. -/
theorem blockLoop_append {σ : Type*} (step : σ → List UInt8 → σ)
    (hstep : ∀ z l l', 128 ≤ l.length → step z (l ++ l') = step z l) (z : σ) (l l' : List UInt8)
    {q : ℕ} (hl : l.length = 128 * q) :
    Nat.fold ((l ++ l').length / 128) (fun k _ z => step z ((l ++ l').drop (128 * k))) z =
      Nat.fold (l'.length / 128) (fun k _ z => step z (l'.drop (128 * k)))
        (Nat.fold (l.length / 128) (fun k _ z => step z (l.drop (128 * k))) z) := by
  have hlength : (l ++ l').length / 128 = q + l'.length / 128 := by
    rw [List.length_append]
    omega
  have hfirst : Nat.fold q (fun k _ a => step a ((l ++ l').drop (128 * k))) z =
      Nat.fold q (fun k _ a => step a (l.drop (128 * k))) z :=
    Loops.fold_congr fun k hk a => by
      rw [List.drop_append_of_le_length (by omega),
        hstep _ _ _ (by rw [List.length_drop]; omega)]
  have hdrop : ∀ k, (l ++ l').drop (128 * (q + k)) = l'.drop (128 * k) := fun k => by
    rw [List.drop_append, List.drop_eq_nil_of_le (by omega), List.nil_append, hl,
      show 128 * (q + k) - 128 * q = 128 * k by omega]
  rw [hlength, Loops.fold_append (fun k a => step a ((l ++ l').drop (128 * k))), hfirst,
    Loops.fold_congr fun k _ a => by rw [hdrop k], show l.length / 128 = q by omega]

/-- Whole blocks are hashed before what follows them. -/
theorem hashblocksLoop_append (z : Vector UInt64 8) (l l' : List UInt8) {q : ℕ}
    (hl : l.length = 128 * q) :
    hashblocksLoop z (l ++ l') = hashblocksLoop (hashblocksLoop z l) l' :=
  blockLoop_append hashBlock hashBlock_append z l l' hl

/-- A word of a block, as the standard reads it from the padded message. -/
theorem blockWords_eq {p : List UInt8} {k t : ℕ} (ht : t < 16) (hk : 128 * k + 128 ≤ p.length) :
    (blockWords (p.drop (128 * k)))[t] = blockWord p k t := by
  have hbytes : (List.ofFn fun j : Fin 8 => (p.drop (128 * k)).getD (8 * t + j.val) 0) =
      (p.drop (128 * k + 8 * t)).take 8 := by
    refine List.ext_getElem (by simp; omega) fun i h1 h2 => ?_
    have hi : i < 8 := by rwa [List.length_ofFn] at h1
    rw [List.getElem_ofFn, List.getElem_take, List.getElem_drop,
      List.getD_eq_getElem _ _ (by rw [List.length_drop]; omega), List.getElem_drop]
    simp only [Nat.add_assoc]
  rw [blockWords, Vector.getElem_ofFn, blockWord, ← hbytes,
    ← dl64_toNat fun j => (p.drop (128 * k)).getD (8 * t + j) 0, UInt64.ofNat_toNat]

/-- The loop of the code is the iteration of the standard. -/
theorem toWork_hashblocksLoop (z : Vector UInt64 8) (p : List UInt8) :
    toWork (hashblocksLoop z p) = iterate (toWork z) p := by
  refine Loops.fold_simulation (fun z H => toWork z = H) rfl fun k hk z H h => ?_
  subst h
  exact toWork_hashBlock (fun t ht => blockWords_eq ht (by omega)) z

end Blocks

section Padding

/-- The number of bytes of the padded remainder. -/
def lastLength (r : ℕ) : ℕ := 256 - 128 * (decide (r < 112)).toNat

/-- The rest and its padding take one block or two. -/
theorem lastLength_cases (r : ℕ) : r < 112 ∧ lastLength r = 128 ∨ 112 ≤ r ∧ lastLength r = 256 := by
  by_cases hr : r < 112
  · exact .inl ⟨hr, by simp [lastLength, hr]⟩
  · exact .inr ⟨by omega, by simp [lastLength, hr]⟩

/-- A loop that copies eight bytes to an offset. -/
theorem getElem_fold_set {N base : ℕ} (hbase : base + 8 ≤ N) (v : Vector UInt8 8)
    (x : Vector UInt8 N) {k : ℕ} (hk : k < N) :
    (∀ j (hj : j < 8), k = base + j →
      (Nat.fold 8 (fun i _ (x : Vector UInt8 N) => x.set (base + i) v[i]) x)[k] = v[j]) ∧
    (k < base →
      (Nat.fold 8 (fun i _ (x : Vector UInt8 N) => x.set (base + i) v[i]) x)[k] = x[k]) := by
  have hinv := Loops.fold_invariant (n := 8)
    (f := fun i _ (x : Vector UInt8 N) => x.set (base + i) v[i]) (s := x)
    (fun i y => (∀ j (hj : j < 8), j < i → k = base + j → y[k] = v[j]) ∧ (k < base → y[k] = x[k]))
    ⟨fun j _ hj => by omega, fun _ => rfl⟩ ?_
  · exact ⟨fun j hj => hinv.1 j hj hj, hinv.2⟩
  · rintro i hi y ⟨hset, hkeep⟩
    refine ⟨fun j hj hji hkj => ?_, fun hlt => ?_⟩
    · rcases Nat.lt_succ_iff_lt_or_eq.mp hji with hlt | rfl
      · rw [Vector.getElem_set_ne _ _ (by omega)]
        exact hset j hj hlt hkj
      · subst hkj
        exact Vector.getElem_set_self _
    · rw [Vector.getElem_set_ne _ _ (by omega)]
      exact hkeep hlt

/-- The padded rest has that many bytes. -/
theorem length_lastBlocks (m : List UInt8) :
    (lastBlocks m).length = lastLength (m.length % 128) := by
  rw [lastBlocks, List.length_take, Vector.length_toList]
  rcases lastLength_cases (m.length % 128) with ⟨-, hn⟩ | ⟨-, hn⟩ <;> rw [lastLength] at hn ⊢ <;>
    omega

/-- The last eight bytes are the low half of the length in bits. -/
theorem lastBlocks_length_byte (m : List UInt8) {j : ℕ} (hj : j < 8) {k : ℕ}
    (hk : k = lastLength (m.length % 128) - 8 + j) (hlt : k < (lastBlocks m).length) :
    (lastBlocks m)[k] = (ts64 (UInt64.ofNat m.length <<< 3))[j] := by
  have hle : 128 ≤ lastLength (m.length % 128) ∧ lastLength (m.length % 128) ≤ 256 := by
    rcases lastLength_cases (m.length % 128) with ⟨-, hn⟩ | ⟨-, hn⟩ <;> omega
  simp only [lastBlocks, List.getElem_take, Vector.getElem_toList]
  exact (getElem_fold_set (by change lastLength (m.length % 128) - 8 + 8 ≤ 256; omega) _ _
    (by omega)).1 j hj hk

/-- The bytes before are those of the message, the byte 128, zeros and the top bits of the
length. -/
theorem lastBlocks_getElem (m : List UInt8) {k : ℕ} (hk : k < lastLength (m.length % 128) - 8)
    (hlt : k < (lastBlocks m).length) :
    (lastBlocks m)[k] =
      if k = lastLength (m.length % 128) - 9 then (UInt64.ofNat m.length >>> 61).toUInt8
      else if k = m.length % 128 then 128
      else if k < m.length % 128 then m.getD (m.length - m.length % 128 + k) 0 else 0 := by
  have hle : 128 ≤ lastLength (m.length % 128) ∧ lastLength (m.length % 128) ≤ 256 := by
    rcases lastLength_cases (m.length % 128) with ⟨-, hn⟩ | ⟨-, hn⟩ <;> omega
  simp only [lastBlocks, List.getElem_take, Vector.getElem_toList]
  refine ((getElem_fold_set (by omega) _ _ (by omega)).2 hk).trans ?_
  rw [Vector.getElem_set, Vector.getElem_set, Vector.getElem_ofFn]
  rw [lastLength]
  simp only [eq_comm (b := k)]

/-- The bytes of the length field of the standard, as the code computes them. -/
theorem lengthByte {n : ℕ} (hn : n < 2 ^ 64) {j : ℕ} (hj : j < (bigEndianBytes 16 (8 * n)).length) :
    (bigEndianBytes 16 (8 * n))[j] =
      if h : 8 ≤ j ∧ j < 16 then (ts64 (UInt64.ofNat n <<< 3))[j - 8]
      else if j = 7 then (UInt64.ofNat n >>> 61).toUInt8 else 0 := by
  have hword : (UInt64.ofNat n).toNat = n := by rw [UInt64.toNat_ofNat', Nat.mod_eq_of_lt hn]
  have hj16 : j < 16 := by simpa only [bigEndianBytes, List.length_ofFn] using hj
  simp only [bigEndianBytes, List.getElem_ofFn]
  apply UInt8.toNat_inj.mp
  rw [UInt8.toNat_ofNat', Nat.mod_mod]
  split_ifs with h8 h7
  · have hshift : (UInt64.ofNat n <<< 3).toNat = 8 * n % 2 ^ 64 := by
      rw [UInt64.toNat_shiftLeft, hword]
      change n <<< 3 % 2 ^ 64 = _
      rw [Nat.shiftLeft_eq, mul_comm]
    have hmod : 8 * n % 2 ^ 64 / 256 ^ (15 - j) % 256 = 8 * n / 256 ^ (15 - j) % 256 := by
      have hpow : (2 : ℕ) ^ 64 = 256 ^ (15 - j) * (256 * 256 ^ (j - 8)) := by
        rw [← pow_succ', ← pow_add, show 15 - j + (j - 8 + 1) = 8 by omega]
        norm_num
      rw [hpow, Nat.mod_mul_right_div_self, Nat.mod_mul_right_mod]
    rw [ts64_getElem _ (by omega), hshift, show 7 - (j - 8) = 15 - j by omega, hmod]
  · subst h7
    rw [UInt64.toNat_toUInt8, UInt64.toNat_shiftRight, hword]
    change _ = n >>> 61 % 256
    rw [Nat.shiftRight_eq_div_pow]
    omega
  · have hsmall : 8 * n / 256 ^ (15 - j) = 0 := by
      refine Nat.div_eq_of_lt (lt_of_lt_of_le (show 8 * n < 256 ^ 9 by omega) ?_)
      exact Nat.pow_le_pow_right (by norm_num) (by omega)
    rw [hsmall]
    rfl

/-- The padded message is the full blocks of the message followed by the padded remainder. -/
theorem pad_eq {m : List UInt8} (hm : m.length < 2 ^ 64) :
    pad m = m.take (128 * (m.length / 128)) ++ lastBlocks m := by
  have hr : m.length % 128 < 128 := Nat.mod_lt _ (by norm_num)
  have hdiv := Nat.div_add_mod m.length 128
  have hword : (UInt64.ofNat m.length).toNat = m.length := by
    rw [UInt64.toNat_ofNat', Nat.mod_eq_of_lt hm]
  have hlast := length_lastBlocks m
  have hcases := lastLength_cases (m.length % 128)
  have hlen : (pad m).length = 128 * (m.length / 128) + lastLength (m.length % 128) := by
    simp only [pad, List.length_append, List.length_singleton, List.length_replicate,
      bigEndianBytes, List.length_ofFn]
    omega
  refine List.ext_getElem ?_ fun k h1 h2 => ?_
  · rw [hlen, List.length_append, hlast, List.length_take]
    omega
  · rcases Nat.lt_or_ge k (128 * (m.length / 128)) with hk | hk
    · rw [List.getElem_append_left (by rw [List.length_take]; omega), List.getElem_take]
      simp only [pad, List.append_assoc]
      rw [List.getElem_append_left (by omega)]
    · obtain ⟨i, rfl⟩ := Nat.exists_eq_add_of_le hk
      have hi : i < lastLength (m.length % 128) := by omega
      have hindex : 128 * (m.length / 128) + i - (m.take (128 * (m.length / 128))).length = i := by
        rw [List.length_take]
        omega
      have hzeros : (239 - m.length % 128) % 128 = lastLength
          (m.length % 128) - 17 - m.length % 128 := by
        omega
      rw [List.getElem_append_right (by rw [List.length_take]; omega), getElem_congr_idx hindex]
      simp only [pad, List.append_assoc, List.getElem_append, List.length_singleton,
        List.length_replicate, List.getElem_singleton, List.getElem_replicate]
      rcases Nat.lt_or_ge i (lastLength (m.length % 128) - 8) with hlow | hhigh
      · rw [lastBlocks_getElem m hlow]
        split_ifs <;> try omega
        · rw [List.getD_eq_getElem _ _ (by omega)]
          exact getElem_congr_idx (by omega)
        · rfl
        · rfl
        · rw [lengthByte hm, dif_neg (by omega), if_pos (by omega)]
        · rw [lengthByte hm, dif_neg (by omega), if_neg (by omega)]
      · obtain ⟨j, rfl⟩ := Nat.exists_eq_add_of_le hhigh
        rw [lastBlocks_length_byte m (by omega) rfl]
        split_ifs <;> try omega
        rw [lengthByte hm, dif_pos (by omega)]
        exact getElem_congr_idx (by omega)

end Padding

/-- Partial blocks at the end are left out. -/
theorem hashblocksLoop_take (z : Vector UInt64 8) (m : List UInt8) :
    hashblocksLoop z (m.take (128 * (m.length / 128))) = hashblocksLoop z m := by
  have hlen : (m.take (128 * (m.length / 128))).length = 128 * (m.length / 128) := by
    rw [List.length_take]
    omega
  have h := hashblocksLoop_append z _ (m.drop (128 * (m.length / 128))) hlen
  rw [List.take_append_drop] at h
  rw [h]
  have hrest : (m.drop (128 * (m.length / 128))).length / 128 = 0 := by
    rw [List.length_drop]
    omega
  rw [hashblocksLoop, hashblocksLoop, hrest, Nat.fold_zero]

/-- From any initial chaining value the code iterates over the padded message. -/
theorem hashFrom_eq (x : Vector UInt8 64) {m : List UInt8} (hm : m.length < 2 ^ 64) :
    (hashFrom x m).toList = (iterate (toWork (wordsOfBytes x)) (pad m)).bytes := by
  have hlen : (m.take (128 * (m.length / 128))).length = 128 * (m.length / 128) := by
    rw [List.length_take]
    omega
  rw [← toWork_hashblocksLoop, bytes_toWork, pad_eq hm, hashblocksLoop_append _ _ _ hlen,
    hashblocksLoop_take, hashFrom, cryptoHashblocks, cryptoHashblocks, wordsOfBytes_bytesOfWords]

/-- The initial value of the code is that of the standard. -/
theorem toWork_iv :
    toWork (wordsOfBytes iv) = ⟨H0 0, H0 1, H0 2, H0 3, H0 4, H0 5, H0 6, H0 7⟩ := by
  simp only [H0, primes_eq]
  decide +kernel

/-- The bytes `crypto_hash` computes are SHA-512 of the message. -/
theorem hash_eq_sha512 {m : List UInt8} (hm : m.length < 2 ^ 64) : (hash m).toList = sha512 m := by
  rw [hash, hashFrom_eq iv hm, toWork_iv, sha512]

end Sha512

/-- `crypto_hash` succeeds and leaves in `out` the SHA-512 hash of the message, for every length. -/
theorem cryptoHash_is_sha512 {mem : Mem} {out m : Addr} {n : UInt64} (hout : mem.Valid out 64)
    (hm : mem.Valid m n.toNat) :
    ∃ mem', Runs (cryptoHash (some out) (some m) n) mem 0 mem' ∧
      (mem'.vec out 64).toList = Fips180.sha512 (mem.bytes m n.toNat) :=
  ⟨_, cryptoHash_runs hout hm, by
    rw [Mem.vec_writeVec, Sha512.hash_eq_sha512 (by rw [Mem.length_bytes]; exact n.toNat_lt)]⟩

/-- The statement at a message of 112 zero bytes, the first length that needs two padding blocks. -/
theorem cryptoHash_is_sha512_zero :
    ∃ mem', Runs (cryptoHash (some ⟨0, 0⟩) (some ⟨1, 0⟩) 112) (Mem.ofSizes [64, 112]) 0 mem' ∧
      (mem'.vec ⟨0, 0⟩ 64).toList = Fips180.sha512 ((Mem.ofSizes [64, 112]).bytes ⟨1, 0⟩ 112) :=
  cryptoHash_is_sha512 (n := 112) (by decide) (by decide)

end TweetNacl
