import TweetNacl.Lib.Indexing
import TweetNacl.Sha512Iteration

/-!
# SHA-512/256 and SHA-512/224

The file has its own copy of the compression loop, with the roles of the arrays `a` and
`z` exchanged: `z` is the running state, and after the eighty rounds `a` holds the working
variables one place back. What is added to the state at the end of a block is therefore
the state itself, moved by one place, and not the chaining value the block started from;
and `hash_with_iv` starts its second call from the initial value again. The helper
functions and the table `K` are literally those of `crypto_hashblocks` and are not
repeated here.
-/

namespace TweetNacl

open Memory Sha512

namespace Fips1804

/-- The initial value of SHA-512/256, in bytes. -/
def ivSha512_256 : Vector UInt8 64 :=
  #v[0x22, 0x31, 0x85, 0x46, 0x96, 0x36, 0x79, 0x91, 0xc1, 0x05, 0x9e, 0xd6, 0xd8, 0xe6, 0x6f, 0x55,
    0x13, 0xb0, 0x1c, 0x7e, 0x12, 0xa8, 0x84, 0xe8, 0x91, 0xa2, 0x9c, 0x6b, 0x27, 0x22, 0x0a, 0x83,
    0x16, 0x82, 0x34, 0x16, 0x8a, 0x70, 0x59, 0x97, 0x88, 0x35, 0x75, 0x5e, 0x41, 0x88, 0x09, 0xa1,
    0xc8, 0x66, 0x6d, 0x49, 0xef, 0x48, 0x44, 0xa3, 0xe2, 0x50, 0xe2, 0x9b, 0x6b, 0x6f, 0x98, 0x2d]

/-- The initial value of SHA-512/224, in bytes. -/
def ivSha512_224 : Vector UInt8 64 :=
  #v[0x8c, 0x3d, 0x37, 0xc8, 0x19, 0x54, 0x4d, 0xa2, 0x73, 0xfa, 0xa8, 0xa2, 0xc5, 0x62, 0x10, 0x4f,
    0xf4, 0x3c, 0x2c, 0x95, 0x91, 0x70, 0x39, 0x19, 0xb6, 0x20, 0x75, 0x6b, 0x8e, 0xd7, 0x52, 0x34,
    0x8e, 0xc5, 0xb9, 0x84, 0xb2, 0x59, 0x0c, 0x04, 0x1c, 0xd8, 0xb7, 0x68, 0xba, 0x26, 0xc8, 0x59,
    0xe7, 0x5d, 0x95, 0x8f, 0x5f, 0x58, 0xbc, 0x3d, 0x6b, 0xba, 0x4a, 0x92, 0x1d, 0xc8, 0xc1, 0x34]

/-- The arrays of `sha512_blocks`. -/
structure BlockState where
  z : Vector UInt64 8
  a : Vector UInt64 8
  w : Vector UInt64 16

/-- Round `i`. -/
def blockRound (i : ℕ) (hi : i < 80) (s : BlockState) : BlockState :=
  let a := s.z
  let t := a.nth 7 + Sigma1 (a.nth 4) + Ch (a.nth 4) (a.nth 5) (a.nth 6) + K[i] + s.w.cyc i
  let a := a.put 7 (t + Sigma0 (a.nth 0) + Maj (a.nth 0) (a.nth 1) (a.nth 2))
  let a := a.put 3 (a.nth 3 + t)
  -- `z[(j + 1) % 8] = a[j]`
  let z : Vector UInt64 8 := Vector.ofFn fun j => a.cyc (j.val + 7)
  ⟨z, a, if i % 16 = 15 then extendSchedule s.w else s.w⟩

/-- One block of `sha512_blocks`. -/
def sha512Block (z : Vector UInt64 8) (m : List UInt8) : Vector UInt64 8 :=
  let s := Nat.fold 80 blockRound ⟨z, z, blockWords m⟩
  Vector.ofFn fun i => s.a.get i + s.z.get i

/-- The block loop of `sha512_blocks`. -/
def sha512BlocksLoop (z : Vector UInt64 8) (m : List UInt8) : Vector UInt64 8 :=
  Nat.fold (m.length / 128) (fun k _ z => sha512Block z (m.drop (128 * k))) z

/-- `sha512_blocks`: the state starts from `iv`, whatever the output held before. -/
def sha512Blocks (m : List UInt8) (iv : Vector UInt8 64) : Vector UInt8 64 :=
  bytesOfWords (sha512BlocksLoop (wordsOfBytes iv) m)

/-- `hash_with_iv`. The second call overwrites what the first one computed. -/
def hashWithIv (m : List UInt8) (iv : Vector UInt8 64) (outlen : ℕ) : List UInt8 :=
  let _h := sha512Blocks m iv
  let h := sha512Blocks (lastBlocks m) iv
  h.toList.take outlen

end Fips1804

open Fips1804

/-- `crypto_hash_sha512_256`; the function does not check its pointers. -/
def cryptoHashSha512_256 (out m : Addr) (n : UInt64) : Exec Int32 := do
  let message ← loadBytes m n.toNat
  storeBytes out (hashWithIv message ivSha512_256 32)
  pure 0

/-- `crypto_hash_sha512_224`; the function does not check its pointers. -/
def cryptoHashSha512_224 (out m : Addr) (n : UInt64) : Exec Int32 := do
  let message ← loadBytes m n.toNat
  storeBytes out (hashWithIv message ivSha512_224 28)
  pure 0

namespace Fips1804

/-- What the file states of `hash_with_iv`: it truncates the algorithm of `crypto_hash` started from
`iv`. -/
def Truncates (iv : Vector UInt8 64) (outlen : ℕ) (m : List UInt8) : Prop :=
  hashWithIv m iv outlen = (hashFrom iv m).toList.take outlen

/-- Shorter outputs are prefixes of longer ones, so that an error in the first byte stays. -/
theorem Truncates.mono {iv : Vector UInt8 64} {outlen k : ℕ} {m : List UInt8}
    (h : Truncates iv outlen m) (hk : k ≤ outlen) : Truncates iv k m := by
  have hprefix := congrArg (List.take k) h
  simp only [hashWithIv, List.take_take, Nat.min_eq_left hk] at hprefix
  exact hprefix

section FullBlocks

variable (iv : Vector UInt8 64) (outlen : ℕ) {m m' : List UInt8} (hl : m.length < 2 ^ 64)
  (hlength : m.length = m'.length)
  (htail : m.drop (128 * (m.length / 128)) = m'.drop (128 * (m'.length / 128)))

include hl hlength htail

/-- The full blocks of a message have no influence: the second call starts from `iv` again. -/
theorem hashWithIv_congr : hashWithIv m iv outlen = hashWithIv m' iv outlen := by
  simp only [hashWithIv, lastBlocks_congr hl hlength htail]

/-- Of the messages with the same length and the same bytes after the full blocks, those that are
hashed rightly all have the same hash. -/
theorem truncates_same_tail_iff (h : Truncates iv outlen m) :
    Truncates iv outlen m' ↔
      (hashFrom iv m').toList.take outlen = (hashFrom iv m).toList.take outlen := by
  rw [Truncates, ← hashWithIv_congr iv outlen hl hlength htail, h]
  exact eq_comm

end FullBlocks

/-- The words moved by one place. -/
def rotateWords (z : Vector UInt64 8) : Vector UInt64 8 :=
  Vector.ofFn fun i => z.cyc (i.val + 1)

/-- The state and the schedule go through the rounds of `crypto_hashblocks`. -/
theorem blockRound_state {i : ℕ} (hi : i < 80) (s : BlockState) :
    (blockRound i hi s).z = roundStep i hi s.w s.z := rfl

/-- Moving the words undoes the copy at the end of a round. -/
theorem rotateWords_copy (a : Vector UInt64 8) :
    rotateWords (Vector.ofFn fun j => a.cyc (j.val + 7)) = a := by
  refine Vector.ext fun j hj => ?_
  have hindex : ((j + 1) % 8 + 7) % 8 = j := by omega
  have hcopy : (Vector.ofFn fun j : Fin 8 => a.cyc (j.val + 7)).cyc (j + 1) = a.cyc
      ((j + 1) % 8 + 7) :=
    Vector.getElem_ofFn (Nat.mod_lt _ (Nat.succ_pos 7))
  rw [rotateWords, Vector.getElem_ofFn, hcopy]
  exact congrArg a.get (Fin.ext hindex)

/-- After a round `a` is the state moved by one place. -/
theorem blockRound_a {i : ℕ} (hi : i < 80) (s : BlockState) :
    (blockRound i hi s).a = rotateWords (blockRound i hi s).z :=
  (rotateWords_copy _).symm

/-- One block: the result of the rounds is added to itself, moved by one place. -/
theorem sha512Block_eq (z : Vector UInt64 8) (m : List UInt8) :
    sha512Block z m = Vector.ofFn fun i =>
      (rotateWords (rounds z m)).get i + (rounds z m).get i := by
  have hstate : (Nat.fold 80 blockRound ⟨z, z, blockWords m⟩).z = rounds z m :=
    (Loops.fold_simulation (n := 80) (f := blockRound)
      (g := fun i hi (t : Vector UInt64 8 × Vector UInt64 16) =>
        (roundStep i hi t.2 t.1, if i % 16 = 15 then extendSchedule t.2 else t.2))
      (s := ⟨z, z, blockWords m⟩) (t := (z, blockWords m))
      (fun s t => s.z = t.1 ∧ s.w = t.2) ⟨rfl, rfl⟩ fun i hi s t h => by
        rw [blockRound_state, h.1, h.2]
        exact ⟨rfl, by rw [← h.2]; rfl⟩).1
  have hlast : (Nat.fold 80 blockRound ⟨z, z, blockWords m⟩).a =
      rotateWords (Nat.fold 80 blockRound ⟨z, z, blockWords m⟩).z := by
    rw [Nat.fold_succ]
    exact blockRound_a _ _
  rw [sha512Block, hlast, hstate]

/-- The last padding block. -/
def finalBlock (m : List UInt8) : List UInt8 := (lastBlocks m).drop ((lastBlocks m).length - 128)

/-- The padding block before it, if there are two. -/
def earlierBlock (m : List UInt8) : List UInt8 := (lastBlocks m).take ((lastBlocks m).length - 128)

/-- The chaining value of SHA-512 before the last padding block. -/
def chainedState (iv : Vector UInt8 64) (m : List UInt8) : Vector UInt64 8 :=
  hashblocksLoop (hashblocksLoop (wordsOfBytes iv) m) (earlierBlock m)

/-- What `hash_with_iv` feeds to the last padding block instead. -/
def fedState (iv : Vector UInt8 64) (m : List UInt8) : Vector UInt64 8 :=
  sha512BlocksLoop (wordsOfBytes iv) (earlierBlock m)

/-- The coincidence under which the output is right all the same: on the last block, the rounds from
the fed state, added to themselves moved by one place, agree on the output bytes with the rounds
from the chained state added to that state. -/
def LastBlockCoincides (iv : Vector UInt8 64) (outlen : ℕ) (m : List UInt8) : Prop :=
  let v := rounds (fedState iv m) (finalBlock m)
  let v' := rounds (chainedState iv m) (finalBlock m)
  ∀ k (hk : k < 64), k < outlen →
    have : k % 8 < 8 := Nat.mod_lt _ (Nat.succ_pos 7)
    (ts64 ((rotateWords v)[k / 8] + v[k / 8]))[k % 8] =
      (ts64 (v'[k / 8] + (chainedState iv m)[k / 8]))[k % 8]

/-- The padding takes one block or two, by the length of the rest. -/
theorem length_lastBlocks_cases (m : List UInt8) :
    m.length % 128 < 112 ∧ (lastBlocks m).length = 128 ∨
      112 ≤ m.length % 128 ∧ (lastBlocks m).length = 256 := by
  rw [length_lastBlocks]
  exact lastLength_cases _

/-- A block loop over the padded remainder ends with the last block. -/
theorem blockLoop_final {σ : Type*} (step : σ → List UInt8 → σ)
    (hstep : ∀ z l l', 128 ≤ l.length → step z (l ++ l') = step z l) (z : σ) (m : List UInt8) :
    Nat.fold ((lastBlocks m).length / 128) (fun k _ z => step z ((lastBlocks m).drop (128 * k))) z =
      step (Nat.fold ((earlierBlock m).length / 128)
        (fun k _ z => step z ((earlierBlock m).drop (128 * k))) z) (finalBlock m) := by
  have hlast := length_lastBlocks_cases m
  have hearlier : (earlierBlock m).length = 128 * ((lastBlocks m).length / 128 - 1) := by
    rw [earlierBlock, List.length_take]
    omega
  have hfinal : (finalBlock m).length / 128 = 1 := by
    rw [finalBlock, List.length_drop]
    omega
  have h := blockLoop_append step hstep z (earlierBlock m) (finalBlock m) hearlier
  rw [hfinal, Nat.fold_succ, Nat.fold_zero, Nat.mul_zero, List.drop_zero] at h
  rwa [earlierBlock, finalBlock, List.take_append_drop] at h

/-- Truncated byte strings of two word arrays. -/
theorem take_bytesOfWords {z z' : Vector UInt64 8} {outlen : ℕ} :
    (bytesOfWords z).toList.take outlen = (bytesOfWords z').toList.take outlen ↔
      ∀ k (hk : k < 64), k < outlen → (bytesOfWords z)[k] = (bytesOfWords z')[k] := by
  constructor
  · intro h k hk hlt
    have hk' := congrArg (fun l => l.getD k 0) h
    simpa [List.getD, List.getElem?_take, hlt, hk] using hk'
  · intro h
    refine List.ext_getElem (by simp) fun k h1 h2 => ?_
    simp only [List.length_take, Vector.length_toList, lt_min_iff] at h1
    simpa using h k h1.2 h1.1

/-- `hash_with_iv` truncates the algorithm of `crypto_hash` exactly under the coincidence. -/
theorem truncates_iff (iv : Vector UInt8 64) (outlen : ℕ) (m : List UInt8) :
    Truncates iv outlen m ↔ LastBlockCoincides iv outlen m := by
  have hright : hashFrom iv m =
      bytesOfWords (hashBlock (chainedState iv m) (finalBlock m)) := by
    rw [hashFrom, cryptoHashblocks, cryptoHashblocks, wordsOfBytes_bytesOfWords]
    exact congrArg bytesOfWords (blockLoop_final hashBlock hashBlock_append _ m)
  have hleft : sha512Blocks (lastBlocks m) iv =
      bytesOfWords (sha512Block (fedState iv m) (finalBlock m)) :=
    congrArg bytesOfWords (blockLoop_final sha512Block (fun z l l' hl => by
      rw [sha512Block_eq, sha512Block_eq, rounds_append z l l' hl]) _ m)
  rw [Truncates, hashWithIv, hleft, hright, take_bytesOfWords, sha512Block_eq]
  simp only [LastBlockCoincides, bytesOfWords, hashBlock, Vector.getElem_ofFn, Fin.getElem_fin]
  rfl

/-- A message that fits the last padding block reaches it with the initial value in both
algorithms. -/
theorem states_of_short (iv : Vector UInt8 64) {m : List UInt8} (hm : m.length < 112) :
    fedState iv m = wordsOfBytes iv ∧ chainedState iv m = wordsOfBytes iv := by
  have hlast := length_lastBlocks_cases m
  have hnil : earlierBlock m = [] := by
    rw [earlierBlock, show (lastBlocks m).length - 128 = 0 by omega, List.take_zero]
  have hfull : m.length / 128 = 0 := by omega
  rw [fedState, chainedState, hnil, sha512BlocksLoop, hashblocksLoop, hashblocksLoop, hfull]
  exact ⟨rfl, rfl⟩

/-- A word is determined by its bytes. -/
theorem ts64_injective {u u' : UInt64} (h : ∀ j (hj : j < 8), (ts64 u)[j] = (ts64 u')[j]) :
    u = u' := by
  rw [← dl64_ts64 u (x := fun j => (ts64 u).getD j 0) fun j hj => by simp [Vector.getD, hj]]
  exact dl64_ts64 u' fun j hj => by
    rw [← h j hj]
    simp [Vector.getD, hj]

/-- Two sums with a common summand agree on 32 bytes when the other summands agree on four words. -/
theorem sums_agree_iff (u v w : Vector UInt64 8) :
    (∀ k (hk : k < 64), k < 32 →
      have : k % 8 < 8 := Nat.mod_lt _ (Nat.succ_pos 7)
      (ts64 (u[k / 8] + v[k / 8]))[k % 8] = (ts64 (v[k / 8] + w[k / 8]))[k % 8]) ↔
    ∀ i (hi : i < 8), i < 4 → u[i] = w[i] := by
  constructor
  · intro h i hi hi4
    have hword : u[i] + v[i] = v[i] + w[i] := ts64_injective fun j hj => by
      have hdiv : (8 * i + j) / 8 = i := by omega
      have hmod : (8 * i + j) % 8 = j := by omega
      have := h (8 * i + j) (by omega) (by omega)
      simpa only [hdiv, hmod] using this
    rwa [UInt64.add_comm, UInt64.add_right_inj] at hword
  · intro h k hk hlt
    simp only [h (k / 8) (by omega) (by omega), UInt64.add_comm]

/-- On such a message 32 bytes of output are right exactly when the rounds, moved by one place, lead
back to the first four words of the initial value. -/
theorem truncates_short_iff (iv : Vector UInt8 64) {m : List UInt8} (hm : m.length < 112) :
    Truncates iv 32 m ↔ ∀ i (hi : i < 8), i < 4 →
      (rotateWords (rounds (wordsOfBytes iv) (finalBlock m)))[i] = (wordsOfBytes iv)[i] := by
  obtain ⟨hfed, hchained⟩ := states_of_short iv hm
  rw [truncates_iff, LastBlockCoincides, hfed, hchained]
  exact sums_agree_iff _ _ _

end Fips1804

end TweetNacl
