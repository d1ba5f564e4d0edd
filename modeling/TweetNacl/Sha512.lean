import TweetNacl.Lib.Memory

/-!
# SHA-512

`crypto_hashblocks` keeps sixteen words of the message schedule and overwrites them every
sixteen rounds; the eight working variables move one place per round. `crypto_hash` calls
it once on the full blocks of the message and once on the padded remainder, with the
chaining value kept as 64 bytes in between.

A message is a byte list whose length is the length argument. The chaining value a
computation starts from is a parameter; `crypto_hash` passes `iv`.
-/

namespace TweetNacl

open Memory

namespace Sha512

/-- Rotation to the right. -/
def R (x : UInt64) (c : ℕ) : UInt64 := (x >>> UInt64.ofNat c) ||| (x <<< UInt64.ofNat (64 - c))

def Ch (x y z : UInt64) : UInt64 := (x &&& y) ^^^ (~~~x &&& z)

def Maj (x y z : UInt64) : UInt64 := (x &&& y) ^^^ (x &&& z) ^^^ (y &&& z)

def Sigma0 (x : UInt64) : UInt64 := R x 28 ^^^ R x 34 ^^^ R x 39

def Sigma1 (x : UInt64) : UInt64 := R x 14 ^^^ R x 18 ^^^ R x 41

def sigma0 (x : UInt64) : UInt64 := R x 1 ^^^ R x 8 ^^^ (x >>> 7)

def sigma1 (x : UInt64) : UInt64 := R x 19 ^^^ R x 61 ^^^ (x >>> 6)

/-- The round constants. -/
def K : Vector UInt64 80 :=
  #v[0x428a2f98d728ae22, 0x7137449123ef65cd, 0xb5c0fbcfec4d3b2f, 0xe9b5dba58189dbbc,
    0x3956c25bf348b538, 0x59f111f1b605d019, 0x923f82a4af194f9b, 0xab1c5ed5da6d8118,
    0xd807aa98a3030242, 0x12835b0145706fbe, 0x243185be4ee4b28c, 0x550c7dc3d5ffb4e2,
    0x72be5d74f27b896f, 0x80deb1fe3b1696b1, 0x9bdc06a725c71235, 0xc19bf174cf692694,
    0xe49b69c19ef14ad2, 0xefbe4786384f25e3, 0x0fc19dc68b8cd5b5, 0x240ca1cc77ac9c65,
    0x2de92c6f592b0275, 0x4a7484aa6ea6e483, 0x5cb0a9dcbd41fbd4, 0x76f988da831153b5,
    0x983e5152ee66dfab, 0xa831c66d2db43210, 0xb00327c898fb213f, 0xbf597fc7beef0ee4,
    0xc6e00bf33da88fc2, 0xd5a79147930aa725, 0x06ca6351e003826f, 0x142929670a0e6e70,
    0x27b70a8546d22ffc, 0x2e1b21385c26c926, 0x4d2c6dfc5ac42aed, 0x53380d139d95b3df,
    0x650a73548baf63de, 0x766a0abb3c77b2a8, 0x81c2c92e47edaee6, 0x92722c851482353b,
    0xa2bfe8a14cf10364, 0xa81a664bbc423001, 0xc24b8b70d0f89791, 0xc76c51a30654be30,
    0xd192e819d6ef5218, 0xd69906245565a910, 0xf40e35855771202a, 0x106aa07032bbd1b8,
    0x19a4c116b8d2d0c8, 0x1e376c085141ab53, 0x2748774cdf8eeb99, 0x34b0bcb5e19b48a8,
    0x391c0cb3c5c95a63, 0x4ed8aa4ae3418acb, 0x5b9cca4f7763e373, 0x682e6ff3d6b2b8a3,
    0x748f82ee5defb2fc, 0x78a5636f43172f60, 0x84c87814a1f0ab72, 0x8cc702081a6439ec,
    0x90befffa23631e28, 0xa4506cebde82bde9, 0xbef9a3f7b2c67915, 0xc67178f2e372532b,
    0xca273eceea26619c, 0xd186b8c721c0c207, 0xeada7dd6cde0eb1e, 0xf57d4f7fee6ed178,
    0x06f067aa72176fba, 0x0a637dc5a2c898a6, 0x113f9804bef90dae, 0x1b710b35131c471b,
    0x28db77f523047d84, 0x32caab7b40c72493, 0x3c9ebe0a15c9bebc, 0x431d67c49c100d4c,
    0x4cc5d4becb3e42b6, 0x597f299cfc657e2a, 0x5fcb6fab3ad6faec, 0x6c44198c4a475817]

/-- The initial chaining value, in bytes. -/
def iv : Vector UInt8 64 :=
  #v[0x6a, 0x09, 0xe6, 0x67, 0xf3, 0xbc, 0xc9, 0x08, 0xbb, 0x67, 0xae, 0x85, 0x84, 0xca, 0xa7, 0x3b,
    0x3c, 0x6e, 0xf3, 0x72, 0xfe, 0x94, 0xf8, 0x2b, 0xa5, 0x4f, 0xf5, 0x3a, 0x5f, 0x1d, 0x36, 0xf1,
    0x51, 0x0e, 0x52, 0x7f, 0xad, 0xe6, 0x82, 0xd1, 0x9b, 0x05, 0x68, 0x8c, 0x2b, 0x3e, 0x6c, 0x1f,
    0x1f, 0x83, 0xd9, 0xab, 0xfb, 0x41, 0xbd, 0x6b, 0x5b, 0xe0, 0xcd, 0x19, 0x13, 0x7e, 0x21, 0x79]

/-- A big-endian 64-bit word. -/
def dl64 (x : ℕ → UInt8) : UInt64 :=
  Nat.fold 8 (fun i _ u => (u <<< 8) ||| (x i).toUInt64) 0

/-- The bytes of a word, the most significant first. -/
def ts64 (u : UInt64) : Vector UInt8 8 :=
  Vector.ofFn fun i => (u >>> UInt64.ofNat (8 * (7 - i.val))).toUInt8

/-- The working variables after round `i`. -/
def roundStep (i : ℕ) (hi : i < 80) (w : Vector UInt64 16) (a : Vector UInt64 8) :
    Vector UInt64 8 :=
  have : i % 16 < 16 := Nat.mod_lt _ (Nat.succ_pos 15)
  let b := a
  let t := a[7] + Sigma1 a[4] + Ch a[4] a[5] a[6] + K[i] + w[i % 16]
  let b := b.set 7 (t + Sigma0 a[0] + Maj a[0] a[1] a[2])
  let b := b.set 3 (b[3] + t)
  -- `a[(j + 1) % 8] = b[j]`
  Vector.ofFn fun j =>
    have : (j.val + 7) % 8 < 8 := Nat.mod_lt _ (Nat.succ_pos 7)
    b[(j.val + 7) % 8]

/-- The next sixteen words of the message schedule, in place. -/
def extendSchedule (w : Vector UInt64 16) : Vector UInt64 16 :=
  Nat.fold 16 (fun j _ (w : Vector UInt64 16) =>
    have : (j + 9) % 16 < 16 := Nat.mod_lt _ (Nat.succ_pos 15)
    have : (j + 1) % 16 < 16 := Nat.mod_lt _ (Nat.succ_pos 15)
    have : (j + 14) % 16 < 16 := Nat.mod_lt _ (Nat.succ_pos 15)
    w.set j (w[j] + (w[(j + 9) % 16] + sigma0 w[(j + 1) % 16] + sigma1 w[(j + 14) % 16]))) w

/-- The words of a block. -/
def blockWords (m : List UInt8) : Vector UInt64 16 :=
  Vector.ofFn fun i => dl64 fun j => m.getD (8 * i.val + j) 0

/-- The eighty rounds on one block, from the working variables `a`. -/
def rounds (a : Vector UInt64 8) (m : List UInt8) : Vector UInt64 8 :=
  (Nat.fold 80 (fun i hi (s : Vector UInt64 8 × Vector UInt64 16) =>
    (roundStep i hi s.2 s.1, if i % 16 = 15 then extendSchedule s.2 else s.2))
    (a, blockWords m)).1

/-- The chaining value after one block. -/
def hashBlock (z : Vector UInt64 8) (m : List UInt8) : Vector UInt64 8 :=
  let a := rounds z m
  Vector.ofFn fun i => a[i] + z[i]

/-- The chaining words held in 64 bytes. -/
def wordsOfBytes (x : Vector UInt8 64) : Vector UInt64 8 :=
  Vector.ofFn fun i => dl64 fun j => x.getD (8 * i.val + j) 0

/-- The 64 bytes of the chaining words. -/
def bytesOfWords (z : Vector UInt64 8) : Vector UInt8 64 :=
  Vector.ofFn fun k =>
    have : k.val % 8 < 8 := Nat.mod_lt _ (Nat.succ_pos 7)
    (ts64 z[k.val / 8])[k.val % 8]

/-- The blocks of a message, one after the other; a partial block at the end is left out. -/
def hashblocksLoop (z : Vector UInt64 8) (m : List UInt8) : Vector UInt64 8 :=
  Nat.fold (m.length / 128) (fun k _ z => hashBlock z (m.drop (128 * k))) z

/-- `crypto_hashblocks`. -/
def cryptoHashblocks (x : Vector UInt8 64) (m : List UInt8) : Vector UInt8 64 :=
  bytesOfWords (hashblocksLoop (wordsOfBytes x) m)

/-- The padded remainder of a message: its last partial block, the byte 128, zeros and the length
in bits, in one block or two. -/
def lastBlocks (m : List UInt8) : List UInt8 :=
  let b := UInt64.ofNat m.length
  let r := m.length % 128
  let n := 256 - 128 * (decide (r < 112)).toNat
  have hr : r < 128 := Nat.mod_lt _ (Nat.succ_pos 127)
  have hn : 128 ≤ n ∧ n ≤ 256 := by
    have := Bool.toNat_le (decide (r < 112))
    omega
  let x : Vector UInt8 256 :=
    Vector.ofFn fun i => if i.val < r then m.getD (m.length - r + i.val) 0 else 0
  let x := x.set r 128
  let x := x.set (n - 9) (b >>> 61).toUInt8
  let x := Nat.fold 8 (fun i _ (x : Vector UInt8 256) => x.set (n - 8 + i) (ts64 (b <<< 3))[i]) x
  x.toList.take n

/-- The algorithm of `crypto_hash` from a given initial chaining value. -/
def hashFrom (iv : Vector UInt8 64) (m : List UInt8) : Vector UInt8 64 :=
  let h := cryptoHashblocks iv m
  cryptoHashblocks h (lastBlocks m)

/-- The 64 bytes `crypto_hash` computes. -/
def hash (m : List UInt8) : Vector UInt8 64 := hashFrom iv m

end Sha512

/-- `crypto_hash`. -/
def cryptoHash (out m : Ptr) (n : UInt64) : Exec Int32 :=
  match out, m with
  | none, _ => pure (-1)
  | some out, none => do
    if 0 < n then pure (-1)
    else
      storeVec out (Sha512.hash [])
      pure 0
  | some out, some m => do
    let message ← loadBytes m n.toNat
    storeVec out (Sha512.hash message)
    pure 0

/-- `crypto_hash` writes the computed bytes, wherever the buffers lie. -/
theorem cryptoHash_runs {mem : Mem} {out m : Addr} {n : UInt64} (hout : mem.Valid out 64)
    (hm : mem.Valid m n.toNat) :
    Runs (cryptoHash (some out) (some m) n) mem 0
      (mem.writeVec out (Sha512.hash (mem.bytes m n.toNat))) :=
  (Runs.loadBytes hm).bind ((Runs.storeVec hout _).bind (Runs.pure _ _))

end TweetNacl
