import TweetNacl.Lib.CheckedWord
import TweetNacl.Lib.Indexing
import TweetNacl.Lib.Memory

/-!
# One-time authentication

`crypto_onetimeauth` computes with seventeen limbs of radix `2 ^ 8` in 32-bit words. The
limb code is written over `Word`, so that the program, at `UInt32`, and the program with
overflow tracking, at `Tracked`, are the same definitions.
-/

namespace TweetNacl

open CheckedWord Memory

section Code

variable {α : Type} [Word α]

/-- The carry chain of `add1305` and of the two reductions after a multiplication: from the carry
`u`, each of the first `n` limbs is replaced by the low byte of its sum with the carry. -/
def carryChain (n : ℕ) (hn : n ≤ 17) (term : (j : ℕ) → j < 17 → α → α) (h : Vector α 17) (u : α) :
    Vector α 17 × α :=
  Nat.fold n (fun j _ (h, u) =>
    let u := u + term j (by omega) h[j]
    (h.set j (u &&& Word.lit 255), Word.shr u 8)) (h, u)

/-- Addition; the carry out of the top limb is dropped. -/
def add1305 (h c : Vector α 17) : Vector α 17 :=
  (carryChain 17 (by omega) (fun j _ x => x + (c)[j]) h (Word.lit 0)).1

/-- The negative of `2 ^ 130 - 5` modulo `2 ^ 136`. -/
def minusp : Vector UInt32 17 := #v[5, 0, 0, 0, 0, 0, 0, 0, 0, 0, 0, 0, 0, 0, 0, 0, 252]

/-- The clamped multiplier, from the first half of the key. -/
def clampR (k : Vector UInt8 32) : Vector α 17 :=
  let r : Vector α 17 := Vector.ofFn fun j =>
    if j.val < 16 then Word.lit k[j.val].toUInt32 else Word.lit 0
  let r := r.set 3 (r[3] &&& Word.lit 15)
  let r := r.set 4 (r[4] &&& Word.lit 252)
  let r := r.set 7 (r[7] &&& Word.lit 15)
  let r := r.set 8 (r[8] &&& Word.lit 252)
  let r := r.set 11 (r[11] &&& Word.lit 15)
  let r := r.set 12 (r[12] &&& Word.lit 252)
  r.set 15 (r[15] &&& Word.lit 15)

/-- The next block of the message: at most sixteen bytes followed by a 1. -/
def loadBlock (m : List UInt8) : Vector α 17 :=
  Vector.ofFn fun j =>
    if h : j.val < 16 ∧ j.val < m.length then Word.lit m[j.val].toUInt32
    else if j.val = min 16 m.length then Word.lit 1
    else Word.lit 0

/-- Limb `i` of the product with the multiplier: the columns above `i` return with weight 320. -/
def mulColumn (h r : Vector α 17) (i : ℕ) (hi : i < 17) : α :=
  Nat.fold 17 (fun j _ x =>
    x + h[j] * (if hj : j ≤ i then r[i - j] else Word.lit 320 * r[i + 17 - j])) (Word.lit 0)

/-- The reduction after a multiplication. -/
def reduce1305 (h : Vector α 17) : Vector α 17 :=
  let (h, u) := carryChain 16 (by omega) (fun _ _ x => x) h (Word.lit 0)
  let u := u + h[16]
  let h := h.set 16 (u &&& Word.lit 3)
  let u := Word.lit 5 * Word.shr u 2
  let (h, u) := carryChain 16 (by omega) (fun _ _ x => x) h u
  let u := u + h[16]
  h.set 16 u

/-- One pass over the accumulator: add the next block, multiply, reduce. -/
def onetimeauthBlock (r h : Vector α 17) (m : List UInt8) : Vector α 17 :=
  let h := add1305 h (loadBlock m)
  let x : Vector α 17 := Vector.ofFn fun i => mulColumn h r i i.isLt
  reduce1305 x

/-- The loop over the blocks of the message. -/
def onetimeauthLoop (r h : Vector α 17) (m : List UInt8) : Vector α 17 :=
  if m.length = 0 then h
  else onetimeauthLoop r (onetimeauthBlock r h m) (m.drop 16)
termination_by m.length
decreasing_by simp; omega

/-- The limbs of `g` where the mask `s` is set, and those of `h` where it is not. -/
def selectLimbs (s : α) (g h : Vector α 17) : Vector α 17 :=
  Vector.ofFn fun j => h[j] ^^^ (s &&& (g[j] ^^^ h[j]))

/-- The subtraction of the prime, kept if it does not go below zero, and the final addition. -/
def onetimeauthFinish (h : Vector α 17) (k : Vector UInt8 32) : Vector α 17 :=
  let g := h
  let h := add1305 h (minusp.map Word.lit)
  let s := Word.neg (Word.shr h[16] 7)
  let h : Vector α 17 := Vector.ofFn fun j => h[j] ^^^ (s &&& (g[j] ^^^ h[j]))
  let c : Vector α 17 := Vector.ofFn fun j =>
    if hj : j.val < 16 then Word.lit k[j.val + 16].toUInt32 else Word.lit 0
  add1305 h c

/-- The limbs of the authenticator. -/
def onetimeauthLimbs (m : List UInt8) (k : Vector UInt8 32) : Vector α 17 :=
  onetimeauthFinish (onetimeauthLoop (clampR k) (Vector.replicate 17 (Word.lit 0)) m) k

end Code

/-- The sixteen bytes `crypto_onetimeauth` computes. -/
def onetimeauth (m : List UInt8) (k : Vector UInt8 32) : Vector UInt8 16 :=
  Vector.ofFn fun j => (onetimeauthLimbs (α := UInt32) m k)[j.val].toUInt8

/-- `crypto_onetimeauth`. Message and key are read before the output is written. -/
def cryptoOnetimeauth (out m : Ptr) (n : UInt64) (k : Ptr) : Exec Int32 :=
  match out, m, k with
  | some out, some m, some k => do
    let key ← loadVec k 32
    let message ← loadBytes m n.toNat
    storeVec out (onetimeauth message key)
    pure 0
  | _, _, _ => pure (-1)

/-- `crypto_onetimeauth` writes the computed bytes, wherever the buffers lie. -/
theorem cryptoOnetimeauth_runs {mem : Mem} {out m k : Addr} {n : UInt64} (hout : mem.Valid out 16)
    (hm : mem.Valid m n.toNat) (hk : mem.Valid k 32) :
    Runs (cryptoOnetimeauth (some out) (some m) n (some k)) mem 0
      (mem.writeVec out (onetimeauth (mem.bytes m n.toNat) (mem.vec k 32))) :=
  (Runs.loadVec hk).bind ((Runs.loadBytes hm).bind ((Runs.storeVec hout _).bind (Runs.pure _ _)))

end TweetNacl
