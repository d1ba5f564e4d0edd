import TweetNacl.GfPack
import TweetNacl.GfPow
import TweetNacl.Lib.Memory

/-!
# Curve25519 scalar multiplication

`crypto_scalarmult` clamps the scalar, runs 255 steps of the Montgomery ladder on six field
elements that are overwritten in place, and divides. The bytes it computes from its two
inputs are `scalarmultBytes`; reading and writing the buffers is around it.
-/

namespace TweetNacl

open Memory

/-- The `u` coordinate of the Curve25519 base point, `_9`. -/
def basePoint9 : Vector UInt8 32 := (Vector.replicate 32 0).set 0 9

/-- The scalar with its three low bits and its top bit cleared and the bit below set. -/
def clampScalar (n : Vector UInt8 32) : Vector UInt8 32 :=
  let z := n.set 31 ((n[31] &&& 127) ||| 64)
  z.set 0 (z[0] &&& 248)

/-- Bit `i` of a scalar: `(z[i >> 3] >> (i & 7)) & 1`. -/
def scalarBit (z : Vector UInt8 32) (i : ℕ) (hi : i < 256) : Int32 :=
  have : i / 8 < 32 := by omega
  ((z[i / 8] >>> UInt8.ofNat (i % 8)) &&& 1).toUInt32.toInt32

/-- The working field elements of the ladder. -/
structure LadderState where
  a : Gf
  b : Gf
  c : Gf
  d : Gf
  e : Gf
  f : Gf

/-- One pass of the ladder loop for the scalar bit `r`. -/
def ladderStep (x : Gf) (r : Int32) (s : LadderState) : LadderState :=
  let (a, b) := sel25519 s.a s.b r
  let (c, d) := sel25519 s.c s.d r
  let e := Gf.A a c
  let a := Gf.Z a c
  let c := Gf.A b d
  let b := Gf.Z b d
  let d := Gf.S e
  let f := Gf.S a
  let a := Gf.M c a
  let c := Gf.M b e
  let e := Gf.A a c
  let a := Gf.Z a c
  let b := Gf.S a
  let c := Gf.Z d f
  let a := Gf.M c c121665
  let a := Gf.A a d
  let c := Gf.M c a
  let a := Gf.M d f
  let d := Gf.M b x
  let b := Gf.S e
  let (a, b) := sel25519 a b r
  let (c, d) := sel25519 c d r
  ⟨a, b, c, d, e, f⟩

/-- The ladder loop, from the top bit down. -/
def ladderLoop (x : Gf) (z : Vector UInt8 32) : LadderState :=
  Nat.foldRev 255 (fun i hi s => ladderStep x (scalarBit z i (by omega)) s)
    ⟨gf1, x, gf0, gf1, gf0, gf0⟩

/-- The 32 bytes `crypto_scalarmult` computes from the scalar and the point. -/
def scalarmultBytes (n p : Vector UInt8 32) : Vector UInt8 32 :=
  let s := ladderLoop (unpack25519 p) (clampScalar n)
  pack25519 (Gf.M s.a (inv25519 s.c))

/-- `crypto_scalarmult`. Both inputs are read before the output is written. -/
def cryptoScalarmult (q n p : Ptr) : Exec Int32 :=
  match q, n, p with
  | some q, some n, some p => do
    let n ← loadVec n 32
    let p ← loadVec p 32
    storeVec q (scalarmultBytes n p)
    pure 0
  | _, _, _ => pure (-1)

/-- `crypto_scalarmult` writes the computed bytes, wherever the buffers lie. -/
theorem cryptoScalarmult_runs {m : Mem} {q n p : Addr} (hq : m.Valid q 32) (hn : m.Valid n 32)
    (hp : m.Valid p 32) :
    Runs (cryptoScalarmult (some q) (some n) (some p)) m 0
      (m.writeVec q (scalarmultBytes (m.vec n 32) (m.vec p 32))) :=
  (Runs.loadVec hn).bind ((Runs.loadVec hp).bind ((Runs.storeVec hq _).bind (Runs.pure _ _)))

/-- `crypto_scalarmult_base`: the base point is a constant of the program. -/
def cryptoScalarmultBase (q n : Ptr) : Exec Int32 :=
  match q, n with
  | some q, some n => do
    let n ← loadVec n 32
    storeVec q (scalarmultBytes n basePoint9)
    pure 0
  | _, _ => pure (-1)

/-- `crypto_scalarmult_base` is `crypto_scalarmult` with the point `_9`. -/
theorem cryptoScalarmultBase_runs {m : Mem} {q n : Addr} (hq : m.Valid q 32) (hn : m.Valid n 32) :
    Runs (cryptoScalarmultBase (some q) (some n)) m 0
      (m.writeVec q (scalarmultBytes (m.vec n 32) basePoint9)) :=
  (Runs.loadVec hn).bind ((Runs.storeVec hq _).bind (Runs.pure _ _))

end TweetNacl
