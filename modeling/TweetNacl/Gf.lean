import Mathlib.Tactic.Common

/-!
# The field code of the Curve25519 and Ed25519 functions

A field element is an array of sixteen signed 64-bit limbs in radix `2 ^ 16`, least
significant first. This file transcribes the functions `set25519` to `pow2523` on such
arrays, with the machine's wrapping 64-bit arithmetic, and the constants they use.
Limbs are neither reduced nor nonnegative between operations; what they mean is stated
in the files that follow.

An output parameter becomes a result. Every function here reads an operand's limb
before it overwrites that limb or works in a local array first, so the calls in which
the output array is also an operand compute the same value.
-/

namespace TweetNacl

/-- A field element: `typedef i64 gf[16]`. -/
abbrev Gf := Vector Int64 16

/-- The constant `0`. -/
def gf0 : Gf := Vector.replicate 16 0

/-- The constant `1`. -/
def gf1 : Gf := #v[1, 0, 0, 0, 0, 0, 0, 0, 0, 0, 0, 0, 0, 0, 0, 0]

/-- The Montgomery ladder constant `(486662 - 2) / 4`. -/
def c121665 : Gf := #v[0xDB41, 1, 0, 0, 0, 0, 0, 0, 0, 0, 0, 0, 0, 0, 0, 0]

namespace Gf

/-- The Edwards curve coefficient. -/
def D : Gf :=
  #v[0x78a3, 0x1359, 0x4dca, 0x75eb, 0xd8ab, 0x4141, 0x0a4d, 0x0070,
    0xe898, 0x7779, 0x4079, 0x8cc7, 0xfe73, 0x2b6f, 0x6cee, 0x5203]

/-- Twice the Edwards curve coefficient. -/
def D2 : Gf :=
  #v[0xf159, 0x26b2, 0x9b94, 0xebd6, 0xb156, 0x8283, 0x149a, 0x00e0,
    0xd130, 0xeef3, 0x80f2, 0x198e, 0xfce7, 0x56df, 0xd9dc, 0x2406]

/-- The `x` coordinate of the Ed25519 base point. -/
def X : Gf :=
  #v[0xd51a, 0x8f25, 0x2d60, 0xc956, 0xa7b2, 0x9525, 0xc760, 0x692c,
    0xdc5c, 0xfdd6, 0xe231, 0xc0a4, 0x53fe, 0xcd6e, 0x36d3, 0x2169]

/-- The `y` coordinate of the Ed25519 base point. -/
def Y : Gf :=
  #v[0x6658, 0x6666, 0x6666, 0x6666, 0x6666, 0x6666, 0x6666, 0x6666,
    0x6666, 0x6666, 0x6666, 0x6666, 0x6666, 0x6666, 0x6666, 0x6666]

/-- A square root of `-1`. -/
def I : Gf :=
  #v[0xa0b0, 0x4a0e, 0x1b27, 0xc4ee, 0xe478, 0xad2f, 0x1806, 0x2f43,
    0xd7a7, 0x3dfb, 0x0099, 0x2b4d, 0xdf0b, 0x4fc1, 0x2480, 0x2b83]

end Gf

/-- Copy a field element. -/
def set25519 (a : Gf) : Gf := Vector.ofFn fun i => a[i]

/-- The index `(i + 1) * (i < 15)` that a carry out of limb `i` is added to. -/
def carryTarget (i : ℕ) : ℕ := (i + 1) * (decide (i < 15)).toNat

/-- The limb that takes a carry is one of the sixteen. -/
theorem carryTarget_lt (i : ℕ) : carryTarget i < 16 := by
  unfold carryTarget
  by_cases h : i < 15 <;> simp [h]; omega

/-- One carry pass over the limbs; the carry out of the top limb returns with weight 38. -/
def car25519 (o : Gf) : Gf :=
  Nat.fold 16 (fun i _ o =>
    let o := o.set i (o[i] + ((1 : Int64) <<< 16))
    let c := o[i] >>> 16
    have := carryTarget_lt i
    let o := o.set (carryTarget i)
      (o[carryTarget i] + (c - 1 + 37 * (c - 1) * (if i = 15 then 1 else 0)))
    o.set i (o[i] - (c <<< 16))) o

/-- Swap `p` and `q` when `b = 1`, keep them when `b = 0`, by masks instead of a branch. -/
def sel25519 (p q : Gf) (b : Int32) : Gf × Gf :=
  let c := (~~~(b - 1)).toInt64
  let t : Gf := Vector.ofFn fun i => c &&& (p[i] ^^^ q[i])
  (Vector.ofFn fun i => p[i] ^^^ t[i], Vector.ofFn fun i => q[i] ^^^ t[i])

/-- The trial subtraction of `2 ^ 255 - 19` from `t`, with borrows, into `m`. -/
def subtractModulus (t : Gf) : Gf :=
  let m : Gf := gf0.set 0 (t[0] - (0xffed : Int64))
  let m := Nat.fold 14 (fun k _ (m : Gf) =>
    let i := k + 1
    let m := m.set i (t[i] - (0xffff : Int64) - ((m[i - 1] >>> 16) &&& 1))
    m.set (i - 1) (m[i - 1] &&& 0xffff)) m
  m.set 15 (t[15] - (0x7fff : Int64) - ((m[14] >>> 16) &&& 1))

/-- One borrow: limb `i + 1` becomes a difference less the borrow of limb `i`, which is masked. -/
def borrowStep (t : Gf) (c : Int64) (i : ℕ) (hi : i < 15) (m : Gf) : Gf :=
  let m := m.set (i + 1) (t[i + 1] - c - ((m[i] >>> 16) &&& 1))
  m.set i (m[i] &&& 0xffff)

/-- The differences of the limbs below the top one. -/
def borrowLoop (t : Gf) : Gf :=
  Nat.fold 14 (fun k hk m => borrowStep t 0xffff k (by omega) m)
    (gf0.set 0 (t[0] - (0xffed : Int64)))

/-- The array `packStep` selects against its operand: the difference with its borrows taken. -/
def difference (t : Gf) : Gf :=
  let m := subtractModulus t
  m.set 14 (m[14] &&& 0xffff)

/-- One of the two conditional subtractions of `pack25519`. -/
def packStep (t : Gf) : Gf :=
  let m := subtractModulus t
  let b := ((m[15] >>> 16) &&& 1).toInt32
  let m := m.set 14 (m[14] &&& 0xffff)
  (sel25519 t m (1 - b)).1

/-- The 32-byte encoding of a field element. -/
def pack25519 (n : Gf) : Vector UInt8 32 :=
  let t := set25519 n
  let t := car25519 t
  let t := car25519 t
  let t := car25519 t
  let t := Nat.fold 2 (fun _ _ t => packStep t) t
  Vector.ofFn fun k =>
    if k.val % 2 = 0 then (t[k.val / 2] &&& 0xff).toInt8.toUInt8
    else (t[k.val / 2] >>> 8).toInt8.toUInt8

/-- Two bytes of each digit. -/
def digitBytes (t : Gf) : Vector UInt8 32 :=
  Vector.ofFn fun k =>
    if k.val % 2 = 0 then (t[k.val / 2] &&& 0xff).toInt8.toUInt8
    else (t[k.val / 2] >>> 8).toInt8.toUInt8

/-- The field element a 32-byte string denotes; the top bit is ignored. -/
def unpack25519 (n : Vector UInt8 32) : Gf :=
  let o : Gf := Vector.ofFn fun i =>
    n[2 * i.val].toUInt64.toInt64 + (n[2 * i.val + 1].toUInt64.toInt64 <<< 8)
  o.set 15 (o[15] &&& 0x7fff)

namespace Gf

/-- Limbwise addition, without carries. -/
def A (a b : Gf) : Gf := Vector.ofFn fun i => a[i] + b[i]

/-- Limbwise subtraction, without carries. -/
def Z (a b : Gf) : Gf := Vector.ofFn fun i => a[i] - b[i]

/-- The 31 column sums of the schoolbook product. -/
def product (a b : Gf) : Vector Int64 31 :=
  Nat.fold 16 (fun i _ t =>
    Nat.fold 16 (fun j _ (t : Vector Int64 31) => t.set (i + j) (t[i + j] + a[i] * b[j])) t)
    (Vector.replicate 31 0)

/-- Fold the upper columns into the lower ones, since `2 ^ 256 = 38` modulo the prime. -/
def foldColumns (t : Vector Int64 31) : Vector Int64 31 :=
  Nat.fold 15 (fun i _ t => t.set i (t[i] + 38 * t[i + 16])) t

/-- Multiplication, followed by two carry passes. -/
def M (a b : Gf) : Gf :=
  let t := foldColumns (product a b)
  let o : Gf := Vector.ofFn fun i => t[i]
  car25519 (car25519 o)

/-- Squaring. -/
def S (a : Gf) : Gf := M a a

end Gf

/-- One row of the schoolbook product: the multiples of limb `i` of the first operand. -/
def productRow (a b : Gf) (i : ℕ) (hi : i < 16) (t : Vector Int64 31) : Vector Int64 31 :=
  Nat.fold 16 (fun j _ (t : Vector Int64 31) => t.set (i + j) (t[i + j] + a[i] * b[j])) t

/-- The sixteen folded columns, as the array the carry passes start from. -/
def foldedLimbs (a b : Gf) : Gf := Vector.ofFn fun i => (Gf.foldColumns (Gf.product a b))[i]

/-- The power `2 ^ 255 - 21`, by square and multiply. -/
def inv25519 (i : Gf) : Gf :=
  Nat.foldRev 254 (fun a _ c =>
    let c := Gf.S c
    if a ≠ 2 ∧ a ≠ 4 then Gf.M c i else c) (set25519 i)

/-- The power `2 ^ 252 - 3`, by square and multiply. -/
def pow2523 (i : Gf) : Gf :=
  Nat.foldRev 251 (fun a _ c =>
    let c := Gf.S c
    if a ≠ 1 then Gf.M c i else c) (set25519 i)

end TweetNacl
