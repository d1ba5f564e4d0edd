import Mathlib.Algebra.Ring.Nat
import Mathlib.Tactic.Common

/-!
# The SHA-512 standard

SHA-512 as FIPS 180-4 defines it: constants from the roots of the first primes, an
eighty-word message schedule, padding with a 128-bit length. The initial hash value is a
parameter of the iteration.
-/

namespace TweetNacl.Fips180

/-- The largest number with at most 70 bits whose `k`-th power is at most `n`. -/
def floorRoot (k n : ℕ) : ℕ :=
  Nat.foldRev 70 (fun b _ r => if (r + 2 ^ b) ^ k ≤ n then r + 2 ^ b else r) 0

/-- The first eighty primes. -/
def primes : List ℕ :=
  ((List.range 410).filter fun p => decide (2 ≤ p) && (List.range p).all fun d =>
    decide (d < 2) || p % d != 0)

/-- The first 64 bits of the fractional part of the `k`-th root of `p`. -/
def fractionBits (k p : ℕ) : UInt64 := UInt64.ofNat (floorRoot k (p * 2 ^ (64 * k)))

/-- The round constants: cube roots of the first eighty primes. -/
def K (t : ℕ) : UInt64 := fractionBits 3 (primes.getD t 0)

/-- The initial hash value: square roots of the first eight primes. -/
def H0 (i : ℕ) : UInt64 := fractionBits 2 (primes.getD i 0)

/-- Rotation to the right. -/
def ROTR (n : ℕ) (x : UInt64) : UInt64 := ⟨x.toBitVec.rotateRight n⟩

/-- Shift to the right. -/
def SHR (n : ℕ) (x : UInt64) : UInt64 := ⟨x.toBitVec >>> n⟩

def Ch (x y z : UInt64) : UInt64 := (x &&& y) ^^^ (~~~x &&& z)

def Maj (x y z : UInt64) : UInt64 := (x &&& y) ^^^ (x &&& z) ^^^ (y &&& z)

def bigSigma0 (x : UInt64) : UInt64 := ROTR 28 x ^^^ ROTR 34 x ^^^ ROTR 39 x

def bigSigma1 (x : UInt64) : UInt64 := ROTR 14 x ^^^ ROTR 18 x ^^^ ROTR 41 x

def smallSigma0 (x : UInt64) : UInt64 := ROTR 1 x ^^^ ROTR 8 x ^^^ SHR 7 x

def smallSigma1 (x : UInt64) : UInt64 := ROTR 19 x ^^^ ROTR 61 x ^^^ SHR 6 x

/-- The message schedule of a block of sixteen words. -/
def W (M : ℕ → UInt64) (t : ℕ) : UInt64 :=
  if t < 16 then M t
  else smallSigma1 (W M (t - 2)) + W M (t - 7) + smallSigma0 (W M (t - 15)) + W M (t - 16)

/-- The eight working variables, and a hash value. -/
structure Work where
  a : UInt64
  b : UInt64
  c : UInt64
  d : UInt64
  e : UInt64
  f : UInt64
  g : UInt64
  h : UInt64
deriving DecidableEq

/-- Round `t`. -/
def Work.round (M : ℕ → UInt64) (t : ℕ) (v : Work) : Work :=
  let T1 := v.h + bigSigma1 v.e + Ch v.e v.f v.g + K t + W M t
  let T2 := bigSigma0 v.a + Maj v.a v.b v.c
  { a := T1 + T2, b := v.a, c := v.b, d := v.c, e := v.d + T1, f := v.e, g := v.f, h := v.g }

/-- Wordwise addition. -/
def Work.add (v H : Work) : Work :=
  ⟨v.a + H.a, v.b + H.b, v.c + H.c, v.d + H.d, v.e + H.e, v.f + H.f, v.g + H.g, v.h + H.h⟩

/-- The hash value after one block. -/
def compress (H : Work) (M : ℕ → UInt64) : Work :=
  (Nat.fold 80 (fun t _ v => v.round M t) H).add H

/-- The number a byte string denotes, the most significant byte first. -/
def bigEndian (l : List UInt8) : ℕ := l.foldl (fun acc b => 256 * acc + b.toNat) 0

/-- The `n` bytes of a number, the most significant first. -/
def bigEndianBytes (n v : ℕ) : List UInt8 :=
  List.ofFn fun i : Fin n => UInt8.ofNat (v / 256 ^ (n - 1 - i.val) % 256)

/-- The padded message: a one bit, the fewest zeros that leave 16 bytes to a multiple of 128, and
the length of the message in bits. -/
def pad (m : List UInt8) : List UInt8 :=
  m ++ [0x80] ++ List.replicate ((239 - m.length % 128) % 128) 0 ++ bigEndianBytes 16 (8 * m.length)

/-- Word `t` of block `i` of a padded message. -/
def blockWord (p : List UInt8) (i t : ℕ) : UInt64 :=
  UInt64.ofNat (bigEndian ((p.drop (128 * i + 8 * t)).take 8))

/-- The hash value after all blocks of the padded message. -/
def iterate (H : Work) (p : List UInt8) : Work :=
  Nat.fold (p.length / 128) (fun i _ H => compress H (blockWord p i)) H

/-- The bytes of a hash value. -/
def Work.bytes (H : Work) : List UInt8 :=
  [H.a, H.b, H.c, H.d, H.e, H.f, H.g, H.h].flatMap fun x => bigEndianBytes 8 x.toNat

/-- SHA-512 of a byte string. -/
def sha512 (m : List UInt8) : List UInt8 :=
  (iterate ⟨H0 0, H0 1, H0 2, H0 3, H0 4, H0 5, H0 6, H0 7⟩ (pad m)).bytes

end TweetNacl.Fips180
