import Mathlib.Tactic.Common

/-!
# The Salsa20 core

`core` computes the 64-byte Salsa20 block and, with its last argument set, the 32 bytes of
HSalsa20, from a 16-byte input, a 32-byte key and a 16-byte constant.
-/

namespace TweetNacl

namespace Salsa20

/-- Rotation to the left. -/
def L32 (x : UInt32) (c : ℕ) : UInt32 :=
  (x <<< UInt32.ofNat c) ||| ((x &&& 0xffffffff) >>> UInt32.ofNat (32 - c))

/-- A little-endian 32-bit word. -/
def ld32 (x : ℕ → UInt8) : UInt32 :=
  let u := (x 3).toUInt32
  let u := (u <<< 8) ||| (x 2).toUInt32
  let u := (u <<< 8) ||| (x 1).toUInt32
  (u <<< 8) ||| (x 0).toUInt32

/-- The bytes of a word, the least significant first. -/
def st32 (u : UInt32) : Vector UInt8 4 :=
  Vector.ofFn fun i => (u >>> UInt32.ofNat (8 * i.val)).toUInt8

/-- The constant of the stream functions, `"expand 32-byte k"`. -/
def sigma : Vector UInt8 16 :=
  #v[101, 120, 112, 97, 110, 100, 32, 51, 50, 45, 98, 121, 116, 101, 32, 107]

section Core

variable (input : Vector UInt8 16) (k : Vector UInt8 32) (c : Vector UInt8 16)

/-- The initial state. -/
def coreInput : Vector UInt32 16 :=
  Nat.fold 4 (fun i _ (x : Vector UInt32 16) =>
    let x := x.set (5 * i) (ld32 fun b => c.getD (4 * i + b) 0)
    let x := x.set (1 + i) (ld32 fun b => k.getD (4 * i + b) 0)
    let x := x.set (6 + i) (ld32 fun b => input.getD (4 * i + b) 0)
    x.set (11 + i) (ld32 fun b => k.getD (16 + 4 * i + b) 0)) (Vector.replicate 16 0)

/-- The four words of column or row `j` of a round. -/
def quarterRound (x : Vector UInt32 16) (j : ℕ) : Vector UInt32 4 :=
  let t : Vector UInt32 4 := Vector.ofFn fun m =>
    have : (5 * j + 4 * m.val) % 16 < 16 := Nat.mod_lt _ (Nat.succ_pos 15)
    x[(5 * j + 4 * m.val) % 16]
  let t := t.set 1 (t[1] ^^^ L32 (t[0] + t[3]) 7)
  let t := t.set 2 (t[2] ^^^ L32 (t[1] + t[0]) 9)
  let t := t.set 3 (t[3] ^^^ L32 (t[2] + t[1]) 13)
  t.set 0 (t[0] ^^^ L32 (t[3] + t[2]) 18)

/-- One of the twenty rounds. -/
def coreRound (x : Vector UInt32 16) : Vector UInt32 16 :=
  Nat.fold 4 (fun j _ (w : Vector UInt32 16) =>
    let t := quarterRound x j
    Nat.fold 4 (fun m _ (w : Vector UInt32 16) =>
      have : (j + m) % 4 < 4 := Nat.mod_lt _ (Nat.succ_pos 3)
      w.set (4 * j + (j + m) % 4) t[m]) w) (Vector.replicate 16 0)

/-- The state after the twenty rounds. -/
def coreRounds : Vector UInt32 16 := Nat.fold 20 (fun _ _ x => coreRound x) (coreInput input k c)

/-- The bytes of a state. -/
def stateBytes (x : Vector UInt32 16) : Vector UInt8 64 :=
  Vector.ofFn fun b => (st32 x[b.val / 4])[b.val % 4]

/-- `crypto_core_salsa20`: `core` without its last argument set. -/
def coreSalsa20 : Vector UInt8 64 :=
  let y := coreInput input k c
  let x := coreRounds input k c
  Vector.ofFn fun b => (st32 (x[b.val / 4] + y[b.val / 4]))[b.val % 4]

/-- `crypto_core_hsalsa20`: `core` with its last argument set. -/
def coreHsalsa20 : Vector UInt8 32 :=
  let y := coreInput input k c
  let x := coreRounds input k c
  let x : Vector UInt32 16 := Vector.ofFn fun i => x.get i + y.get i
  let x := Nat.fold 4 (fun i _ (x : Vector UInt32 16) =>
    let x := x.set (5 * i) (x[5 * i] - ld32 fun b => c.getD (4 * i + b) 0)
    x.set (6 + i) (x[6 + i] - ld32 fun b => input.getD (4 * i + b) 0)) x
  Vector.ofFn fun b =>
    if h : b.val < 16 then (st32 x[5 * (b.val / 4)])[b.val % 4]
    else (st32 x[6 + (b.val - 16) / 4])[b.val % 4]

end Core

end Salsa20

end TweetNacl
