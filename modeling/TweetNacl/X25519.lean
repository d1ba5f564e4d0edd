import TweetNacl.Lib.Indexing
import TweetNacl.ScalarMult

/-!
# X25519

The function of RFC 7748 on field elements and integers, and the proof that
`crypto_scalarmult` computes it for every scalar and every encoded coordinate. The RFC
defers each conditional swap to the next step; the code swaps before and after a step.
-/

namespace TweetNacl

open Limbs MachineInt Memory

/-- The scalar an encoding denotes: bits 3 to 253 of the input, and bit 254 set. -/
def decodeScalar25519 (n : Vector UInt8 32) : ℕ := 2 ^ 254 + 8 * (leNat n / 8 % 2 ^ 251)

/-- Two points in projective `x` coordinates. -/
structure XPair where
  x2 : Fp
  z2 : Fp
  x3 : Fp
  z3 : Fp

/-- Exchange the two points if the bit is set. -/
def XPair.cswap (swap : Bool) (s : XPair) : XPair := if swap then ⟨s.x3, s.z3, s.x2, s.z2⟩ else s

/-- Double the first point and add the second to it, given the coordinate of their difference. -/
def XPair.doubleAdd (x1 : Fp) (s : XPair) : XPair :=
  let a := s.x2 + s.z2
  let aa := a ^ 2
  let b := s.x2 - s.z2
  let bb := b ^ 2
  let e := aa - bb
  let c := s.x3 + s.z3
  let d := s.x3 - s.z3
  let da := d * a
  let cb := c * b
  { x2 := aa * bb
    z2 := e * (aa + 121665 * e)
    x3 := (da + cb) ^ 2
    z3 := x1 * (da - cb) ^ 2 }

/-- The affine coordinate of the first point, by a power as in the RFC. -/
def XPair.output (s : XPair) : Fp := s.x2 * s.z2 ^ (p25519 - 2)

/-- The ladder of RFC 7748 section 5 on `bits` bits of the scalar, with its deferred swap. -/
def x25519Ladder (bits k : ℕ) (u : Fp) : Fp :=
  let (s, swap) := Nat.foldRev bits (fun t _ (s, swap) =>
    let kt := k.testBit t
    let swap := swap ^^ kt
    let s := XPair.cswap swap s
    (XPair.doubleAdd u s, kt)) ((⟨1, 0, u, 1⟩ : XPair), false)
  (XPair.cswap swap s).output

/-- X25519: the ladder on the decoded scalar and the low 255 bits of the coordinate. -/
def x25519 (n p : Vector UInt8 32) : Fp := x25519Ladder 255 (decodeScalar25519 n) (fieldOfBytes p)

/-- One ladder step between two swaps. -/
def XPair.step (x1 : Fp) (bit : Bool) (s : XPair) : XPair :=
  ((s.cswap bit).doubleAdd x1).cswap bit

/-- The ladder with its swaps around each step. -/
def ladderPair (bits k : ℕ) (u : Fp) : XPair :=
  Nat.foldRev bits (fun t _ s => XPair.step u (k.testBit t) s) ⟨1, 0, u, 1⟩

/-- Two conditional swaps are one. -/
@[simp] theorem XPair.cswap_cswap (b c : Bool) (s : XPair) :
    (s.cswap b).cswap c = s.cswap (b ^^ c) := by
  cases b <;> cases c <;> rfl

/-- Deferring the swaps does not change the result. -/
theorem x25519Ladder_eq (bits k : ℕ) (u : Fp) :
    x25519Ladder bits k u = (ladderPair bits k u).output := by
  have hsim := Loops.foldRev_simulation (n := bits)
    (f := fun t _ (s : XPair × Bool) =>
      let kt := k.testBit t
      let swap := s.2 ^^ kt
      let s := XPair.cswap swap s.1
      (XPair.doubleAdd u s, kt))
    (g := fun t _ s => XPair.step u (k.testBit t) s)
    (s := ((⟨1, 0, u, 1⟩ : XPair), false)) (t := (⟨1, 0, u, 1⟩ : XPair))
    (fun s s' => s.1.cswap s.2 = s') (by simp [XPair.cswap])
    (fun t _ s s' h => by subst h; simp [XPair.step])
  rw [ladderPair, ← hsim]
  rfl

/-- Clamping changes the lowest and the top byte. -/
theorem leInt_clampScalar (n : Vector UInt8 32) : leInt (clampScalar n) =
    leInt n + (64 + (n.nth 31).toNat % 64 - (n.nth 31).toNat) * 2 ^ 248 - (n.nth 0).toNat % 8 := by
  rw [Vector.nth_eq n rfl (show 31 < 32 by omega), Vector.nth_eq n rfl (show 0 < 32 by omega)]
  have hlow : ((n[0] &&& 248).toNat : ℤ) = n[0].toNat - n[0].toNat % 8 :=
    forall_byte (P := fun b => ((b &&& 248).toNat : ℤ) = b.toNat - b.toNat % 8)
      (by decide +kernel) _
  have htop : ((n[31] &&& 127) ||| 64).toNat = 64 + n[31].toNat % 64 :=
    forall_byte (P := fun b => ((b &&& 127) ||| 64).toNat = 64 + b.toNat % 64) (by decide +kernel) _
  rw [clampScalar, leInt_set _ (by omega), leInt_set _ (by omega), htop,
    Vector.getElem_set_ne _ _ (by omega), hlow, ← pow_mul]
  push_cast
  ring

/-- The clamped bytes denote the decoded scalar. -/
theorem leNat_clampScalar (n : Vector UInt8 32) : leNat (clampScalar n) = decodeScalar25519 n := by
  obtain ⟨low, high, hsplit, hlow⟩ := leNat_split n (by norm_num : 31 < 32)
  have hbound := leNat_lt n
  have hmod := leInt_emod n (by norm_num)
  have hclamp := leInt_clampScalar n
  rw [Vector.nth_eq n rfl (show 31 < 32 by omega),
    Vector.nth_eq n rfl (show 0 < 32 by omega)] at hclamp
  rw [← leNat_cast] at hmod hclamp
  rw [← leNat_cast] at hclamp
  rw [← pow_mul] at hbound hsplit hlow
  rw [decodeScalar25519]
  omega

/-- The bit the code reads is the bit of the number. -/
theorem scalarBit_eq (z : Vector UInt8 32) {i : ℕ} (hi : i < 256) :
    scalarBit z i hi = if (leNat z).testBit i then 1 else 0 := by
  have hbit : ∀ r < 8, ∀ b : UInt8,
      ((b >>> UInt8.ofNat r) &&& 1).toUInt32.toInt32 = if b.toNat.testBit r then 1 else 0 := by
    intro r hr
    apply forall_byte
    revert r
    decide +kernel
  rw [leNat_testBit z (by omega), scalarBit]
  exact hbit _ (Nat.mod_lt _ (by norm_num)) _

/-- `sel25519` on a bit swaps the elements or leaves them. -/
theorem sel25519_bit (p q : Gf) (bit : Bool) :
    sel25519 p q (if bit then 1 else 0) = if bit then (q, p) else (p, q) := by
  cases bit
  · exact sel25519_zero p q
  · exact sel25519_one p q

/-- The limbs of the working elements stand for the two points of the ladder. -/
structure LadderState.Denotes (s : LadderState) (t : XPair) : Prop where
  a : Gf.Denotes (2 ^ 17) s.a t.x2
  b : Gf.Denotes (2 ^ 17) s.b t.x3
  c : Gf.Denotes (2 ^ 17) s.c t.z2
  d : Gf.Denotes (2 ^ 17) s.d t.z3

/-- The constant `gf0` denotes 0. -/
theorem gf0_denotes : Gf.Denotes 0 gf0 0 := by
  refine ⟨fun i hi => by revert i; decide, ?_⟩
  rw [Gf.toField, show gf0.value = 0 by decide, Int.cast_zero]

/-- The constant `gf1` denotes 1. -/
theorem gf1_denotes : Gf.Denotes 1 gf1 1 := by
  refine ⟨fun i hi => by revert i; decide, ?_⟩
  rw [Gf.toField, show gf1.value = 1 by decide, Int.cast_one]

/-- The constant `_121665` denotes its number. -/
theorem c121665_denotes : Gf.Denotes (2 ^ 16) c121665 121665 := by
  refine ⟨fun i hi => by revert i; decide, ?_⟩
  rw [Gf.toField, show c121665.value = 121665 by decide]
  norm_num

/-- The working elements with the two points exchanged. -/
def LadderState.swap (s : LadderState) : LadderState :=
  { s with a := s.b, b := s.a, c := s.d, d := s.c }

/-- Swapped limbs denote the swapped pair. -/
theorem LadderState.Denotes.swap {s : LadderState} {t : XPair} (h : s.Denotes t) :
    s.swap.Denotes (t.cswap true) := ⟨h.b, h.a, h.d, h.c⟩

/-- For a set bit the code exchanges the points before and after a pass. -/
theorem ladderStep_one (x : Gf) (s : LadderState) :
    ladderStep x 1 s = (ladderStep x 0 s.swap).swap := by
  simp only [ladderStep, sel25519_one, sel25519_zero, LadderState.swap]

/-- A pass without exchange doubles and adds. -/
theorem LadderState.Denotes.doubleAdd {s : LadderState} {t : XPair} {x : Gf} {u : Fp}
    (hx : Gf.Denotes (2 ^ 16) x u) (h : s.Denotes t) :
    (ladderStep x 0 s).Denotes (t.doubleAdd u) := by
  simp only [ladderStep, sel25519_zero]
  have he := h.a.A h.c (by norm_num)
  have ha := h.a.Z h.c (by norm_num)
  have hc := h.b.A h.d (by norm_num)
  have hb := h.b.Z h.d (by norm_num)
  have haa := (he.mono (by norm_num)).S
  have hbb := (ha.mono (by norm_num)).S
  have hcb := (hc.mono (by norm_num)).M (ha.mono (by norm_num))
  have hda := (hb.mono (by norm_num)).M (he.mono (by norm_num))
  have hsum := hcb.A hda (by norm_num)
  have hdiff := hcb.Z hda (by norm_num)
  have he' := haa.Z hbb (by norm_num)
  have hscaled := (he'.mono (by norm_num)).M (c121665_denotes.mono (by norm_num))
  have hz2 := (he'.mono (by norm_num)).M ((hscaled.A haa (by norm_num)).mono (by norm_num))
  have hx2 := (haa.mono (by norm_num)).M (hbb.mono (by norm_num))
  have hsquare := (hdiff.mono (by norm_num)).S
  have hz3 := (hsquare.mono (by norm_num)).M (hx.mono (by norm_num))
  have hx3 := (hsum.mono (by norm_num)).S
  refine ⟨hx2.congr ?_, hx3.congr ?_, hz2.congr ?_, hz3.congr ?_⟩ <;>
    simp only [XPair.doubleAdd] <;> ring

/-- A ladder pass is a step on the two points. -/
theorem LadderState.Denotes.step {s : LadderState} {t : XPair} {x : Gf} {u : Fp}
    (hx : Gf.Denotes (2 ^ 16) x u) (h : s.Denotes t) (bit : Bool) :
    (ladderStep x (if bit then 1 else 0) s).Denotes (t.step u bit) := by
  cases bit with
  | false => exact h.doubleAdd hx
  | true =>
    rw [if_pos rfl, ladderStep_one]
    exact (h.swap.doubleAdd hx).swap

/-- The ladder loop computes the pair of points of the field ladder. -/
theorem ladderLoop_denotes {x : Gf} {u : Fp} (hx : Gf.Denotes (2 ^ 16) x u) (z : Vector UInt8 32) :
    (ladderLoop x z).Denotes (ladderPair 255 (leNat z) u) := by
  refine Loops.foldRev_simulation LadderState.Denotes ?_ fun i hi s t h => ?_
  · exact ⟨gf1_denotes.mono (by norm_num), hx.mono (by norm_num), gf0_denotes.mono (by norm_num),
      gf1_denotes.mono (by norm_num)⟩
  · rw [scalarBit_eq z (by omega)]
    exact h.step hx _

/-- The exponent of the RFC's final inversion is the one `inv25519` computes. -/
theorem pow_p25519_sub_two (x : Fp) : x ^ (p25519 - 2) = x⁻¹ := by
  rw [← pow_p_sub_two]
  congr 1
  rw [p25519_eq]
  norm_num

/-- The bytes `crypto_scalarmult` computes are the canonical encoding of X25519. -/
theorem leInt_scalarmultBytes (n p : Vector UInt8 32) :
    leInt (scalarmultBytes n p) = ((x25519 n p).val : ℤ) := by
  have hs := ladderLoop_denotes (unpack25519_denotes p) (clampScalar n)
  rw [leNat_clampScalar] at hs
  have hresult :=
    (hs.a.mono (by norm_num)).M ((hs.c.mono (by norm_num)).inv25519.mono (by norm_num))
  rw [scalarmultBytes, leInt_pack25519 (hresult.bounded.mono (by norm_num)), hresult.toField_eq,
    x25519, x25519Ladder_eq, XPair.output, pow_p25519_sub_two]

/-- `crypto_scalarmult` succeeds on every scalar and coordinate, and leaves in `q` the canonical
encoding of X25519, wherever the three buffers lie. -/
theorem cryptoScalarmult_refines_x25519 {m : Mem} {q n p : Addr} (hq : m.Valid q 32)
    (hn : m.Valid n 32) (hp : m.Valid p 32) :
    ∃ m', Runs (cryptoScalarmult (some q) (some n) (some p)) m 0 m' ∧
      leInt (m'.vec q 32) = ((x25519 (m.vec n 32) (m.vec p 32)).val : ℤ) :=
  ⟨_, cryptoScalarmult_runs hq hn hp, by rw [Mem.vec_writeVec, leInt_scalarmultBytes]⟩

/-- A result buffer of zeros, a scalar of the bytes 1 to 32 and a coordinate of the bytes 33 to
64. -/
def scalarmultMemory : Mem :=
  Mem.ofBytes [List.replicate 32 0, numberedBytes 1 32, numberedBytes 33 32]

/-- The statement at this scalar and coordinate, in separate buffers. -/
theorem cryptoScalarmult_refines_x25519_numbered :
    ∃ m', Runs (cryptoScalarmult (some ⟨0, 0⟩) (some ⟨1, 0⟩) (some ⟨2, 0⟩)) scalarmultMemory 0 m' ∧
      leInt (m'.vec ⟨0, 0⟩ 32) = ((x25519 (scalarmultMemory.vec ⟨1, 0⟩ 32)
        (scalarmultMemory.vec ⟨2, 0⟩ 32)).val : ℤ) :=
  cryptoScalarmult_refines_x25519 (by decide) (by decide) (by decide)

end TweetNacl
