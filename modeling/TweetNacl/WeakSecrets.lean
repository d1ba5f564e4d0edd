import TweetNacl.Box
import TweetNacl.LowOrder

/-!
# Weak shared secrets

`crypto_scalarmult` is documented to return −1 if its result is zero, and the box functions would
have to pass the error on. It returns 0 in any case. So the promise is kept for exactly the points
that are not of low order, for which the result is not zero with any scalar.
-/

namespace TweetNacl

open Limbs Memory

/-- The multiplication that `crypto_box_beforenm` starts with, into its local secret, returns −1. -/
def SecretFails (mem : Mem) (y x : Addr) : Prop :=
  ∃ mem', Runs (cryptoScalarmult (some ⟨mem.fresh, 0⟩) (some x) (some y)) (mem.alloc 32) (-1) mem'

/-- The functions report a weak secret, wherever the scalar `n` and the point `p` are stored: the
multiplication returns −1 if its result is all zero and 0 otherwise, and each box function returns
−1 if its multiplication does. The two that call `crypto_box_beforenm` have allocated its key
before. -/
structure WeakSecretsReported (n p : Vector UInt8 32) : Prop where
  scalarmult : ∀ mem q x y, mem.Valid q 32 → mem.Valid x 32 → mem.Valid y 32 → mem.vec x 32 = n →
    mem.vec y 32 = p → ∃ ret mem', Runs (cryptoScalarmult (some q) (some x) (some y)) mem ret mem' ∧
      ret = if mem'.vec q 32 = Vector.replicate 32 0 then -1 else 0
  beforenm : ∀ mem k y x, mem.Valid k 32 → mem.Valid y 32 → mem.Valid x 32 → mem.vec x 32 = n →
    mem.vec y 32 = p → SecretFails mem y x →
      ∃ mem', Runs (cryptoBoxBeforenm (some k) (some y) (some x)) mem (-1) mem'
  box : ∀ mem c m (d : UInt64) nonce y x, mem.Valid c d.toNat → mem.Valid m d.toNat →
    mem.Valid nonce 24 →
    mem.Valid y 32 → mem.Valid x 32 → mem.vec x 32 = n → mem.vec y 32 = p →
    SecretFails (mem.alloc 32) y x →
      ∃ mem', Runs (cryptoBox (some c) (some m) d (some nonce) (some y) (some x)) mem (-1) mem'
  boxOpen : ∀ mem m c (d : UInt64) nonce y x, mem.Valid m d.toNat → mem.Valid c d.toNat →
    mem.Valid nonce 24 →
    mem.Valid y 32 → mem.Valid x 32 → mem.vec x 32 = n → mem.vec y 32 = p →
    SecretFails (mem.alloc 32) y x →
      ∃ mem', Runs (cryptoBoxOpen (some m) (some c) d (some nonce) (some y) (some x)) mem (-1) mem'

/-- The multiplication never fails. -/
theorem not_secretFails {mem : Mem} {y x : Addr} (hy : mem.Valid y 32) (hx : mem.Valid x 32) :
    ¬ SecretFails mem y x := by
  rintro ⟨mem', hrun⟩
  have hret :=
    (hrun.unique (cryptoScalarmult_runs (mem.valid_alloc 32) (hx.alloc 32) (hy.alloc 32))).1
  exact absurd hret (by decide)

/-- The computed bytes are all zero exactly for the points of low order, in any encoding. -/
theorem scalarmultBytes_eq_zero_iff (n p : Vector UInt8 32) :
    scalarmultBytes n p = Vector.replicate 32 0 ↔ fieldOfBytes p ∈ lowOrderCoordinates := by
  rw [← x25519_eq_zero_iff n p, ← leInt_injective.eq_iff, leInt_scalarmultBytes,
    show leInt (Vector.replicate 32 0) = 0 by decide +kernel, Nat.cast_eq_zero, ZMod.val_eq_zero]

/-- A memory that holds the scalar and the point next to a buffer for the result. -/
def secretMemory (n p : Vector UInt8 32) : Mem :=
  ((Mem.ofSizes [32, 32, 32]).writeVec ⟨1, 0⟩ n).writeVec ⟨2, 0⟩ p

/-- The scalar of the example. -/
theorem secretMemory_scalar (n p : Vector UInt8 32) : (secretMemory n p).vec ⟨1, 0⟩ 32 = n := by
  have hframe := Mem.frame_writeVec ((Mem.ofSizes [32, 32, 32]).writeVec ⟨1, 0⟩ n) ⟨2, 0⟩ p
  rw [secretMemory, hframe.vec_of_disjoint (Disjoint.of_obj_ne (by decide) _ _), Mem.vec_writeVec]

/-- A zero result is not reported. -/
theorem not_weakSecretsReported {n p : Vector UInt8 32}
    (hzero : scalarmultBytes n p = Vector.replicate 32 0) :
    ¬ WeakSecretsReported n p := by
  intro h
  have hvalid : ∀ a, (Mem.ofSizes [32, 32, 32]).Valid a 32 → (secretMemory n p).Valid a 32 :=
    fun _ ha => ha
  have hq := hvalid ⟨0, 0⟩ (by decide)
  have hx := hvalid ⟨1, 0⟩ (by decide)
  have hy := hvalid ⟨2, 0⟩ (by decide)
  have hn := secretMemory_scalar n p
  have hp : (secretMemory n p).vec ⟨2, 0⟩ 32 = p := Mem.vec_writeVec _ _ _
  obtain ⟨ret, mem', hrun, hret⟩ := h.scalarmult _ _ _ _ hq hx hy hn hp
  obtain ⟨rfl, rfl⟩ := hrun.unique (cryptoScalarmult_runs hq hx hy)
  rw [Mem.vec_writeVec, hn, hp, if_pos hzero] at hret
  exact absurd hret (by decide)

/-- Weak secrets are reported exactly when the point is not of low order, whatever the scalar. -/
theorem weakSecretsReported_iff (n p : Vector UInt8 32) :
    WeakSecretsReported n p ↔ fieldOfBytes p ∉ lowOrderCoordinates := by
  rw [← scalarmultBytes_eq_zero_iff n p]
  constructor
  · exact fun h hzero => not_weakSecretsReported hzero h
  · intro h
    refine ⟨fun mem q x y hq hx hy hn hp => ?_, fun mem k y x _ hy hx _ _ hfails => ?_,
      fun mem c m d nonce y x _ _ _ hy hx _ _ hfails => ?_,
      fun mem m c d nonce y x _ _ _ hy hx _ _ hfails => ?_⟩
    · refine ⟨0, _, cryptoScalarmult_runs hq hx hy, ?_⟩
      rw [Mem.vec_writeVec, hn, hp, if_neg h]
    · exact absurd hfails (not_secretFails hy hx)
    · exact absurd hfails (not_secretFails (hy.alloc 32) (hx.alloc 32))
    · exact absurd hfails (not_secretFails (hy.alloc 32) (hx.alloc 32))

/-- With a zero point and a zero scalar `crypto_scalarmult` returns 0 and leaves zeros. -/
theorem zeroPoint_not_reported :
    ¬ WeakSecretsReported (Vector.replicate 32 0) (Vector.replicate 32 0) := by
  apply not_weakSecretsReported
  rw [scalarmultBytes_eq_zero_iff, fieldOfBytes, show leInt (Vector.replicate 32 0) % 2 ^ 255 =
    0 by decide +kernel, Int.cast_zero]
  exact List.mem_cons_self

end TweetNacl
