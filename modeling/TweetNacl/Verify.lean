import TweetNacl.Lib.Loops
import TweetNacl.Lib.MachineInt
import TweetNacl.Lib.Memory

/-!
# Constant-time comparison

`vn` collects the differences of two byte strings in one word and turns it into 0 or −1
without a branch.
-/

namespace TweetNacl

open Memory

/-- `vn`: compare two byte strings, 0 if they agree and −1 otherwise. -/
def vn {n : ℕ} (x y : Vector UInt8 n) : Int32 :=
  let d := Nat.fold n (fun i _ (d : UInt32) => d ||| (x[i] ^^^ y[i]).toUInt32) 0
  (((1 : UInt32) &&& ((d - 1) >>> 8)) - 1).toInt32

/-- `crypto_verify_16`. -/
def cryptoVerify16 (x y : Addr) : Exec Int32 := do
  let x ← loadVec x 16
  let y ← loadVec y 16
  pure (vn x y)

/-- `crypto_verify_32`. -/
def cryptoVerify32 (x y : Addr) : Exec Int32 := do
  let x ← loadVec x 32
  let y ← loadVec y 32
  pure (vn x y)

/-- The collected differences are zero exactly if nothing differs. -/
theorem differences_eq_zero {n : ℕ} (x y : Vector UInt8 n) :
    Nat.fold n (fun i _ (d : UInt8) => d ||| (x[i] ^^^ y[i])) 0 = 0 ↔ x = y := by
  have hcollect : Nat.fold n (fun i _ (d : UInt8) => d ||| (x[i] ^^^ y[i])) 0 = 0 ↔
      ∀ i (hi : i < n), i < n → x[i] = y[i] := by
    refine Loops.fold_invariant (fun k (d : UInt8) => d = 0 ↔ ∀ i (hi : i < n), i < k → x[i] = y[i])
      (by simp) fun i hi d hd => ?_
    rw [UInt8.or_eq_zero_iff, UInt8.xor_eq_zero_iff, hd]
    constructor
    · rintro ⟨hlow, hi'⟩ j hj hji
      rcases Nat.lt_succ_iff_lt_or_eq.mp hji with hlt | rfl
      · exact hlow j hj hlt
      · exact hi'
    · exact fun h => ⟨fun j hj hji => h j hj (by omega), h i hi (by omega)⟩
  rw [hcollect]
  exact ⟨fun h => Vector.ext fun i hi => h i hi hi, fun h i hi _ => by rw [h]⟩

/-- The comparison is exact. -/
theorem vn_eq {n : ℕ} (x y : Vector UInt8 n) : vn x y = if x = y then 0 else -1 := by
  have hwide : Nat.fold n (fun i _ (d : UInt32) => d ||| (x[i] ^^^ y[i]).toUInt32) 0 =
      (Nat.fold n (fun i _ (d : UInt8) => d ||| (x[i] ^^^ y[i])) 0).toUInt32 :=
    Loops.fold_simulation (fun (d : UInt32) (b : UInt8) => d = b.toUInt32) rfl fun i hi d b hd => by
      rw [hd, UInt8.toUInt32_or]
  have hresult : ∀ b : UInt8, (((1 : UInt32) &&& ((b.toUInt32 - 1) >>> 8)) - 1).toInt32 =
      if b = 0 then 0 else -1 := MachineInt.forall_byte (by decide +kernel)
  simp only [vn, hwide, hresult, differences_eq_zero]

/-- `crypto_verify_16` compares and writes nothing. -/
theorem cryptoVerify16_runs {mem : Mem} {x y : Addr} (hx : mem.Valid x 16) (hy : mem.Valid y 16) :
    Runs (cryptoVerify16 x y) mem (if mem.vec x 16 = mem.vec y 16 then 0 else -1) mem := by
  rw [← vn_eq]
  exact (Runs.loadVec hx).bind ((Runs.loadVec hy).bind (Runs.pure _ _))

/-- `crypto_verify_32` compares and writes nothing. -/
theorem cryptoVerify32_runs {mem : Mem} {x y : Addr} (hx : mem.Valid x 32) (hy : mem.Valid y 32) :
    Runs (cryptoVerify32 x y) mem (if mem.vec x 32 = mem.vec y 32 then 0 else -1) mem := by
  rw [← vn_eq]
  exact (Runs.loadVec hx).bind ((Runs.loadVec hy).bind (Runs.pure _ _))

end TweetNacl
