import TweetNacl.Fips1865

/-!
# The three comparisons

`crypto_verify_16`, `crypto_verify_32` and `secure_memcmp` decide whether two buffers are equal. The
first two take the result from the borrow of a subtraction, the third one from an accumulated byte.
-/

namespace TweetNacl

open Memory

/-- `secure_memcmp`. -/
def secureMemcmpBuffers (x y : Ptr) (n : UInt64) : Exec Int32 :=
  match x, y with
  | some x, some y => do
    let result ← foldN n.toNat (fun i (result : UInt8) => do
      let a ← load (x + i)
      let b ← load (y + i)
      pure (result ||| (a ^^^ b))) 0
    pure (if result ≠ 0 then -1 else 0)
  | _, _ => pure (-1)

variable {mem : Mem} {x y : Addr} {n : ℕ}

/-- Arrays are equal if the buffers they were loaded from are. -/
theorem vec_eq_iff : mem.vec x n = mem.vec y n ↔ mem.bytes x n = mem.bytes y n := by
  rw [← Mem.toList_vec, ← Mem.toList_vec, Vector.toList_inj]

/-- `secure_memcmp` on buffers is `secure_memcmp` on the arrays of their bytes. -/
theorem secureMemcmpBuffers_vec {n : UInt64} (hx : mem.Valid x n.toNat) (hy : mem.Valid y n.toNat) :
    Runs (secureMemcmpBuffers (some x) (some y) n) mem
      (secureMemcmp (mem.vec x n.toNat) (mem.vec y n.toNat)) mem := by
  refine (Runs.foldN fun i hi result => ?_).bind (Runs.pure _ _)
  rw [Mem.getElem_vec, Mem.getElem_vec]
  exact (Runs.load (hx.add (by omega))).bind ((Runs.load (hy.add (by omega))).bind (Runs.pure _ _))

/-- On byte vectors `secure_memcmp` is the test for equality. -/
theorem secureMemcmp_eq (x y : Vector UInt8 n) : secureMemcmp x y = if x = y then 0 else -1 := by
  rw [secureMemcmp]
  simp only [ne_eq, ite_not, differences_eq_zero]

/-- On two buffers it returns 0 exactly for equal bytes and leaves the memory alone. -/
theorem secureMemcmpBuffers_runs {n : UInt64} (hx : mem.Valid x n.toNat)
    (hy : mem.Valid y n.toNat) :
    Runs (secureMemcmpBuffers (some x) (some y) n) mem
      (if mem.bytes x n.toNat = mem.bytes y n.toNat then 0 else -1)
      mem := by
  have hruns := secureMemcmpBuffers_vec hx hy
  rwa [secureMemcmp_eq, if_congr vec_eq_iff rfl rfl] at hruns

/-- The comparisons are exact, in every memory in which the buffers are there, and leave it
unchanged. The general one agrees with the other two on their lengths. -/
theorem comparisons_exact (mem : Mem) (x y : Addr) :
    (mem.Valid x 16 → mem.Valid y 16 →
      Runs (cryptoVerify16 x y) mem (if mem.bytes x 16 = mem.bytes y 16 then 0 else -1) mem ∧
      cryptoVerify16 x y mem = secureMemcmpBuffers (some x) (some y) 16 mem) ∧
    (mem.Valid x 32 → mem.Valid y 32 →
      Runs (cryptoVerify32 x y) mem (if mem.bytes x 32 = mem.bytes y 32 then 0 else -1) mem ∧
      cryptoVerify32 x y mem = secureMemcmpBuffers (some x) (some y) 32 mem) ∧
    ∀ n : UInt64, mem.Valid x n.toNat → mem.Valid y n.toNat →
      Runs (secureMemcmpBuffers (some x) (some y) n) mem
        (if mem.bytes x n.toNat = mem.bytes y n.toNat then 0 else -1) mem := by
  refine ⟨fun hx hy => ?_, fun hx hy => ?_, fun n hx hy => secureMemcmpBuffers_runs hx hy⟩
  · have hruns := cryptoVerify16_runs hx hy
    simp only [vec_eq_iff] at hruns
    exact ⟨hruns, hruns.trans (secureMemcmpBuffers_runs (n := 16) hx hy).symm⟩
  · have hruns := cryptoVerify32_runs hx hy
    simp only [vec_eq_iff] at hruns
    exact ⟨hruns, hruns.trans (secureMemcmpBuffers_runs (n := 32) hx hy).symm⟩

/-- Two buffers of 32 bytes whose first bytes differ. -/
def differing : Mem := (Mem.ofSizes [32, 32]).write ⟨1, 0⟩ 1 fun _ => 1

/-- The three comparisons on buffers that differ in one byte. -/
theorem comparisons_exact_differing :
    Runs (cryptoVerify16 ⟨0, 0⟩ ⟨1, 0⟩) differing (-1) differing ∧
      Runs (cryptoVerify32 ⟨0, 0⟩ ⟨1, 0⟩) differing (-1) differing ∧
      Runs (secureMemcmpBuffers (some ⟨0, 0⟩) (some ⟨1, 0⟩) 5) differing (-1) differing := by
  obtain ⟨h16, h32, hn⟩ := comparisons_exact differing ⟨0, 0⟩ ⟨1, 0⟩
  have h16 := (h16 (by decide) (by decide)).1
  have h32 := (h32 (by decide) (by decide)).1
  have h5 := hn 5 (by decide) (by decide)
  rw [if_neg (by decide)] at h16 h32 h5
  exact ⟨h16, h32, h5⟩

end TweetNacl
