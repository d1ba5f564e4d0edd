import TweetNacl.Dispatch
import TweetNacl.FipsPowerOn

/-!
# The start of the library

`nacl_init` runs the power-up self-tests of the core, selects an implementation and records that the
library is initialised. The self-tests are run here in the memory, with their buffers as locals, and
the calls of the core and of the dispatch layer in any order. The power-up sequence opens a signed
message of 80 bytes into 16 bytes, so that no sequence of calls within the buffers initialises the
library.
-/

namespace TweetNacl.Startup

open Machine Memory Dispatch

section Code

/-- `fips_selftest_rng` from the comparison on. -/
def rngCompare (testBuf testBuf2 : Addr) : Exec Int32 := do
  let first ← loadVec testBuf 64
  let second ← loadVec testBuf2 64
  if constantTimeCompare first second = 0 then
    zeroizeAll [(testBuf, 64), (testBuf2, 64)]
    return Core.naclErrorSelfTestFailed
  let bytes ← loadVec testBuf 64
  let allZeros := bytes.toList.all fun b => b == 0
  zeroizeAll [(testBuf, 64), (testBuf2, 64)]
  return if allZeros then Core.naclErrorSelfTestFailed else Core.naclSuccess

/-- `fips_selftest_rng`. -/
def fipsSelftestRng (rng1 rng2 : RngAnswer 64) : Exec Int32 :=
  withLocal 64 fun testBuf => withLocal 64 fun testBuf2 => do
    zeroizeAll [(testBuf, 64), (testBuf2, 64)]
    if (← randombytesSafe rng1 testBuf) ≠ 0 then return Core.naclErrorSelfTestFailed
    if (← randombytesSafe rng2 testBuf2) ≠ 0 then return Core.naclErrorSelfTestFailed
    rngCompare testBuf testBuf2

/-- The digest in `fips_selftest_sha512`. -/
def emptyDigest : Vector UInt8 64 :=
  #v[0xcf, 0x83, 0xe1, 0x35, 0x7e, 0xef, 0xb8, 0xbd, 0xf1, 0x54, 0x28, 0x50, 0xd6, 0x6d, 0x80, 0x07,
    0xd6, 0x20, 0xe4, 0x05, 0x0b, 0x57, 0x15, 0xdc, 0x83, 0xf4, 0xa9, 0x21, 0xd3, 0x6c, 0xe9, 0xce,
    0x47, 0xd0, 0xd1, 0x3c, 0x5d, 0x85, 0xf2, 0xb0, 0xff, 0x83, 0x18, 0xd2, 0x87, 0x7e, 0xec, 0x2f,
    0x63, 0xb9, 0x31, 0xbd, 0x47, 0x41, 0x7a, 0x81, 0xa5, 0x38, 0x32, 0x7a, 0xf9, 0x27, 0xda, 0x3e]

/-- `fips_selftest_sha512`. -/
def fipsSelftestSha512 : Exec Int32 :=
  withLocal 1 fun emptyMsg => withLocal 64 fun hash => do
    storeBytes emptyMsg [0]
    if (← cryptoHash (some hash) (some emptyMsg) 0) ≠ 0 then return Core.naclErrorSelfTestFailed
    let digest ← loadVec hash 64
    if constantTimeCompare digest emptyDigest ≠ 0 then
      secureZero hash 64
      return Core.naclErrorSelfTestFailed
    secureZero hash 64
    return Core.naclSuccess

/-- The answers of the random number generator that the power-up self-tests may ask for. -/
structure Randomness where
  rngFirst : RngAnswer 64
  rngSecond : RngAnswer 64
  ed25519 : RngAnswer 32
  x25519First : RngAnswer 32
  x25519Second : RngAnswer 32

/-- The power-up self-tests. -/
def selftests (r : Randomness) : Core.Selftests (Exec Int32) where
  rng := fipsSelftestRng r.rngFirst r.rngSecond
  sha512 := fipsSelftestSha512
  ed25519 := fipsSelftestEd25519 Sha512.hash r.ed25519
  x25519 := fipsSelftestX25519 r.x25519First r.x25519Second

/-- The variables of the library: those of the self-tests, `nacl_initialized` and `current_impl`. -/
structure Library where
  status : Core.Status
  naclInitialized : Int32
  currentImpl : Option NaclImpl

/-- The variables before the first call. -/
def Library.initial : Library := ⟨.initial, 0, none⟩

variable (soft : SoftwareCores) (build : Build) (features : UInt32)

/-- `nacl_init`. -/
def naclInit (r : Randomness) (s : Library) : Exec (Int32 × Library) := do
  if s.naclInitialized ≠ 0 then return (0, s)
  let (ret, status) ← Core.fipsPowerUpSelfTests (selftests r) s.status
  if ret ≠ 0 then return (-1, { s with status })
  let (_, currentImpl) := naclSelectImplementation soft build features s.currentImpl
  return (0, ⟨status, 1, currentImpl⟩)

/-- A call of the core or of the dispatch layer. -/
inductive Call where
  | init (r : Randomness)
  | isInitialized
  | powerUp (r : Randomness)
  | keygen (rng : RngAnswer 32)
  | enable (value : Int32)
  | dispatch (call : Dispatch.Call)

/-- What a call does. -/
def call (s : Library) : Call → Exec (Answer × Library)
  | .init r => do
    let (ret, s) ← naclInit soft build features r s
    pure (.code ret, s)
  | .isInitialized => pure (.code s.naclInitialized, s)
  | .powerUp r => do
    let (ret, status) ← Core.fipsPowerUpSelfTests (selftests r) s.status
    pure (.code ret, { s with status })
  | .keygen rng => do
    let (ret, status) ← fipsConditionalSelftestKeygen Sha512.hash rng s.status
    pure (.code ret, { s with status })
  | .enable value =>
    pure (.code 0, { s with status := Core.fipsEnableConditionalTests value s.status })
  | .dispatch call =>
    let (answer, currentImpl) := Dispatch.answer soft build features s.currentImpl call
    pure (answer, { s with currentImpl })

end Code

section Selftests

variable {mem : Mem} {rng1 rng2 : RngAnswer 64} {r : Randomness} {s : Core.Status}

/-- The two answers pass the self-test of the random number generator. -/
def Passes (rng1 rng2 : RngAnswer 64) : Prop :=
  rng1.status = 0 ∧ rng2.status = 0 ∧ rng1.bytes ≠ rng2.bytes ∧ rng1.bytes ≠ Vector.replicate 64 0

instance : Decidable (Passes rng1 rng2) := inferInstanceAs (Decidable (_ ∧ _))

/-- The digest of the empty message is the one that `fips_selftest_sha512` expects. -/
theorem hash_nil : Sha512.hash [] = emptyDigest := by decide +kernel

/-- The loop that looks for a byte other than zero. -/
theorem all_zero_iff {n : ℕ} (v : Vector UInt8 n) :
    v.toList.all (fun b => b == 0) = true ↔ v = Vector.replicate n 0 := by
  rw [← Vector.toList_inj, Vector.toList_replicate, List.eq_replicate_iff, Vector.length_toList,
    List.all_eq_true]
  simp

/-- The comparison of the two outputs of the generator. -/
theorem rngCompare_runs {mem mem' : Mem} (h : Locals mem [64, 64] mem') :
    ∃ mem'', Runs (rngCompare ⟨mem.fresh + 0, 0⟩ ⟨mem.fresh + 1, 0⟩) mem'
      (if mem'.vec ⟨mem.fresh + 0, 0⟩ 64 = mem'.vec ⟨mem.fresh + 1, 0⟩ 64 ∨
          mem'.vec ⟨mem.fresh + 0, 0⟩ 64 = Vector.replicate 64 0 then Core.naclErrorSelfTestFailed
        else Core.naclSuccess) mem'' := by
  have hfirst := Runs.loadVec (h.valid 0 rfl)
  have hsecond := Runs.loadVec (h.valid 1 rfl)
  obtain ⟨mem'', hzero, -⟩ := h.zeroizeAll [(0, 64), (1, 64)] (by decide)
  refine ⟨mem'', hfirst.bind (hsecond.bind ?_)⟩
  by_cases hsame : mem'.vec ⟨mem.fresh + 0, 0⟩ 64 = mem'.vec ⟨mem.fresh + 1, 0⟩ 64
  · rw [if_pos ((constantTimeCompare_eq_zero _ _).mpr hsame), if_pos (.inl hsame)]
    exact hzero.bind (Runs.pure _ _)
  · rw [if_neg fun heq => hsame ((constantTimeCompare_eq_zero _ _).mp heq)]
    simp only [hsame, false_or, ← all_zero_iff]
    exact hfirst.bind (hzero.bind (Runs.pure _ _))

/-- The generator's self-test runs to its end and says whether it passes. -/
theorem fipsSelftestRng_runs (mem : Mem) (rng1 rng2 : RngAnswer 64) :
    ∃ mem', Runs (fipsSelftestRng rng1 rng2) mem
    (if Passes rng1 rng2 then Core.naclSuccess else Core.naclErrorSelfTestFailed) mem' := by
  have h₀ : Locals mem [64, 64] (mem.allocs [64, 64]) := rfl
  obtain ⟨mem₁, hzero, h₁⟩ := h₀.zeroizeAll [(0, 64), (1, 64)] (by decide)
  obtain ⟨mem₂, hmem₂⟩ : ∃ mem₂, mem₂ = mem₁.writeVec ⟨mem.fresh + 0, 0⟩ rng1.bytes := ⟨_, rfl⟩
  have h₂ : Locals mem [64, 64] mem₂ := hmem₂ ▸ h₁
  have hrandom1 : Runs (randombytesSafe rng1 ⟨mem.fresh + 0, 0⟩) mem₁ rng1.status mem₂ :=
    hmem₂ ▸ (Runs.storeVec (h₁.valid 0 rfl) _).bind (Runs.pure _ _)
  obtain ⟨mem₃, hmem₃⟩ : ∃ mem₃, mem₃ = mem₂.writeVec ⟨mem.fresh + 1, 0⟩ rng2.bytes := ⟨_, rfl⟩
  have h₃ : Locals mem [64, 64] mem₃ := hmem₃ ▸ h₂
  have hrandom2 : Runs (randombytesSafe rng2 ⟨mem.fresh + 1, 0⟩) mem₂ rng2.status mem₃ :=
    hmem₃ ▸ (Runs.storeVec (h₂.valid 1 rfl) _).bind (Runs.pure _ _)
  have hfirst : mem₃.vec ⟨mem.fresh + 0, 0⟩ 64 = rng1.bytes := by
    rw [hmem₃, (Mem.frame_writeVec _ _ _).vec_of_disjoint (fresh_disjoint mem (by decide)), hmem₂,
      Mem.vec_writeVec]
  have hsecond : mem₃.vec ⟨mem.fresh + 1, 0⟩ 64 = rng2.bytes := hmem₃ ▸ Mem.vec_writeVec _ _ _
  obtain ⟨mem₄, hcompare⟩ := rngCompare_runs h₃
  rw [hfirst, hsecond] at hcompare
  -- each of the two answers and the comparison of them may fail
  by_cases hrng1 : rng1.status = 0
  · rw [hrng1] at hrandom1
    by_cases hrng2 : rng2.status = 0
    · rw [hrng2] at hrandom2
      have hpass : Passes rng1 rng2 ↔
          ¬ (rng1.bytes = rng2.bytes ∨ rng1.bytes = Vector.replicate 64 0) := by
        rw [Passes, not_or]
        exact (and_iff_right hrng1).trans (and_iff_right hrng2)
      simp only [hpass, ite_not]
      exact ⟨_, Runs.withLocal (Runs.withLocal
        (hzero.bind (Runs.guardZero hrandom1 (Runs.guardZero hrandom2 hcompare))))⟩
    · rw [if_neg fun h : Passes rng1 rng2 => hrng2 h.2.1]
      exact ⟨_, Runs.withLocal (Runs.withLocal (hzero.bind (Runs.guardZero hrandom1
        (Runs.guard hrandom2 hrng2 (Runs.pure _ _)))))⟩
  · rw [if_neg fun h : Passes rng1 rng2 => hrng1 h.1]
    exact ⟨_, Runs.withLocal
      (Runs.withLocal (hzero.bind (Runs.guard hrandom1 hrng1 (Runs.pure _ _))))⟩

/-- The SHA-512 test passes in every memory. -/
theorem fipsSelftestSha512_runs (mem : Mem) :
    ∃ mem', Runs fipsSelftestSha512 mem Core.naclSuccess mem' := by
  have h₀ : Locals mem [1, 64] (mem.allocs [1, 64]) := rfl
  have hstore := Runs.storeBytes (l := [0]) (h₀.valid 0 rfl)
  obtain ⟨mem₁, hmem₁⟩ : ∃ mem₁, mem₁ = (mem.allocs [1, 64]).writeBytes ⟨mem.fresh + 0, 0⟩
    [0] := ⟨_, rfl⟩
  have h₁ : Locals mem [1, 64] mem₁ := hmem₁ ▸ h₀
  rw [← hmem₁] at hstore
  have hhash := cryptoHash_runs (n := 0) (h₁.valid 1 rfl) ((h₁.valid 0 rfl).mono (by decide))
  rw [show mem₁.bytes ⟨mem.fresh + 0, 0⟩ (0 : UInt64).toNat = [] from rfl, hash_nil] at hhash
  obtain ⟨mem₂, hmem₂⟩ : ∃ mem₂, mem₂ = mem₁.writeVec ⟨mem.fresh + 1, 0⟩ emptyDigest := ⟨_, rfl⟩
  have h₂ : Locals mem [1, 64] mem₂ := hmem₂ ▸ h₁
  rw [← hmem₂] at hhash
  have hload := Runs.loadVec (h₂.valid 1 rfl)
  rw [hmem₂, Mem.vec_writeVec, ← hmem₂] at hload
  have hclear := secureZero_runs (h₂.valid 1 rfl)
  exact ⟨_, Runs.withLocal (Runs.withLocal (hstore.bind (Runs.guardZero hhash (hload.bind
    (Runs.guardSame ((constantTimeCompare_eq_zero _ _).mpr rfl) (hclear.bind (Runs.pure _ _)))))))⟩

/-- Without a seed the signature test fails. -/
theorem fipsSelftestEd25519_fails (mem : Mem) {rng : RngAnswer 32} (hrng : rng.status ≠ 0) :
    ∃ mem', Runs (fipsSelftestEd25519 Sha512.hash rng) mem Core.naclErrorSelfTestFailed mem' := by
  obtain ⟨mem', hrun⟩ :=
    signatureSelftest_fails Sha512.hash mem hrng (rfl : testMessage.length = 16)
  exact ⟨mem', hrun.bind (Runs.pure _ _)⟩

/-- The sequence goes on after a test that has passed. -/
theorem runs_passed {β : Type} {mem mem' mem'' : Mem} {x : Exec Int32} {a : Int32 → Exec β}
    {b : Exec β} {v : β} (hx : Runs x mem Core.naclSuccess mem') (hb : Runs b mem' v mem'') :
    Runs (x >>= fun ret => if ret ≠ Core.naclSuccess then a ret else b) mem v mem'' :=
  Runs.bind hx (by rwa [if_neg (not_not.mpr rfl)])

/-- After a test that has passed the sequence does what its rest does. -/
theorem faults_passed {β : Type} {mem mem' : Mem} {x : Exec Int32} {a : Int32 → Exec β} {b : Exec β}
    {fault : Fault} (hx : Runs x mem Core.naclSuccess mem') (hb : Faults b mem' fault) :
    Faults (x >>= fun ret => if ret ≠ Core.naclSuccess then a ret else b) mem fault :=
  Faults.bind_right hx (by rwa [if_neg (not_not.mpr rfl)])

/-- The sequence ends with the result of a test that has failed. -/
theorem runs_failed {β : Type} {mem mem' : Mem} {x : Exec Int32} {a : Int32 → β} {b : Exec β}
    {ret : Int32} (hx : Runs x mem ret mem') (hret : ret ≠ Core.naclSuccess) :
    Runs (x >>= fun ret => if ret ≠ Core.naclSuccess then pure (a ret) else b) mem (a ret) mem' :=
  Runs.bind hx (by rw [if_pos hret]; exact Runs.pure _ _)

/-- The power-up sequence gets no further than its third test. -/
theorem powerUp_runs (mem : Mem) (hr : Passes r.rngFirst r.rngSecond → r.ed25519.status ≠ 0) :
    ∃ mem', Runs (Core.fipsPowerUpSelfTests (selftests r) s) mem
      (s.powerUpFailed Core.naclErrorSelfTestFailed) mem' := by
  unfold Core.fipsPowerUpSelfTests selftests
  dsimp only
  obtain ⟨mem₁, hrng⟩ := fipsSelftestRng_runs mem r.rngFirst r.rngSecond
  by_cases hpass : Passes r.rngFirst r.rngSecond
  · obtain ⟨mem₂, hsha⟩ := fipsSelftestSha512_runs mem₁
    obtain ⟨mem₃, hsign⟩ := fipsSelftestEd25519_fails mem₂ (hr hpass)
    rw [if_pos hpass] at hrng
    exact ⟨mem₃, runs_passed hrng (runs_passed hsha (runs_failed hsign (by decide)))⟩
  · rw [if_neg hpass] at hrng
    exact ⟨mem₁, runs_failed hrng (by decide)⟩

/-- A power-up sequence that gets a seed leaves an object. -/
theorem powerUp_faults (mem : Mem) (hpass : Passes r.rngFirst r.rngSecond)
    (hsign : r.ed25519.status = 0) :
    ∃ fault, Faults (Core.fipsPowerUpSelfTests (selftests r) s) mem fault := by
  unfold Core.fipsPowerUpSelfTests selftests
  dsimp only
  obtain ⟨mem₁, hrng⟩ := fipsSelftestRng_runs mem r.rngFirst r.rngSecond
  obtain ⟨mem₂, hsha⟩ := fipsSelftestSha512_runs mem₁
  rw [if_pos hpass] at hrng
  obtain ⟨fault, hoverflow⟩ :
      ∃ fault, Faults (fipsSelftestEd25519 Sha512.hash r.ed25519) mem₂ fault :=
    ⟨_, Faults.bind_left
      (signatureSelftest_overflows Sha512.hash hsign (rfl : testMessage.length = 16))⟩
  exact ⟨fault, faults_passed hrng (faults_passed hsha (Faults.bind_left hoverflow))⟩

end Selftests

section Calls

variable (soft : SoftwareCores) (build : Build) (features : UInt32) {s : Library}

/-- A call keeps within its objects exactly under this condition: if the random number generator
passes its own self-test, it has no seed for the key pair of the test that follows. -/
def KeepsWithin (s : Library) : Call → Prop
  | .init r => s.naclInitialized = 0 → Passes r.rngFirst r.rngSecond → r.ed25519.status ≠ 0
  | .powerUp r => Passes r.rngFirst r.rngSecond → r.ed25519.status ≠ 0
  | .keygen rng => Core.Due s.status → rng.status ≠ 0
  | _ => True

/-- The variables after a power-up sequence that has failed. -/
def Library.powerUpFailed (s : Library) : Library :=
  { s with status := (s.status.powerUpFailed Core.naclErrorSelfTestFailed).2 }

/-- The variables after the counter has been increased. -/
def Library.counted (s : Library) : Library :=
  { s with status := { s.status with keygenCounter := s.status.keygenCounter + 1 } }

/-- What a call that keeps within its objects returns, and the variables after it. -/
def answer (s : Library) : Call → Answer × Library
  | .init _ => if s.naclInitialized = 0 then (.code (-1), s.powerUpFailed) else (.code 0, s)
  | .isInitialized => (.code s.naclInitialized, s)
  | .powerUp _ => (.code Core.naclErrorSelfTestFailed, s.powerUpFailed)
  | .keygen _ =>
    if s.status.conditionalTestsEnabled = 0 then (.code Core.naclSuccess, s)
    else if Core.Due s.status then
      (.code Core.naclErrorSelfTestFailed, { s.counted with
        status := { s.counted.status with lastTestResult := Core.naclErrorSelfTestFailed } })
    else (.code Core.naclSuccess, s.counted)
  | .enable value => (.code 0, { s with status := Core.fipsEnableConditionalTests value s.status })
  | .dispatch call => (Dispatch.answer soft build features s.currentImpl call).map id
      fun currentImpl =>
      { s with currentImpl }

/-- `nacl_init` follows the model exactly under the condition. -/
theorem init_follows (mem : Mem) (r : Randomness) :
    (KeepsWithin s (.init r) → ∃ mem', Runs (call soft build features s (.init r)) mem
      (answer soft build features s (.init r)) mem') ∧
    (¬ KeepsWithin s (.init r) →
      ∃ fault, Faults (call soft build features s (.init r)) mem fault) := by
  by_cases hinit : s.naclInitialized = 0
  · refine ⟨fun hr => ?_, fun hr => ?_⟩
    · obtain ⟨mem', hrun⟩ := powerUp_runs (s := s.status) mem (hr hinit)
      refine ⟨mem', ?_⟩
      rw [call, naclInit, if_neg (not_not.mpr hinit), answer, if_pos hinit]
      refine Runs.bind (a := (-1, s.powerUpFailed)) (hrun.bind ?_) (Runs.pure _ _)
      change Runs (if Core.naclErrorSelfTestFailed ≠ 0 then pure (-1, s.powerUpFailed) else _) _ _ _
      rw [if_pos (by decide)]
      exact Runs.pure _ _
    · obtain ⟨hpass, hsign⟩ := Classical.not_imp.mp (Classical.not_imp.mp hr).2
      obtain ⟨fault, hfault⟩ := powerUp_faults (s := s.status) mem hpass (not_not.mp hsign)
      refine ⟨fault, ?_⟩
      rw [call, naclInit, if_neg (not_not.mpr hinit)]
      exact Faults.bind_left (Faults.bind_left hfault)
  · refine ⟨fun _ => ⟨mem, ?_⟩, fun hr => absurd (fun h => absurd h hinit) hr⟩
    rw [call, naclInit, if_pos hinit, answer, if_neg hinit]
    exact (Runs.pure _ _).bind (Runs.pure _ _)

/-- So does the power-up sequence. -/
theorem powerUp_follows (mem : Mem) (r : Randomness) :
    (KeepsWithin s (.powerUp r) → ∃ mem', Runs (call soft build features s (.powerUp r)) mem
      (answer soft build features s (.powerUp r)) mem') ∧
    (¬ KeepsWithin s (.powerUp r) →
      ∃ fault, Faults (call soft build features s (.powerUp r)) mem fault) := by
  refine ⟨fun hr => ?_, fun hr => ?_⟩
  · obtain ⟨mem', hrun⟩ := powerUp_runs (s := s.status) mem hr
    exact ⟨mem', hrun.bind (Runs.pure _ _)⟩
  · obtain ⟨hpass, hsign⟩ := Classical.not_imp.mp hr
    obtain ⟨fault, hfault⟩ := powerUp_faults (s := s.status) mem hpass (not_not.mp hsign)
    exact ⟨fault, Faults.bind_left hfault⟩

/-- So does the conditional test at key generation. -/
theorem keygen_follows (mem : Mem) (rng : RngAnswer 32) :
    (KeepsWithin s (.keygen rng) → ∃ mem', Runs (call soft build features s (.keygen rng)) mem
      (answer soft build features s (.keygen rng)) mem') ∧
    (¬ KeepsWithin s (.keygen rng) →
      ∃ fault, Faults (call soft build features s (.keygen rng)) mem fault) := by
  rw [call, fipsConditionalSelftestKeygen, Core.fipsConditionalSelftestKeygen, answer]
  refine ⟨fun hr => ?_, fun hr => ?_⟩
  · by_cases henabled : s.status.conditionalTestsEnabled = 0
    · rw [if_pos henabled, if_pos henabled]
      exact ⟨mem, (Runs.pure _ _).bind (Runs.pure _ _)⟩
    · rw [if_neg henabled, if_neg henabled]
      by_cases hdue : Core.Due s.status
      · obtain ⟨mem', hfails⟩ :=
          signatureSelftest_fails Sha512.hash mem (hr hdue) (rfl : consistencyTest.length = 16)
        rw [if_pos hdue]
        refine ⟨mem', Runs.bind (a := (Core.naclErrorSelfTestFailed,
          { s.counted.status with lastTestResult := Core.naclErrorSelfTestFailed })) ?_
          (Runs.pure _ _)⟩
        rw [if_neg (show ¬ (s.status.keygenCounter + 1) % 100 ≠ 0 from not_not.mpr hdue.2)]
        exact hfails.bind (Runs.pure _ _)
      · rw [if_neg hdue]
        refine ⟨mem, Runs.bind (a := (Core.naclSuccess, s.counted.status)) ?_ (Runs.pure _ _)⟩
        rw [if_pos (show (s.status.keygenCounter + 1) % 100 ≠ 0 from fun h => hdue ⟨henabled, h⟩)]
        exact Runs.pure _ _
  · obtain ⟨hdue, hrng⟩ := Classical.not_imp.mp hr
    obtain ⟨fault, hoverflow⟩ :
        ∃ fault, Faults (signatureSelftest Sha512.hash rng consistencyTest) mem fault :=
      ⟨_, signatureSelftest_overflows Sha512.hash (not_not.mp hrng)
        (rfl : consistencyTest.length = 16)⟩
    refine ⟨fault, Faults.bind_left ?_⟩
    rw [if_neg hdue.1,
      if_neg (show ¬ (s.status.keygenCounter + 1) % 100 ≠ 0 from not_not.mpr hdue.2)]
    exact Faults.bind_left hoverflow

/-- Every call does. -/
theorem follows : Follows (call soft build features) (answer soft build features) KeepsWithin where
  runs s e mem he := by
    cases e with
    | init r => exact (init_follows soft build features mem r).1 he
    | powerUp r => exact (powerUp_follows soft build features mem r).1 he
    | keygen rng => exact (keygen_follows soft build features mem rng).1 he
    | isInitialized => exact ⟨mem, Runs.pure _ _⟩
    | enable value => exact ⟨mem, Runs.pure _ _⟩
    | dispatch call => exact ⟨mem, Runs.pure _ _⟩
  faults s e mem he := by
    cases e with
    | init r => exact (init_follows soft build features mem r).2 he
    | powerUp r => exact (powerUp_follows soft build features mem r).2 he
    | keygen rng => exact (keygen_follows soft build features mem rng).2 he
    | _ => exact absurd trivial he

/-- The library has not been initialised, and the power-up self-tests have not passed. -/
def NotStarted (s : Library) : Prop :=
  s.naclInitialized = 0 ∧ Core.fipsAreSelfTestsPassed s.status = 0

/-- No call starts the library. -/
theorem answer_notStarted (hs : NotStarted s) (e : Call) :
    NotStarted (answer soft build features s e).2 := by
  cases e with
  | init r =>
    rw [answer, if_pos hs.1]
    exact ⟨hs.1, rfl⟩
  | powerUp r => exact ⟨hs.1, rfl⟩
  | keygen rng =>
    rw [answer]
    split_ifs <;> exact hs
  | _ => exact hs

/-- The calls of the dispatch layer among some calls. -/
def dispatchCalls (calls : List Call) : List Dispatch.Call :=
  calls.filterMap fun
    | .dispatch call => some call
    | _ => none

/-- The core calls leave the implementation in use alone. -/
theorem currentImpl_run (s : Library) (calls : List Call) :
    (run (answer soft build features) s calls).currentImpl =
    run (Dispatch.answer soft build features) s.currentImpl (dispatchCalls calls) := by
  induction calls generalizing s with
  | nil => rfl
  | cons e calls ih =>
    refine (ih _).trans ?_
    cases e with
    | dispatch call => rfl
    | init r =>
      change run _ (answer soft build features s (.init r)).2.currentImpl _ = _
      rw [answer]
      split_ifs <;> rfl
    | keygen rng =>
      change run _ (answer soft build features s (.keygen rng)).2.currentImpl _ = _
      rw [answer]
      split_ifs <;> rfl
    | _ => rfl

/-- Whatever is called in whatever order, either some call leaves an object, or the library is not
initialised, the power-up self-tests have not passed, and the implementation in use is what the
calls of the dispatch layer have left. -/
theorem never_initialized (calls : List Call) (mem : Mem) (s : Library) :
    (∃ mem', Runs (runAll (call soft build features) .initial calls) mem s mem') ↔
      EachStep (answer soft build features) KeepsWithin .initial calls ∧
        EachState (answer soft build features) NotStarted .initial calls ∧
        s = run (answer soft build features) .initial calls ∧
        s.currentImpl = run (Dispatch.answer soft build features) none (dispatchCalls calls) := by
  rw [(follows soft build features).runAll_iff]
  refine and_congr_right fun h => ⟨fun hs => ⟨?_, hs, ?_⟩, fun hs => hs.2.1⟩
  · exact h.eachState ⟨rfl, rfl⟩ fun s e hs _ => answer_notStarted soft build features hs e
  · rw [hs]
    exact currentImpl_run soft build features .initial calls

end Calls

end TweetNacl.Startup
