import Mathlib.Algebra.Ring.Nat
import TweetNacl.CoreSelftest
import TweetNacl.Lib.Threads

/-!
# The hardware random number generator

The functions of `drng.c` are programs over its atomic variables that ask the hardware for words. A
program that fills a buffer returns its stores to the buffer, in their order.
-/

namespace TweetNacl.Drng

open TweetNacl.Core Threads

section Code

/-- The builds: for x86, with `HAS_ARM_RNG`, and without a hardware generator. -/
inductive Platform where
  | x86
  | arm
  | other
deriving DecidableEq, Repr

/-- `rng_impl_t`. -/
inductive RngImpl where
  | none
  | rdseed
  | rdrand
  | armRndr
  | bcrypt
  | urandom
deriving DecidableEq, Repr

/-- `NACL_ERROR_CATASTROPHIC_FAILURE`. -/
def naclErrorCatastrophicFailure : Int32 := -13

/-- The variables of the module: `drng_state`, `rng_impl` and `drng_init_state`. -/
structure State where
  initialized : Bool
  powerUpSelftestPassed : Bool
  healthTestCount : UInt64
  lastHealthTestResult : Int32
  totalBytesGenerated : UInt64
  catastrophicFailure : Bool
  rngImpl : RngImpl
  drngInitState : Phase
deriving DecidableEq, Repr

/-- The variables before the first call. -/
def State.initial : State where
  initialized := false
  powerUpSelftestPassed := false
  healthTestCount := 0
  lastHealthTestResult := 0
  totalBytesGenerated := 0
  catastrophicFailure := false
  rngImpl := .none
  drngInitState := .fresh

/-- What the hardware answers to the attempt to read a word. -/
abbrev Hardware := Stream' (Option UInt64)

/-- The programs of the module. -/
abbrev Program := Prog State (Option UInt64)

/-- A store of bytes to a buffer. -/
structure Write where
  offset : UInt64
  bytes : List UInt8
deriving DecidableEq, Repr

/-- The bytes of a word in memory. -/
def wordBytes (v : UInt64) : List UInt8 :=
  List.ofFn fun i : Fin 8 => (v >>> UInt64.ofNat (8 * i.val)).toUInt8

/-- `drng_mark_failure`. -/
def drngMarkFailure : Program Unit := do
  Prog.modify fun s => { s with catastrophicFailure := true }
  Prog.modify fun s => { s with powerUpSelftestPassed := false }

/-- `drng_reset_state`. -/
def drngResetState : Program Unit := do
  Prog.modify fun s => { s with initialized := false }
  Prog.modify fun s => { s with powerUpSelftestPassed := false }
  Prog.modify fun s => { s with healthTestCount := 0 }
  Prog.modify fun s => { s with totalBytesGenerated := 0 }

/-- `RDRAND_RETRIES`. -/
def rdrandRetries : ℕ := 10

/-- `rdrand64_step`. -/
def rdrand64Step : Program (Option UInt64) := Prog.answer

/-- `rdseed64_step`. -/
def rdseed64Step : Program (Option UInt64) := Prog.answer

/-- `rdrand32_step`. -/
def rdrand32Step : Program (Option UInt32) := do return (← Prog.answer).map UInt64.toUInt32

/-- `arm_rndr`. -/
def armRndr : Program (Option UInt64) := Prog.answer

/-- The loop of the two retry helpers. -/
def retry (step : Program (Option UInt64)) : ℕ → Program (Option UInt64)
  | 0 => pure none
  | n + 1 => do
    match ← step with
    | some v => pure (some v)
    | none => retry step n

/-- `rdrand64_retry`. -/
def rdrand64Retry : Program (Option UInt64) := retry rdrand64Step (rdrandRetries + 1)

/-- `rdseed64_retry`. -/
def rdseed64Retry : Program (Option UInt64) := retry rdseed64Step (rdrandRetries + 1)

/-- The bytes of an eight-byte word that has been read. -/
def bytes64 (read : Program (Option UInt64)) : Program (Option (List UInt8)) :=
  do return (← read).map wordBytes

/-- The bytes of a four-byte word from `rdrand32_step`. -/
def bytes32 : Program (Option (List UInt8)) := do
  return (← rdrand32Step).map fun v => (wordBytes v.toUInt64).take 4

/-- One word read and copied to the buffer by `safe_memcpy`, which fails where `count` bytes do not
fit. -/
def fillChunk (read : Program (Option (List UInt8))) (len offset count : UInt64) (ws : List Write)
    (next : UInt64 → List Write → Program (Int32 × List Write)) : Program (Int32 × List Write) := do
  match ← read with
  | none => do
    drngMarkFailure
    pure (-1, ws)
  | some val =>
    if len - offset < count then pure (-1, ws)
    else next (offset + count) (ws ++ [⟨offset, val.take count.toNat⟩])

/-- The loop of `drng_fill` over the eight-byte words. The comparison wraps around, so that the
bounds check of the copy also ends it. -/
def fillWords (read : Program (Option UInt64)) (len offset : UInt64) (ws : List Write)
    (next : UInt64 → List Write → Program (Int32 × List Write)) : Program (Int32 × List Write) :=
  if offset + 8 ≤ len then do
    match ← bytes64 read with
    | none => do
      drngMarkFailure
      pure (-1, ws)
    | some val =>
      if h : len - offset < 8 then pure (-1, ws)
      else fillWords read len (offset + 8) (ws ++ [⟨offset, val.take 8⟩]) next
  else next offset ws
termination_by (len - offset).toNat
decreasing_by
  have h8 : (8 : UInt64) ≤ len - offset := UInt64.not_lt.mp h
  have hsub : len - (offset + 8) = len - offset - 8 := by grind
  rw [hsub, UInt64.toNat_sub_of_le _ _ h8]
  have := UInt64.le_iff_toNat_le.mp h8
  have h8' : (8 : UInt64).toNat = 8 := rfl
  omega

/-- The end of `drng_fill`. -/
def fillStatistics (len : UInt64) (ws : List Write) : Program (Int32 × List Write) := do
  Prog.modify fun s => { s with totalBytesGenerated := s.totalBytesGenerated + len }
  Prog.modify fun s => { s with healthTestCount := s.healthTestCount + 1 }
  pure (0, ws)

/-- The last bytes of the buffer, from a word of their own. -/
def fillTail (read : Program (Option (List UInt8))) (len offset : UInt64) (ws : List Write) :
    Program (Int32 × List Write) :=
  if offset < len then fillChunk read len offset (len - offset) ws fun _ ws => fillStatistics len ws
  else fillStatistics len ws

/-- `drng_fill` from the source `impl`. -/
def fillFrom (p : Platform) (impl : RngImpl) (len : UInt64) : Program (Int32 × List Write) :=
  match p with
  | .x86 => fillWords (if impl = .rdseed then rdseed64Retry else rdrand64Retry) len 0
      [] fun offset ws =>
    if offset + 4 ≤ len then fillChunk bytes32 len offset 4 ws (fillTail bytes32 len)
      else fillTail bytes32 len offset ws
  | .arm => fillWords armRndr len 0 [] (fillTail (bytes64 armRndr) len)
  | .other => pure (-1, [])

/-- `drng_fill`, with `init` for `drng_init`. -/
def drngFill (p : Platform) (init : Program Unit) (len : UInt64) : Program (Int32 × List Write) :=
  do
  let impl := (← Prog.get).rngImpl
  if impl = .none then do
    init
    fillFrom p (← Prog.get).rngImpl len
  else fillFrom p impl len

/-- A buffer after a store to it. -/
def store (buf : List UInt8) (w : Write) : List UInt8 :=
  buf.take w.offset.toNat ++ w.bytes ++ buf.drop (w.offset.toNat + w.bytes.length)

/-- Every byte of a buffer is `x`. -/
def AllBytes (x : UInt8) (buf : List UInt8) : Prop := ∀ b ∈ buf, b = x

instance (x : UInt8) (buf : List UInt8) : Decidable (AllBytes x buf) :=
  List.decidableBAll (fun b => b = x) buf

/-- The two checks of a sample: all bytes are zero, or all are the same. -/
def Stuck (buf : List UInt8) : Prop := AllBytes 0 buf ∨ AllBytes (buf.headD 0) buf

instance (buf : List UInt8) : Decidable (Stuck buf) := inferInstanceAs (Decidable (_ ∨ _))

/-- The two values that `drng_power_up_selftest` compares. -/
def selftestValues (p : Platform) (impl : RngImpl) : Program (Option (UInt64 × UInt64)) :=
  if p = .x86 then do
    let read := if impl = .rdseed then rdseed64Retry else rdrand64Retry
    match ← read with
    | none => pure none
    | some val1 => return (← read).map fun val2 => (val1, val2)
  else pure (some (0, 1))

/-- `drng_power_up_selftest`, with `fill` for `drng_fill`. -/
def drngPowerUpSelftest (p : Platform) (fill : UInt64 → Program (Int32 × List Write))
    (impl : RngImpl) :
    Program Int32 := do
  match ← selftestValues p impl with
  | none => pure naclErrorSelfTestFailed
  | some (val1, val2) =>
    if p = .x86 ∧ val1 = val2 ∧ val1 ≠ 0 then pure naclErrorSelfTestFailed
    else do
      let (ret, ws) ← fill 64
      if ret ≠ 0 then pure naclErrorSelfTestFailed
      else if Stuck (ws.foldl store (List.replicate 64 0)) then pure naclErrorSelfTestFailed
      else pure naclSuccess

/-- The loop of the repetition count test: the previous byte, and the two counters. -/
def repetitions : UInt8 → ℕ → ℕ → List UInt8 → ℕ
  | _, _, maxConsecutive, [] => maxConsecutive
  | prev, consecutive, maxConsecutive, b :: buf =>
    if b = prev then repetitions b (consecutive + 1) (max (consecutive + 1) maxConsecutive) buf
    else repetitions b 1 maxConsecutive buf

/-- What `drng_continuous_health_test` accepts. -/
def Healthy (buf : List UInt8) : Prop :=
  buf.length < 16 ∨ repetitions (buf.headD 0) 1 1 buf.tail ≤ 8 ∧ ¬ AllBytes 0 buf ∧
    ¬ AllBytes 0xff buf

instance (buf : List UInt8) : Decidable (Healthy buf) := inferInstanceAs (Decidable (_ ∨ _))

/-- `drng_continuous_health_test`. -/
def drngContinuousHealthTest (buf : List UInt8) : Program Int32 :=
  if buf.length < 16 then pure naclSuccess
  else if 8 < repetitions (buf.headD 0) 1 1 buf.tail then do
    drngMarkFailure
    pure naclErrorCatastrophicFailure
  else if AllBytes 0 buf ∨ AllBytes 0xff buf then do
    drngMarkFailure
    pure naclErrorCatastrophicFailure
  else do
    Prog.modify fun s => { s with lastHealthTestResult := naclSuccess }
    pure naclSuccess

/-- The exchange of `drng_init_state`, with whether it has succeeded. -/
def takeInitState : Program Bool :=
  .atomic (fun s => if s.drngInitState = .fresh then { s with drngInitState := .running } else s)
    fun s => pure (decide (s.drngInitState = .fresh))

/-- The source that `drng_init` finds. On x86 it takes none. -/
def chooseSource : Platform → Program RngImpl
  | .arm => do return if (← armRndr).isSome then .armRndr else .none
  | _ => pure .none

/-- The self-test of the source that `drng_init` has found, if any, and the source that is left
after it. -/
def testSource (p : Platform) (init : Program Unit) (chosen : RngImpl) : Program RngImpl := do
  if chosen = .none then pure .none
  else if (← drngPowerUpSelftest p (drngFill p init) chosen) = naclSuccess then do
    Prog.modify fun s => { s with powerUpSelftestPassed := true }
    pure chosen
  else do
    Prog.modify fun s => { s with powerUpSelftestPassed := false }
    pure .none

/-- The three stores that end `drng_init`. -/
def publishSource (chosen : RngImpl) : Program Unit := do
  Prog.modify fun s => { s with rngImpl := chosen }
  Prog.modify fun s => { s with initialized := true }
  Prog.modify fun s => { s with drngInitState := .complete }

/-- `drng_init`, with `init` for itself where the self-test calls it. -/
def drngInitWith (p : Platform) (init : Program Unit) : Program Unit := do
  if (← Prog.get).initialized then pure ()
  else if ← takeInitState then do
    let chosen ← chooseSource p
    let chosen ← testSource p init chosen
    publishSource chosen
  else .await (fun s => s.drngInitState = .complete) (pure ())

/-- `drng_init`, calling itself to the given depth. -/
def drngInitDepth (p : Platform) : ℕ → Program Unit
  | 0 => .stuck
  | depth + 1 => drngInitWith p (drngInitDepth p depth)

/-- `drng_init`. The call that it makes to itself finds the exchange taken, and makes no further
one. -/
def drngInit (p : Platform) : Program Unit := drngInitDepth p 2

/-- The test at the entry of the public functions. -/
def ensureInit (p : Platform) : Program RngImpl := do
  if (← Prog.get).rngImpl = .none then drngInit p
  return (← Prog.get).rngImpl

/-- `randombytes_drng_available`. -/
def randombytesDrngAvailable (p : Platform) : Program Int32 := do
  return if (← ensureInit p) ≠ .none then 1 else 0

/-- `drng_get_drng_support`. -/
def drngGetDrngSupport (p : Platform) : Program Int32 := do
  let impl ← ensureInit p
  let f : Int32 := 0
  let f := if impl = .rdrand then f ||| 1 else f
  let f := if impl = .rdseed then f ||| 2 else f
  return f

/-- The name of a source. -/
def RngImpl.name : RngImpl → String
  | .none => "none"
  | .rdseed => "RDSEED"
  | .rdrand => "RDRAND"
  | .armRndr => "ARM_RNDR"
  | .bcrypt => "BCryptGenRandom"
  | .urandom => "/dev/urandom"

/-- `randombytes_implementation_name`. -/
def randombytesImplementationName (p : Platform) : Program String := do
  return (← ensureInit p).name

/-- The sample of the periodic health test: whether the call goes on after it. -/
def healthSample (p : Platform) : Program Bool := do
  let healthCount := (← Prog.get).healthTestCount
  if healthCount % 100 = 0 ∧ 0 < healthCount then do
    let (ret, ws) ← drngFill p (drngInit p) 32
    if ret = 0 then return (← drngContinuousHealthTest (ws.foldl store (List.replicate 32 0))) =
      naclSuccess
    else pure true
  else pure true

/-- `_randombytes_drng_fill`. -/
def randombytesDrngFill (p : Platform) (len : UInt64) : Program (Int32 × List Write) := do
  if (← Prog.get).catastrophicFailure then pure (-1, [])
  else if (← ensureInit p) = .none then pure (-1, [])
  else if ← healthSample p then drngFill p (drngInit p) len
  else pure (-1, [])

/-- `drng_is_initialized_public`. -/
def drngIsInitializedPublic : Program Int32 := do return if (← Prog.get).initialized then 1 else 0

/-- `drng_get_power_up_selftest_status`. -/
def drngGetPowerUpSelftestStatus : Program Int32 :=
  do return if (← Prog.get).powerUpSelftestPassed then 1 else 0

/-- `drng_get_total_bytes_generated`. -/
def drngGetTotalBytesGenerated : Program UInt64 := do return (← Prog.get).totalBytesGenerated

/-- `drng_reset_for_testing`. -/
def drngResetForTesting : Program Unit := do
  drngResetState
  Prog.modify fun s => { s with rngImpl := .none }

end Code

end TweetNacl.Drng
