import TweetNacl.Lib.Machine

/-!
# The status of the core self-tests

The core module keeps whether its power-up tests have passed and the result of its last test. A run
keeps next to these variables the self-tests that have been executed, the latest first; the two
status functions are compared with this history.
-/

namespace TweetNacl.Core

open Machine

section Code

/-- `NACL_SUCCESS`. -/
def naclSuccess : Int32 := 0

/-- `NACL_ERROR_SELF_TEST_FAILED`. -/
def naclErrorSelfTestFailed : Int32 := -4

/-- The variables of the module, `fips_state`. -/
structure Status where
  powerUpTestsPassed : Int32
  conditionalTestsEnabled : Int32
  keygenCounter : UInt64
  lastTestResult : Int32
deriving DecidableEq, Repr

/-- One entry for each power-up self-test: its program, or its result. -/
structure Selftests (τ : Type) where
  rng : τ
  sha512 : τ
  ed25519 : τ
  x25519 : τ

variable {μ : Type → Type} [Monad μ]

/-- The exit of `fips_power_up_self_tests` after a failed test. -/
def Status.powerUpFailed (s : Status) (ret : Int32) : Int32 × Status :=
  (ret, { s with powerUpTestsPassed := 0, lastTestResult := ret })

/-- `fips_power_up_self_tests`. -/
def fipsPowerUpSelfTests (tests : Selftests (μ Int32)) (s : Status) : μ (Int32 × Status) := do
  let ret ← tests.rng
  if ret ≠ naclSuccess then return s.powerUpFailed ret
  let ret ← tests.sha512
  if ret ≠ naclSuccess then return s.powerUpFailed ret
  let ret ← tests.ed25519
  if ret ≠ naclSuccess then return s.powerUpFailed ret
  let ret ← tests.x25519
  if ret ≠ naclSuccess then return s.powerUpFailed ret
  return (naclSuccess, { s with powerUpTestsPassed := 1, lastTestResult := naclSuccess })

/-- `fips_conditional_selftest_keygen`. The test itself says whether a message signed with a new key
pair has been opened. -/
def fipsConditionalSelftestKeygen (test : μ Bool) (s : Status) : μ (Int32 × Status) :=
  if s.conditionalTestsEnabled = 0 then pure (naclSuccess, s)
  else
    let s := { s with keygenCounter := s.keygenCounter + 1 }
    if s.keygenCounter % 100 ≠ 0 then pure (naclSuccess, s)
    else do
      if ← test then return (naclSuccess, s)
      return (naclErrorSelfTestFailed, { s with lastTestResult := naclErrorSelfTestFailed })

/-- `fips_enable_conditional_tests`. -/
def fipsEnableConditionalTests (enable : Int32) (s : Status) : Status :=
  { s with conditionalTestsEnabled := enable }

/-- `fips_get_last_test_result`. -/
def fipsGetLastTestResult (s : Status) : Int32 := s.lastTestResult

/-- `fips_are_self_tests_passed`. -/
def fipsAreSelfTestsPassed (s : Status) : Int32 := s.powerUpTestsPassed

end Code

/-- A call of one of the three entry points, with the results of the self-tests it may run. -/
inductive Call where
  | powerUp (results : Selftests Int32)
  | keygen (passed : Bool)
  | enable (value : Int32)

/-- A self-test that has been executed, with its result. -/
inductive Executed where
  | powerUp (ret : Int32)
  | keygen (ret : Int32)
deriving DecidableEq, Repr

/-- The variables before the first call. -/
def Status.initial : Status := ⟨0, 1, 0, 0⟩

/-- The power-up self-tests with given results. -/
def Selftests.tests (t : Selftests Int32) : Selftests (Id Int32) := t

/-- The next call of `fips_conditional_selftest_keygen` runs its test. -/
def Due (s : Status) : Prop := s.conditionalTestsEnabled ≠ 0 ∧ (s.keygenCounter + 1) % 100 = 0

instance (s : Status) : Decidable (Due s) := inferInstanceAs (Decidable (_ ∧ _))

/-- What a call returns, the variables after it, and the self-tests executed so far. -/
def answer (s : Status × List Executed) : Call → Int32 × Status × List Executed
  | .powerUp results =>
    let (ret, next) := Id.run (fipsPowerUpSelfTests results.tests s.1)
    (ret, next, .powerUp ret :: s.2)
  | .keygen passed =>
    let (ret, next) := Id.run (fipsConditionalSelftestKeygen (pure passed) s.1)
    (ret, next, if Due s.1 then .keygen ret :: s.2 else s.2)
  | .enable value => (0, fipsEnableConditionalTests value s.1, s.2)

/-- The result of the latest self-test. -/
def latestResult : List Executed → Int32
  | [] => naclSuccess
  | .powerUp ret :: _ => ret
  | .keygen ret :: _ => ret

/-- The latest power-up run has passed, and no conditional self-test has failed since. -/
def PassedSince : List Executed → Prop
  | [] => False
  | .powerUp ret :: _ => ret = naclSuccess
  | .keygen ret :: history => ret = naclSuccess ∧ PassedSince history

/-- The two status functions agree with the history. -/
def StatusCorrect (s : Status × List Executed) : Prop :=
  fipsGetLastTestResult s.1 = latestResult s.2 ∧ (fipsAreSelfTestsPassed s.1 = 1 ↔ PassedSince s.2)

/-- The calls that keep the status correct: a conditional self-test that runs passes only when the
last recorded result is a success, and fails only when the power-up tests do not count as passed. -/
def KeepsStatus (s : Status) : Call → Prop
  | .keygen passed =>
    Due s → if passed then s.lastTestResult = naclSuccess else s.powerUpTestsPassed ≠ 1
  | _ => True

/-- The power-up tests record one result in both variables. -/
theorem fipsPowerUpSelfTests_eq (t : Selftests Int32) (s : Status) :
    ∃ ret, Id.run (fipsPowerUpSelfTests t.tests s) =
      (ret, { s with powerUpTestsPassed := if ret = naclSuccess then 1 else 0,
                     lastTestResult := ret }) := by
  change ∃ ret, (if t.rng ≠ naclSuccess then s.powerUpFailed t.rng
    else if t.sha512 ≠ naclSuccess then s.powerUpFailed t.sha512
    else if t.ed25519 ≠ naclSuccess then s.powerUpFailed t.ed25519
    else if t.x25519 ≠ naclSuccess then s.powerUpFailed t.x25519 else _) = _
  have hfailed : ∀ {ret}, ret ≠ naclSuccess → s.powerUpFailed ret =
      (ret, { s with powerUpTestsPassed := if ret = naclSuccess then 1 else 0,
                     lastTestResult := ret }) :=
    fun h => by rw [if_neg h, Status.powerUpFailed]
  split_ifs with hrng hsha hed hx
  · exact ⟨_, hfailed hrng⟩
  · exact ⟨_, hfailed hsha⟩
  · exact ⟨_, hfailed hed⟩
  · exact ⟨_, hfailed hx⟩
  · exact ⟨naclSuccess, rfl⟩

/-- A conditional self-test runs exactly when it is due. -/
theorem fipsConditionalSelftestKeygen_eq {μ : Type → Type} [Monad μ] (test : μ Bool) (s : Status) :
    ∃ counter, fipsConditionalSelftestKeygen test s =
      if Due s then do
        if ← test then return (naclSuccess, { s with keygenCounter := counter })
        return (naclErrorSelfTestFailed,
          { s with keygenCounter := counter, lastTestResult := naclErrorSelfTestFailed })
      else pure (naclSuccess, { s with keygenCounter := counter }) := by
  by_cases henabled : s.conditionalTestsEnabled = 0
  · refine ⟨s.keygenCounter, ?_⟩
    rw [if_neg (fun h : Due s => h.1 henabled), fipsConditionalSelftestKeygen, if_pos henabled]
  · refine ⟨s.keygenCounter + 1, ?_⟩
    rw [fipsConditionalSelftestKeygen, if_neg henabled]
    by_cases hcount : (s.keygenCounter + 1) % 100 = 0
    · rw [if_pos (show Due s from ⟨henabled, hcount⟩)]
      exact if_neg (not_not.mpr hcount)
    · rw [if_neg (fun h : Due s => hcount h.2)]
      exact if_pos hcount

/-- A correct status stays correct exactly under the condition on the call. -/
theorem answer_keepsStatus {s : Status × List Executed} (hs : StatusCorrect s) (call : Call) :
    StatusCorrect (answer s call).2 ↔ KeepsStatus s.1 call := by
  obtain ⟨s, history⟩ := s
  obtain ⟨hlast, hpassed⟩ := hs
  cases call with
  | powerUp results =>
    obtain ⟨ret, hret⟩ := fipsPowerUpSelfTests_eq results s
    rw [answer, hret]
    refine ⟨fun _ => trivial, fun _ => ⟨rfl, ?_⟩⟩
    change (if ret = naclSuccess then 1 else 0) = 1 ↔ ret = naclSuccess
    split_ifs with hzero
    · exact ⟨fun _ => hzero, fun _ => rfl⟩
    · exact ⟨fun h => absurd h (by decide), fun h => absurd h hzero⟩
  | keygen passed =>
    obtain ⟨counter, heq⟩ := fipsConditionalSelftestKeygen_eq (pure passed : Id Bool) s
    rw [answer, heq]
    by_cases hdue : Due s
    · simp only [if_pos hdue, KeepsStatus]
      cases passed with
      | true =>
        refine ⟨fun h _ => h.1, fun h => ⟨h hdue, ?_⟩⟩
        exact hpassed.trans (and_iff_right rfl).symm
      | false =>
        have hne : naclErrorSelfTestFailed ≠ naclSuccess := by decide
        exact ⟨fun h _ hone => hne (h.2.mp hone).1,
          fun h => ⟨rfl, fun hone => absurd hone (h hdue), fun hret => absurd hret.1 hne⟩⟩
    · simp only [if_neg hdue]
      exact ⟨fun _ h => absurd h hdue, fun _ => ⟨hlast, hpassed⟩⟩
  | enable value => exact ⟨fun _ => trivial, fun _ => ⟨hlast, hpassed⟩⟩

/-- The status is correct in every state of a run exactly if every call of it keeps it correct. -/
theorem statusCorrect_iff (calls : List Call) :
    EachState answer StatusCorrect (Status.initial, []) calls ↔
      EachStep answer (fun s call => KeepsStatus s.1 call) (Status.initial, []) calls :=
  eachState_iff_eachStep ⟨rfl, fun h => absurd h (by decide), False.elim⟩ fun _ call hs =>
    answer_keepsStatus hs call

/-- A successful power-up run, and a hundred key generations of which the last fails its
self-test. -/
def failingKeygen : List Call :=
  .powerUp ⟨0, 0, 0, 0⟩ :: (List.replicate 99 (.keygen true) ++ [.keygen false])

/-- The failure is not recorded: the power-up tests still count as passed. -/
theorem failed_keygen_not_recorded :
    ¬ EachState answer StatusCorrect (Status.initial, []) failingKeygen :=
  fun h => by
    have hlast : StatusCorrect (run answer (Status.initial, []) failingKeygen) := h.last
    have hrun : run answer (Status.initial, []) failingKeygen =
        (⟨1, 1, 100, naclErrorSelfTestFailed⟩,
          [.keygen naclErrorSelfTestFailed, .powerUp naclSuccess]) := by
      decide +kernel
    rw [hrun] at hlast
    exact absurd (hlast.2.mp rfl).1 (by decide)

end TweetNacl.Core
