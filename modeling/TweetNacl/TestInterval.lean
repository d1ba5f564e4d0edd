import Mathlib.Tactic.NormNum
import TweetNacl.CoreSelftest
import TweetNacl.FipsSelftest

/-!
# How long a broken key generation goes unnoticed

The conditional self-tests run their tests when a counter of calls comes to a multiple of 100. The
counter of the drivers is a 32-bit word, which a success sets to zero and a failure does not; the
counter of the core module is a 64-bit word that counts while the tests are enabled. Both wrap
around. The number of calls without a test, from any state, is a function of the counter, and it is
at most 99.
-/

namespace TweetNacl

open Machine

section Counter

/-- From a counter value, the number of calls before the one that runs the test, for a counter of `2
^ w` values: it ends at the next multiple of 100, or where the counter wraps around. -/
def callsBefore (w counter : ℕ) : ℕ := min (99 - counter % 100) (2 ^ w - 1 - counter)

/-- There are never more than 99 calls to wait for. -/
theorem callsBefore_le (w counter : ℕ) : callsBefore w counter ≤ 99 :=
  Nat.le_trans (Nat.min_le_left _ _) (Nat.sub_le _ _)

/-- There is no call to wait for exactly if the next counter value is a multiple of 100. -/
theorem callsBefore_eq_zero_iff {w counter : ℕ} (hlt : counter < 2 ^ w) :
    callsBefore w counter = 0 ↔ (counter + 1) % 2 ^ w % 100 = 0 := by
  rw [callsBefore]
  rcases Nat.lt_or_eq_of_le (Nat.succ_le_of_lt hlt) with hnext | hwrap
  · rw [Nat.mod_eq_of_lt hnext]
    omega
  · rw [show counter + 1 = 2 ^ w from hwrap, Nat.mod_self]
    omega

/-- A call that runs no test comes one nearer to the test. -/
theorem callsBefore_next {w counter : ℕ} (hlt : counter < 2 ^ w) (hne : callsBefore w counter ≠ 0) :
    callsBefore w ((counter + 1) % 2 ^ w) + 1 = callsBefore w counter := by
  rw [callsBefore] at hne ⊢
  rw [callsBefore]
  rcases Nat.lt_or_eq_of_le (Nat.succ_le_of_lt hlt) with hnext | hwrap
  · rw [Nat.mod_eq_of_lt hnext]
    omega
  · omega

end Counter

namespace Fips

/-- The number of conditional calls before the one that runs the pairwise tests. -/
def untilTest (s : Module) : ℕ := callsBefore 32 s.keygenCounter.toNat

/-- The calls that count. -/
def Counted : Call → Prop
  | .powerOn _ => False
  | .conditional _ => True

instance : DecidablePred Counted
  | .powerOn _ => inferInstanceAs (Decidable False)
  | .conditional _ => inferInstanceAs (Decidable True)

variable {s : Module} {calls : List Call} {r : Selftests Int32}

/-- The test is due exactly if no call is before it. -/
theorem untilTest_eq_zero_iff (s : Module) : untilTest s = 0 ↔ Due s := by
  rw [untilTest, callsBefore_eq_zero_iff s.keygenCounter.toNat_lt, Due, fipsConditionalInterval,
    ← UInt32.toNat_inj, UInt32.toNat_mod, UInt32.toNat_add]
  rfl

/-- A conditional call that does not run the tests comes one nearer to the one that does. -/
theorem untilTest_conditional (hne : untilTest s ≠ 0) :
    untilTest (answer s (.conditional r)).2 + 1 = untilTest s := by
  rw [answer, fipsConditionalSelftest_eq, if_neg (mt (untilTest_eq_zero_iff s).mpr hne),
    untilTest, untilTest, ← callsBefore_next s.keygenCounter.toNat_lt hne, UInt32.toNat_add]
  rfl

/-- A power-on test leaves the counter. -/
theorem untilTest_powerOn : untilTest (answer s (.powerOn r)).2 = untilTest s := by
  rw [answer, fipsPowerOnSelftest_eq, untilTest, untilTest]
  split_ifs <;> rfl

/-- In any sequence of calls, from any state of the variables, a conditional call runs the pairwise
tests exactly if there are more conditional calls than the counter has left; this is at most 99,
also where the counter wraps around. If the tests fail, one of these calls returns −1 and leaves the
error state. -/
theorem conditional_tests_run_iff (s : Module) (calls : List Call) :
    untilTest s ≤ 99 ∧
      ((∃ before r after, calls = before ++ .conditional r :: after ∧ Due (run answer s before)) ↔
        untilTest s < calls.countP Counted) ∧
      ((∀ r, .conditional r ∈ calls → ¬ r.Consistent) → untilTest s < calls.countP Counted →
        ∃ before r after, calls = before ++ .conditional r :: after ∧
          (answer (run answer s before) (.conditional r)).1 = -1 ∧
          (run answer s (before ++ [.conditional r])).fipsState = .error) := by
  have hother : ∀ s call, ¬ Counted call → untilTest (answer s call).2 = untilTest s :=
      fun s call hcall => by
    cases call with
    | powerOn r => exact untilTest_powerOn
    | conditional r => exact absurd trivial hcall
  have hcounted : ∀ s call, Counted call → untilTest s ≠ 0 →
      untilTest (answer s call).2 + 1 = untilTest s :=
    fun s call hcall hne => by
      cases call with
      | powerOn r => exact hcall.elim
      | conditional r => exact untilTest_conditional hne
  have hdue : (∃ before r after, calls = before ++ .conditional r :: after ∧
    Due (run answer s before)) ↔
      untilTest s < calls.countP Counted := by
    rw [← countSteps_eq_countP, ← exists_due_iff hother hcounted]
    constructor
    · rintro ⟨before, r, after, hcalls, h⟩
      exact ⟨before, _, after, hcalls, trivial, (untilTest_eq_zero_iff _).mpr h⟩
    · rintro ⟨before, call, after, hcalls, hcall, h⟩
      cases call with
      | powerOn r => exact hcall.elim
      | conditional r => exact ⟨before, r, after, hcalls, (untilTest_eq_zero_iff _).mp h⟩
  refine ⟨callsBefore_le _ _, hdue, fun hfail hcount => ?_⟩
  obtain ⟨before, r, after, hcalls, h⟩ := hdue.mpr hcount
  have hanswer : answer (run answer s before) (.conditional r) =
      (-1, { fipsState := .error, keygenCounter := (run answer s before).keygenCounter + 1 }) := by
    rw [answer, fipsConditionalSelftest_eq, if_pos h, if_neg (hfail r (by rw [hcalls]; simp))]
  exact ⟨before, r, after,
    hcalls, by rw [hanswer], by rw [run_append, run, List.foldl_cons, hanswer]; rfl⟩

end Fips

namespace Core

/-- The number of counted key generations before the one that runs its test. -/
def untilTest (s : Status × List Executed) : ℕ := callsBefore 64 s.1.keygenCounter.toNat

/-- A key generation counts while the conditional tests are enabled. -/
def Counted (s : Status × List Executed) : Call → Prop
  | .keygen _ => s.1.conditionalTestsEnabled ≠ 0
  | _ => False

instance (s : Status × List Executed) : DecidablePred (Counted s)
  | .keygen _ => inferInstanceAs (Decidable (_ ≠ _))
  | .powerUp _ => inferInstanceAs (Decidable False)
  | .enable _ => inferInstanceAs (Decidable False)

variable {s : Status × List Executed} {passed : Bool}

/-- The test is due exactly if no call is before it, once the tests are enabled. -/
theorem due_iff (henabled : s.1.conditionalTestsEnabled ≠ 0) : Due s.1 ↔ untilTest s = 0 := by
  rw [untilTest, callsBefore_eq_zero_iff s.1.keygenCounter.toNat_lt, Due, and_iff_right henabled,
    ← UInt64.toNat_inj, UInt64.toNat_mod, UInt64.toNat_add]
  rfl

/-- A call that does not count leaves the counter. -/
theorem untilTest_other (s : Status × List Executed) (call : Call) (h : ¬ Counted s call) :
    untilTest (answer s call).2 = untilTest s := by
  cases call with
  | powerUp results =>
    obtain ⟨ret, hret⟩ := fipsPowerUpSelfTests_eq results s.1
    rw [answer, hret]
    rfl
  | keygen passed =>
    have hdisabled : s.1.conditionalTestsEnabled = 0 := not_not.mp h
    rw [answer, fipsConditionalSelftestKeygen, if_pos hdisabled]
    rfl
  | enable value => rfl

/-- A counted call that does not run its test comes one nearer to the one that does. -/
theorem untilTest_counted (s : Status × List Executed) (call : Call) (h : Counted s call)
    (hne : untilTest s ≠ 0) :
    untilTest (answer s call).2 + 1 = untilTest s := by
  cases call with
  | powerUp results => exact h.elim
  | enable value => exact h.elim
  | keygen passed =>
    have hcount : (s.1.keygenCounter + 1) % 100 ≠ 0 := fun hzero => hne ((due_iff h).mp ⟨h, hzero⟩)
    have hnext : (s.1.keygenCounter + 1).toNat = (s.1.keygenCounter.toNat + 1) % 2 ^ 64 :=
      UInt64.toNat_add _ _
    rw [answer, fipsConditionalSelftestKeygen, if_neg h, if_pos hcount, untilTest, untilTest,
      ← callsBefore_next s.1.keygenCounter.toNat_lt hne, ← hnext]
    rfl

/-- In any sequence of calls, from any state of the variables, a key generation runs its test
exactly if more key generations are counted, while the tests are enabled, than the counter has left;
this is at most 99. If the test always fails, one of these calls returns
`NACL_ERROR_SELF_TEST_FAILED` and leaves it as the last result. -/
theorem keygen_tests_run_iff (s : Status × List Executed) (calls : List Call) :
    untilTest s ≤ 99 ∧
      ((∃ before passed after, calls = before ++ .keygen passed :: after ∧
        Due (run answer s before).1) ↔
        untilTest s < countSteps answer Counted s calls) ∧
      ((∀ passed, .keygen passed ∈ calls → passed = false) →
        untilTest s < countSteps answer Counted s calls →
        ∃ before passed after, calls = before ++ .keygen passed :: after ∧
          (answer (run answer s before) (.keygen passed)).1 = naclErrorSelfTestFailed ∧
          fipsGetLastTestResult (run answer s (before ++ [.keygen passed])).1 =
          naclErrorSelfTestFailed) := by
  have hdue : (∃ before passed after, calls = before ++ .keygen passed :: after ∧
    Due (run answer s before).1) ↔
      untilTest s < countSteps answer Counted s calls := by
    rw [← exists_due_iff untilTest_other untilTest_counted]
    constructor
    · rintro ⟨before, passed, after, hcalls, h⟩
      exact ⟨before, _, after, hcalls, h.1, (due_iff h.1).mp h⟩
    · rintro ⟨before, call, after, hcalls, hcall, h⟩
      cases call with
      | powerUp results => exact hcall.elim
      | enable value => exact hcall.elim
      | keygen passed => exact ⟨before, passed, after, hcalls, (due_iff hcall).mpr h⟩
  refine ⟨callsBefore_le _ _, hdue, fun hfail hcount => ?_⟩
  obtain ⟨before, passed, after, hcalls, h⟩ := hdue.mpr hcount
  obtain rfl : passed = false := hfail passed (by rw [hcalls]; simp)
  obtain ⟨counter, heq⟩ :=
    fipsConditionalSelftestKeygen_eq (pure false : Id Bool) (run answer s before).1
  have hanswer : answer (run answer s before) (.keygen false) = (naclErrorSelfTestFailed,
      { (run answer s before).1 with
        keygenCounter := counter, lastTestResult := naclErrorSelfTestFailed },
      .keygen naclErrorSelfTestFailed :: (run answer s before).2) := by
    rw [answer, heq, if_pos h]
    exact congrArg _ (congrArg _ (if_pos h))
  refine ⟨before, false, after, hcalls, by rw [hanswer], ?_⟩
  rw [run_append, run, List.foldl_cons, hanswer]
  rfl

end Core

end TweetNacl
