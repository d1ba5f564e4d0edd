import TweetNacl.Lib.Machine

/-!
# The FIPS error state of the drivers

`fips_power_on_selftest` and `fips_conditional_selftest` share the state of the module and a counter
of key generations. The self-tests they run are parameters, in whatever monad these are executed; a
run of the module takes their results from its calls.
-/

namespace TweetNacl.Fips

open Machine

section Code

/-- `fips_state_t`. -/
inductive FipsState where
  | initial
  | selftest
  | error
  | approved
deriving DecidableEq, Repr

/-- The variables of the module. -/
structure Module where
  fipsState : FipsState
  keygenCounter : UInt32
deriving DecidableEq, Repr

/-- One entry for each self-test: its program, or its result, which is zero for success. -/
structure Selftests (τ : Type) where
  softwareLoadTest : τ
  katSha512 : τ
  katEd25519 : τ
  katX25519 : τ
  pctKeygenEd25519 : τ
  pctKeygenX25519 : τ
  crngt : τ

variable {μ : Type → Type} [Monad μ]

/-- `FIPS_CONDITIONAL_INTERVAL`. -/
def fipsConditionalInterval : UInt32 := 100

/-- `fips_conditional_selftest`. -/
def fipsConditionalSelftest (tests : Selftests (μ Int32)) (s : Module) : μ (Int32 × Module) :=
  let s := { s with keygenCounter := s.keygenCounter + 1 }
  if s.keygenCounter % fipsConditionalInterval ≠ 0 then pure (0, s)
  else do
    if (← tests.pctKeygenEd25519) ≠ 0 then return (-1, { s with fipsState := .error })
    if (← tests.pctKeygenX25519) ≠ 0 then return (-1, { s with fipsState := .error })
    return (0, { s with keygenCounter := 0 })

/-- `fips_power_on_selftest`. -/
def fipsPowerOnSelftest (tests : Selftests (μ Int32)) (s : Module) : μ (Int32 × Module) := do
  let s := { s with fipsState := .selftest }
  if (← tests.softwareLoadTest) ≠ 0 then return (-1, { s with fipsState := .error })
  if (← tests.katSha512) ≠ 0 then return (-1, { s with fipsState := .error })
  if (← tests.katEd25519) ≠ 0 then return (-1, { s with fipsState := .error })
  if (← tests.katX25519) ≠ 0 then return (-1, { s with fipsState := .error })
  if (← tests.pctKeygenEd25519) ≠ 0 then return (-1, { s with fipsState := .error })
  if (← tests.pctKeygenX25519) ≠ 0 then return (-1, { s with fipsState := .error })
  if (← tests.crngt) ≠ 0 then return (-1, { s with fipsState := .error })
  return (0, { s with fipsState := .approved })

end Code

/-- The self-tests with given results. -/
def Selftests.tests (t : Selftests Int32) : Selftests (Id Int32) := t

/-- A call of one of the two entry points, with the results of the self-tests it may run. -/
inductive Call where
  | powerOn (results : Selftests Int32)
  | conditional (results : Selftests Int32)

/-- What a call returns, and the state it leaves. -/
def answer (s : Module) : Call → Int32 × Module
  | .powerOn results => Id.run (fipsPowerOnSelftest results.tests s)
  | .conditional results => Id.run (fipsConditionalSelftest results.tests s)

/-- The variables before the first call. -/
def Module.initial : Module := ⟨.initial, 0⟩

/-- The pairwise consistency tests succeed. -/
def Selftests.Consistent (t : Selftests Int32) : Prop :=
  t.pctKeygenEd25519 = 0 ∧ t.pctKeygenX25519 = 0

instance (t : Selftests Int32) : Decidable t.Consistent := inferInstanceAs (Decidable (_ ∧ _))

/-- All self-tests of the power-on sequence succeed. -/
def Selftests.Pass (t : Selftests Int32) : Prop :=
  t.softwareLoadTest = 0 ∧ t.katSha512 = 0 ∧ t.katEd25519 = 0 ∧ t.katX25519 = 0 ∧
    t.Consistent ∧ t.crngt = 0

instance (t : Selftests Int32) : Decidable t.Pass := inferInstanceAs (Decidable (_ ∧ _))

/-- The power-on test approves the module exactly if all tests pass. -/
theorem fipsPowerOnSelftest_eq (t : Selftests Int32) (s : Module) :
    Id.run (fipsPowerOnSelftest t.tests s) =
      if t.Pass then (0, { s with fipsState := .approved }) else
      (-1, { s with fipsState := .error }) := by
  change (if t.softwareLoadTest ≠ 0 then _ else if t.katSha512 ≠ 0 then _
    else if t.katEd25519 ≠ 0 then _ else if t.katX25519 ≠ 0 then _
    else if t.pctKeygenEd25519 ≠ 0 then _ else if t.pctKeygenX25519 ≠ 0 then _
    else if t.crngt ≠ 0 then _ else _) = _
  by_cases hpass : t.Pass
  · obtain ⟨hload, hsha, hkat, hkatX, ⟨hpct, hpctX⟩, hcrngt⟩ := id hpass
    rw [if_pos hpass, if_neg (not_not.mpr hload), if_neg (not_not.mpr hsha),
      if_neg (not_not.mpr hkat), if_neg (not_not.mpr hkatX), if_neg (not_not.mpr hpct),
      if_neg (not_not.mpr hpctX), if_neg (not_not.mpr hcrngt)]
    rfl
  · -- whichever test fails first, the state and the result are the same
    rw [if_neg hpass]
    split_ifs with hload hsha hkat hkatX hpct hpctX hcrngt
    all_goals first
      | rfl
      | exact absurd ⟨not_not.mp hload, not_not.mp hsha, not_not.mp hkat, not_not.mp hkatX,
          ⟨not_not.mp hpct, not_not.mp hpctX⟩, not_not.mp hcrngt⟩ hpass

/-- The next call of `fips_conditional_selftest` runs the pairwise tests. -/
def Due (s : Module) : Prop := (s.keygenCounter + 1) % fipsConditionalInterval = 0

instance (s : Module) : Decidable (Due s) := inferInstanceAs (Decidable (_ = _))

/-- The conditional test runs when it is due, and then on its consistency test. -/
theorem fipsConditionalSelftest_eq (t : Selftests Int32) (s : Module) :
    Id.run (fipsConditionalSelftest t.tests s) =
      if Due s then
        if t.Consistent then (0, { s with keygenCounter := 0 })
        else (-1, { fipsState := .error, keygenCounter := s.keygenCounter + 1 })
      else (0, { s with keygenCounter := s.keygenCounter + 1 }) := by
  change (if (s.keygenCounter + 1) % fipsConditionalInterval ≠ 0 then _ else
    if t.pctKeygenEd25519 ≠ 0 then _ else if t.pctKeygenX25519 ≠ 0 then _ else _) = _
  by_cases hdue : (s.keygenCounter + 1) % fipsConditionalInterval = 0
  · rw [if_pos (show Due s from hdue), if_neg (not_not.mpr hdue)]
    by_cases hpct : t.pctKeygenEd25519 = 0
    · rw [if_neg (not_not.mpr hpct), ite_not]
      exact if_congr (and_iff_right hpct).symm rfl rfl
    · rw [if_pos hpct, if_neg (fun h : t.Consistent => hpct h.1)]
      rfl
  · rw [if_neg (show ¬ Due s from hdue), if_pos hdue]
    rfl

/-- The calls that leave the error state and fail: a power-on sequence of which a self-test fails,
and a conditional self-test that runs the pairwise tests, of which one fails. -/
def KeepsError (s : Module) : Call → Prop
  | .powerOn results => ¬ results.Pass
  | .conditional results => Due s ∧ ¬ results.Consistent

/-- A call fails and ends in the error state exactly if it is one of these. -/
theorem answer_keepsError (s : Module) (call : Call) :
    (answer s call).2.fipsState = .error ∧ (answer s call).1 = -1 ↔ KeepsError s call := by
  have hne : ¬ (0 : Int32) = -1 := by decide
  cases call with
  | powerOn results =>
    rw [answer, fipsPowerOnSelftest_eq, KeepsError]
    split_ifs with hpass
    · exact ⟨fun h => absurd h.2 hne, fun h => absurd hpass h⟩
    · exact ⟨fun _ => hpass, fun _ => ⟨rfl, rfl⟩⟩
  | conditional results =>
    rw [answer, fipsConditionalSelftest_eq, KeepsError]
    split_ifs with hdue hconsistent
    · exact ⟨fun h => absurd h.2 hne, fun h => absurd hconsistent h.2⟩
    · exact ⟨fun _ => ⟨hdue, hconsistent⟩, fun _ => ⟨rfl, rfl⟩⟩
    · exact ⟨fun h => absurd h.2 hne, fun h => absurd h.1 hdue⟩

/-- The error state absorbs a run exactly if every call made in it is one of those that keep it. -/
theorem errorAbsorbing_iff (s : Module) (calls : List Call) :
    Absorbing answer (fun s => s.fipsState = .error) (fun ret => ret = -1) s calls ↔
      EachStep answer (fun s call => s.fipsState = .error → KeepsError s call) s calls := by
  rw [absorbing_iff_eachStep]
  exact eachStep_congr fun s call => forall_congr' fun _ => answer_keepsError s call

/-- A failed power-on sequence followed by a successful one ends in the approved state. -/
theorem error_not_absorbing :
    ¬ Absorbing answer (fun s => s.fipsState = .error) (fun ret => ret = -1) Module.initial
      [.powerOn ⟨0, -1, 0, 0, 0, 0, 0⟩, .powerOn ⟨0, 0, 0, 0, 0, 0, 0⟩] := fun h =>
  absurd (h [.powerOn ⟨0, -1, 0, 0, 0, 0, 0⟩] [] _ [] rfl (by decide)).1 (by decide)

end TweetNacl.Fips
