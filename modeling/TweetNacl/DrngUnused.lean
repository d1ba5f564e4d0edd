import TweetNacl.DrngInit
import TweetNacl.Lib.TokenInvariant

/-!
# The hardware generator is never used

On x86 `drng_init` takes no source. With `HAS_ARM_RNG` the self-test of the source that it finds
waits for the thread that runs it. So in no order of steps of any number of threads is a source ever
published, whatever the hardware answers, and every call that returns says that there is none.
-/

namespace TweetNacl.Drng

open TweetNacl.Core Threads Machine

section Results

/-- What a public function returns. -/
inductive Result where
  | done
  | code (ret : Int32)
  | name (name : String)
  | bytes (n : UInt64)
  | fill (ret : Int32) (ws : List Write)
deriving DecidableEq, Repr

/-- The program of a call. -/
def Call.result (p : Platform) : Call → Program Result
  | .initialising .init => do
    drngInit p
    pure .done
  | .initialising .available => do return .code (← randombytesDrngAvailable p)
  | .initialising .support => do return .code (← drngGetDrngSupport p)
  | .initialising .implementationName => do return .name (← randombytesImplementationName p)
  | .initialising (.fill len) => do
    let (ret, ws) ← randombytesDrngFill p len
    return .fill ret ws
  | .isInitialized => do return .code (← drngIsInitializedPublic)
  | .selftestStatus => do return .code (← drngGetPowerUpSelftestStatus)
  | .totalBytes => do return .bytes (← drngGetTotalBytesGenerated)
  | .reset => do
    drngResetForTesting
    pure .done

/-- The calls that have returned, the latest first. -/
abbrev Log := List (Call × Result)

/-- The program of a call that keeps its result in the log. -/
def Call.logged (p : Platform) (c : Call) : Prog (State × Log) (Option UInt64) Unit := do
  let r ← (c.result p).lift Log
  Prog.modify fun s => (s.1, (c, r) :: s.2)

/-- The system of threads that call the public functions. -/
abbrev loggedNext {δ : Type} [DecidableEq δ] (p : Platform) :
    System δ (State × Log) (Option UInt64) → δ × Event Call (Option UInt64) →
      Unit × System δ (State × Log) (Option UInt64) :=
  System.next (fun s => s.1.drngInitState) (Call.logged p)

/-- The module before any thread has called it. -/
def System.initialLogged {δ : Type} : System δ (State × Log) (Option UInt64) where
  shared := (State.initial, [])
  prog _ := .pure ()
  owner := none

/-- What a call returns where there is no hardware generator. -/
def WithoutHardware : Call → Result → Prop
  | .initialising .init, r => r = .done
  | .initialising .available, r => r = .code 0
  | .initialising .support, r => r = .code 0
  | .initialising .implementationName, r => r = .name "none"
  | .initialising (.fill _), r => r = .fill (-1) []
  | .isInitialized, r => r = .code 0 ∨ r = .code 1
  | .selftestStatus, r => r = .code 0
  | .totalBytes, r => r = .bytes 0
  | .reset, r => r = .done

end Results

section Invariant

/-- No source is published, and none has been used. -/
structure Unused (s : State) : Prop where
  rngImpl_eq : s.rngImpl = .none
  selftest_eq : s.powerUpSelftestPassed = false
  count_eq : s.healthTestCount = 0
  total_eq : s.totalBytesGenerated = 0
  failure_eq : s.catastrophicFailure = false

/-- How far the thread that initialises has got: it looks for a source, or publishes it. -/
inductive Stage where
  | selecting
  | publishing

/-- The invariant of the variables. -/
def Inv : Option Stage → State → Prop
  | none, s => Unused s ∧ s.drngInitState ≠ .running ∧
      (s.drngInitState = .fresh → s.initialized = false)
  | some .selecting, s => Unused s ∧ s.drngInitState = .running ∧ s.initialized = false
  | some .publishing, s => Unused s ∧ s.drngInitState = .running

variable {p : Platform} {stage : Option Stage} {s : State}

/-- Under the invariant no source is in use. -/
theorem Inv.unused (h : Inv stage s) : Unused s := by
  obtain - | - | - := stage <;> exact h.1

/-- A change of variables that neither use a source nor mark an initialisation. -/
theorem Inv.reset (h : Inv stage s) (f : State → State) (hunused : Unused s → Unused (f s))
    (hstate : (f s).drngInitState = s.drngInitState)
    (hinit : s.initialized = false → (f s).initialized = false) :
    Inv stage (f s) := by
  obtain - | - | - := stage
  · exact ⟨hunused h.1, hstate ▸ h.2.1, fun hf => hinit (h.2.2 (hstate ▸ hf))⟩
  · exact ⟨hunused h.1, hstate.trans h.2.1, hinit h.2.2⟩
  · exact ⟨hunused h.1, hstate.trans h.2⟩

/-- The call that the thread makes to itself while it looks for a source does not return. -/
theorem guarded_selfWait {α : Type} {Q : Option Stage → α → Prop} (init : Program Unit)
    (k : Program α) :
    (drngInitWith p init >>= fun _ => k).Guarded Inv Q (some .selecting) := by
  suffices h : (drngInitWith p init).Guarded Inv (fun _ _ => False) (some .selecting) from h.bind
    fun _ _ h => h.elim
  refine Prog.Guarded.get_held fun s hs => ?_
  rw [hs.2.2, if_neg Bool.false_ne_true]
  intro s hs
  have hne : s.drngInitState ≠ .fresh := by rw [hs.2.1]; decide
  refine ⟨some .selecting, by simp only [if_neg hne]; exact hs, ?_⟩
  simp only [decide_eq_false hne]
  intro s (hs : Inv (some .selecting) s) hp
  simp only [hs.2.1] at hp
  exact absurd hp (by decide)

/-- The self-test of a source fills a buffer, and comes back to `drng_init`. -/
theorem guarded_testSource (init : Program Unit) (chosen : RngImpl)
    (hchosen : p ≠ .arm → chosen = .none) :
    (testSource p (drngInitWith p init) chosen).Guarded Inv
      (fun held chosen => held = some .selecting ∧ chosen = .none)
      (some .selecting) := by
  by_cases hnone : chosen = .none
  · rw [testSource, if_pos hnone]
    exact ⟨rfl, rfl⟩
  · obtain rfl : p = .arm := not_not.mp fun hp => hnone (hchosen hp)
    rw [testSource, if_neg hnone]
    -- the fill of the self-test never returns, and so neither does what calls it
    have hfill : (drngFill .arm (drngInitWith .arm init) 64).Guarded Inv (fun _ _ => False)
        (some .selecting) := by
      refine Prog.Guarded.get_held fun s hs => ?_
      simp only [hs.1.rngImpl_eq, if_true]
      exact guarded_selfWait init _
    have hselftest :
      (drngPowerUpSelftest .arm (drngFill .arm (drngInitWith .arm init)) chosen).Guarded Inv
        (fun _ _ => False) (some .selecting) := hfill.bind fun _ _ h => h.elim
    exact hselftest.bind fun _ _ h => h.elim

/-- Off ARM the selection ends without a source. -/
theorem guarded_chooseSource : (chooseSource p).Guarded Inv
    (fun held chosen => held = some .selecting ∧ (p ≠ .arm → chosen = .none))
    (some .selecting) := by
  cases p with
  | arm => exact fun r => ⟨rfl, fun h => absurd rfl h⟩
  | _ => exact ⟨rfl, fun _ => rfl⟩

/-- With no source to publish, the thread opens the lock. -/
theorem guarded_publishSource :
    (publishSource .none).Guarded Inv (fun held _ => held = none) (some .selecting) := by
  refine Prog.Guarded.modify_held (some .selecting)
    (fun s hs => ⟨⟨rfl, hs.1.2, hs.1.3, hs.1.4, hs.1.5⟩, hs.2⟩) ?_
  refine Prog.Guarded.modify_held (some .publishing)
    (fun s hs => ⟨⟨hs.1.1, hs.1.2, hs.1.3, hs.1.4, hs.1.5⟩, hs.2.1⟩) ?_
  have hopen : ∀ s, Unused s → Inv none { s with drngInitState := .complete } := fun s hs =>
    ⟨⟨hs.1, hs.2, hs.3, hs.4, hs.5⟩, Phase.noConfusion, Phase.noConfusion⟩
  exact fun s hs => ⟨none, hopen s hs.1, rfl⟩

/-- `drng_init` as one of the threads without the token runs it. -/
theorem guarded_drngInit : (drngInit p).Guarded Inv (fun held _ => held = none) none := by
  refine Prog.Guarded.get fun stage s hs => ?_
  split
  · rfl
  · intro stage s hs
    by_cases hfresh : s.drngInitState = .fresh
    · -- the lock is open, so no other thread is initialising
      obtain rfl : stage = none := by
        obtain - | - | - := stage
        · rfl
        · exact nomatch hfresh.symm.trans hs.2.1
        · exact nomatch hfresh.symm.trans hs.2
      refine .inr ⟨rfl, .selecting, ?_, ?_⟩
      · simp only [if_pos hfresh]
        exact ⟨⟨hs.1.1, hs.1.2, hs.1.3, hs.1.4, hs.1.5⟩, rfl, hs.2.2 hfresh⟩
      · simp only [decide_eq_true hfresh]
        refine guarded_chooseSource.bind fun held chosen h => ?_
        obtain ⟨rfl, hchosen⟩ := h
        refine (guarded_testSource _ chosen hchosen).bind fun held chosen h => ?_
        obtain ⟨rfl, rfl⟩ := h
        exact guarded_publishSource
    · refine .inl ⟨by simp only [if_neg hfresh]; exact hs, ?_⟩
      simp only [decide_eq_false hfresh]
      exact fun _ _ _ => rfl

/-- A call that makes sure of the initialization goes on without a source. -/
theorem guarded_ensureInit :
    (ensureInit p).Guarded Inv (fun held impl => held = none ∧ impl = .none) none := by
  refine Prog.Guarded.get fun stage s hs => ?_
  rw [if_pos hs.unused.rngImpl_eq]
  refine guarded_drngInit.bind fun held _ hheld => ?_
  obtain rfl : held = none := hheld
  exact Prog.Guarded.get fun stage s hs => ⟨rfl, hs.unused.rngImpl_eq⟩

/-- A function that only looks at the source. -/
theorem guarded_afterInit {α : Type} (f : RngImpl → α) :
    (do return f (← ensureInit p)).Guarded Inv (fun held r => held = none ∧ r = f .none) none := by
  refine guarded_ensureInit.bind fun held impl h => ?_
  obtain ⟨rfl, rfl⟩ := h
  exact ⟨rfl, rfl⟩

/-- The public fill fails and writes nothing. -/
theorem guarded_randombytesDrngFill (len : UInt64) :
    (randombytesDrngFill p len).Guarded Inv (fun held r => held = none ∧ r = (-1, [])) none := by
  refine Prog.Guarded.get fun stage s hs => ?_
  rw [hs.unused.failure_eq, if_neg Bool.false_ne_true]
  refine guarded_ensureInit.bind fun held impl h => ?_
  obtain ⟨rfl, rfl⟩ := h
  exact ⟨rfl, rfl⟩

/-- The reset forgets what has been used, which is nothing. -/
theorem guarded_drngResetForTesting :
    drngResetForTesting.Guarded Inv (fun held _ => held = none) none := by
  have hreset : ∀ f : State → State, (∀ s, Unused s → Unused (f s)) →
    (∀ s, (f s).drngInitState = s.drngInitState) →
      (∀ s : State, s.initialized = false → (f s).initialized = false) → ∀ stage s, Inv stage s →
      Inv stage (f s) :=
    fun f hunused hstate hinit stage s hs => hs.reset f (hunused s) (hstate s) (hinit s)
  refine Prog.Guarded.bind (Q := fun held _ => held = none) ?_ fun held _ hheld => ?_
  · refine Prog.Guarded.modify (hreset _ ?_ (fun _ => rfl) fun _ _ => rfl) ?_
    · exact fun s hs => ⟨hs.1, hs.2, hs.3, hs.4, hs.5⟩
    refine Prog.Guarded.modify (hreset _ ?_ (fun _ => rfl) fun _ h => h) ?_
    · exact fun s hs => ⟨hs.1, rfl, hs.3, hs.4, hs.5⟩
    refine Prog.Guarded.modify (hreset _ ?_ (fun _ => rfl) fun _ h => h) ?_
    · exact fun s hs => ⟨hs.1, hs.2, rfl, hs.4, hs.5⟩
    refine Prog.Guarded.modify_last (hreset _ ?_ (fun _ => rfl) fun _ h => h)
    exact fun s hs => ⟨hs.1, hs.2, hs.3, rfl, hs.5⟩
  · obtain rfl : held = none := hheld
    refine Prog.Guarded.modify_last (hreset _ ?_ (fun _ => rfl) fun _ h => h)
    exact fun s hs => ⟨rfl, hs.2, hs.3, hs.4, hs.5⟩

/-- Every public function keeps the invariant, and returns what it does without a hardware
generator. -/
theorem guarded_result (c : Call) :
    (c.result p).Guarded Inv (fun held r => held = none ∧ WithoutHardware c r) none := by
  cases c with
  | initialising c =>
    cases c with
    | init => exact guarded_drngInit.bind fun held _ h => ⟨h, rfl⟩
    | fill len =>
      refine (guarded_randombytesDrngFill len).bind fun held r h => ?_
      obtain ⟨rfl, rfl⟩ := h
      exact ⟨rfl, rfl⟩
    | available => exact (guarded_afterInit _).bind fun held r h => ⟨h.1, congrArg Result.code h.2⟩
    | support => exact (guarded_afterInit _).bind fun held r h => ⟨h.1, congrArg Result.code h.2⟩
    | implementationName => exact (guarded_afterInit _).bind fun held r h =>
      ⟨h.1, congrArg Result.name h.2⟩
  | isInitialized =>
    refine Prog.Guarded.get fun stage s hs => ⟨rfl, ?_⟩
    change Result.code (if s.initialized = true then 1 else 0) = _ ∨
      Result.code (if s.initialized = true then 1 else 0) = _
    split_ifs
    · exact .inr rfl
    · exact .inl rfl
  | selftestStatus =>
    refine Prog.Guarded.get fun stage s hs => ⟨rfl, ?_⟩
    change Result.code (if s.powerUpSelftestPassed = true then 1 else 0) = .code 0
    rw [hs.unused.selftest_eq]
    rfl
  | totalBytes => exact Prog.Guarded.get fun stage s hs =>
    ⟨rfl, congrArg Result.bytes hs.unused.total_eq⟩
  | reset => exact guarded_drngResetForTesting.bind fun held _ h => ⟨h, rfl⟩

/-- The log holds no other answers. -/
def LogWithoutHardware (log : Log) : Prop := ∀ e ∈ log, WithoutHardware e.1 e.2

/-- A logged call keeps the invariant and logs only results without hardware. -/
theorem guarded_logged (c : Call) :
    (c.logged p).Guarded (fun stage s => Inv stage s.1 ∧ LogWithoutHardware s.2)
    (fun held _ => held = none) none := by
  refine ((guarded_result c).lift LogWithoutHardware).bind fun held r h => ?_
  obtain ⟨rfl, hr⟩ := h
  refine fun stage s hs => .inl ⟨⟨hs.1, fun e he => ?_⟩, rfl⟩
  rcases List.mem_cons.mp he with rfl | he
  · exact hr
  · exact hs.2 e he

end Invariant

section Runs

variable {δ : Type} [DecidableEq δ]

/-- Whatever any number of threads call, in whatever order they step and whatever the hardware
answers, no source is ever published, nothing is counted as generated, and every call that has
returned has said that there is no source: no bytes come from `_randombytes_drng_fill`. -/
theorem hardware_unused (p : Platform) (es : List (δ × Event Call (Option UInt64))) :
    EachState (loggedNext p) (fun S => S.shared.1.rngImpl = .none ∧
      S.shared.1.totalBytesGenerated = 0 ∧
      ∀ e ∈ S.shared.2, WithoutHardware e.1 e.2) System.initialLogged es := by
  have hinit : (System.initialLogged (δ := δ)).Kept fun stage s => Inv stage s.1 ∧
      LogWithoutHardware s.2 :=
    ⟨none, ⟨⟨⟨rfl, rfl, rfl, rfl, rfl⟩, Phase.noConfusion, fun _ => rfl⟩, fun _ he => nomatch he⟩,
      fun _ => rfl⟩
  refine (hinit.eachState guarded_logged es).mono fun S hS => ?_
  obtain ⟨stage, hs, hlog⟩ := hS
  exact ⟨hs.unused.rngImpl_eq, hs.unused.total_eq, hlog⟩

end Runs

end TweetNacl.Drng
