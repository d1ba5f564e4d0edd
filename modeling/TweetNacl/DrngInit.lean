import TweetNacl.Drng

/-!
# The initialisation of the hardware generator

Threads call the public functions of the module. The thread that moves `drng_init_state` from 0 to 1
runs the self-test before it publishes the source, and the self-test comes back to `drng_init`.
-/

namespace TweetNacl.Drng

open TweetNacl.Core Threads Machine

section Calls

/-- The public functions that initialise the module, and `drng_init` itself. -/
inductive InitCall where
  | init
  | available
  | support
  | implementationName
  | fill (len : UInt64)
deriving DecidableEq, Repr

/-- The public functions. -/
inductive Call where
  | initialising (c : InitCall)
  | isInitialized
  | selftestStatus
  | totalBytes
  | reset
deriving DecidableEq, Repr

/-- The program of a call that initialises, without its result. -/
def InitCall.body (p : Platform) : InitCall → Program Unit
  | .init => drngInit p
  | .available => do let _ ← randombytesDrngAvailable p
  | .support => do let _ ← drngGetDrngSupport p
  | .implementationName => do let _ ← randombytesImplementationName p
  | .fill len => do let _ ← randombytesDrngFill p len

/-- The program of a call, without its result. -/
def Call.body (p : Platform) : Call → Program Unit
  | .initialising c => c.body p
  | .isInitialized => do let _ ← drngIsInitializedPublic
  | .selftestStatus => do let _ ← drngGetPowerUpSelftestStatus
  | .totalBytes => do let _ ← drngGetTotalBytesGenerated
  | .reset => drngResetForTesting

end Calls

section Discipline

variable {A : Option UInt64 → Prop} {p : Platform} {α : Type}

/-- A program that leaves the lock alone. -/
abbrev Quiet (A : Option UInt64 → Prop) (x : Prog State (Option UInt64) α) : Prop :=
  x.Disciplined State.drngInitState A false

/-- Marking a failure leaves the initialization state alone. -/
theorem quiet_markFailure : Quiet A drngMarkFailure := fun _ => .inl ⟨rfl, fun _ => .inl ⟨rfl, rfl⟩⟩

/-- A retry loop over a quiet instruction is quiet. -/
theorem quiet_retry {step : Program (Option UInt64)} (hstep : Quiet A step) (n : ℕ) :
    Quiet A (retry step n) := by
  induction n with
  | zero => rfl
  | succ n ih =>
    refine hstep.bind fun v => ?_
    cases v with
    | none => exact ih
    | some v => rfl

/-- Turning a word into bytes is quiet if the read is. -/
theorem quiet_bytes64 {read : Program (Option UInt64)} (hread : Quiet A read) :
    Quiet A (bytes64 read) :=
  hread.bind fun _ => rfl

/-- The 32-bit read of the tail is quiet. -/
theorem quiet_bytes32 : Quiet A bytes32 :=
  Prog.Disciplined.bind (Prog.Disciplined.bind Prog.Disciplined.answer fun _ => rfl) fun _ => rfl

/-- A chunk of a fill is quiet if its read and what follows are. -/
theorem quiet_fillChunk {read : Program (Option (List UInt8))} (hread : Quiet A read)
    (len offset count : UInt64) (ws : List Write)
    {next : UInt64 → List Write → Program (Int32 × List Write)}
    (hnext : ∀ offset ws, Quiet A (next offset ws)) :
    Quiet A (fillChunk read len offset count ws next) := by
  refine hread.bind fun val => ?_
  cases val with
  | none => exact quiet_markFailure.bind fun _ => rfl
  | some val =>
    simp only []
    split
    · rfl
    · exact hnext _ _

/-- The word loop is quiet if its read and what follows are. -/
theorem quiet_fillWords {read : Program (Option UInt64)} (hread : Quiet A read)
    (len offset : UInt64) (ws : List Write)
    {next : UInt64 → List Write → Program (Int32 × List Write)}
    (hnext : ∀ offset ws, Quiet A (next offset ws)) :
    Quiet A (fillWords read len offset ws next) := by
  induction offset, ws using fillWords.induct len with
  | case1 offset ws hle ih =>
    rw [fillWords, if_pos hle]
    refine (quiet_bytes64 hread).bind fun val => ?_
    cases val with
    | none => exact quiet_markFailure.bind fun _ => rfl
    | some val =>
      simp only []
      split
      · rfl
      · rename_i hlt
        exact ih val hlt
  | case2 offset ws hle =>
    rw [fillWords, if_neg hle]
    exact hnext offset ws

/-- The statistics at the end of a fill are quiet. -/
theorem quiet_fillStatistics (len : UInt64) (ws : List Write) : Quiet A (fillStatistics len ws) :=
  fun _ => .inl ⟨rfl, fun _ => .inl ⟨rfl, rfl⟩⟩

/-- The tail of a fill is quiet. -/
theorem quiet_fillTail {read : Program (Option (List UInt8))} (hread : Quiet A read)
    (len offset : UInt64) (ws : List Write) : Quiet A (fillTail read len offset ws) := by
  rw [fillTail]
  split
  · exact quiet_fillChunk hread _ _ _ _ fun _ _ => quiet_fillStatistics _ _
  · exact quiet_fillStatistics _ _

/-- The retry loop of either x86 source is quiet. -/
theorem quiet_selectedRetry (impl : RngImpl) :
    Quiet A (if impl = .rdseed then rdseed64Retry else rdrand64Retry) := by
  split
  · exact quiet_retry Prog.Disciplined.answer _
  · exact quiet_retry Prog.Disciplined.answer _

/-- A fill from the selected source is quiet on every platform. -/
theorem quiet_fillFrom (p : Platform) (impl : RngImpl) (len : UInt64) :
    Quiet A (fillFrom p impl len) := by
  cases p with
  | x86 =>
    refine quiet_fillWords (quiet_selectedRetry impl) _ _ _ fun offset ws => ?_
    split
    · exact quiet_fillChunk quiet_bytes32 _ _ _ _ fun _ _ => quiet_fillTail quiet_bytes32 _ _ _
    · exact quiet_fillTail quiet_bytes32 _ _ _
  | arm => exact quiet_fillWords Prog.Disciplined.answer _ _ _ fun _ _ =>
      quiet_fillTail (quiet_bytes64 Prog.Disciplined.answer) _ _ _
  | other => rfl

/-- A fill is quiet if its initialization is. -/
theorem quiet_drngFill {init : Program Unit} (hinit : Quiet A init) (len : UInt64) :
    Quiet A (drngFill p init len) := by
  refine Prog.Disciplined.get.bind fun s => ?_
  simp only []
  split
  · exact hinit.bind fun _ => Prog.Disciplined.get.bind fun _ => quiet_fillFrom _ _ _
  · exact quiet_fillFrom _ _ _

/-- The health test is quiet. -/
theorem quiet_healthTest (buf : List UInt8) : Quiet A (drngContinuousHealthTest buf) := by
  rw [drngContinuousHealthTest]
  split_ifs
  · rfl
  · exact quiet_markFailure.bind fun _ => rfl
  · exact quiet_markFailure.bind fun _ => rfl
  · exact fun _ => .inl ⟨rfl, rfl⟩

/-- Publishing the source releases the state that the thread had taken. -/
theorem disciplined_publishSource (chosen : RngImpl) :
    (publishSource chosen).Disciplined State.drngInitState A true :=
  fun _ hs => .inl ⟨hs, fun _ hs => .inl ⟨hs, fun _ _ => .inr ⟨rfl, rfl⟩⟩⟩

/-- A thread that finds no source opens the lock without the self-test. -/
theorem disciplined_drngInitWith (init : Program Unit) :
    Quiet (· = none) (drngInitWith p init) := by
  refine Prog.Disciplined.get.bind fun s => ?_
  split
  · rfl
  · intro s
    by_cases hs : s.drngInitState = .fresh
    · refine .inr ⟨hs, by simp only [if_pos hs], ?_⟩
      simp only [hs]
      cases p with
      | arm =>
        rintro r rfl
        exact disciplined_publishSource .none
      | _ => exact disciplined_publishSource .none
    · refine .inl ⟨by simp only [if_neg hs], ?_⟩
      simp only [hs]
      exact ⟨rfl, rfl⟩

/-- A whole call of `drng_init` takes the state and gives it back. -/
theorem quiet_drngInit : Quiet (· = none) (drngInit p) := disciplined_drngInitWith _

/-- A call that makes sure of the initialization is quiet. -/
theorem quiet_ensureInit : Quiet (· = none) (ensureInit p) := by
  refine Prog.Disciplined.get.bind fun s => ?_
  split
  · exact quiet_drngInit.bind fun _ => Prog.Disciplined.get.bind fun _ => rfl
  · exact Prog.Disciplined.get.bind fun _ => rfl

/-- The public fill is quiet. -/
theorem quiet_randombytesDrngFill (len : UInt64) :
    Quiet (· = none) (randombytesDrngFill p len) := by
  refine Prog.Disciplined.get.bind fun s => ?_
  split
  · rfl
  · refine quiet_ensureInit.bind fun impl => ?_
    split
    · rfl
    · refine Prog.Disciplined.bind ?_ fun goesOn => ?_
      · refine Prog.Disciplined.get.bind fun s => ?_
        simp only []
        split
        · refine (quiet_drngFill quiet_drngInit 32).bind fun (ret, ws) => ?_
          simp only []
          split
          · exact (quiet_healthTest _).bind fun _ => rfl
          · rfl
        · rfl
      · split
        · exact quiet_drngFill quiet_drngInit len
        · rfl

/-- Every public call is quiet. -/
theorem quiet_body (c : Call) : Quiet (· = none) (c.body p) := by
  cases c with
  | initialising c =>
    cases c with
    | init => exact quiet_drngInit
    | fill len => exact (quiet_randombytesDrngFill len).bind fun _ => rfl
    | _ =>
      refine Prog.Disciplined.bind (Prog.Disciplined.bind quiet_ensureInit fun _ => ?_) fun _ => ?_
      · rfl
      · rfl
  | isInitialized => exact fun _ => .inl ⟨rfl, rfl⟩
  | selftestStatus => exact fun _ => .inl ⟨rfl, rfl⟩
  | totalBytes => exact fun _ => .inl ⟨rfl, rfl⟩
  | reset => exact fun _ => .inl ⟨rfl, fun _ => .inl ⟨rfl, fun _ => .inl ⟨rfl, fun _ =>
    .inl ⟨rfl, fun _ =>
      .inl ⟨rfl, rfl⟩⟩⟩⟩⟩

end Discipline

section SelfWait

variable {δ : Type}

/-- The module before any thread has called it. -/
def System.initial : System δ State (Option UInt64) where
  shared := State.initial
  prog _ := .pure ()
  owner := none

/-- The variables after an initialisation that has found no source. -/
def State.withoutSource (s : State) : State :=
  { s with rngImpl := .none, initialized := true, drngInitState := .complete }

variable {h : Hardware} {s : State}

/-- The first thread takes the initialization. -/
theorem exec_takeInitState_fresh (hs : s.drngInitState = .fresh) :
    takeInitState.exec s h = some (true, { s with drngInitState := .running }, h) := by
  change some (decide _, ite _ _ _, h) = _
  rw [if_pos hs, decide_eq_true hs]

/-- A later thread finds it taken and leaves the state alone. -/
theorem exec_takeInitState_of_ne (hs : s.drngInitState ≠ .fresh) :
    takeInitState.exec s h = some (false, s, h) := by
  change some (decide _, ite _ _ _, h) = _
  rw [if_neg hs, decide_eq_false hs]

/-- A call of `drng_init` while the lock is taken. -/
theorem exec_drngInitWith_taken (p : Platform) (init : Program Unit) (hinit : s.initialized = false)
    (hs : s.drngInitState ≠ .fresh) :
    (drngInitWith p init).exec s h = if s.drngInitState = .complete then some ((), s, h)
      else none := by
  simp only [drngInitWith, Prog.exec_bind, Prog.exec_get, Option.bind_some, hinit,
    Bool.false_eq_true, if_false, exec_takeInitState_of_ne hs]
  change (if decide _ = true then _ else _) = _
  simp only [decide_eq_true_eq]
  rfl

/-- On an initialized module the initialization returns at once. -/
theorem exec_drngInitWith_of_initialized (p : Platform) (init : Program Unit)
    (hinit : s.initialized = true) :
    (drngInitWith p init).exec s h = some ((), s, h) := by
  simp only [drngInitWith, Prog.exec_bind, Prog.exec_get, Option.bind_some, hinit, if_true]
  rfl

/-- The same for `drng_init` itself. -/
theorem exec_drngInit_of_initialized (p : Platform) (hinit : s.initialized = true) :
    (drngInit p).exec s h = some ((), s, h) := exec_drngInitWith_of_initialized p _ hinit

/-- A call that takes the lock. -/
theorem exec_drngInitWith_fresh (p : Platform) (init : Program Unit) (hinit : s.initialized = false)
    (hs : s.drngInitState = .fresh) :
    (drngInitWith p init).exec s h =
      ((chooseSource p).exec { s with drngInitState := .running } h).bind fun r =>
        ((testSource p init r.1).exec r.2.1 r.2.2).bind fun r =>
        (publishSource r.1).exec r.2.1 r.2.2 := by
  simp only [drngInitWith, Prog.exec_bind, Prog.exec_get, Option.bind_some, hinit,
    Bool.false_eq_true, if_false, exec_takeInitState_fresh hs, if_true]

/-- A call that takes the lock and finds no source. -/
theorem exec_drngInitWith_withoutSource {p : Platform} (init : Program Unit)
    (hinit : s.initialized = false) (hs : s.drngInitState = .fresh) {h' : Hardware}
    (hsource : ∀ s, (chooseSource p).exec s h = some (RngImpl.none, s, h')) :
    (drngInitWith p init).exec s h = some ((), s.withoutSource, h') := by
  rw [exec_drngInitWith_fresh p init hinit hs, hsource]
  rfl

/-- The self-test of a source that is not published yet waits for its own thread. -/
theorem exec_testSource_arm (init : Program Unit) {chosen : RngImpl} (hchosen : chosen ≠ .none)
    (hinit : s.initialized = false) (himpl : s.rngImpl = .none) (hs : s.drngInitState = .running) :
    (testSource .arm (drngInitWith .arm init) chosen).exec s h = none := by
  have hvalues : (selftestValues .arm chosen).exec s h = some (some (0, 1), s, h) := rfl
  have hwait : (drngInitWith .arm init).exec s h = none := by
    rw [exec_drngInitWith_taken .arm init hinit (by rw [hs]; decide), hs]
    rfl
  have hfill : (drngFill .arm (drngInitWith .arm init) 64).exec s h = none := by
    simp only [drngFill, Prog.exec_bind, Prog.exec_get, Option.bind_some, himpl, if_true, hwait,
      Option.bind_none]
  have hselftest : (drngPowerUpSelftest .arm (drngFill .arm (drngInitWith .arm init)) chosen).exec s
      h = none := by
    simp only [drngPowerUpSelftest, Prog.exec_bind, hvalues, Option.bind_some, reduceCtorEq,
      false_and, if_false, hfill, Option.bind_none]
  simp only [testSource, if_neg hchosen, Prog.exec_bind, hselftest, Option.bind_none]

/-- On ARM the probe takes one answer and selects the instruction if there is one. -/
theorem exec_chooseSource_arm : (chooseSource .arm).exec s h =
    some (if h.head.isSome then .armRndr else .none, s, h.tail) := rfl

/-- The first call of `drng_init` returns exactly if the hardware does not answer the first attempt
to read. -/
theorem exec_drngInit_arm (hinit : s.initialized = false) (himpl : s.rngImpl = .none)
    (hs : s.drngInitState = .fresh) :
    (drngInit .arm).exec s h = if h.head = none then some ((), s.withoutSource, h.tail)
      else none := by
  cases hhead : h.head with
  | none =>
    refine exec_drngInitWith_withoutSource _ hinit hs fun s => ?_
    rw [exec_chooseSource_arm, hhead]
    rfl
  | some v =>
    change (drngInitWith .arm (drngInitWith .arm .stuck)).exec s h = none
    have hsource : (chooseSource .arm).exec { s with drngInitState := .running } h =
        some (.armRndr, { s with drngInitState := .running }, h.tail) := by
      rw [exec_chooseSource_arm, hhead]
      rfl
    have hselftest : (testSource .arm (drngInitWith .arm .stuck) .armRndr).exec
        { s with drngInitState := .running } h.tail = none :=
        exec_testSource_arm .stuck (by decide) hinit himpl rfl
    rw [exec_drngInitWith_fresh .arm _ hinit hs, hsource, Option.bind_some]
    rw [hselftest, Option.bind_none]

/-- Without a source a call returns what the initialization selected. -/
theorem exec_ensureInit_none (p : Platform) (himpl : s.rngImpl = .none) :
    (ensureInit p).exec s h = ((drngInit p).exec s h).map fun r =>
      (r.2.1.rngImpl, r.2.1, r.2.2) := by
  simp only [ensureInit, Prog.exec_bind, Prog.exec_get, Option.bind_some, himpl, if_true]
  cases (drngInit p).exec s h with
  | none => rfl
  | some r => rfl

/-- A fill that finds no source. -/
theorem exec_randombytesDrngFill_of_none {p : Platform} {len : UInt64} {s' : State} {h' : Hardware}
    (hfailure : s.catastrophicFailure = false)
    (hensure : (ensureInit p).exec s h = some (.none, s', h')) :
    (randombytesDrngFill p len).exec s h = some ((-1, []), s', h') := by
  simp only [randombytesDrngFill, Prog.exec_bind, Prog.exec_get, Option.bind_some, hfailure,
    Bool.false_eq_true, if_false, hensure, if_true]
  rfl

/-- A first call by a single thread returns exactly if the first attempt to read fails. -/
theorem exec_body_initial (c : InitCall) : ((c.body .arm).exec State.initial h).isSome ↔
    h.head = none := by
  have hensure : (ensureInit .arm).exec State.initial h =
      if h.head = none then some (.none, State.initial.withoutSource, h.tail) else none := by
    rw [exec_ensureInit_none .arm rfl, exec_drngInit_arm rfl rfl rfl]
    split_ifs
    · rfl
    · rfl
  cases c with
  | init =>
    rw [InitCall.body, exec_drngInit_arm rfl rfl rfl]
    split_ifs with hhead
    · exact ⟨fun _ => hhead, fun _ => rfl⟩
    · exact ⟨fun h => (by cases h), fun h => absurd h hhead⟩
  | fill len =>
    have hfailure : State.initial.catastrophicFailure = false := rfl
    simp only [InitCall.body, randombytesDrngFill, Prog.exec_bind, Prog.exec_get,
      Option.bind_some, hfailure, Bool.false_eq_true, if_false, hensure]
    split_ifs with hhead
    · exact ⟨fun _ => hhead, fun _ => rfl⟩
    · exact ⟨fun h => (by cases h), fun h => absurd h hhead⟩
  | _ =>
    simp only [InitCall.body, randombytesDrngAvailable, drngGetDrngSupport,
      randombytesImplementationName, Prog.exec_bind, hensure]
    split_ifs with hhead
    · exact ⟨fun _ => hhead, fun _ => rfl⟩
    · exact ⟨fun h => (by cases h), fun h => absurd h hhead⟩

variable [DecidableEq δ]

/-- The system of threads that call the public functions of an ARM build. -/
abbrev armNext : System δ State (Option UInt64) → δ × Event Call (Option UInt64) →
    Unit × System δ State (Option UInt64) :=
  System.next State.drngInitState (Call.body .arm)

omit [DecidableEq δ] in
/-- No thread of the initial system has taken the state. -/
theorem disciplined_initial :
    (System.initial (δ := δ)).Disciplined State.drngInitState (· = none) := fun _ =>
  ⟨fun h => (by cases h.1), fun _ => rfl⟩

/-- Where the hardware answers no attempt to read of the thread that initialises, this thread never
waits for itself, whatever the threads call and in whatever order they run; and a first call by a
single thread returns exactly if the first attempt fails. -/
theorem drngInit_not_selfWaits (es : List (δ × Event Call (Option UInt64))) (c : InitCall)
    (h : Hardware) :
    (EachStep armNext (OwnerAnswers State.drngInitState (· = none)) System.initial es →
      EachState armNext (fun S => ¬ S.SelfWaits State.drngInitState) System.initial es) ∧
    (((c.body .arm).exec State.initial h).isSome ↔ h.head = none) :=
  ⟨eachState_not_selfWaits disciplined_initial quiet_body, exec_body_initial c⟩

/-- Two threads call `randombytes_drng_available` where the hardware does not answer. -/
def unansweredRun : List (Bool × Event Call (Option UInt64)) :=
  [(true, .call (.initialising .available)), (false, .call (.initialising .available))] ++
    List.replicate 9 (true, .step none) ++ List.replicate 9 (false, .step none)

/-- The run in which the hardware never answers: no thread waits for itself and the call returns. -/
theorem unansweredRun_not_selfWaits :
    EachState armNext (fun S => ¬ S.SelfWaits State.drngInitState) System.initial unansweredRun ∧
      ((InitCall.available.body .arm).exec State.initial (Stream'.const none)).isSome := by
  obtain ⟨hrun, halone⟩ := drngInit_not_selfWaits unansweredRun .available (Stream'.const none)
  refine ⟨hrun (EachStep.of_forall_mem fun S e he _ _ r hr => ?_), halone.mpr rfl⟩
  simp only [unansweredRun, List.mem_append, List.mem_cons, List.mem_replicate, List.not_mem_nil,
    or_false] at he
  obtain ((rfl | rfl) | ⟨-, rfl⟩) | ⟨-, rfl⟩ := he
  · cases hr
  · cases hr
  · cases hr
    rfl
  · cases hr
    rfl

/-- The steps of one thread that calls `randombytes_drng_available` where the hardware answers. -/
def selfWaitingRun : List (Unit × Event Call (Option UInt64)) :=
  ((), .call (.initialising .available)) :: List.replicate 7 ((), .step (some 0))

/-- A thread whose first attempt to read succeeds waits for itself, and its call does not return. -/
theorem drngInit_selfWaits :
    (run armNext System.initial selfWaitingRun).SelfWaits State.drngInitState ∧
      ((InitCall.available.body .arm).exec State.initial (Stream'.const (some 0))).isSome = false :=
  ⟨⟨(), ⟨rfl, rfl⟩, _, _, rfl⟩, rfl⟩

end SelfWait

section Depth

variable {p : Platform} {s : State} {h : Hardware}

/-- The self-test sees the inner initialization only through its result. -/
theorem exec_testSource_congr {init init' : Program Unit} {chosen : RngImpl}
    (hvalues : chosen ≠ .none → ∃ r, (selftestValues p chosen).exec s h = some (r, s, h))
    (hinit : init.exec s h = init'.exec s h) :
    (testSource p init chosen).exec s h = (testSource p init' chosen).exec s h := by
  by_cases hchosen : chosen = .none
  · rw [testSource, testSource, if_pos hchosen, if_pos hchosen]
  · obtain ⟨r, hr⟩ := hvalues hchosen
    have hfill : ∀ len, (drngFill p init len).exec s h = (drngFill p init' len).exec s h :=
        fun len => by
      simp only [drngFill, Prog.exec_bind, Prog.exec_get, Option.bind_some]
      split
      · simp only [Prog.exec_bind, hinit]
      · rfl
    simp only [testSource, if_neg hchosen, drngPowerUpSelftest, Prog.exec_bind, hr,
      Option.bind_some]
    cases r with
    | none => rfl
    | some vals =>
      simp only []
      split
      · rfl
      · simp only [Prog.exec_bind, hfill]

/-- The recursion of `drng_init` goes no deeper than the depth it is given. -/
theorem exec_drngInitDepth (p : Platform) (depth : ℕ) (s : State) (h : Hardware) :
    (drngInitDepth p (depth + 2)).exec s h = (drngInit p).exec s h := by
  change (drngInitWith p (drngInitWith p (drngInitDepth p depth))).exec s h =
    (drngInitWith p (drngInitWith p .stuck)).exec s h
  by_cases hinit : s.initialized = true
  · rw [exec_drngInitWith_of_initialized p _ hinit, exec_drngInitWith_of_initialized p _ hinit]
  rw [Bool.not_eq_true] at hinit
  by_cases hs : s.drngInitState = .fresh
  · rw [exec_drngInitWith_fresh p _ hinit hs, exec_drngInitWith_fresh p _ hinit hs]
    have hinner : ∀ h, (drngInitWith p (drngInitDepth p depth)).exec
        { s with drngInitState := .running } h =
          (drngInitWith p .stuck).exec { s with drngInitState := .running } h := fun h => by
      obtain ⟨s₁, hs₁⟩ : ∃ s₁ : State, s₁ = { s with drngInitState := .running } := ⟨_, rfl⟩
      have hinit₁ : s₁.initialized = false := by rw [hs₁, hinit]
      have hrunning : s₁.drngInitState ≠ .fresh := by rw [hs₁]; exact Phase.noConfusion
      rw [← hs₁, exec_drngInitWith_taken p _ hinit₁ hrunning,
        exec_drngInitWith_taken p _ hinit₁ hrunning]
    cases p with
    | arm =>
      rw [exec_chooseSource_arm, Option.bind_some, Option.bind_some]
      rw [exec_testSource_congr (fun _ => ⟨_, rfl⟩) (hinner h.tail)]
    | _ => rfl
  · rw [exec_drngInitWith_taken p _ hinit hs, exec_drngInitWith_taken p _ hinit hs]

end Depth

section Reset

variable {p : Platform} {s s' : State} {h h' : Hardware}

/-- A completed `drng_init` leaves `drng_init_state` at 2. -/
theorem complete_of_exec_drngInit (hs : s.initialized = true → s.drngInitState = .complete)
    (hexec : (drngInit p).exec s h = some ((), s', h')) : s'.drngInitState = .complete := by
  change (drngInitWith p _).exec s h = some ((), s', h') at hexec
  by_cases hinit : s.initialized = true
  · rw [exec_drngInitWith_of_initialized p _ hinit] at hexec
    cases hexec
    exact hs hinit
  rw [Bool.not_eq_true] at hinit
  by_cases hfresh : s.drngInitState = .fresh
  · rw [exec_drngInitWith_fresh p _ hinit hfresh] at hexec
    obtain ⟨_, -, hexec⟩ := Option.bind_eq_some_iff.mp hexec
    obtain ⟨_, -, hexec⟩ := Option.bind_eq_some_iff.mp hexec
    cases hexec
    rfl
  · rw [exec_drngInitWith_taken p _ hinit hfresh] at hexec
    split at hexec
    · rename_i hcomplete
      cases hexec
      exact hcomplete
    · cases hexec

/-- It stays there whatever is called. -/
theorem complete_of_exec_body (c : Call) (hs : s.drngInitState = .complete)
    (hexec : (c.body p).exec s h = some ((), s', h')) : s'.drngInitState = .complete :=
  (quiet_body c).complete_of_exec hs hexec

/-- After `drng_reset_for_testing` the call initialises the module, as it does the first time. -/
def ResetRestores (p : Platform) (s : State) (c : InitCall) (h : Hardware) : Prop :=
  ∃ s₁ s' h', drngResetForTesting.exec s h = some ((), s₁, h) ∧
    (c.body p).exec s₁ h = some ((), s', h') ∧
    drngIsInitializedPublic.exec s' h' = some (1, s', h') ∧
    ∃ first, (c.body p).exec State.initial h = some ((), first, h') ∧ s'.rngImpl = first.rngImpl ∧
      s'.powerUpSelftestPassed = first.powerUpSelftestPassed

/-- The variables after `drng_reset_for_testing`. -/
def State.afterReset (s : State) : State :=
  { s with initialized := false, powerUpSelftestPassed := false, healthTestCount := 0,
           totalBytesGenerated := 0, rngImpl := .none }

/-- The reset runs and gives the state after a reset. -/
theorem exec_drngResetForTesting : drngResetForTesting.exec s h = some ((), s.afterReset, h) := rfl

/-- A call in the state that it leaves goes through the wait loop and changes nothing. -/
theorem exec_body_of_complete (c : InitCall) (hinit : s.initialized = false)
    (himpl : s.rngImpl = .none) (hs : s.drngInitState = .complete) :
    (c.body p).exec s h = some ((), s, h) := by
  have hinitCall : (drngInit p).exec s h = some ((), s, h) := by
    refine (exec_drngInitWith_taken p _ hinit ?_).trans (if_pos hs)
    rw [hs]
    exact Phase.noConfusion
  have hensure : (ensureInit p).exec s h = some (.none, s, h) := by
    rw [exec_ensureInit_none p himpl, hinitCall, Option.map_some, himpl]
  cases c with
  | init => exact hinitCall
  | fill len =>
    simp only [InitCall.body, randombytesDrngFill, Prog.exec_bind, Prog.exec_get, Option.bind_some]
    split
    · rfl
    · simp only [Prog.exec_bind, hensure, Option.bind_some, if_true]
      rfl
  | _ =>
    simp only [InitCall.body, randombytesDrngAvailable, drngGetDrngSupport,
      randombytesImplementationName, Prog.exec_bind, hensure]
    rfl

/-- `drng_reset_for_testing` leaves `drng_init_state` as it is, and the next call initialises
nothing. -/
theorem not_resetRestores (p : Platform) (s : State) (hs : s.drngInitState = .complete)
    (c : InitCall) (h : Hardware) : ¬ ResetRestores p s c h := by
  rintro ⟨s₁, s', h', hreset, hbody, hinit, -⟩
  rw [exec_drngResetForTesting] at hreset
  obtain rfl : s.afterReset = s₁ := congrArg (fun r => r.2.1) (Option.some.inj hreset)
  rw [exec_body_of_complete (s := s.afterReset) c rfl rfl hs] at hbody
  cases hbody
  cases hinit

/-- The reset on a module that ended without a source. -/
theorem not_resetRestores_withoutSource :
    ¬ ResetRestores .x86 State.initial.withoutSource .available (Stream'.const none) :=
  not_resetRestores .x86 State.initial.withoutSource rfl .available (Stream'.const none)

/-- The module initialised, reset and asked again is not initialised. -/
theorem drngInit_not_restored :
    ∃ s h', (drngInit .x86).exec State.initial (Stream'.const none) = some ((), s, h') ∧
      ¬ ResetRestores .x86 s .available h' := by
  refine ⟨_, _, rfl, ?_⟩
  rintro ⟨s₁, s', h', hreset, hbody, hinit, -⟩
  cases hreset
  cases hbody
  cases hinit

end Reset

end TweetNacl.Drng
