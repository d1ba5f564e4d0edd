import TweetNacl.DrngUnused
import TweetNacl.RandomBytes

/-!
# Where the random bytes come from

The hardware generator refuses every call. What `randombytes_safe` returns and stores is then the
work of the operating system alone: the initialisation, the counter and the self-test of every
hundredth call leave no trace in it.
-/

namespace TweetNacl.RandomBytes

open TweetNacl.Core Drng Threads Machine

section Refusing

variable {σ : Type} {b : Build} {drngFill : Source σ} {T : σ → Prop} {s : Variables × σ} {t : σ}

/-- In the states `T`, which it does not leave, the source stores nothing and returns −1, if it
returns. -/
def Refuses (drngFill : Source σ) (T : σ → Prop) : Prop :=
  ∀ len t r, T t → drngFill len t = some r → r.1 = (-1, []) ∧ T r.2

/-- In the states `T` the source returns, if the build has it. -/
def Returns (b : Build) (drngFill : Source σ) (T : σ → Prop) : Prop :=
  b.withDrng = true → ∀ len t, T t → (drngFill len t).isSome

/-- What `randombytes_safe` comes to with the operating system alone. -/
def osResult (b : Build) (call : Call) : Result :=
  if call.null ∨ call.len = 0 then .error naclErrorInvalidParam [] []
  else osFill b call.len call.os []

/-- Probing the source keeps to the states in which it refuses. -/
theorem Refuses.probe (h : Refuses drngFill T) (ht : T t) {t' : σ}
    (hprobe : probe b drngFill t = some t') : T t' := by
  rw [RandomBytes.probe] at hprobe
  split at hprobe
  · obtain ⟨r, hr, rfl⟩ := Option.map_eq_some_iff.mp hprobe
    exact (h 16 t r ht hr).2
  · cases hprobe
    exact ht

/-- Entering the module keeps to them. -/
theorem Refuses.entered (h : Refuses drngFill T) (hs : T s.2) {s' : Variables × σ}
    (hentered : entered b drngFill s = some s') : T s'.2 := by
  obtain ⟨t, ht, rfl⟩ := Option.map_eq_some_iff.mp hentered
  split at ht
  · cases ht
    exact hs
  · exact h.probe hs ht

/-- The self-test rejects a source that refuses, and a buffer that no source has filled. -/
theorem Refuses.selftest (h : Refuses drngFill T) (ht : T t) {r : Int32 × σ}
    (hr : randombytesSelftestQuick b drngFill 16 t = some r) : r.1 ≠ naclSuccess ∧ T r.2 := by
  rw [randombytesSelftestQuick, if_neg (by decide)] at hr
  obtain ⟨⟨⟨ret, ws⟩, t'⟩, hsample, hr⟩ := Option.bind_eq_some_iff.mp hr
  rw [selftestSample] at hsample
  split at hsample
  · obtain ⟨hrefused, ht'⟩ := h 16 t _ ht hsample
    cases hrefused
    cases hr
    exact ⟨show naclErrorRngFailure ≠ naclSuccess by decide, ht'⟩
  · cases hsample
    cases hr
    exact ⟨show naclErrorCatastrophicFailure ≠ naclSuccess by decide, ht⟩

/-- The periodic self-test keeps to them. -/
theorem Refuses.periodicSelftest (h : Refuses drngFill T) (hs : T s.2) {r : Int32 × Variables × σ}
    (hr : periodicSelftest b drngFill s = some r) : T r.2.2 := by
  rw [periodicSelftest_eq] at hr
  obtain ⟨r', hselftest, hr⟩ := Option.bind_eq_some_iff.mp hr
  obtain ⟨hne, ht⟩ := h.selftest hs hselftest
  rw [if_pos hne] at hr
  obtain ⟨t, hprobe, rfl⟩ := Option.map_eq_some_iff.mp hr
  exact h.probe ht hprobe

/-- A fill keeps to them and takes its bytes from the operating system. -/
theorem Refuses.fillBuffer (h : Refuses drngFill T) (hs : T s.2) {len : UInt64} {os : Os}
    {r : Result × Variables × σ} (hr : fillBuffer b drngFill len os s = some r) :
    r.1 = osFill b len os [] ∧ T r.2.2 := by
  rw [RandomBytes.fillBuffer] at hr
  split at hr
  · obtain ⟨⟨⟨ret, ws⟩, t⟩, hfill, hr⟩ := Option.bind_eq_some_iff.mp hr
    obtain ⟨hrefused, ht⟩ := h len s.2 _ hs hfill
    cases hrefused
    cases hr
    exact ⟨rfl, ht⟩
  · cases hr
    exact ⟨rfl, hs⟩

/-- A call returns what the operating system makes of it. -/
theorem Refuses.randombytesSafe (h : Refuses drngFill T) (hs : T s.2) {call : Call}
    {r : Result × Variables × σ}
    (hr : randombytesSafe b drngFill call.null call.len call.os s = some r) :
    r.1 = osResult b call ∧ T r.2.2 := by
  rw [osResult]
  by_cases hparam : call.null ∨ call.len = 0
  · rw [RandomBytes.randombytesSafe, if_pos hparam] at hr
    cases hr
    exact ⟨(if_pos hparam).symm, hs⟩
  · rw [if_neg hparam]
    obtain ⟨hnull, hlen⟩ := not_or.mp hparam
    rw [randombytesSafe_eq (Bool.eq_false_iff.mpr hnull) hlen] at hr
    obtain ⟨s₁, hentered, hr⟩ := Option.bind_eq_some_iff.mp hr
    have hs₁ := h.entered hs hentered
    split at hr
    · obtain ⟨r', hselftest, hr⟩ := Option.bind_eq_some_iff.mp hr
      exact h.fillBuffer (h.periodicSelftest hs₁ hselftest) hr
    · exact h.fillBuffer hs₁ hr

/-- Probing a source that returns comes to an end. -/
theorem Returns.probe (h : Returns b drngFill T) (ht : T t) : (probe b drngFill t).isSome := by
  rw [RandomBytes.probe]
  split
  · rename_i hdrng
    rw [Option.isSome_map]
    exact h hdrng 16 t ht
  · rfl

/-- The self-test on a source that returns comes to an end. -/
theorem Returns.selftest (h : Returns b drngFill T) (ht : T t) :
    (randombytesSelftestQuick b drngFill 16 t).isSome := by
  have hsample : (selftestSample b drngFill t).isSome := by
    rw [selftestSample]
    split
    · rename_i hdrng
      exact h hdrng 16 t ht
    · rfl
  obtain ⟨⟨⟨ret, ws⟩, t'⟩, hsample⟩ := Option.isSome_iff_exists.mp hsample
  rw [randombytesSelftestQuick, if_neg (by decide), hsample]
  simp only [Option.bind_eq_bind, Option.bind_some]
  split_ifs <;> rfl

/-- A fill on a source that returns comes to an end. -/
theorem Returns.fillBuffer (h : Returns b drngFill T) (hs : T s.2) (len : UInt64) (os : Os) :
    (fillBuffer b drngFill len os s).isSome := by
  rw [RandomBytes.fillBuffer]
  split
  · rename_i hdrng
    obtain ⟨⟨⟨ret, ws⟩, t⟩, hfill⟩ := Option.isSome_iff_exists.mp (h hdrng len s.2 hs)
    rw [hfill]
    simp only [Option.bind_eq_bind, Option.bind_some]
    split_ifs <;> rfl
  · rfl

/-- A call returns if the source does. -/
theorem Returns.randombytesSafe (h : Returns b drngFill T) (hrefuses : Refuses drngFill T)
    (hs : T s.2) (call : Call) :
    (randombytesSafe b drngFill call.null call.len call.os s).isSome := by
  by_cases hparam : call.null ∨ call.len = 0
  · rw [RandomBytes.randombytesSafe, if_pos hparam]
    rfl
  · obtain ⟨hnull, hlen⟩ := not_or.mp hparam
    rw [randombytesSafe_eq (Bool.eq_false_iff.mpr hnull) hlen]
    obtain ⟨s₁, hentered⟩ : ∃ s₁, entered b drngFill s = some s₁ := by
      rw [← Option.isSome_iff_exists, entered, Option.isSome_map]
      split
      · rfl
      · exact h.probe hs
    have hs₁ := hrefuses.entered hs hentered
    rw [hentered, Option.bind_some]
    split
    · obtain ⟨r, hselftest⟩ := Option.isSome_iff_exists.mp (h.selftest hs₁)
      obtain ⟨hne, ht⟩ := hrefuses.selftest hs₁ hselftest
      obtain ⟨t, hprobe⟩ := Option.isSome_iff_exists.mp (h.probe ht)
      rw [periodicSelftest_eq, hselftest, Option.bind_some, if_pos hne, hprobe, Option.map_some,
        Option.bind_some]
      exact h.fillBuffer (hrefuses.probe ht hprobe) _ _
    · exact h.fillBuffer hs₁ _ _

/-- A call keeps to the states in which the source refuses. -/
theorem Refuses.keeps_step (h : Refuses drngFill T) (hs : T s.2) (call : Call) :
    T (step b drngFill s call).2.2 := by
  rw [RandomBytes.step]
  cases hr : RandomBytes.randombytesSafe b drngFill call.null call.len call.os s with
  | none => exact hs
  | some r => exact (h.randombytesSafe hs hr).2

/-- Any sequence of calls keeps to them. -/
theorem Refuses.keeps_run (h : Refuses drngFill T) (hs : T s.2) (calls : List Call) :
    T (run (step b drngFill) s calls).2 := by
  induction calls generalizing s with
  | nil => exact hs
  | cons call calls ih => exact ih (h.keeps_step hs call)

end Refusing

section Hardware

variable {p : Platform} {s : State} {h : Hardware}

/-- The generator as a single thread finds it between its calls. -/
def Idle (t : State × Hardware) : Prop := Inv none t.1

/-- Between calls the hardware generator refuses, on every platform. -/
theorem hardware_refuses (p : Platform) : Refuses (hardware p) Idle := by
  intro len t r ht hr
  obtain ⟨held, ⟨hheld, hret⟩, hs⟩ := (guarded_randombytesDrngFill len).post ht hr
  cases hheld
  exact ⟨hret, hs⟩

/-- Away from ARM `drng_init` returns, for a thread by itself. -/
theorem exec_drngInit_isSome (hp : p ≠ .arm) (hs : Inv none s) :
    ((drngInit p).exec s h).isSome := by
  by_cases hinit : s.initialized = true
  · rw [exec_drngInit_of_initialized p hinit]
    rfl
  · rw [Bool.not_eq_true] at hinit
    by_cases hfresh : s.drngInitState = .fresh
    · have hsource : ∀ s, (chooseSource p).exec s h = some (RngImpl.none, s, h) := fun s => by
        cases p with
        | arm => exact absurd rfl hp
        | _ => rfl
      have hexec : (drngInit p).exec s h = some ((), s.withoutSource, h) :=
        exec_drngInitWith_withoutSource _ hinit hfresh hsource
      rw [hexec]
      rfl
    · have hcomplete : s.drngInitState = .complete := by
        cases hstate : s.drngInitState with
        | fresh => exact absurd hstate hfresh
        | running => exact absurd hstate hs.2.1
        | complete => rfl
      have hexec : (drngInit p).exec s h = some ((), s, h) := by
        refine (exec_drngInitWith_taken p _ hinit hfresh).trans ?_
        rw [if_pos hcomplete]
      rw [hexec]
      rfl

/-- It returns in every build that does not ask it on ARM. -/
theorem hardware_returns {b : Build} (hp : b.withDrng = true → p ≠ .arm) :
    Returns b (hardware p) Idle := by
  intro hdrng len t ht
  obtain ⟨s, h⟩ := t
  obtain ⟨⟨u, s', h'⟩, hinit⟩ :=
    Option.isSome_iff_exists.mp (exec_drngInit_isSome (h := h) (hp hdrng) ht)
  have hensure : (ensureInit p).exec s h = some (s'.rngImpl, s', h') := by
    rw [exec_ensureInit_none p ht.1.rngImpl_eq, hinit]
    rfl
  obtain ⟨held, ⟨-, himpl⟩, -⟩ := guarded_ensureInit.post (show Inv none s from ht) hensure
  rw [himpl] at hensure
  rw [hardware, exec_randombytesDrngFill_of_none ht.1.failure_eq hensure]
  rfl

/-- After any calls of `randombytes_safe`, in any build and whatever the hardware answers, a call
that returns has the result, the stores and the requests of the operating system branch alone; and
it returns, except that a build with `WITH_DRNG` and `HAS_ARM_RNG` may wait. -/
theorem randombytesSafe_is_os (b : Build) (p : Platform) (h : Hardware) (calls : List Call)
    (call : Call) :
    let s := run (step b (hardware p)) (initial h) calls
    (∀ r, (step b (hardware p) s call).1 = some r → r = osResult b call) ∧
      ((b.withDrng = true → p ≠ .arm) →
        (step b (hardware p) s call).1 = some (osResult b call)) := by
  intro s
  have hidle : Idle s.2 := (hardware_refuses p).keeps_run (s := initial h)
    ⟨⟨rfl, rfl, rfl, rfl, rfl⟩, Phase.noConfusion, fun _ => rfl⟩ calls
  have hresult : ∀ r, (step b (hardware p) s call).1 = some r → r = osResult b call :=
      fun r hr => by
    rw [step] at hr
    cases hcall : randombytesSafe b (hardware p) call.null call.len call.os s with
    | none =>
      rw [hcall] at hr
      cases hr
    | some r' =>
      rw [hcall] at hr
      cases hr
      exact ((hardware_refuses p).randombytesSafe hidle hcall).1
  refine ⟨hresult, fun hp => ?_⟩
  obtain ⟨r, hcall⟩ := Option.isSome_iff_exists.mp
    ((hardware_returns hp).randombytesSafe (hardware_refuses p) hidle call)
  have hstep : (step b (hardware p) s call).1 = some r.1 := by rw [step, hcall]
  rw [hstep, hresult r.1 hstep]

end Hardware

end TweetNacl.RandomBytes
