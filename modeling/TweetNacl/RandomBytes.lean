import TweetNacl.DrngFill
import TweetNacl.DrngInit

/-!
# The random bytes of the library

`randombytes_safe` asks the hardware generator first and the operating system after it. The hardware
generator is a parameter, with variables of its own; what the operating system answers is an input
of the call. A call keeps the stores to the buffer of the caller, with the source they come from.
-/

namespace TweetNacl.RandomBytes

open TweetNacl.Core Drng Threads Machine

section Code

/-- `NACL_ERROR_INVALID_PARAM`. -/
def naclErrorInvalidParam : Int32 := -1

/-- `NACL_ERROR_BUFFER_TOO_SMALL`. -/
def naclErrorBufferTooSmall : Int32 := -2

/-- `NACL_ERROR_RNG_FAILURE`. -/
def naclErrorRngFailure : Int32 := -5

/-- The build: `WITH_DRNG` and `_WIN32`. -/
structure Build where
  withDrng : Bool
  windows : Bool
deriving DecidableEq, Repr

/-- The variables of the module. -/
structure Variables where
  randombytesInitialized : Bool
  randombytesCallCount : UInt64
deriving DecidableEq, Repr

/-- `_randombytes_drng_fill`: what it returns, stores and leaves, if it returns. -/
abbrev Source (σ : Type) := UInt64 → σ → Option ((Int32 × List Write) × σ)

variable {σ : Type} (b : Build) (drngFill : Source σ)

/-- `randombytes_init`. It succeeds whatever the hardware answers. -/
def randombytesInit (s : Variables × σ) : Option (Int32 × Variables × σ) :=
  if s.1.randombytesInitialized then some (naclSuccess, s)
  else do
    let (_, t) ← if b.withDrng then drngFill 16 s.2 else some ((-1, []), s.2)
    some (naclSuccess, { s.1 with randombytesInitialized := true }, t)

/-- The automatic initialisation at the entry of `randombytes_safe`. -/
def autoInit (s : Variables × σ) : Option (Int32 × Variables × σ) :=
  if s.1.randombytesInitialized then some (naclSuccess, s) else randombytesInit b drngFill s

/-- The sample of the self-test. Without the hardware the buffer stays zero. -/
def selftestSample (t : σ) : Option ((Int32 × List Write) × σ) :=
  if b.withDrng then drngFill 16 t else some ((0, []), t)

/-- `randombytes_selftest_quick`. -/
def randombytesSelftestQuick (len : UInt64) (t : σ) : Option (Int32 × σ) :=
  if len < 16 then some (naclErrorBufferTooSmall, t)
  else do
    let ((ret, ws), t) ← selftestSample b drngFill t
    if ret ≠ 0 then some (naclErrorRngFailure, t)
    else if Stuck ((ws.foldl store (List.replicate len.toNat 0)).take 16)
      then some (naclErrorCatastrophicFailure, t)
    else some (naclSuccess, t)

/-- The self-test of every hundredth call. -/
def periodicSelftest (s : Variables × σ) : Option (Int32 × Variables × σ) := do
  let (ret, t) ← randombytesSelftestQuick b drngFill 16 s.2
  if ret ≠ naclSuccess then do
    let (ret, s) ← randombytesInit b drngFill ({ s.1 with randombytesInitialized := false }, t)
    if ret ≠ naclSuccess then some (naclErrorRngFailure, s) else some (naclSuccess, s)
  else some (naclSuccess, s.1, t)

/-- What `read` answers: an error, which is `EINTR` or another one, or bytes, none of them at the
end of the file. -/
inductive ReadResult where
  | error (eintr : Bool)
  | bytes (data : List UInt8)

/-- What the operating system answers in a call: the status of `BCryptOpenAlgorithmProvider`, the
status of `BCryptGenRandom` and the bytes it fills, whether `open` succeeds, whether `fstat` does
and finds a character device, and the results of `read`. -/
structure Os where
  openAlgorithm : Int32
  genRandom : Int32 × (ℕ → UInt8)
  openDevice : Bool
  charDevice : Option Bool
  reads : List ReadResult

/-- Where bytes come from. -/
inductive Origin where
  | hardware
  | os
deriving DecidableEq, Repr

/-- A request to `read`. -/
structure Request where
  offset : UInt64
  count : UInt64
deriving DecidableEq, Repr

/-- What a call returns, if it does; the stores to the buffer, the requests to `read`, and the
source with which it has succeeded. -/
structure Result where
  ret : Option Int32
  writes : List (Origin × Write)
  requests : List Request
  succeeded : Option Origin

/-- A return with an error. -/
def Result.error (ret : Int32) (writes : List (Origin × Write))
    (requests : List Request) : Result :=
  ⟨some ret, writes, requests, none⟩

/-- The loop over `/dev/urandom`. It goes on waiting when there are no more results. -/
def readLoop (len : UInt64) : List ReadResult → UInt64 → List (Origin × Write) →
    List Request → Result
  | results, totalRead, writes, requests =>
    if totalRead < len then
      let requests := requests ++ [⟨totalRead, len - totalRead⟩]
      match results with
      | [] => ⟨none, writes, requests, none⟩
      | .error eintr :: results =>
        if eintr then readLoop len results totalRead writes requests
        else .error naclErrorRngFailure writes requests
      | .bytes data :: results =>
        -- `read` stores no more than it has been asked for
        let data := data.take (len - totalRead).toNat
        if data = [] then .error naclErrorRngFailure writes requests
        else readLoop len results (totalRead + UInt64.ofNat data.length)
          (writes ++ [(.os, ⟨totalRead, data⟩)]) requests
    else ⟨some naclSuccess, writes, requests, some .os⟩

/-- The branch for the operating system, after what the hardware has stored. -/
def osFill (len : UInt64) (os : Os) (writes : List (Origin × Write)) : Result :=
  if b.windows then
    if os.openAlgorithm ≠ 0 then .error naclErrorRngFailure writes []
    else if os.genRandom.1 ≠ 0 then .error naclErrorRngFailure writes []
    else
      let count := len.toUInt32
      ⟨some naclSuccess, writes ++ [(.os, ⟨0, (List.range count.toNat).map os.genRandom.2⟩)],
        [], some .os⟩
  else if ¬ os.openDevice then .error naclErrorRngFailure writes []
  else if os.charDevice = some false then .error naclErrorRngFailure writes []
  else readLoop len os.reads 0 writes []

/-- The filling of the buffer, the hardware first. -/
def fillBuffer (len : UInt64) (os : Os) (s : Variables × σ) : Option (Result × Variables × σ) :=
  if b.withDrng then do
    let ((ret, ws), t) ← drngFill len s.2
    let writes := ws.map fun w => (Origin.hardware, w)
    if ret = 0 then some (⟨some naclSuccess, writes, [], some .hardware⟩, s.1, t)
    else some (osFill b len os writes, s.1, t)
  else some (osFill b len os [], s)

/-- `randombytes_safe`. -/
def randombytesSafe (null : Bool) (len : UInt64) (os : Os) (s : Variables × σ) :
    Option (Result × Variables × σ) :=
  if null ∨ len = 0 then some (.error naclErrorInvalidParam [] [], s)
  else do
    let (ret, s) ← autoInit b drngFill s
    if ret ≠ naclSuccess then some (.error ret [] [], s)
    else
      let s := ({ s.1 with randombytesCallCount := s.1.randombytesCallCount + 1 }, s.2)
      if s.1.randombytesCallCount % 100 = 0 then do
        let (ret, s) ← periodicSelftest b drngFill s
        if ret ≠ naclSuccess then some (.error ret [] [], s) else fillBuffer b drngFill len os s
      else fillBuffer b drngFill len os s

end Code

section Calls

variable {σ : Type} (b : Build) (drngFill : Source σ)

/-- A call of `randombytes_safe`. -/
structure Call where
  null : Bool
  len : UInt64
  os : Os

/-- What a call returns, if it does, and the variables it leaves. -/
def step (s : Variables × σ) (call : Call) : Option Result × Variables × σ :=
  match randombytesSafe b drngFill call.null call.len call.os s with
  | some (r, s') => (some r, s')
  | none => (none, s)

/-- The attempt of `randombytes_init` to use the hardware. -/
def probe (t : σ) : Option σ := if b.withDrng then (drngFill 16 t).map Prod.snd else some t

/-- The variables after the entry of a call: initialised, and with the call counted. -/
def entered (s : Variables × σ) : Option (Variables × σ) :=
  (if s.1.randombytesInitialized then some s.2 else probe b drngFill s.2).map fun t =>
    (⟨true, s.1.randombytesCallCount + 1⟩, t)

variable {b} {drngFill} {s : Variables × σ} {call : Call}

/-- The initialization probes the source once and never fails. -/
theorem randombytesInit_eq (s : Variables × σ) : randombytesInit b drngFill s =
    if s.1.randombytesInitialized then some (naclSuccess, s)
    else (probe b drngFill s.2).map fun t =>
      (naclSuccess, { s.1 with randombytesInitialized := true }, t) := by
  rw [randombytesInit, probe]
  split_ifs with hinit hdrng
  · rfl
  · cases drngFill 16 s.2 with
    | none => rfl
    | some r => rfl
  · rfl

/-- A self-test that fails is followed by another probe. -/
theorem periodicSelftest_eq (s : Variables × σ) : periodicSelftest b drngFill s =
    (randombytesSelftestQuick b drngFill 16 s.2).bind fun r =>
      if r.1 ≠ naclSuccess then (probe b drngFill r.2).map fun t =>
        (naclSuccess, { s.1 with randombytesInitialized := true }, t)
      else some (naclSuccess, s.1, r.2) := by
  rw [periodicSelftest]
  refine congrArg _ (funext fun (ret, t) => ?_)
  by_cases hret : ret ≠ naclSuccess
  · simp only [if_pos hret, randombytesInit_eq, Bool.false_eq_true, if_false]
    cases probe b drngFill t with
    | none => rfl
    | some t => rfl
  · simp only [if_neg hret]

/-- The self-test goes on whatever it finds. -/
theorem periodicSelftest_ret {r : Int32 × Variables × σ}
    (hr : periodicSelftest b drngFill s = some r) :
    r.1 = naclSuccess := by
  rw [periodicSelftest_eq] at hr
  obtain ⟨⟨ret, t⟩, -, hr⟩ := Option.bind_eq_some_iff.mp hr
  split at hr
  · obtain ⟨t, -, rfl⟩ := Option.map_eq_some_iff.mp hr
    rfl
  · cases hr
    rfl

/-- A call with a buffer: the entry, the self-test where it is due, and the filling. -/
theorem randombytesSafe_eq {null : Bool} {len : UInt64} (hnull : null = false)
    (hlen : len ≠ 0) (os : Os) (s : Variables × σ) : randombytesSafe b drngFill null len os s =
      (entered b drngFill s).bind fun s =>
        if s.1.randombytesCallCount % 100 = 0 then
          (periodicSelftest b drngFill s).bind fun r => fillBuffer b drngFill len os r.2
        else fillBuffer b drngFill len os s := by
  have hentry : autoInit b drngFill s =
      (if s.1.randombytesInitialized then some s.2 else probe b drngFill s.2).map fun t =>
        (naclSuccess, ⟨true, s.1.randombytesCallCount⟩, t) := by
    rw [autoInit, randombytesInit_eq]
    split_ifs with hinit
    · rw [Option.map_some, ← hinit]
    · rfl
  have hskip : ∀ s, ((periodicSelftest b drngFill s).bind fun r =>
      if r.1 ≠ naclSuccess then some (.error r.1 [] [], r.2) else fillBuffer b drngFill
        len os r.2) =
      (periodicSelftest b drngFill s).bind fun r => fillBuffer b drngFill len os r.2 := fun s => by
    refine Option.bind_congr fun r hr => ?_
    rw [if_neg (not_not.mpr (periodicSelftest_ret hr))]
  rw [randombytesSafe,
    if_neg (by simp only [hnull, hlen, Bool.false_eq_true, or_self, not_false_iff]),
    hentry, entered]
  cases (if s.1.randombytesInitialized then some s.2 else probe b drngFill s.2) with
  | none => rfl
  | some t =>
    simp only [Option.map_some, Option.bind_some, ← hskip]
    rfl

end Calls

section Fallback

variable {σ : Type} (b : Build) (drngFill : Source σ)

/-- The call takes a sample, which the hardware delivers and the self-test rejects; the hardware is
left in state `t`. -/
def SampleRejected (s : Variables × σ) (call : Call) (t : σ) : Prop :=
  call.null = false ∧ call.len ≠ 0 ∧ ∃ s₁ ws, entered b drngFill s = some s₁ ∧
    s₁.1.randombytesCallCount % 100 = 0 ∧
    drngFill 16 s₁.2 = some ((0, ws), t) ∧ Stuck ((ws.foldl store (List.replicate 16 0)).take 16)

/-- A call that succeeds after its sample has been rejected succeeds with the operating system. -/
def FallsBack (s : Variables × σ) (call : Call) : Prop :=
  ∀ t, SampleRejected b drngFill s call t →
    ∀ r, (step b drngFill s call).1 = some r → r.ret = some naclSuccess → r.succeeded = some .os

/-- The hardware fills the buffer after its sample has been rejected. -/
def FillsRejected (s : Variables × σ) (call : Call) : Prop :=
  ∃ t t' ws u, SampleRejected b drngFill s call t ∧ probe b drngFill t = some t' ∧
    drngFill call.len t' = some ((0, ws), u)

variable {b} {drngFill}

/-- The loop over `/dev/urandom` succeeds with bytes of the operating system. -/
theorem readLoop_succeeded (len : UInt64) (results : List ReadResult) (totalRead : UInt64)
    (writes : List (Origin × Write)) (requests : List Request)
    (hret : (readLoop len results totalRead writes requests).ret = some naclSuccess) :
    (readLoop len results totalRead writes requests).succeeded = some .os := by
  induction results generalizing totalRead writes requests with
  | nil =>
    rw [readLoop] at hret ⊢
    by_cases hlt : totalRead < len
    · rw [if_pos hlt] at hret
      cases hret
    · rw [if_neg hlt]
  | cons result results ih =>
    rw [readLoop] at hret ⊢
    by_cases hlt : totalRead < len
    · rw [if_pos hlt] at hret ⊢
      cases result with
      | error eintr =>
        cases eintr with
        | false => cases hret
        | true => exact ih _ _ _ hret
      | bytes data =>
        dsimp only at hret ⊢
        split_ifs at hret ⊢ with hdata
        · cases hret
        · exact ih _ _ _ hret
    · rw [if_neg hlt]

/-- So does the operating system branch. -/
theorem osFill_succeeded {len : UInt64} {os : Os} {writes : List (Origin × Write)}
    (hret : (osFill b len os writes).ret = some naclSuccess) :
    (osFill b len os writes).succeeded = some .os := by
  rw [osFill] at hret ⊢
  split_ifs at hret ⊢
  all_goals first
    | rfl
    | exact readLoop_succeeded _ _ _ _ _ hret
    | cases hret

/-- A call whose sample has been rejected goes on to the buffer all the same. -/
theorem randombytesSafe_of_rejected {s : Variables × σ} {call : Call} {t : σ}
    (hrejected : SampleRejected b drngFill s call t) (hdrng : b.withDrng = true) :
    ∃ v, randombytesSafe b drngFill call.null call.len call.os s =
      (probe b drngFill t).bind fun t => fillBuffer b drngFill call.len call.os (v, t) := by
  obtain ⟨hnull, hlen, s₁, ws, hentered, hdue, hsample, hstuck⟩ := hrejected
  have hselftest : randombytesSelftestQuick b drngFill 16 s₁.2 =
      some (naclErrorCatastrophicFailure, t) := by
    rw [randombytesSelftestQuick, if_neg (by decide), selftestSample, if_pos hdrng, hsample]
    exact if_pos hstuck
  refine ⟨{ s₁.1 with randombytesInitialized := true }, ?_⟩
  rw [randombytesSafe_eq hnull hlen, hentered, Option.bind_some, if_pos hdue,
    periodicSelftest_eq, hselftest,
    Option.bind_some, if_pos (show naclErrorCatastrophicFailure ≠ naclSuccess by decide)]
  cases probe b drngFill t with
  | none => rfl
  | some t => rfl

/-- With a hardware source a call falls back exactly if that source does not fill the buffer. -/
theorem fallsBack_iff_of_step {s : Variables × σ} {call : Call} (hdrng : b.withDrng = true) :
    FallsBack b drngFill s call ↔ ¬ FillsRejected b drngFill s call := by
  refine ⟨fun hfalls ⟨t, t', ws, u, hrejected, hprobe, hfill⟩ => ?_,
    fun hrefuses t hrejected r hr hret => ?_⟩
  · obtain ⟨v, hcall⟩ := randombytesSafe_of_rejected hrejected hdrng
    rw [hprobe, Option.bind_some, fillBuffer, if_pos hdrng, hfill] at hcall
    have hstep : (step b drngFill s call).1 =
        some ⟨some naclSuccess, ws.map fun w => (Origin.hardware, w), [], some .hardware⟩ := by
      rw [step, hcall]
      rfl
    cases hfalls t hrejected _ hstep rfl
  · obtain ⟨v, hcall⟩ := randombytesSafe_of_rejected hrejected hdrng
    rw [step, hcall] at hr
    cases hprobe : probe b drngFill t with
    | none =>
      rw [hprobe] at hr
      cases hr
    | some t' =>
      rw [hprobe, Option.bind_some, fillBuffer, if_pos hdrng] at hr
      cases hfill : drngFill call.len t' with
      | none =>
        rw [hfill] at hr
        cases hr
      | some result =>
        obtain ⟨⟨ret, ws⟩, u⟩ := result
        have hne : ret ≠ 0 :=
          fun hzero => hrefuses ⟨t, t', ws, u, hrejected, hprobe, by rw [hfill, hzero]⟩
        simp only [hfill, Option.bind_eq_bind, Option.bind_some, if_neg hne] at hr
        cases hr
        exact osFill_succeeded hret

/-- Along every run, the calls fall back to the operating system exactly if on no call the hardware
fills the buffer after its sample has been rejected. -/
theorem eachStep_fallsBack_iff (windows : Bool) (drngFill : Source σ) (s : Variables × σ)
    (calls : List Call) :
    EachStep (step ⟨true, windows⟩ drngFill) (FallsBack ⟨true, windows⟩ drngFill) s calls ↔
      EachStep (step ⟨true, windows⟩ drngFill)
      (fun s call => ¬ FillsRejected ⟨true, windows⟩ drngFill s call) s calls :=
  eachStep_congr fun _ _ => fallsBack_iff_of_step rfl

/-- A generator that is stuck at zero. -/
def stuckSource : Source Unit := fun len t => some ((0, [⟨0, List.replicate len.toNat 0⟩]), t)

/-- An operating system on which nothing succeeds. -/
def Os.unavailable : Os := ⟨-1, (-1, fun _ => 0), false, none, []⟩

/-- Storing a run of one byte over itself. -/
theorem store_replicate (n : ℕ) (x : UInt8) :
    store (List.replicate n x) ⟨0, List.replicate n x⟩ = List.replicate n x := by
  simp [store]

/-- On the hundredth call the sample of a stuck generator is rejected, and its bytes are
delivered. -/
theorem stuckSource_not_fallsBack :
    ¬ EachStep (step ⟨true, false⟩ stuckSource) (FallsBack ⟨true, false⟩ stuckSource)
      (⟨true, 99⟩, ()) [⟨false, 1, .unavailable⟩] := by
  rintro ⟨hfalls, -⟩
  have hstuck : Stuck ((store (List.replicate 16 0) ⟨0, List.replicate 16 0⟩).take 16) := by
    rw [store_replicate]
    exact .inl fun b hb => List.eq_of_mem_replicate (List.mem_of_mem_take hb)
  have hrejected : SampleRejected ⟨true, false⟩ stuckSource (⟨true, 99⟩, ())
      ⟨false, 1, .unavailable⟩ () :=
    ⟨rfl, by decide, (⟨true, 100⟩, ()), _, rfl, rfl, rfl, hstuck⟩
  -- the 16 bytes of the rejected sample are not the ones that the call delivers
  have hstep : (step ⟨true, false⟩ stuckSource (⟨true, 99⟩, ()) ⟨false, 1, .unavailable⟩).1 =
      some ⟨some naclSuccess, [(.hardware, ⟨0, [0]⟩)], [], some .hardware⟩ := by
    obtain ⟨v, hsafe⟩ := randombytesSafe_of_rejected hrejected rfl
    rw [step, hsafe]
    rfl
  cases hfalls () hrejected _ hstep rfl

end Fallback

section Filled

/-- The hardware generator of a platform, as a source. -/
def hardware (p : Platform) : Source (State × Hardware) :=
  fun len t => (randombytesDrngFill p len).exec t.1 t.2

/-- The variables before the first call. -/
def initial (h : Hardware) : Variables × State × Hardware := (⟨false, 0⟩, State.initial, h)

/-- The last stores of the call come from the source with which it has succeeded, and write every
byte of the buffer, in order and without a gap. -/
def Complete (len : UInt64) (r : Result) : Prop :=
  ∃ origin before ws, r.succeeded = some origin ∧
    r.writes = before ++ ws.map (fun w => (origin, w)) ∧
    Covers 0 ws len.toNat

/-- A call that succeeds has filled the buffer, and no request to `read` leaves it. -/
def Filled (len : UInt64) (r : Result) : Prop :=
  (r.ret = some naclSuccess → Complete len r) ∧
    ∀ q ∈ r.requests, q.offset.toNat + q.count.toNat ≤ len.toNat

/-- Every call with a buffer of `len` bytes does, after every history of calls. -/
def AlwaysFills (b : Build) (p : Platform) (len : UInt64) : Prop :=
  ∀ h history os r,
    (step b (hardware p) (run (step b (hardware p)) (initial h) history) ⟨false, len, os⟩).1 =
    some r →
    Filled len r

/-- A call that fails without a request has nothing to fill. -/
theorem filled_error (len : UInt64) {ret : Int32} (hret : ret ≠ naclSuccess)
    (writes : List (Origin × Write)) :
    Filled len (.error ret writes []) :=
  ⟨fun h => absurd (Option.some.inj h) hret, fun q hq => by cases hq⟩

/-- A call that fails with requests inside the buffer has nothing else to fill. -/
theorem filled_failure {len : UInt64} {writes : List (Origin × Write)} {requests : List Request}
    (hrequests : ∀ q ∈ requests, q.offset.toNat + q.count.toNat ≤ len.toNat) :
    Filled len (.error naclErrorRngFailure writes requests) :=
  ⟨fun h => absurd (Option.some.inj h) (by decide), hrequests⟩

/-- The state of the loop over `/dev/urandom`: what has been read is stored, and no request leaves
the buffer. -/
structure Reading (len totalRead : UInt64) (ws : List Write) (requests : List Request) : Prop where
  le : totalRead ≤ len
  covers : Covers 0 ws totalRead.toNat
  within : ∀ q ∈ requests, q.offset.toNat + q.count.toNat ≤ len.toNat

section Reading

variable {len totalRead : UInt64} {ws : List Write} {requests : List Request}

/-- The next request stays inside the buffer. -/
theorem Reading.request (h : Reading len totalRead ws requests) :
    Reading len totalRead ws (requests ++ [⟨totalRead, len - totalRead⟩]) where
  le := h.le
  covers := h.covers
  within q hq := by
    have hle := UInt64.le_iff_toNat_le.mp h.le
    have hsub := UInt64.toNat_sub_of_le _ _ h.le
    obtain hq | hq := List.mem_append.mp hq
    · exact h.within q hq
    · cases List.mem_singleton.mp hq
      dsimp only
      omega

/-- One successful `read`, of no more than the loop has asked for. -/
theorem Reading.read (h : Reading len totalRead ws requests) {data : List UInt8}
    (hdata : data.length ≤ (len - totalRead).toNat) :
    Reading len (totalRead + UInt64.ofNat data.length) (ws ++ [⟨totalRead, data⟩]) requests := by
  have hle := UInt64.le_iff_toNat_le.mp h.le
  rw [UInt64.toNat_sub_of_le _ _ h.le] at hdata
  have hlen := len.toNat_lt
  have hnext : (totalRead + UInt64.ofNat data.length).toNat = totalRead.toNat + data.length := by
    rw [UInt64.toNat_add, UInt64.toNat_ofNat_of_lt' (show data.length < 2 ^ 64 by omega),
      Nat.mod_eq_of_lt (by omega)]
  refine ⟨UInt64.le_iff_toNat_le.mpr (by omega), ?_, h.within⟩
  rw [hnext]
  exact h.covers.concat rfl

/-- When the loop ends the buffer is full. -/
theorem Reading.filled (h : Reading len totalRead ws requests) (hdone : ¬ totalRead < len)
    (before : List (Origin × Write)) :
    Filled len ⟨some naclSuccess, before ++ ws.map fun w => (.os, w), requests, some .os⟩ := by
  have hlen : totalRead = len := UInt64.le_antisymm h.le (UInt64.not_lt.mp hdone)
  exact ⟨fun _ => ⟨.os, before, ws, rfl, rfl, hlen ▸ h.covers⟩, h.within⟩

/-- A further write of the operating system goes to the end of the list. -/
theorem concat_map_os (before : List (Origin × Write)) (ws : List Write) (w : Write) :
    (before ++ ws.map fun w => (Origin.os, w)) ++ [(.os, w)] = before ++ (ws ++ [w]).map fun w =>
      (.os, w) := by
  rw [List.map_append, List.append_assoc]
  rfl

/-- The loop fills the buffer before it succeeds, whatever `read` answers. -/
theorem Reading.filled_readLoop (h : Reading len totalRead ws requests) (results : List ReadResult)
    (before : List (Origin × Write)) :
    Filled len (readLoop len results totalRead (before ++ ws.map fun w => (.os, w)) requests) := by
  induction results generalizing totalRead ws requests with
  | nil =>
    rw [readLoop]
    split
    · exact ⟨fun hret => (by cases hret), h.request.within⟩
    · exact h.filled ‹_› before
  | cons result results ih =>
    rw [readLoop]
    split
    · cases result with
      | error eintr =>
        cases eintr with
        | false => exact filled_failure h.request.within
        | true => exact ih h.request
      | bytes data =>
        dsimp only
        split
        · exact filled_failure h.request.within
        · rw [concat_map_os]
          exact ih (h.request.read (List.length_take_le _ data))
    · exact h.filled ‹_› before

end Reading

variable {b : Build} {p : Platform} {len : UInt64}

/-- The branch for the operating system fills the buffer, on Windows up to a length of 2^32. -/
theorem filled_osFill (hwindows : b.windows = true → len.toNat < 2 ^ 32) (os : Os)
    (writes : List (Origin × Write)) :
    Filled len (osFill b len os writes) := by
  have hfailure : Filled len (.error naclErrorRngFailure writes []) :=
    filled_error len (by decide) writes
  rw [osFill]
  split_ifs with hw hopen hgen hdevice hchar
  · exact hfailure
  · exact hfailure
  · refine ⟨fun _ => ⟨.os, writes, [⟨0, _⟩], rfl, rfl, rfl, ?_⟩, fun q hq => by cases hq⟩
    rw [Covers, List.length_map, List.length_range, UInt64.toNat_toUInt32,
      Nat.mod_eq_of_lt (hwindows hw), Nat.zero_add]
  · exact hfailure
  · have hreading : Reading len 0 [] [] :=
      ⟨UInt64.le_iff_toNat_le.mpr (Nat.zero_le _), rfl, fun q hq => by cases hq⟩
    have hfilled := hreading.filled_readLoop os.reads writes
    rwa [List.map_nil, List.append_nil] at hfilled
  · exact hfailure

/-- A fill fills, if the length survives the conversion on Windows. -/
theorem filled_fillBuffer (hwindows : b.windows = true → len.toNat < 2 ^ 32) (os : Os)
    {s s' : Variables × State × Hardware} {r : Result}
    (hr : fillBuffer b (hardware p) len os s = some (r, s')) : Filled len r := by
  rw [fillBuffer] at hr
  split at hr
  · obtain ⟨⟨⟨ret, ws⟩, t⟩, hexec, hr⟩ := Option.bind_eq_some_iff.mp hr
    dsimp only at hr
    split at hr
    · rename_i hret
      subst hret
      cases hr
      exact ⟨fun _ => ⟨.hardware, [], ws, rfl, rfl, covers_of_exec hexec⟩, fun q hq => by cases hq⟩
    · cases hr
      exact filled_osFill hwindows os _
  · cases hr
    exact filled_osFill hwindows os []

/-- A call fills, if the length survives the conversion on Windows. -/
theorem filled_step (hwindows : b.windows = true → len.toNat < 2 ^ 32)
    (s : Variables × State × Hardware) (os : Os)
    {r : Result} (hr : (step b (hardware p) s ⟨false, len, os⟩).1 = some r) : Filled len r := by
  rw [step] at hr
  by_cases hlen : len = 0
  · rw [randombytesSafe, if_pos (Or.inr hlen)] at hr
    cases hr
    exact filled_error len (by decide) []
  rw [randombytesSafe_eq rfl hlen] at hr
  split at hr
  · rename_i r' s' hcall
    cases hr
    obtain ⟨s₁, -, hcall⟩ := Option.bind_eq_some_iff.mp hcall
    split at hcall
    · obtain ⟨s₂, -, hcall⟩ := Option.bind_eq_some_iff.mp hcall
      exact filled_fillBuffer hwindows os hcall
    · exact filled_fillBuffer hwindows os hcall
  · cases hr

/-- A store of fewer bytes than the buffer has does not complete it. -/
theorem not_complete_single {w : Write} (hw : w.bytes.length < len.toNat) {r : Result}
    (hwrites : r.writes = [(.os, w)]) : ¬ Complete len r := by
  rintro ⟨origin, before, ws, -, hws, hcovers⟩
  rw [hwrites] at hws
  have hstop := hcovers.stop_eq
  have hlength := congrArg List.length hws
  rw [List.length_append, List.length_map, List.length_singleton] at hlength
  cases ws with
  | nil =>
    rw [List.map_nil, List.sum_nil] at hstop
    omega
  | cons v ws =>
    obtain rfl : ws = [] :=
      List.eq_nil_of_length_eq_zero (by rw [List.length_cons] at hlength; omega)
    obtain rfl : before = [] :=
      List.eq_nil_of_length_eq_zero (by rw [List.length_singleton] at hlength; omega)
    cases hws
    rw [List.map_singleton, List.sum_singleton] at hstop
    omega

/-- Hardware that does not answer. -/
def silent : Hardware := Stream'.const none

/-- A Windows on which `BCryptGenRandom` fills what it is asked for. -/
def Os.windows : Os := { Os.unavailable with openAlgorithm := 0, genRandom := (0, fun _ => 0) }

/-- With hardware that never answers the initialization finds no source. -/
theorem exec_ensureInit_silent (p : Platform) :
    ∃ h, (ensureInit p).exec State.initial silent =
      some (.none, State.initial.withoutSource, h) := by
  have hsource : ∃ h, ∀ s, (chooseSource p).exec s silent = some (RngImpl.none, s, h) := by
    cases p with
    | arm => exact ⟨silent.tail, fun s => rfl⟩
    | _ => exact ⟨silent, fun s => rfl⟩
  obtain ⟨h, hsource⟩ := hsource
  have hinit : (drngInit p).exec State.initial silent = some ((), State.initial.withoutSource, h) :=
    exec_drngInitWith_withoutSource _ rfl rfl hsource
  exact ⟨h, by rw [exec_ensureInit_none p rfl, hinit]; rfl⟩

/-- Where the hardware does not answer the first call, no call gets bytes from it. -/
theorem hardware_silent (p : Platform) :
    ∃ t, ∀ len, hardware p len (State.initial, silent) = some ((-1, []), t) ∧
      hardware p len t = some ((-1, []), t) := by
  obtain ⟨h, hensure⟩ := exec_ensureInit_silent p
  refine ⟨(State.initial.withoutSource, h), fun len => ⟨?_, ?_⟩⟩
  · exact exec_randombytesDrngFill_of_none rfl hensure
  · refine exec_randombytesDrngFill_of_none rfl ?_
    rw [exec_ensureInit_none p rfl, exec_drngInit_of_initialized p rfl]
    rfl

/-- The first call on a Windows whose hardware does not answer. -/
theorem step_silent (hwindows : b.windows = true) (p : Platform) (hlen : len ≠ 0) :
    ∃ r, (step b (hardware p) (initial silent) ⟨false, len, .windows⟩).1 = some r ∧
      r.ret = some naclSuccess ∧
      r.writes = [(.os, ⟨0, (List.range len.toUInt32.toNat).map fun _ => 0⟩)] := by
  obtain ⟨t, hsilent⟩ := hardware_silent p
  have hcall : ∃ t', randombytesSafe b (hardware p) false len .windows (initial silent) =
      some (osFill b len .windows [], ⟨true, 1⟩, t') := by
    have hdue : ¬ (0 + 1 : UInt64) % 100 = 0 := by decide
    rw [randombytesSafe_eq rfl hlen, entered, initial, if_neg Bool.false_ne_true, probe]
    by_cases hdrng : b.withDrng = true
    · rw [if_pos hdrng, (hsilent 16).1, Option.map_some, Option.map_some, Option.bind_some]
      dsimp only
      rw [if_neg hdue, fillBuffer, if_pos hdrng, (hsilent len).2]
      exact ⟨t, rfl⟩
    · rw [if_neg hdrng, Option.map_some, Option.bind_some]
      dsimp only
      rw [if_neg hdue, fillBuffer, if_neg hdrng]
      exact ⟨_, rfl⟩
  obtain ⟨t', hcall⟩ := hcall
  refine ⟨osFill b len .windows [], by rw [step, hcall], ?_⟩
  rw [osFill, if_pos hwindows]
  exact ⟨rfl, rfl⟩

/-- Every call that succeeds has filled its buffer exactly if the build is not for Windows or the
length fits into the 32 bits of the count of `BCryptGenRandom`. -/
theorem alwaysFills_iff (b : Build) (p : Platform) (len : UInt64) :
    AlwaysFills b p len ↔ (b.windows = true → len.toNat < 2 ^ 32) := by
  refine ⟨fun hfills hwindows => ?_, fun hwindows h history os r hr => filled_step hwindows _ os hr⟩
  by_contra hlen
  have hne : len ≠ 0 := fun h => hlen (by rw [h]; decide)
  obtain ⟨r, hr, hret, hwrites⟩ := step_silent hwindows p hne
  refine not_complete_single ?_ hwrites ((hfills silent [] .windows r hr).1 hret)
  rw [List.length_map, List.length_range, UInt64.toNat_toUInt32]
  exact lt_of_lt_of_le (Nat.mod_lt _ (by decide)) (not_lt.mp hlen)

/-- At a length of 2^32 `BCryptGenRandom` is asked for no byte at all. -/
theorem not_alwaysFills_windows : ¬ AlwaysFills ⟨true, true⟩ .x86 4294967296 := fun hfills => by
  obtain ⟨r, hr, hret, hwrites⟩ :=
    step_silent (b := ⟨true, true⟩) rfl .x86 (show (4294967296 : UInt64) ≠ 0 by decide)
  exact not_complete_single (by decide) hwrites ((hfills silent [] .windows r hr).1 hret)

end Filled

end TweetNacl.RandomBytes
