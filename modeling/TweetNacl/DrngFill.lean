import TweetNacl.Drng
import TweetNacl.Lib.Machine

/-!
# Filling a buffer from the hardware

`drng_fill` reads a word for every chunk of the buffer, and gives up after a chunk for which the
hardware has not answered within the attempts it gets. What it returns is read off the answers of
the hardware.
-/

namespace TweetNacl.Drng

open TweetNacl.Core Threads Machine

section Hardware

/-- The first answer within a number of attempts, and the answers left. -/
def firstAnswer : ℕ → Hardware → Option UInt64 × Hardware
  | 0, h => (none, h)
  | tries + 1, h =>
    match h.head with
    | some v => (some v, h.tail)
    | none => firstAnswer tries h.tail

/-- Whether the hardware answers every read of a list, given the attempts for each, and the answers
left. -/
def serves : List ℕ → Hardware → Bool × Hardware
  | [], h => (true, h)
  | tries :: reads, h =>
    match firstAnswer tries h with
    | (some _, h) => serves reads h
    | (none, h) => (false, h)

/-- The reads for the last bytes of a buffer of which `left` are left. -/
def tailReads (tries left : ℕ) : List ℕ := if left = 0 then [] else [tries]

/-- The reads of `drng_fill` for a buffer of `len` bytes. -/
def fillReads (p : Platform) (len : ℕ) : List ℕ :=
  match p with
  | .x86 => List.replicate (len / 8) (rdrandRetries + 1) ++
      (if 4 ≤ len % 8 then 1 :: tailReads 1 (len % 4) else tailReads 1 (len % 8))
  | .arm => List.replicate (len / 8) 1 ++ tailReads 1 (len % 8)
  | .other => []

/-- The hardware delivers `len` bytes. Where `offset + 8` can wrap around in the loop, it never
does. -/
def Delivers (p : Platform) (len : UInt64) (h : Hardware) : Prop :=
  p ≠ .other ∧ len.toNat + 8 < 2 ^ 64 ∧ (serves (fillReads p len.toNat) h).1 = true

instance (p : Platform) (len : UInt64) (h : Hardware) : Decidable (Delivers p len h) :=
  inferInstanceAs (Decidable (_ ∧ _ ∧ _))

end Hardware

section Writes

/-- The stores write the bytes from `start` to `stop`, in their order and without a gap. -/
def Covers : ℕ → List Write → ℕ → Prop
  | start, [], stop => start = stop
  | start, w :: ws, stop => w.offset.toNat = start ∧ Covers (start + w.bytes.length) ws stop

/-- Two coverings that meet make one. -/
theorem Covers.append {start mid stop : ℕ} {ws ws' : List Write} (h : Covers start ws mid)
    (h' : Covers mid ws' stop) : Covers start (ws ++ ws') stop := by
  induction ws generalizing start with
  | nil =>
    cases h
    exact h'
  | cons w ws ih => exact ⟨h.1, ih h.2⟩

/-- A write at the end of a covering extends it. -/
theorem Covers.concat {start mid : ℕ} {ws : List Write} {w : Write} (h : Covers start ws mid)
    (hw : w.offset.toNat = mid) : Covers start (ws ++ [w]) (mid + w.bytes.length) :=
  h.append ⟨hw, rfl⟩

/-- A covering ends after as many bytes as its writes have. -/
theorem Covers.stop_eq {start stop : ℕ} {ws : List Write} (h : Covers start ws stop) :
    stop = start + (ws.map fun w => w.bytes.length).sum := by
  induction ws generalizing start with
  | nil => exact h.symm
  | cons w ws ih => rw [ih h.2, List.map_cons, List.sum_cons, Nat.add_assoc]

end Writes

section Fill

variable {len offset count : UInt64} {s s' : State} {h h' : Hardware} {ws : List Write}
  {reads : List ℕ} {tries : ℕ}

/-- The variables after `drng_mark_failure`. -/
def State.markedFailure (s : State) : State :=
  { s with catastrophicFailure := true, powerUpSelftestPassed := false }

/-- The variables after a call of `drng_fill` that succeeds. -/
def State.filled (s : State) (len : UInt64) : State :=
  { s with totalBytesGenerated := s.totalBytesGenerated + len,
           healthTestCount := s.healthTestCount + 1 }

/-- What `drng_fill` returns and leaves, by the answers to the reads it has still to make. -/
def FillEnd (len : UInt64) (s : State) (reads : List ℕ) (h : Hardware) (r : Int32 × List Write)
    (s' : State) (h' : Hardware) : Prop :=
  h' = (serves reads h).2 ∧
    if (serves reads h).1 then r.1 = 0 ∧ s' = s.filled len ∧ Covers 0 r.2 len.toNat
    else r.1 = -1 ∧ s' = s.markedFailure

/-- A read that makes a number of attempts and gives `size` bytes. -/
def Reads (tries size : ℕ) (read : Program (Option (List UInt8))) : Prop :=
  ∀ s h, ∃ val, read.exec s h = some (val, s, (firstAnswer tries h).2) ∧
    val.map List.length = (firstAnswer tries h).1.map fun _ => size

/-- A read that an instruction answers in time leaves the rest of the answers. -/
theorem serves_cons_some {v : UInt64} (hfirst : (firstAnswer tries h).1 = some v) :
    serves (tries :: reads) h = serves reads (firstAnswer tries h).2 := by
  rw [serves, show firstAnswer tries h = (some v, (firstAnswer tries h).2) from Prod.ext hfirst rfl]

/-- A read whose retries run out ends the service. -/
theorem serves_cons_none (hfirst : (firstAnswer tries h).1 = none) :
    serves (tries :: reads) h = (false, (firstAnswer tries h).2) := by
  rw [serves, show firstAnswer tries h = (none, (firstAnswer tries h).2) from Prod.ext hfirst rfl]

/-- A retry loop of `n` turns takes the first answer among the next `n`. -/
theorem exec_retry {step : Program (Option UInt64)} (hstep : step = Prog.answer) (n : ℕ) :
    (retry step n).exec s h = some ((firstAnswer n h).1, s, (firstAnswer n h).2) := by
  subst hstep
  induction n generalizing h with
  | zero => rfl
  | succ n ih =>
    simp only [retry, Prog.exec_bind, Prog.exec_answer, Option.bind_some, firstAnswer]
    cases h.head with
    | none => exact ih
    | some v => rfl

/-- A 64-bit word gives eight bytes. -/
theorem length_wordBytes (v : UInt64) :
    (wordBytes v).length = 8 := by
  rw [wordBytes, List.length_ofFn]

/-- A word read that takes the first answer serves eight bytes. -/
theorem Reads.bytes64 {read : Program (Option UInt64)}
    (hread : ∀ s h, read.exec s h = some ((firstAnswer tries h).1, s, (firstAnswer tries h).2)) :
    Reads tries 8 (bytes64 read) := fun s h => by
  refine ⟨(firstAnswer tries h).1.map wordBytes, ?_, ?_⟩
  · simp only [Drng.bytes64, Prog.exec_bind, hread, Option.bind_some]
    rfl
  · rw [Option.map_map]
    exact congrArg (fun g => Option.map g _) (funext length_wordBytes)

/-- The same for a word read through a retry loop. -/
theorem reads_bytes64_retry {step : Program (Option UInt64)} (hstep : step = Prog.answer) (n : ℕ) :
    Reads n 8 (bytes64 (retry step n)) := .bytes64 fun _ _ => exec_retry hstep n

/-- Both x86 sources serve eight bytes a word, with one retry loop each. -/
theorem reads_selectedRetry (impl : RngImpl) :
    Reads (rdrandRetries + 1) 8
      (bytes64 (if impl = .rdseed then rdseed64Retry else rdrand64Retry)) := by
  split
  · exact reads_bytes64_retry rfl _
  · exact reads_bytes64_retry rfl _

/-- With one try the first answer is the head of the stream. -/
theorem firstAnswer_one (h : Hardware) : firstAnswer 1 h = (h.head, h.tail) := by
  cases hhead : h.head with
  | none => rw [firstAnswer, hhead]; rfl
  | some v => rw [firstAnswer, hhead]

/-- The ARM instruction is tried once for each word. -/
theorem reads_bytes64_armRndr : Reads 1 8 (bytes64 armRndr) := .bytes64 fun s h => by
  rw [firstAnswer_one]
  rfl

/-- A 32-bit read is tried once and serves four bytes. -/
theorem reads_bytes32 : Reads 1 4 bytes32 := fun s h => by
  rw [firstAnswer_one]
  refine ⟨_, rfl, ?_⟩
  cases h.head with
  | none => rfl
  | some v => exact congrArg some (by rw [List.length_take, length_wordBytes]; rfl)

/-- Once the writes cover the buffer, the statistics end the fill. -/
theorem fillStatistics_ends (hws : Covers 0 ws len.toNat) :
    (fillStatistics len ws).Ends s h (FillEnd len s [] h) :=
  ⟨_, _, _, rfl, rfl, rfl, rfl, hws⟩

/-- A read whose word fits into the buffer: the hardware answers, and the rest of the buffer is
filled, or it does not, and the call has failed. -/
theorem fillChunk_ends {read : Program (Option (List UInt8))} {size : ℕ}
    (hread : Reads tries size read) (hcount : count.toNat ≤ size)
    (hfits : offset.toNat + count.toNat ≤ len.toNat) (hws : Covers 0 ws offset.toNat)
    {next : UInt64 → List Write → Program (Int32 × List Write)}
    (hnext : ∀ ws h, Covers 0 ws (offset + count).toNat →
      (next (offset + count) ws).Ends s h (FillEnd len s reads h)) :
    (fillChunk read len offset count ws next).Ends s h (FillEnd len s (tries :: reads) h) := by
  have hle : offset ≤ len := UInt64.le_iff_toNat_le.mpr (by omega)
  have hroom : ¬ len - offset < count := by
    rw [UInt64.not_lt, UInt64.le_iff_toNat_le, UInt64.toNat_sub_of_le _ _ hle]
    omega
  have hoffset : (offset + count).toNat = offset.toNat + count.toNat := by
    have := len.toNat_lt
    rw [UInt64.toNat_add]
    omega
  obtain ⟨val, hexec, hval⟩ := hread s h
  refine Prog.Ends.bind_of_exec hexec ?_
  cases hfirst : (firstAnswer tries h).1 with
  | none =>
    rw [hfirst, Option.map_none, Option.map_eq_none_iff] at hval
    subst hval
    refine ⟨_, _, _, rfl, ?_⟩
    rw [FillEnd, serves_cons_none hfirst]
    exact ⟨rfl, rfl, rfl⟩
  | some v =>
    rw [hfirst] at hval
    obtain ⟨bytes, rfl, hbytes⟩ := Option.map_eq_some_iff.mp hval
    simp only [if_neg hroom]
    refine (hnext _ _ ?_).mono fun r s' h' hend => ?_
    · have hlength : (bytes.take count.toNat).length = count.toNat := by
        rw [List.length_take, hbytes]
        exact Nat.min_eq_left hcount
      have hcovers := hws.concat (w := ⟨offset, bytes.take count.toNat⟩) rfl
      rwa [hlength, ← hoffset] at hcovers
    · rw [FillEnd, serves_cons_some hfirst]
      exact hend

/-- The last bytes of the buffer. -/
theorem fillTail_ends {read : Program (Option (List UInt8))} {size : ℕ}
    (hread : Reads tries size read) (hle : offset.toNat ≤ len.toNat)
    (hsize : len.toNat - offset.toNat ≤ size) (hws : Covers 0 ws offset.toNat) :
    (fillTail read len offset ws).Ends s h
      (FillEnd len s (tailReads tries (len.toNat - offset.toNat)) h) := by
  have hsub : (len - offset).toNat = len.toNat - offset.toNat :=
    UInt64.toNat_sub_of_le _ _ (UInt64.le_iff_toNat_le.mpr hle)
  rw [fillTail, tailReads]
  by_cases hlt : offset < len
  · have := UInt64.lt_iff_toNat_lt.mp hlt
    rw [if_pos hlt, if_neg (by omega)]
    refine fillChunk_ends hread (by omega) (by omega) hws fun ws h hws => fillStatistics_ends ?_
    rwa [UInt64.toNat_add, hsub, Nat.add_sub_cancel' hle, Nat.mod_eq_of_lt len.toNat_lt] at hws
  · have := UInt64.le_iff_toNat_le.mp (UInt64.not_lt.mp hlt)
    rw [if_neg hlt, if_pos (by omega)]
    exact fillStatistics_ends (by rwa [show len.toNat = offset.toNat by omega])

/-- The word loop unrolls by one word. -/
theorem fillWords_eq (read : Program (Option UInt64)) (len offset : UInt64) (ws : List Write)
    (next : UInt64 → List Write → Program (Int32 × List Write)) :
    fillWords read len offset ws next = if offset + 8 ≤ len then
      fillChunk (bytes64 read) len offset 8 ws fun offset ws => fillWords read len offset ws next
    else next offset ws := by
  rw [fillWords]
  rfl

/-- The offset does not wrap while it stays inside the buffer. -/
theorem toNat_add_eight (hoffset : offset.toNat + 8 < 2 ^ 64) :
    (offset + 8).toNat = offset.toNat + 8 := by
  rw [UInt64.toNat_add, show (8 : UInt64).toNat = 8 from rfl, Nat.mod_eq_of_lt hoffset]

/-- The loop over the words of a buffer in which the offset does not wrap around. -/
theorem fillWords_ends {read : Program (Option UInt64)} (hread : Reads tries 8 (bytes64 read))
    (hlen : len.toNat + 8 < 2 ^ 64) {next : UInt64 → List Write → Program (Int32 × List Write)}
    (hnext : ∀ offset ws h, offset.toNat + len.toNat % 8 = len.toNat → Covers 0 ws offset.toNat →
      (next offset ws).Ends s h (FillEnd len s reads h))
    {n : ℕ} (hn : offset.toNat + 8 * n + len.toNat % 8 = len.toNat)
    (hws : Covers 0 ws offset.toNat) :
    (fillWords read len offset ws next).Ends s h
      (FillEnd len s (List.replicate n tries ++ reads) h) := by
  induction n generalizing offset ws h with
  | zero =>
    have hadd : (offset + 8).toNat = offset.toNat + 8 := toNat_add_eight (by omega)
    rw [fillWords, if_neg (by rw [UInt64.le_iff_toNat_le, hadd]; omega)]
    exact hnext offset ws h (by omega) hws
  | succ n ih =>
    have hadd : (offset + 8).toNat = offset.toNat + 8 := toNat_add_eight (by omega)
    rw [fillWords_eq, if_pos (by rw [UInt64.le_iff_toNat_le, hadd]; omega)]
    refine fillChunk_ends hread le_rfl (show offset.toNat + 8 ≤ len.toNat by omega) hws
      fun ws h hws => ih ?_ hws
    omega

/-- `drng_fill` where the offset does not wrap around. -/
theorem fillFrom_ends {p : Platform} (hp : p ≠ .other) (impl : RngImpl)
    (hlen : len.toNat + 8 < 2 ^ 64) :
    (fillFrom p impl len).Ends s h (FillEnd len s (fillReads p len.toNat) h) := by
  have hwords : (0 : UInt64).toNat + 8 * (len.toNat / 8) + len.toNat % 8 = len.toNat := by
    rw [show (0 : UInt64).toNat = 0 from rfl]
    omega
  cases p with
  | x86 =>
    refine fillWords_ends (reads_selectedRetry impl) hlen
      (fun offset ws h hoffset hws => ?_) hwords rfl
    have hleft : len.toNat % 8 = len.toNat - offset.toNat := by omega
    have hadd : (offset + 4).toNat = offset.toNat + 4 := by
      rw [UInt64.toNat_add, show (4 : UInt64).toNat = 4 from rfl]
      omega
    simp only [UInt64.le_iff_toNat_le, hadd]
    by_cases hfour : offset.toNat + 4 ≤ len.toNat
    · rw [if_pos hfour, if_pos (by omega)]
      refine fillChunk_ends reads_bytes32 le_rfl hfour hws fun ws h hws => ?_
      have hend : (fillTail bytes32 len (offset + 4) ws).Ends s h
          (FillEnd len s (tailReads 1 (len.toNat - (offset + 4).toNat)) h) :=
        fillTail_ends reads_bytes32 (by omega) (by omega) hws
      rwa [hadd, show len.toNat - (offset.toNat + 4) = len.toNat % 4 by omega] at hend
    · rw [if_neg hfour, if_neg (by omega), hleft]
      exact fillTail_ends reads_bytes32 (by omega) (by omega) hws
  | arm =>
    refine fillWords_ends reads_bytes64_armRndr hlen (fun offset ws h hoffset hws => ?_) hwords rfl
    rw [show len.toNat % 8 = len.toNat - offset.toNat by omega]
    exact fillTail_ends reads_bytes64_armRndr (by omega) (by omega) hws
  | other => exact absurd rfl hp

/-- The loop over the words of a buffer that is so long that the offset wraps around. -/
theorem fillWords_wraps {read : Program (Option UInt64)} (hread : Reads tries 8 (bytes64 read))
    (hlen : 2 ^ 64 ≤ len.toNat + 8) (next : UInt64 → List Write → Program (Int32 × List Write))
    (hoffset : 8 ∣ offset.toNat) (hle : offset.toNat ≤ len.toNat) :
    (fillWords read len offset ws next).Ends s h
      (fun r s' _ => r.1 = -1 ∧ (s' = s ∨ s' = s.markedFailure)) := by
  have := len.toNat_lt
  induction offset, ws using fillWords.induct len generalizing h with
  | case1 offset ws hadd ih =>
    obtain ⟨val, hexec, hval⟩ := hread s h
    rw [fillWords, if_pos hadd]
    refine Prog.Ends.bind_of_exec hexec ?_
    cases val with
    | none => exact ⟨_, _, _, rfl, rfl, .inr rfl⟩
    | some val =>
      simp only []
      split
      · exact ⟨_, _, _, rfl, rfl, .inl rfl⟩
      · rename_i hroom
        have hroom' := UInt64.le_iff_toNat_le.mp (UInt64.not_lt.mp hroom)
        rw [UInt64.toNat_sub_of_le _ _ (UInt64.le_iff_toNat_le.mpr hle),
          show (8 : UInt64).toNat = 8 from rfl] at hroom'
        have hnext : (offset + 8).toNat = offset.toNat + 8 := toNat_add_eight (by omega)
        exact ih val hroom (by omega) (by omega)
  | case2 offset ws hadd =>
    -- the offset is a multiple of eight, so the sum wraps around to zero before it passes the
    -- length
    rw [UInt64.le_iff_toNat_le] at hadd
    by_cases hwrap : offset.toNat + 8 < 2 ^ 64
    · rw [toNat_add_eight hwrap] at hadd
      omega
    · rw [UInt64.toNat_add, show (8 : UInt64).toNat = 8 from rfl] at hadd
      omega

/-- `drng_fill` with a source selected: what it returns, and what it leaves. -/
theorem drngFill_ends (p : Platform) (init : Program Unit) (himpl : s.rngImpl ≠ .none)
    (len : UInt64) (h : Hardware) :
    (drngFill p init len).Ends s h fun r s' h' =>
      (Delivers p len h → r.1 = 0 ∧ s' = s.filled len ∧ Covers 0 r.2 len.toNat ∧
        h' = (serves (fillReads p len.toNat) h).2) ∧
      (¬ Delivers p len h → r.1 = -1 ∧ (s' = s ∨ s' = s.markedFailure) ∧
        (p ≠ .other → len.toNat + 8 < 2 ^ 64 → s' = s.markedFailure ∧
          h' = (serves (fillReads p len.toNat) h).2)) := by
  refine Prog.Ends.bind_of_exec Prog.exec_get ?_
  simp only [if_neg himpl]
  by_cases hp : p = .other
  · subst hp
    exact ⟨_, _, _, rfl, fun hdelivers => absurd rfl hdelivers.1, fun _ =>
      ⟨rfl, .inl rfl, fun h => absurd rfl h⟩⟩
  · by_cases hlen : len.toNat + 8 < 2 ^ 64
    · refine (fillFrom_ends hp s.rngImpl hlen).mono fun r s' h' ⟨hrest, hend⟩ => ?_
      have hdelivers : Delivers p len h ↔ (serves (fillReads p len.toNat) h).1 = true :=
        ⟨fun h => h.2.2, fun h => ⟨hp, hlen, h⟩⟩
      rw [hdelivers]
      split at hend
      · rename_i hserves
        exact ⟨fun _ => ⟨hend.1, hend.2.1, hend.2.2, hrest⟩, fun h => absurd hserves h⟩
      · rename_i hserves
        exact ⟨fun h => absurd h hserves,
          fun _ => ⟨hend.1, .inr hend.2, fun _ _ => ⟨hend.2, hrest⟩⟩⟩
    · have hwraps : (fillFrom p s.rngImpl len).Ends s h fun r s' _ =>
          r.1 = -1 ∧ (s' = s ∨ s' = s.markedFailure) := by
        have hlen' : 2 ^ 64 ≤ len.toNat + 8 := not_lt.mp hlen
        cases p with
        | x86 =>
          exact fillWords_wraps (reads_selectedRetry s.rngImpl) hlen' _
            (Nat.dvd_zero 8) (Nat.zero_le _)
        | arm =>
          exact fillWords_wraps reads_bytes64_armRndr hlen' _ (Nat.dvd_zero 8) (Nat.zero_le _)
        | other => exact absurd rfl hp
      exact hwraps.mono fun r s' h' hend =>
        ⟨fun h => absurd h.2.1 hlen, fun _ => ⟨hend.1, hend.2, fun _ h => absurd h hlen⟩⟩

end Fill

section Latch

variable (p : Platform)

/-- A call of `_randombytes_drng_fill`: the length, and what the hardware answers during the
call. -/
abbrev FillCall := UInt64 × Hardware

/-- What a call returns, if it does, and what it leaves. -/
def fillStep (s : State) (call : FillCall) : Option Int32 × State :=
  match (randombytesDrngFill p call.1).exec s call.2 with
  | some (r, s', _) => (some r.1, s')
  | none => (none, s)

/-- The call takes a sample for the health test. -/
def SampleDue (s : State) : Prop :=
  s.catastrophicFailure = false ∧ s.healthTestCount % 100 = 0 ∧ 0 < s.healthTestCount

instance (s : State) : Decidable (SampleDue s) := inferInstanceAs (Decidable (_ ∧ _ ∧ _))

/-- The sample could not be read, or fails the health test. -/
def SampleFails (s : State) (h : Hardware) : Prop :=
  ∃ r s' h', (drngFill p (drngInit p) 32).exec s h = some (r, s', h') ∧
    (r.1 ≠ 0 ∨ ¬ Healthy (r.2.foldl store (List.replicate 32 0)))

/-- The latch at a call: `catastrophic_failure` stays set, a call that leaves it set does not return
0, and neither does a call of which the sample fails. -/
def Latched (s : State) (call : FillCall) : Prop :=
  (s.catastrophicFailure = true → (fillStep p s call).2.catastrophicFailure = true) ∧
  ((fillStep p s call).2.catastrophicFailure = true → (fillStep p s call).1 ≠ some 0) ∧
  (SampleDue s → SampleFails p s call.2 → (fillStep p s call).1 ≠ some 0)

/-- The hardware does not deliver the sample of a call, and then delivers the buffer of the
caller. -/
def Recovers (s : State) (call : FillCall) : Prop :=
  SampleDue s ∧ p ≠ .other ∧ ¬ Delivers p 32 call.2 ∧
    Delivers p call.1 (serves (fillReads p 32) call.2).2

instance (s : State) (call : FillCall) : Decidable (Recovers p s call) :=
  inferInstanceAs (Decidable (_ ∧ _ ∧ _ ∧ _))

variable {p} {s : State} {call : FillCall}

/-- With a source selected the initialization is skipped. -/
theorem exec_ensureInit_of_ne {h : Hardware} (himpl : s.rngImpl ≠ .none) :
    (ensureInit p).exec s h = some (s.rngImpl, s, h) := by
  simp only [ensureInit, Prog.exec_bind, Prog.exec_get, Option.bind_some, if_neg himpl]
  rfl

/-- The implementation that a call goes on with is the selected one. -/
theorem ensureInit_rngImpl {h h' : Hardware} {impl : RngImpl} {s' : State}
    (hexec : (ensureInit p).exec s h = some (impl, s', h')) : impl = s'.rngImpl := by
  simp only [ensureInit, Prog.exec_bind, Prog.exec_get, Option.bind_some] at hexec
  split at hexec
  · rw [Prog.exec_bind] at hexec
    obtain ⟨_, -, hexec⟩ := Option.bind_eq_some_iff.mp hexec
    cases hexec
    rfl
  · cases hexec
    rfl

/-- The health test keeps the source and latches a catastrophic failure on unhealthy bytes. -/
theorem healthTest_ends (buf : List UInt8) (s : State) (h : Hardware) :
    (drngContinuousHealthTest buf).Ends s h fun ret s' _ => s'.rngImpl = s.rngImpl ∧
      (Healthy buf → ret = naclSuccess ∧ s'.catastrophicFailure = s.catastrophicFailure) ∧
      (¬ Healthy buf → ret = naclErrorCatastrophicFailure ∧ s'.catastrophicFailure = true) := by
  rw [drngContinuousHealthTest]
  by_cases hlength : buf.length < 16
  · rw [if_pos hlength]
    exact ⟨_, _, _, rfl, rfl, fun _ => ⟨rfl, rfl⟩, fun h => absurd (.inl hlength) h⟩
  rw [if_neg hlength]
  by_cases hrepetitions : 8 < repetitions (buf.headD 0) 1 1 buf.tail
  · have hhealthy : ¬ Healthy buf :=
      fun h => h.elim hlength fun h => absurd h.1 (not_le.mpr hrepetitions)
    rw [if_pos hrepetitions]
    exact ⟨_, _, _, rfl, rfl, fun h => absurd h hhealthy, fun _ => ⟨rfl, rfl⟩⟩
  rw [if_neg hrepetitions]
  by_cases hconstant : AllBytes 0 buf ∨ AllBytes 0xff buf
  · have hhealthy : ¬ Healthy buf := fun h => h.elim hlength fun h => hconstant.elim h.2.1 h.2.2
    rw [if_pos hconstant]
    exact ⟨_, _, _, rfl, rfl, fun h => absurd h hhealthy, fun _ => ⟨rfl, rfl⟩⟩
  · rw [if_neg hconstant]
    exact ⟨_, _, _, rfl, rfl, fun _ => ⟨rfl, rfl⟩,
      fun h => absurd (.inr ⟨not_lt.mp hrepetitions, not_or.mp hconstant⟩) h⟩

/-- How the sample of a call ends. -/
inductive SampleEnd (p : Platform) (s : State) (h : Hardware) : Bool → State → Hardware → Prop
  | notDue (hdue : ¬ SampleDue s) : SampleEnd p s h true s h
  | healthy {s₁ : State} {h₁ : Hardware} (hread : Delivers p 32 h) (hpasses : ¬ SampleFails p s h)
      (hclear : s₁.catastrophicFailure = false) (himpl : s₁.rngImpl = s.rngImpl) :
      SampleEnd p s h true s₁ h₁
  | unhealthy {s₁ : State} {h₁ : Hardware} (hread : Delivers p 32 h)
      (himpl : s₁.rngImpl = s.rngImpl) :
      SampleEnd p s h false s₁ h₁
  | unread {s₁ : State} {h₁ : Hardware} (hdue : SampleDue s) (hread : ¬ Delivers p 32 h)
      (himpl : s₁.rngImpl = s.rngImpl)
      (hmarked : p ≠ .other → s₁ = s.markedFailure ∧ h₁ = (serves (fillReads p 32) h).2) :
      SampleEnd p s h true s₁ h₁

/-- One sample of the source ends as `SampleEnd` says. -/
theorem healthSample_ends {h : Hardware} (hfailure : s.catastrophicFailure = false)
    (himpl : s.rngImpl ≠ .none) :
    (healthSample p).Ends s h (SampleEnd p s h) := by
  refine Prog.Ends.bind_of_exec Prog.exec_get ?_
  by_cases hdue : SampleDue s
  · rw [if_pos hdue.2]
    obtain ⟨⟨ret, ws⟩, s₁, h₁, hexec, hdelivered, hundelivered⟩ :=
      drngFill_ends p (drngInit p) himpl 32 h
    refine Prog.Ends.bind_of_exec hexec ?_
    by_cases hread : Delivers p 32 h
    · obtain ⟨rfl, rfl, -, -⟩ := hdelivered hread
      dsimp only
      rw [if_pos rfl]
      refine (healthTest_ends _ _ _).bind fun ret s₂ h₂ ⟨himpl₂, hhealthy, hunhealthy⟩ => ?_
      refine ⟨_, _, _, rfl, ?_⟩
      by_cases hbuf : Healthy (ws.foldl store (List.replicate 32 0))
      · obtain ⟨rfl, hclear⟩ := hhealthy hbuf
        refine .healthy hread (fun ⟨r, s', h', hr, hfails⟩ => ?_) (hclear.trans hfailure) himpl₂
        cases hexec.symm.trans hr
        exact hfails.elim (fun h => h rfl) fun h => h hbuf
      · obtain ⟨rfl, -⟩ := hunhealthy hbuf
        exact .unhealthy hread himpl₂
    · obtain ⟨rfl, hs₁, hmarked⟩ := hundelivered hread
      dsimp only
      rw [if_neg (by decide)]
      refine ⟨_, _, _, rfl, .unread hdue hread ?_ fun hp => hmarked hp (by decide)⟩
      obtain rfl | rfl := hs₁
      · rfl
      · rfl
  · rw [if_neg fun h => hdue ⟨hfailure, h⟩]
    exact ⟨_, _, _, rfl, .notDue hdue⟩

/-- How a call with a source selected ends. -/
inductive CallEnd (p : Platform) (s : State) (call : FillCall) : Option Int32 → State → Prop
  | latched (hfailure : s.catastrophicFailure = true) : CallEnd p s call (some (-1)) s
  | unhealthy {s' : State} (hfailure : s.catastrophicFailure = false) (hread : Delivers p 32 call.2)
      (himpl : s'.rngImpl = s.rngImpl) : CallEnd p s call (some (-1)) s'
  | filled {s₁ : State} {h₁ : Hardware} (hfailure : s.catastrophicFailure = false)
      (hsample : SampleEnd p s call.2 true s₁ h₁) (hlen : Delivers p call.1 h₁) :
      CallEnd p s call (some 0) (s₁.filled call.1)
  | failed {s₁ s' : State} {h₁ : Hardware} (hfailure : s.catastrophicFailure = false)
      (hsample : SampleEnd p s call.2 true s₁ h₁) (hlen : ¬ Delivers p call.1 h₁)
      (himpl : s'.rngImpl = s₁.rngImpl) : CallEnd p s call (some (-1)) s'

/-- A sample keeps the selected source. -/
theorem SampleEnd.rngImpl {h h₁ : Hardware} {b : Bool} {s₁ : State}
    (hsample : SampleEnd p s h b s₁ h₁) :
    s₁.rngImpl = s.rngImpl := by
  cases hsample with
  | notDue => rfl
  | healthy _ _ _ himpl => exact himpl
  | unhealthy _ himpl => exact himpl
  | unread _ _ himpl => exact himpl

/-- One call of the fill ends as `CallEnd` says. -/
theorem fillStep_ends (himpl : s.rngImpl ≠ .none) :
    CallEnd p s call (fillStep p s call).1 (fillStep p s call).2 := by
  have hcall : (randombytesDrngFill p call.1).Ends s call.2 fun r s' _ =>
      CallEnd p s call (some r.1) s' := by
    refine Prog.Ends.bind_of_exec Prog.exec_get ?_
    by_cases hfailure : s.catastrophicFailure = true
    · rw [if_pos hfailure]
      exact ⟨_, _, _, rfl, .latched hfailure⟩
    rw [Bool.not_eq_true] at hfailure
    rw [if_neg (Bool.eq_false_iff.mp hfailure)]
    refine Prog.Ends.bind_of_exec (exec_ensureInit_of_ne himpl) ?_
    rw [if_neg himpl]
    refine (healthSample_ends hfailure himpl).bind fun goesOn s₁ h₁ hsample => ?_
    cases goesOn with
    | false =>
      cases hsample with
      | unhealthy hread himpl => exact ⟨_, _, _, rfl, .unhealthy hfailure hread himpl⟩
    | true =>
      have himpl₁ : s₁.rngImpl ≠ .none := by rwa [hsample.rngImpl]
      refine (drngFill_ends p (drngInit p) himpl₁ call.1 h₁).mono
        fun r s' h' ⟨hdelivers, hfails⟩ => ?_
      by_cases hlen : Delivers p call.1 h₁
      · obtain ⟨hr, hs', -, -⟩ := hdelivers hlen
        rw [hr, hs']
        exact .filled hfailure hsample hlen
      · obtain ⟨hr, hs', -⟩ := hfails hlen
        rw [hr]
        refine .failed hfailure hsample hlen ?_
        obtain rfl | rfl := hs'
        · rfl
        · rfl
  obtain ⟨r, s', h', hexec, hend⟩ := hcall
  rwa [fillStep, hexec]

/-- A call of the fill keeps the selected source. -/
theorem fillStep_rngImpl (himpl : s.rngImpl ≠ .none) :
    (fillStep p s call).2.rngImpl = s.rngImpl := by
  generalize hret : (fillStep p s call).1 = ret, hs' : (fillStep p s call).2 = s'
  have hend : CallEnd p s call (fillStep p s call).1 (fillStep p s call).2 := fillStep_ends himpl
  rw [hret, hs'] at hend
  cases hend with
  | latched => rfl
  | unhealthy _ _ himpl => exact himpl
  | filled _ hsample => exact hsample.rngImpl
  | failed _ hsample _ himpl => exact himpl.trans hsample.rngImpl

/-- The latch holds at a call exactly if the hardware does not recover in it. -/
theorem latched_iff (himpl : s.rngImpl ≠ .none) : Latched p s call ↔ ¬ Recovers p s call := by
  have hne : (some (-1) : Option Int32) ≠ some 0 := by decide
  have hend : CallEnd p s call (fillStep p s call).1 (fillStep p s call).2 := fillStep_ends himpl
  rw [Latched]
  generalize (fillStep p s call).1 = ret, (fillStep p s call).2 = s' at hend
  cases hend with
  | latched hfailure =>
    refine iff_of_true ⟨id, fun _ => hne, fun _ _ => hne⟩ fun h => ?_
    cases h.1.1.symm.trans hfailure
  | unhealthy hfailure hread =>
    exact iff_of_true ⟨fun h => absurd h (Bool.eq_false_iff.mp hfailure), fun _ => hne,
      fun _ _ => hne⟩ fun h => h.2.2.1 hread
  | failed hfailure hsample hlen =>
    refine iff_of_true ⟨fun h => absurd h (Bool.eq_false_iff.mp hfailure), fun _ => hne, fun _ _ =>
      hne⟩ fun h => ?_
    cases hsample with
    | notDue hdue => exact hdue h.1
    | healthy hread => exact h.2.2.1 hread
    | unread hdue hread himpl hmarked =>
      obtain ⟨-, rfl⟩ := hmarked h.2.1
      exact hlen h.2.2.2
  | filled hfailure hsample hlen =>
    have hset : ¬ s.catastrophicFailure = true := Bool.eq_false_iff.mp hfailure
    cases hsample with
    | notDue hdue =>
      exact iff_of_true ⟨fun h => absurd h hset, fun h => absurd h hset, fun h => absurd h hdue⟩
        fun h => hdue h.1
    | healthy hread hpasses hclear =>
      exact iff_of_true ⟨fun h => absurd h hset, fun h => absurd h (Bool.eq_false_iff.mp hclear),
        fun _ h => absurd h hpasses⟩ fun h => h.2.2.1 hread
    | unread hdue hread himpl hmarked =>
      -- the failure has been marked, and the buffer has been filled all the same
      obtain ⟨rfl, rfl⟩ := hmarked hlen.1
      exact iff_of_false (fun h => h.2.1 rfl rfl) fun h => h ⟨hdue, hlen.1, hread, hlen⟩

/-- Along every run of calls from a state with a source, the latch holds exactly if in no call the
hardware fails to deliver the sample and then delivers the buffer. -/
theorem eachStep_latched_iff (p : Platform) (s : State) (himpl : s.rngImpl ≠ .none)
    (calls : List FillCall) :
    EachStep (fillStep p) (Latched p) s calls ↔
      EachStep (fillStep p) (fun s call => ¬ Recovers p s call) s calls :=
  eachStep_congr_of himpl (fun _ _ himpl => by rwa [fillStep_rngImpl himpl]) fun _ _ himpl =>
    latched_iff himpl

/-- An ARM generator after its hundredth fill. -/
def State.hundredth : State :=
  { State.initial with initialized := true, powerUpSelftestPassed := true, healthTestCount := 100,
                       rngImpl := .armRndr, drngInitState := .complete }

/-- Two calls after the hundredth: the source answers in the first and fails in the second. -/
theorem eachStep_latched_hundredth :
    EachStep (fillStep .arm) (Latched .arm) State.hundredth
      [(8, Stream'.const (some 1)), (8, Stream'.const none)] :=
  (eachStep_latched_iff .arm State.hundredth (by decide) _).mpr
    ⟨by decide, fun h => absurd h.2.2.2 (by decide), trivial⟩

/-- The generator does not answer for the sample, and then it does: the call returns 0 with the
failure marked. -/
theorem recovered_not_latched :
    ¬ EachStep (fillStep .arm) (Latched .arm) State.hundredth
      [(8, Stream'.cons none (Stream'.const (some 1)))] :=
  fun h => (latched_iff (by decide)).mp h.1 (by decide)

/-- The sample alone keeps the selected source. -/
theorem healthSample_rngImpl {h : Hardware} (himpl : s.rngImpl ≠ .none) :
    (healthSample p).Ends s h fun _ s' _ => s'.rngImpl = s.rngImpl := by
  refine Prog.Ends.bind_of_exec Prog.exec_get ?_
  dsimp only
  split
  · refine (drngFill_ends p (drngInit p) himpl 32 h).bind
      fun (ret, ws) s₁ h₁ ⟨hdelivered, hundelivered⟩ => ?_
    have himpl₁ : s₁.rngImpl = s.rngImpl := by
      by_cases hread : Delivers p 32 h
      · rw [(hdelivered hread).2.1, State.filled]
      · obtain hs₁ | hs₁ := (hundelivered hread).2.1
        · rw [hs₁]
        · rw [hs₁, State.markedFailure]
    dsimp only
    split
    · exact (healthTest_ends _ _ _).bind fun ret s₂ h₂ hend => ⟨_, _, _, rfl, hend.1.trans himpl₁⟩
    · exact ⟨_, _, _, rfl, himpl₁⟩
  · exact ⟨_, _, _, rfl, rfl⟩

/-- A call of `_randombytes_drng_fill` that returns 0 has filled the buffer, whatever has happened
before. -/
theorem covers_of_exec {len : UInt64} {s s' : State} {h h' : Hardware} {ws : List Write}
    (hexec : (randombytesDrngFill p len).exec s h = some ((0, ws), s', h')) :
    Covers 0 ws len.toNat := by
  simp only [randombytesDrngFill, Prog.exec_bind, Prog.exec_get, Option.bind_some] at hexec
  split at hexec
  · cases hexec
  rw [Prog.exec_bind] at hexec
  obtain ⟨⟨impl, s₁, h₁⟩, hensure, hexec⟩ := Option.bind_eq_some_iff.mp hexec
  have himpl : impl = s₁.rngImpl := ensureInit_rngImpl hensure
  split at hexec
  · cases hexec
  rename_i hne
  rw [Prog.exec_bind] at hexec
  obtain ⟨⟨goesOn, s₂, h₂⟩, hsample, hexec⟩ := Option.bind_eq_some_iff.mp hexec
  have himpl₂ : s₂.rngImpl ≠ .none := by
    rw [(healthSample_rngImpl (himpl ▸ hne)).post hsample]
    exact himpl ▸ hne
  split at hexec
  · obtain ⟨hdelivers, hfails⟩ := (drngFill_ends p (drngInit p) himpl₂ len h₂).post hexec
    by_cases hlen : Delivers p len h₂
    · exact (hdelivers hlen).2.2.1
    · cases (hfails hlen).1
  · cases hexec

end Latch

end TweetNacl.Drng
