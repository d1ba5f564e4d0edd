import TweetNacl.DrngFill
import TweetNacl.Lib.CheckedInt

/-!
# The continuous health test

The repetition count test keeps a running maximum in `int` counters. It is related here to the runs
of equal bytes anywhere in the buffer. With this the test of the random number generator is a
condition on the buffer alone.
-/

namespace TweetNacl.Drng

open TweetNacl.Core Threads

section Counters

/-- The loop of the repetition count test with its `int` counters: an increment that overflows has
no result. -/
def intRepetitions : UInt8 → Int32 → Int32 → List UInt8 → Option Int32
  | _, _, maxConsecutive, [] => some maxConsecutive
  | prev, consecutiveSame, maxConsecutive, b :: buf =>
    if b = prev then (CheckedInt.add consecutiveSame 1).bind fun consecutiveSame =>
      intRepetitions b consecutiveSame
        (if consecutiveSame > maxConsecutive then consecutiveSame else maxConsecutive) buf
    else intRepetitions b 1 maxConsecutive buf

/-- `drng_continuous_health_test` with its `int` counters. -/
def intContinuousHealthTest (buf : List UInt8) : Option (Program Int32) :=
  if buf.length < 16 then some (pure naclSuccess)
  else (intRepetitions (buf.headD 0) 1 1 buf.tail).map fun maxConsecutive =>
    if maxConsecutive > 8 then do
      drngMarkFailure
      pure naclErrorCatastrophicFailure
    else if AllBytes 0 buf ∨ AllBytes 0xff buf then do
      drngMarkFailure
      pure naclErrorCatastrophicFailure
    else do
      Prog.modify fun s => { s with lastHealthTestResult := naclSuccess }
      pure naclSuccess

/-- The counters never exceed the number of bytes. -/
theorem intRepetitions_eq {consecutive maxConsecutive : ℕ} {c m : Int32} (prev : UInt8)
    (buf : List UInt8) (hc : c.toInt = consecutive) (hm : m.toInt = maxConsecutive)
    (hlen : consecutive + buf.length ≤ 2147483647) :
    ∃ r, intRepetitions prev c m buf = some r ∧
      r.toInt = repetitions prev consecutive maxConsecutive buf := by
  induction buf generalizing prev c m consecutive maxConsecutive with
  | nil => exact ⟨m, rfl, hm⟩
  | cons b buf ih =>
    rw [List.length_cons] at hlen
    unfold intRepetitions repetitions
    by_cases hsame : b = prev
    · obtain ⟨c', hadd, hc'⟩ := CheckedInt.exact_int (z := c.toInt + 1) (by omega)
      have hmax : (if c' > m then c' else m).toInt =
          (max (consecutive + 1) maxConsecutive : ℕ) := by
        split_ifs with hgt
        · rw [gt_iff_lt, Int32.lt_iff_toInt_lt] at hgt
          omega
        · rw [gt_iff_lt, Int32.lt_iff_toInt_lt] at hgt
          omega
      rw [if_pos hsame, if_pos hsame, show CheckedInt.add c 1 = some c' from hadd, Option.bind_some]
      exact ih b (by omega) hmax (by omega)
    · rw [if_neg hsame, if_neg hsame]
      exact ih b rfl hm (by omega)

/-- With `int` counters the loop is the model's, up to the largest `int`. -/
theorem intContinuousHealthTest_eq {buf : List UInt8} (hlen : buf.length ≤ 2147483647) :
    intContinuousHealthTest buf = some (drngContinuousHealthTest buf) := by
  unfold intContinuousHealthTest drngContinuousHealthTest
  by_cases hshort : buf.length < 16
  · rw [if_pos hshort, if_pos hshort]
  · rw [if_neg hshort, if_neg hshort]
    have hone : (1 : Int32).toInt = (1 : ℕ) := rfl
    obtain ⟨r, hrun, hr⟩ :=
      intRepetitions_eq (buf.headD 0) buf.tail hone hone (by rw [List.length_tail]; omega)
    have hthreshold : r > 8 ↔ 8 < repetitions (buf.headD 0) 1 1 buf.tail := by
      rw [gt_iff_lt, Int32.lt_iff_toInt_lt, hr]
      exact Int.ofNat_lt
    rw [hrun, Option.map_some]
    simp only [hthreshold]

end Counters

section Runs

/-- The buffer has `n` consecutive equal bytes. -/
def HasRun (n : ℕ) (buf : List UInt8) : Prop := ∃ b, List.replicate n b <:+: buf

/-- A run that ends before a different byte, or starts at it. -/
theorem replicate_infix_append_iff {n c : ℕ} {x prev b : UInt8} {buf : List UInt8}
    (hne : b ≠ prev) :
    List.replicate n x <:+: List.replicate c prev ++ b :: buf ↔
      List.replicate n x <:+: List.replicate c prev ∨ List.replicate n x <:+: b :: buf := by
  rw [List.infix_append_iff_ne_nil]
  refine or_congr_right (or_iff_left ?_)
  -- a run across the border would make both bytes the byte of the run
  rintro ⟨l₁, l₂, hl₁, hl₂, happend, hsuffix, hprefix⟩
  have hx : ∀ y ∈ l₁ ++ l₂, y = x := fun y hy => List.eq_of_mem_replicate (happend ▸ hy)
  obtain ⟨y, hy⟩ := List.exists_mem_of_ne_nil l₁ hl₁
  have hprev : y = prev := List.eq_of_mem_replicate (hsuffix.subset hy)
  obtain ⟨b', l₂, rfl⟩ := List.exists_cons_of_ne_nil hl₂
  have hb : b' = b := (List.cons_prefix_cons.mp hprefix).1
  have hxy : y = x := hx y (List.mem_append_left _ hy)
  have hxb : b' = x := hx b' (List.mem_append_right _ List.mem_cons_self)
  exact hne (by rw [← hb, hxb, ← hxy, hprev])

/-- A run is no longer than the run that contains it. -/
theorem HasRun.le_of_replicate {n c : ℕ} {prev : UInt8} (h : HasRun n (List.replicate c prev)) :
    n ≤ c := by
  obtain ⟨b, hinfix⟩ := h
  simpa using hinfix.length_le

/-- A run of `n` bytes is in every longer one. -/
theorem hasRun_replicate_append {n c : ℕ} (hn : n ≤ c) (prev : UInt8) (buf : List UInt8) :
    HasRun n (List.replicate c prev ++ buf) := by
  refine ⟨prev, [], List.replicate (c - n) prev ++ buf, ?_⟩
  rw [List.nil_append, ← List.append_assoc, List.replicate_append_replicate, Nat.add_sub_cancel' hn]

/-- A run does not extend over a change of the byte. -/
theorem hasRun_append_iff {n c : ℕ} {prev b : UInt8} {buf : List UInt8} (hne : b ≠ prev) :
    HasRun n (List.replicate c prev ++ b :: buf) ↔ HasRun n (List.replicate c prev) ∨
      HasRun n (b :: buf) := by
  simp only [HasRun, replicate_infix_append_iff hne, exists_or]

/-- The invariant of the loop: behind a run of the previous byte, whose length is the counter, the
maximum reaches `n` if it has done so before or if a run of `n` bytes is in what is left. -/
theorem le_repetitions_iff {n consecutive maxConsecutive : ℕ} (prev : UInt8) (buf : List UInt8)
    (hpos : 1 ≤ consecutive) (hmax : consecutive ≤ maxConsecutive) :
    n ≤ repetitions prev consecutive maxConsecutive buf ↔
      n ≤ maxConsecutive ∨ HasRun n (List.replicate consecutive prev ++ buf) := by
  induction buf generalizing prev consecutive maxConsecutive with
  | nil =>
    rw [repetitions, List.append_nil]
    exact ⟨.inl, fun h => h.elim id fun hrun => hrun.le_of_replicate.trans hmax⟩
  | cons b buf ih =>
    rw [repetitions]
    by_cases hsame : b = prev
    · subst hsame
      have happend : List.replicate consecutive b ++ b :: buf = List.replicate
          (consecutive + 1) b ++ buf := by
        rw [List.replicate_succ', List.append_assoc, List.singleton_append]
      rw [if_pos rfl, ih b (by omega) (le_max_left _ _), happend]
      constructor
      · rintro (hle | hrun)
        · obtain hle | hle := le_max_iff.mp hle
          · exact .inr (hasRun_replicate_append hle b buf)
          · exact .inl hle
        · exact .inr hrun
      · exact Or.imp_left fun hle => hle.trans (le_max_right _ _)
    · rw [if_neg hsame, ih b le_rfl (hpos.trans hmax), hasRun_append_iff hsame]
      constructor
      · exact Or.imp_right .inr
      · rintro (hle | hrun | hrun)
        · exact .inl hle
        · exact .inl (hrun.le_of_replicate.trans hmax)
        · exact .inr hrun

/-- The maximum over a buffer is at least `n` exactly if the buffer has a run of `n` bytes. -/
theorem le_repetitions_iff_hasRun {n : ℕ} (hn : 1 < n) {buf : List UInt8} (hbuf : buf ≠ []) :
    n ≤ repetitions (buf.headD 0) 1 1 buf.tail ↔ HasRun n buf := by
  obtain ⟨b, buf, rfl⟩ := List.exists_cons_of_ne_nil hbuf
  rw [le_repetitions_iff _ _ le_rfl le_rfl]
  exact or_iff_right (not_le.mpr hn)

/-- A constant buffer is a run. -/
theorem hasRun_of_allBytes {n : ℕ} {x : UInt8} {buf : List UInt8} (hall : AllBytes x buf)
    (hn : n ≤ buf.length) :
    HasRun n buf := by
  have hbuf : buf = List.replicate buf.length x := List.eq_replicate_of_mem hall
  rw [hbuf, ← List.append_nil (List.replicate _ _)]
  exact hasRun_replicate_append hn x []

end Runs

section Outcome

/-- What the repetition test of a buffer returns and leaves: it fails exactly for a run of nine
bytes, and marks the failure then. -/
def RepetitionTest (buf : List UInt8) (s : State) (ret : Int32) (s' : State) : Prop :=
  (ret = naclErrorCatastrophicFailure ↔ HasRun 9 buf) ∧
    (HasRun 9 buf → s'.catastrophicFailure = true ∧ s'.powerUpSelftestPassed = false) ∧
    (¬ HasRun 9 buf → ret = naclSuccess ∧ s'.catastrophicFailure = s.catastrophicFailure ∧
      s'.powerUpSelftestPassed = s.powerUpSelftestPassed)

/-- The health test of the code returns what the repetition test says. -/
theorem continuousHealthTest_ends {buf : List UInt8} (hlen : 16 ≤ buf.length) (s : State)
    (h : Hardware) :
    (drngContinuousHealthTest buf).Ends s h fun ret s' h' => h' = h ∧
      RepetitionTest buf s ret s' := by
  have hbuf : buf ≠ [] := List.ne_nil_of_length_pos (by omega)
  have hiff : 8 < repetitions (buf.headD 0) 1 1 buf.tail ↔ HasRun 9 buf :=
    le_repetitions_iff_hasRun (by norm_num) hbuf
  rw [drngContinuousHealthTest, if_neg (by omega)]
  by_cases hrun : HasRun 9 buf
  · rw [if_pos (hiff.mpr hrun)]
    exact ⟨_, _, _, rfl, rfl, iff_of_true rfl hrun, fun _ => ⟨rfl, rfl⟩, fun hnot =>
      absurd hrun hnot⟩
  · have hconstant : ¬ (AllBytes 0 buf ∨ AllBytes 0xff buf) := by
      rintro (hall | hall)
      · exact hrun (hasRun_of_allBytes hall (by omega))
      · exact hrun (hasRun_of_allBytes hall (by omega))
    rw [if_neg (mt hiff.mp hrun), if_neg hconstant]
    exact ⟨_, _, _, rfl, rfl, iff_of_false (by decide) hrun, fun h => absurd h hrun, fun _ =>
      ⟨rfl, rfl, rfl⟩⟩

/-- The health test is the repetition test, for every length that its counters can count. -/
theorem healthTest_is_repetitionTest {buf : List UInt8} (hlow : 16 ≤ buf.length)
    (hhigh : buf.length ≤ 2147483647)
    (s : State) (h : Hardware) : ∃ test, intContinuousHealthTest buf = some test ∧
      test.Ends s h fun ret s' h' => h' = h ∧ RepetitionTest buf s ret s' :=
  ⟨_, intContinuousHealthTest_eq hhigh, continuousHealthTest_ends hlow s h⟩

/-- The test of sixteen equal bytes. -/
theorem healthTest_sevens : ∃ test, intContinuousHealthTest (List.replicate 16 7) = some test ∧
    test.Ends State.initial (Stream'.const none) fun ret s' h' =>
      h' = Stream'.const none ∧ RepetitionTest (List.replicate 16 7) State.initial ret s' :=
  healthTest_is_repetitionTest (by decide) (by decide) State.initial (Stream'.const none)

end Outcome

end TweetNacl.Drng
