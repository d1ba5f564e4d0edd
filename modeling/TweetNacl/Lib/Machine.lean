import Mathlib.Data.List.Induction

/-!
# Runs of a deterministic machine

A machine answers each event in a state and goes to a next state. What holds along a run is reduced
to what single steps do: an invariant that a step keeps exactly under a condition, and a set of
states that is never left again.
-/

namespace Machine

variable {σ ε ρ : Type*} (step : σ → ε → ρ × σ) {s : σ} {es : List ε}

/-- The state after a list of events. -/
def run (s : σ) (es : List ε) : σ := es.foldl (fun s e => (step s e).2) s

/-- `P` holds of every event of a run and the state in which it is answered. -/
def EachStep (P : σ → ε → Prop) : σ → List ε → Prop
  | _, [] => True
  | s, e :: es => P s e ∧ EachStep P (step s e).2 es

/-- `I` holds in every state of a run, the first one included. -/
def EachState (I : σ → Prop) : σ → List ε → Prop
  | s, [] => I s
  | s, e :: es => I s ∧ EachState I (step s e).2 es

/-- Once a state of a run is in `E`, every later state is, and every later answer is in `R`. -/
def Absorbing (E : σ → Prop) (R : ρ → Prop) (s : σ) (es : List ε) : Prop :=
  ∀ before later e after, es = before ++ later ++ e :: after → E (run step s before) →
    E (run step s (before ++ later ++ [e])) ∧ R (step (run step s (before ++ later)) e).1

/-- A run over two sequences of events is one run after the other. -/
theorem run_append (es' : List ε) : run step s (es ++ es') = run step (run step s es) es' :=
  List.foldl_append

variable {step}

/-- A condition on each step speaks of every event in the state before it. -/
theorem eachStep_iff {P : σ → ε → Prop} :
    EachStep step P s es ↔ ∀ before e after, es = before ++ e :: after →
      P (run step s before) e := by
  induction es generalizing s with
  | nil =>
    refine ⟨fun _ before e after h => ?_, fun _ => trivial⟩
    cases before <;> cases h
  | cons e es ih =>
    refine ⟨fun h before e' after hes => ?_, fun h =>
      ⟨h [] e es rfl, ih.mpr fun before e' after hes => ?_⟩⟩
    · cases before with
      | nil =>
        cases hes
        exact h.1
      | cons d before =>
        cases hes
        exact ih.mp h.2 before e' after rfl
    · exact h (e :: before) e' after (by rw [hes]; rfl)

/-- A condition on the events alone holds of each step. -/
theorem EachStep.of_forall_mem {P : σ → ε → Prop} (h : ∀ s, ∀ e ∈ es, P s e) :
    EachStep step P s es := by
  induction es generalizing s with
  | nil => trivial
  | cons e es ih =>
    exact ⟨h s e List.mem_cons_self, ih fun s e he => h s e (List.mem_cons_of_mem _ he)⟩

/-- A weaker condition holds of each step too. -/
theorem EachStep.mono {P Q : σ → ε → Prop} (h : EachStep step P s es) (hPQ : ∀ s e, P s e → Q s e) :
    EachStep step Q s es := by
  induction es generalizing s with
  | nil => trivial
  | cons e es ih => exact ⟨hPQ _ _ h.1, ih h.2⟩

/-- Two conditions that agree wherever an invariant of the steps holds. -/
theorem eachStep_congr_of {I : σ → Prop} {P Q : σ → ε → Prop} (hI : I s)
    (hstep : ∀ s e, I s → I (step s e).2)
    (h : ∀ s e, I s → (P s e ↔ Q s e)) : EachStep step P s es ↔ EachStep step Q s es := by
  induction es generalizing s with
  | nil => exact Iff.rfl
  | cons e es ih => exact and_congr (h s e hI) (ih (hstep s e hI))

/-- Two equivalent conditions on the steps. -/
theorem eachStep_congr {P Q : σ → ε → Prop} (h : ∀ s e, P s e ↔ Q s e) :
    EachStep step P s es ↔ EachStep step Q s es :=
  ⟨fun hP => hP.mono fun s e => (h s e).mp, fun hQ => hQ.mono fun s e => (h s e).mpr⟩

/-- The first state of a run has what every state has. -/
theorem EachState.first {I : σ → Prop} (h : EachState step I s es) : I s := by
  cases es with
  | nil => exact h
  | cons e es => exact h.1

/-- So has the last one. -/
theorem EachState.last {I : σ → Prop} (h : EachState step I s es) : I (run step s es) := by
  induction es generalizing s with
  | nil => exact h
  | cons e es ih => exact ih h.2

/-- An invariant that a step keeps exactly under `C` holds along a run exactly if `C` does. -/
theorem eachState_iff_eachStep {I : σ → Prop} {C : σ → ε → Prop} (hI : I s)
    (hstep : ∀ s e, I s → (I (step s e).2 ↔ C s e)) : EachState step I s es ↔
    EachStep step C s es := by
  induction es generalizing s with
  | nil => exact ⟨fun _ => trivial, fun _ => hI⟩
  | cons e es ih =>
    refine ⟨fun h => ?_, fun h => ⟨hI, ?_⟩⟩
    · have hnext : I (step s e).2 := h.2.first
      exact ⟨(hstep s e hI).mp hnext, (ih hnext).mp h.2⟩
    · exact (ih ((hstep s e hI).mpr h.1)).mpr h.2

/-- An invariant that the steps of a run keep under `C` holds along a run whose steps satisfy
`C`. -/
theorem EachStep.eachState {I : σ → Prop} {C : σ → ε → Prop} (h : EachStep step C s es) (hI : I s)
    (hstep : ∀ s e, I s → C s e → I (step s e).2) : EachState step I s es := by
  induction es generalizing s with
  | nil => exact hI
  | cons e es ih => exact ⟨hI, ih h.2 (hstep s e hI h.1)⟩

/-- A weaker property holds of every state too. -/
theorem EachState.mono {I J : σ → Prop} (h : EachState step I s es) (hIJ : ∀ s, I s → J s) :
    EachState step J s es := by
  induction es generalizing s with
  | nil => exact hIJ s h
  | cons e es ih => exact ⟨hIJ s h.1, ih h.2⟩

/-- A set of states absorbs a run exactly if no step of the run leads out of it. -/
theorem absorbing_iff_eachStep {E : σ → Prop} {R : ρ → Prop} :
    Absorbing step E R s es ↔
      EachStep step (fun s e => E s → E (step s e).2 ∧ R (step s e).1) s es := by
  rw [eachStep_iff]
  refine ⟨fun h before e after hes hE => ?_, fun h before later e after hes hE => ?_⟩
  · have hlater := h before [] e after (by rw [List.append_nil, hes]) hE
    rwa [List.append_nil, run_append] at hlater
  · -- by induction on the events since the set was entered
    have hstay : ∀ rest, es = before ++ later ++ rest → E (run step s (before ++ later)) := by
      clear hes
      induction later using List.reverseRecOn with
      | nil =>
        intro _ _
        rwa [List.append_nil]
      | append_singleton later d ih =>
        intro rest hes
        have hes' : es = before ++ later ++ d :: rest := by rw [hes]; simp
        rw [← List.append_assoc, run_append]
        exact (h (before ++ later) d rest hes' (ih _ hes')).1
    rw [run_append step [e]]
    exact h (before ++ later) e after hes (hstay _ hes)

section Countdown

/-- How many events of a run are counted. -/
def countSteps (step : σ → ε → ρ × σ) (counted : σ → ε → Prop) [∀ s e, Decidable (counted s e)] :
    σ → List ε → ℕ
  | _, [] => 0
  | s, e :: es => (if counted s e then 1 else 0) + countSteps step counted (step s e).2 es

/-- Steps counted by their events alone are counted in the sequence. -/
theorem countSteps_eq_countP (p : ε → Prop) [DecidablePred p] :
    countSteps step (fun _ e => p e) s es = es.countP p := by
  induction es generalizing s with
  | nil => rfl
  | cons e es ih =>
    rw [countSteps, ih, List.countP_cons, Nat.add_comm]
    simp only [decide_eq_true_eq]

/-- An event somewhere in a run that does not begin with it. -/
theorem exists_event_cons {e : ε} {P : σ → ε → Prop} (hne : ¬ P s e) :
    (∃ before d after, e :: es = before ++ d :: after ∧ P (run step s before) d) ↔
      ∃ before d after, es = before ++ d :: after ∧ P (run step (step s e).2 before) d := by
  constructor
  · rintro ⟨before, d, after, hes, hP⟩
    cases before with
    | nil =>
      cases hes
      exact absurd hP hne
    | cons e' before =>
      cases hes
      exact ⟨before, d, after, rfl, hP⟩
  · rintro ⟨before, d, after, rfl, hP⟩
    exact ⟨e :: before, d, after, rfl, hP⟩

/-- A distance that every counted event shortens by one comes down to zero at a counted event of a
run exactly if more events are counted than the distance at its beginning. -/
theorem exists_due_iff {counted : σ → ε → Prop} [∀ s e, Decidable (counted s e)] {distance : σ → ℕ}
    (hother : ∀ s e, ¬ counted s e → distance (step s e).2 = distance s)
    (hcounted : ∀ s e, counted s e → distance s ≠ 0 → distance (step s e).2 + 1 = distance s) :
    (∃ before e after, es = before ++ e :: after ∧ counted (run step s before) e ∧
      distance (run step s before) = 0) ↔
      distance s < countSteps step counted s es := by
  induction es generalizing s with
  | nil =>
    refine iff_of_false ?_ (Nat.not_lt_zero _)
    rintro ⟨before, e, after, hes, -⟩
    cases before <;> cases hes
  | cons e es ih =>
    rw [countSteps]
    by_cases hdue : counted s e ∧ distance s = 0
    · rw [if_pos hdue.1, hdue.2]
      exact iff_of_true ⟨[], e, es, rfl, hdue⟩ (Nat.lt_add_right _ Nat.one_pos)
    · refine (exists_event_cons
        (P := fun s e => counted s e ∧ distance s = 0) hdue).trans (ih.trans ?_)
      by_cases hc : counted s e
      · have hstep := hcounted s e hc fun h => hdue ⟨hc, h⟩
        rw [if_pos hc]
        omega
      · rw [if_neg hc, hother s e hc, Nat.zero_add]

end Countdown

end Machine
