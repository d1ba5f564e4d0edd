import TweetNacl.Lib.Machine
import TweetNacl.Lib.Memory

/-!
# Machines whose steps are programs over the memory

A component answers each call by a program that may leave its objects, and carries its variables
from one call to the next. If a condition on the variables and the call says exactly when the
program of a call stays within its objects, and a machine says what it then returns, any sequence of
calls is a run of the machine or ends in a fault.
-/

namespace Memory

open Machine

variable {σ ε ρ : Type}

/-- Some calls, one after the other. -/
def runAll (step : σ → ε → Exec (ρ × σ)) (s : σ) : List ε → Exec σ
  | [] => pure s
  | e :: es => do
    let (_, next) ← step s e
    runAll step next es

/-- The program of a call follows the machine under the condition, and faults without it. -/
structure Follows (step : σ → ε → Exec (ρ × σ)) (answer : σ → ε → ρ × σ)
    (C : σ → ε → Prop) : Prop where
  runs : ∀ s e mem, C s e → ∃ mem', Runs (step s e) mem (answer s e) mem'
  faults : ∀ s e mem, ¬ C s e → ∃ fault, Faults (step s e) mem fault

variable {step : σ → ε → Exec (ρ × σ)} {answer : σ → ε → ρ × σ} {C : σ → ε → Prop}

/-- A run whose steps all meet the condition ends, in the state of the model. -/
theorem Follows.runAll_runs (h : Follows step answer C) {s : σ} {es : List ε}
    (hes : EachStep answer C s es)
    (mem : Mem) : ∃ mem', Runs (runAll step s es) mem (run answer s es) mem' := by
  induction es generalizing s mem with
  | nil => exact ⟨mem, Runs.pure _ _⟩
  | cons e es ih =>
    obtain ⟨mem₁, hcall⟩ := h.runs s e mem hes.1
    obtain ⟨mem', hrest⟩ := ih hes.2 mem₁
    exact ⟨mem', hcall.bind hrest⟩

/-- A run with a step that does not meet it leaves an object. -/
theorem Follows.runAll_faults (h : Follows step answer C) {s : σ} {es : List ε}
    (hes : ¬ EachStep answer C s es)
    (mem : Mem) : ∃ fault, Faults (runAll step s es) mem fault := by
  induction es generalizing s mem with
  | nil => exact absurd trivial hes
  | cons e es ih =>
    by_cases hC : C s e
    · obtain ⟨mem₁, hcall⟩ := h.runs s e mem hC
      obtain ⟨fault, hrest⟩ := ih (fun hrest => hes ⟨hC, hrest⟩) mem₁
      exact ⟨fault, Faults.bind_right hcall hrest⟩
    · obtain ⟨fault, hcall⟩ := h.faults s e mem hC
      exact ⟨fault, Faults.bind_left hcall⟩

/-- A sequence of calls returns exactly if each of them satisfies the condition in its turn, and
leaves the variables that the machine has then. -/
theorem Follows.runAll_iff (h : Follows step answer C) {s s' : σ} {es : List ε} {mem : Mem} :
    (∃ mem', Runs (runAll step s es) mem s' mem') ↔ EachStep answer C s es ∧
      s' = run answer s es := by
  refine ⟨fun ⟨mem', hrun⟩ => ?_, fun ⟨hes, hs'⟩ => hs' ▸ h.runAll_runs hes mem⟩
  have hes : EachStep answer C s es := by
    by_contra hes
    obtain ⟨fault, hfault⟩ := h.runAll_faults hes mem
    exact hrun.not_faults hfault
  obtain ⟨mem'', hrun'⟩ := h.runAll_runs hes mem
  exact ⟨hes, (hrun.unique hrun').1⟩

end Memory
