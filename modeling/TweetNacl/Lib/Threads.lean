import Mathlib.Data.Stream.Init
import Mathlib.Logic.Function.Iterate
import TweetNacl.Lib.Machine

/-!
# Threads over shared variables

A program is a tree of atomic accesses to the variables that threads share, of questions to the
environment and of busy waits. It can be run by itself, to the end, or as one of several threads, an
access at a time. The second part is about variables of which one is a once-only lock: a thread
takes it, initialises the others, and then opens it for good.
-/

namespace Threads

variable {σ ρ α β δ κ : Type}

/-- A program over variables `σ`, asking for answers in `ρ`. After an atomic access it knows what
the variables were before. -/
inductive Prog (σ ρ α : Type) where
  | pure (a : α)
  | atomic (f : σ → σ) (k : σ → Prog σ ρ α)
  | ask (k : ρ → Prog σ ρ α)
  | await (p : σ → Bool) (k : Prog σ ρ α)
  | stuck

namespace Prog

/-- One program after the other. -/
def bind : Prog σ ρ α → (α → Prog σ ρ β) → Prog σ ρ β
  | .pure a, g => g a
  | .atomic f k, g => .atomic f fun s => (k s).bind g
  | .ask k, g => .ask fun r => (k r).bind g
  | .await p k, g => .await p (k.bind g)
  | .stuck, _ => .stuck

instance : Monad (Prog σ ρ) where
  pure := .pure
  bind := .bind

/-- The variables. -/
def get : Prog σ ρ σ := .atomic id .pure

/-- A change of the variables. -/
def modify (f : σ → σ) : Prog σ ρ Unit := .atomic f fun _ => .pure ()

/-- An answer of the environment. -/
def answer : Prog σ ρ ρ := .ask .pure

/-- The result of a program that runs by itself, if it has one: a wait for something that does not
hold is never over. The environment answers from a stream. -/
def exec : Prog σ ρ α → σ → Stream' ρ → Option (α × σ × Stream' ρ)
  | .pure a, s, h => some (a, s, h)
  | .atomic f k, s, h => (k s).exec (f s) h
  | .ask k, s, h => (k h.head).exec s h.tail
  | .await p k, s, h => if p s then k.exec s h else none
  | .stuck, _, _ => none

section Exec

variable {s : σ} {h : Stream' ρ}

/-- Reading the shared state. -/
@[simp] theorem exec_get : (get : Prog σ ρ σ).exec s h = some (s, s, h) := rfl

/-- Taking the next answer of the environment. -/
@[simp] theorem exec_answer : (answer : Prog σ ρ ρ).exec s h = some (h.head, s, h.tail) := rfl

/-- One program after the other, alone. -/
@[simp] theorem exec_bind (x : Prog σ ρ α) (g : α → Prog σ ρ β) :
    (x >>= g).exec s h = (x.exec s h).bind fun r => (g r.1).exec r.2.1 r.2.2 := by
  change (x.bind g).exec s h = _
  induction x generalizing s h with
  | pure a => rfl
  | atomic f k ih => exact ih s
  | ask k ih => exact ih h.head
  | await p k ih =>
    simp only [bind, exec]
    split
    · exact ih
    · rfl
  | stuck => rfl

end Exec

/-- The program returns, and what it returns and leaves satisfies `Q`. -/
def Ends (x : Prog σ ρ α) (s : σ) (h : Stream' ρ) (Q : α → σ → Stream' ρ → Prop) : Prop :=
  ∃ a s' h', x.exec s h = some (a, s', h') ∧ Q a s' h'

section Ends

variable {s s' : σ} {h h' : Stream' ρ} {x : Prog σ ρ α} {a : α} {Q R : α → σ → Stream' ρ → Prop}

/-- A weaker postcondition. -/
theorem Ends.mono (hx : x.Ends s h Q) (hQR : ∀ a s' h', Q a s' h' → R a s' h') : x.Ends s h R := by
  obtain ⟨a, s', h', hexec, hQ⟩ := hx
  exact ⟨a, s', h', hexec, hQR a s' h' hQ⟩

/-- The postcondition holds of the result. -/
theorem Ends.post (hx : x.Ends s h Q) (hexec : x.exec s h = some (a, s', h')) : Q a s' h' := by
  obtain ⟨b, t, k, hexec', hQ⟩ := hx
  cases hexec.symm.trans hexec'
  exact hQ

/-- A program after one whose result is known. -/
theorem Ends.bind_of_exec {g : α → Prog σ ρ β} {R : β → σ → Stream' ρ → Prop}
    (hexec : x.exec s h = some (a, s', h')) (hg : (g a).Ends s' h' R) : (x >>= g).Ends s h R := by
  obtain ⟨b, t, k, hexec', hR⟩ := hg
  exact ⟨b, t, k, by rw [exec_bind, hexec, Option.bind_some, hexec'], hR⟩

/-- A program after one with a postcondition. -/
theorem Ends.bind {Q : α → σ → Stream' ρ → Prop} {g : α → Prog σ ρ β} {R : β → σ → Stream' ρ → Prop}
    (hx : x.Ends s h Q) (hg : ∀ a s' h', Q a s' h' → (g a).Ends s' h' R) :
    (x >>= g).Ends s h R := by
  obtain ⟨a, s', h', hexec, hQ⟩ := hx
  exact Ends.bind_of_exec hexec (hg a s' h' hQ)

end Ends

/-- One step of a program, with the answer for the case that it asks. -/
def step : Prog σ ρ α → σ → ρ → Prog σ ρ α × σ
  | .atomic f k, s, _ => (k s, f s)
  | .ask k, s, r => (k r, s)
  | .await p k, s, _ => if p s then (k, s) else (.await p k, s)
  | .pure a, s, _ => (.pure a, s)
  | .stuck, s, _ => (.stuck, s)

/-- The program asks next. -/
def Asks (x : Prog σ ρ α) : Prop := ∃ k, x = .ask k

/-- The program waits next. -/
def Waits (x : Prog σ ρ α) : Prop := ∃ p k, x = .await p k

/-- One step of a program that runs by itself. -/
def stepAlone : Prog σ ρ α × σ × Stream' ρ → Prog σ ρ α × σ × Stream' ρ
  | (.ask k, s, h) => (k h.head, s, h.tail)
  | (x, s, h) => ((x.step s h.head).1, (x.step s h.head).2, h)

/-- One step alone does not change the result. -/
theorem exec_stepAlone (c : Prog σ ρ α × σ × Stream' ρ) :
    (stepAlone c).1.exec (stepAlone c).2.1 (stepAlone c).2.2 = c.1.exec c.2.1 c.2.2 := by
  obtain ⟨x, s, h⟩ := c
  cases x with
  | await p k =>
    by_cases hp : p s = true
    · simp only [stepAlone, step, hp, exec, if_true]
    · simp only [stepAlone, step, hp, exec, if_false, Bool.false_eq_true]
  | _ => rfl

/-- The result of a program is what its steps lead to. -/
theorem exec_eq_some_iff {x : Prog σ ρ α} {s s' : σ} {h h' : Stream' ρ} {a : α} :
    x.exec s h = some (a, s', h') ↔ ∃ n, stepAlone^[n] (x, s, h) = (.pure a, s', h') := by
  constructor
  · intro hexec
    induction x generalizing s h with
    | pure b =>
      cases hexec
      exact ⟨0, rfl⟩
    | atomic f k ih =>
      obtain ⟨n, hn⟩ := ih s hexec
      exact ⟨n + 1, hn⟩
    | ask k ih =>
      obtain ⟨n, hn⟩ := ih h.head hexec
      exact ⟨n + 1, hn⟩
    | await p k ih =>
      simp only [exec] at hexec
      split at hexec
      · rename_i hp
        obtain ⟨n, hn⟩ := ih hexec
        have hstep : stepAlone (.await p k, s, h) = (k, s, h) := by
          simp only [stepAlone, step, hp, if_true]
        exact ⟨n + 1, by rw [Function.iterate_succ_apply, hstep, hn]⟩
      · cases hexec
    | stuck => cases hexec
  · rintro ⟨n, hn⟩
    have hkeep : ∀ n (c : Prog σ ρ α × σ × Stream' ρ),
        (stepAlone^[n] c).1.exec (stepAlone^[n] c).2.1 (stepAlone^[n] c).2.2 =
        c.1.exec c.2.1 c.2.2 := by
      intro n
      induction n with
      | zero => exact fun _ => rfl
      | succ n ih => exact fun c => (ih (stepAlone c)).trans (exec_stepAlone c)
    rw [← hkeep n (x, s, h), hn]
    rfl

end Prog

section Once

/-- The lock of a once-only initialisation. -/
inductive Phase where
  | fresh
  | running
  | complete
deriving DecidableEq, Repr

/-- Threads with shared variables. The owner is the thread that has taken the lock. -/
structure System (δ σ ρ : Type) where
  shared : σ
  prog : δ → Prog σ ρ Unit
  owner : Option δ

/-- A thread that has nothing to do starts a call, or a thread makes a step. -/
inductive Event (κ ρ : Type) where
  | call (c : κ)
  | step (r : ρ)

variable [DecidableEq δ] (phase : σ → Phase) (body : κ → Prog σ ρ Unit)

/-- Thread `d` has still to do `x`, and leaves the variables `s`. -/
def System.move (S : System δ σ ρ) (d : δ) (s : σ) (x : Prog σ ρ Unit) : System δ σ ρ where
  shared := s
  prog := Function.update S.prog d x
  owner := if phase S.shared = .fresh ∧ phase s = .running then some d else S.owner

/-- The system after an event of thread `e.1`. -/
def System.next (S : System δ σ ρ) (e : δ × Event κ ρ) : Unit × System δ σ ρ :=
  ((), match e.2, S.prog e.1 with
    | .call c, .pure _ => S.move phase e.1 S.shared (body c)
    | .call _, _ => S
    | .step r, x => S.move phase e.1 (x.step S.shared r).2 (x.step S.shared r).1)

/-- The thread holds the lock, and has not opened it. -/
def System.Holds (S : System δ σ ρ) (d : δ) : Prop := S.owner = some d ∧ phase S.shared = .running

/-- The holder of the lock waits. -/
def System.SelfWaits (S : System δ σ ρ) : Prop := ∃ d, S.Holds phase d ∧ (S.prog d).Waits

/-- The environment gives the holder of the lock an answer in `A`. -/
def OwnerAnswers (A : ρ → Prop) (S : System δ σ ρ) (e : δ × Event κ ρ) : Prop :=
  S.Holds phase e.1 → (S.prog e.1).Asks → ∀ r, e.2 = .step r → A r

/-- What a thread may do while it does not hold the lock (`false`) and while it does (`true`): take
the lock if it is fresh; open it, not wait and not return. The holder gets answers in `A`. -/
def Prog.Disciplined (A : ρ → Prop) : Bool → Prog σ ρ α → Prop
  | held, .pure _ => held = false
  | false, .atomic f k => ∀ s, phase (f s) = phase s ∧ (k s).Disciplined A false ∨
      phase s = .fresh ∧ phase (f s) = .running ∧ (k s).Disciplined A true
  | true, .atomic f k => ∀ s, phase s = .running →
      phase (f s) = .running ∧ (k s).Disciplined A true ∨ phase (f s) = .complete ∧
      (k s).Disciplined A false
  | false, .ask k => ∀ r, (k r).Disciplined A false
  | true, .ask k => ∀ r, A r → (k r).Disciplined A true
  | held, .await _ k => held = false ∧ k.Disciplined A false
  | _, .stuck => False

variable {phase} {body} {A : ρ → Prop}

/-- A disciplined program followed by disciplined ones. -/
theorem Prog.Disciplined.bind {x : Prog σ ρ α} {g : α → Prog σ ρ β} {held : Bool}
    (hx : x.Disciplined phase A held) (hg : ∀ a, (g a).Disciplined phase A false) :
    (x >>= g).Disciplined phase A held := by
  change (x.bind g).Disciplined phase A held
  induction x generalizing held with
  | pure a =>
    cases hx
    exact hg a
  | atomic f k ih =>
    cases held with
    | false => exact fun s => (hx s).imp (fun h => ⟨h.1, ih s h.2⟩) fun h =>
      ⟨h.1, h.2.1, ih s h.2.2⟩
    | true => exact fun s hs => (hx s hs).imp (fun h => ⟨h.1, ih s h.2⟩) fun h => ⟨h.1, ih s h.2⟩
  | ask k ih =>
    cases held with
    | false => exact fun r => ih r (hx r)
    | true => exact fun r hr => ih r (hx r hr)
  | await p k ih => exact ⟨hx.1, ih hx.2⟩
  | stuck => exact hx

/-- Reading the shared state keeps the discipline. -/
theorem Prog.Disciplined.get : (Prog.get : Prog σ ρ σ).Disciplined phase A false :=
  fun _ => .inl ⟨rfl, rfl⟩

/-- Taking an answer keeps it. -/
theorem Prog.Disciplined.answer : (Prog.answer : Prog σ ρ ρ).Disciplined phase A false :=
  fun _ => rfl

/-- Once the lock is open, a thread that keeps to the discipline leaves it open. -/
theorem Prog.Disciplined.complete_of_exec {x : Prog σ ρ α}
    (hx : x.Disciplined phase A false) {s s' : σ}
    {h h' : Stream' ρ} {a : α} (hs : phase s = .complete) (hexec : x.exec s h = some (a, s', h')) :
    phase s' = .complete := by
  induction x generalizing s h with
  | pure b =>
    cases hexec
    exact hs
  | atomic f k ih =>
    obtain ⟨hkeep, hk⟩ | ⟨hfresh, -⟩ := hx s
    · exact ih s hk (hkeep.trans hs) hexec
    · cases hs.symm.trans hfresh
  | ask k ih => exact ih h.head (hx h.head) hs hexec
  | await p k ih =>
    simp only [Prog.exec] at hexec
    split at hexec
    · exact ih hx.2 hs hexec
    · cases hexec
  | stuck => cases hexec

variable (phase A) in
/-- Every thread keeps to the discipline in what it has still to do. -/
def System.Disciplined (S : System δ σ ρ) : Prop :=
  ∀ d, (S.Holds phase d → (S.prog d).Disciplined phase A true) ∧
    (¬ S.Holds phase d → (S.prog d).Disciplined phase A false)

variable {S : System δ σ ρ} {d : δ} {s : σ} {x : Prog σ ρ Unit}

/-- A step that leaves the phase keeps the discipline of the system. -/
theorem System.Disciplined.move_same (hS : S.Disciplined phase A) (hs : phase s = phase S.shared)
    (hheld : S.Holds phase d → x.Disciplined phase A true)
    (hfree : ¬ S.Holds phase d → x.Disciplined phase A false) :
    (S.move phase d s x).Disciplined phase A := by
  have howner : (S.move phase d s x).owner = S.owner :=
    if_neg fun h => by cases (h.1.symm.trans (hs.symm.trans h.2))
  intro d'
  have hholds : (S.move phase d s x).Holds phase d' ↔ S.Holds phase d' := by
    rw [Holds, Holds, howner]
    exact and_congr_right fun _ => by rw [← hs, move]
  rw [hholds]
  rcases eq_or_ne d' d with rfl | hne
  · simp only [move, Function.update_self]
    exact ⟨hheld, hfree⟩
  · simp only [move, Function.update_of_ne hne]
    exact hS d'

/-- So does the step that takes the fresh phase. -/
theorem System.Disciplined.move_take (hS : S.Disciplined phase A) (hfresh : phase S.shared = .fresh)
    (hx : x.Disciplined phase A true) (hs : phase s = .running) :
    (S.move phase d s x).Disciplined phase A := by
  have howner : (S.move phase d s x).owner = some d := if_pos ⟨hfresh, hs⟩
  intro d'
  rcases eq_or_ne d' d with rfl | hne
  · simp only [move, Function.update_self]
    exact ⟨fun _ => hx, fun h => absurd ⟨howner, hs⟩ h⟩
  · simp only [move, Function.update_of_ne hne]
    have hfree : ¬ S.Holds phase d' := fun h => by cases (hfresh.symm.trans h.2)
    exact ⟨fun h => absurd (Option.some.inj (h.1.symm.trans howner)) hne, fun _ => (hS d').2 hfree⟩

/-- So does the step of the holder that completes the phase. -/
theorem System.Disciplined.move_open (hS : S.Disciplined phase A) (hd : S.Holds phase d)
    (hx : x.Disciplined phase A false) (hs : phase s = .complete) :
    (S.move phase d s x).Disciplined phase A := by
  intro d'
  have hfree : ¬ (S.move phase d s x).Holds phase d' := fun h => by cases (hs.symm.trans h.2)
  refine ⟨fun h => absurd h hfree, fun _ => ?_⟩
  rcases eq_or_ne d' d with rfl | hne
  · simpa only [move, Function.update_self]
  · simp only [move, Function.update_of_ne hne]
    exact (hS d').2 fun h => hne (Option.some.inj (h.1.symm.trans hd.1))

/-- An event keeps the threads to the discipline. -/
theorem System.Disciplined.next (hS : S.Disciplined phase A)
    (hbody : ∀ c, (body c).Disciplined phase A false) {e : δ × Event κ ρ}
    (he : OwnerAnswers phase A S e) : (S.next phase body e).2.Disciplined phase A := by
  obtain ⟨d, ev⟩ := e
  obtain ⟨hheld, hfree⟩ := hS d
  cases ev with
  | call c =>
    cases hx : S.prog d with
    | pure a =>
      have hd : ¬ S.Holds phase d := fun h => by
        have hheld := hheld h
        rw [hx] at hheld
        cases hheld
      simp only [System.next, hx]
      exact hS.move_same rfl (fun h => absurd h hd) fun _ => hbody c
    | _ =>
      simp only [System.next, hx]
      exact hS
  | step r =>
    simp only [System.next]
    cases hx : S.prog d with
    | pure a =>
      rw [hx] at hheld hfree
      exact hS.move_same rfl hheld hfree
    | atomic f k =>
      rw [hx] at hheld hfree
      by_cases hd : S.Holds phase d
      · obtain ⟨hs, hk⟩ | ⟨hs, hk⟩ := hheld hd S.shared hd.2
        · exact hS.move_same (hs.trans hd.2.symm) (fun _ => hk) fun h => absurd hd h
        · exact hS.move_open hd hk hs
      · obtain ⟨hs, hk⟩ | ⟨hfresh, hs, hk⟩ := hfree hd S.shared
        · exact hS.move_same hs (fun h => absurd h hd) fun _ => hk
        · exact hS.move_take hfresh hk hs
    | ask k =>
      rw [hx] at hheld hfree
      exact hS.move_same rfl (fun h => hheld h r (he h ⟨k, hx⟩ r rfl)) fun h => hfree h r
    | await p k =>
      rw [hx] at hheld hfree
      have hd : ¬ S.Holds phase d := fun h => by cases (hheld h).1
      simp only [Prog.step]
      split
      · exact hS.move_same rfl (fun h => absurd h hd) fun h => (hfree h).2
      · exact hS.move_same rfl hheld hfree
    | stuck =>
      rw [hx] at hheld hfree
      exact hS.move_same rfl hheld hfree

omit [DecidableEq δ] in
/-- In a disciplined system no thread waits for itself. -/
theorem System.Disciplined.not_selfWaits (hS : S.Disciplined phase A) : ¬ S.SelfWaits phase := by
  rintro ⟨d, hd, p, k, hx⟩
  have hheld := (hS d).1 hd
  rw [hx] at hheld
  cases hheld.1

/-- Where the environment gives the holder of the lock answers in `A`, it never waits. -/
theorem eachState_not_selfWaits (hS : S.Disciplined phase A)
    (hbody : ∀ c, (body c).Disciplined phase A false) {es : List (δ × Event κ ρ)}
    (hes : Machine.EachStep (System.next phase body) (OwnerAnswers phase A) S es) :
    Machine.EachState (System.next phase body) (fun S => ¬ S.SelfWaits phase) S es :=
  (hes.eachState hS fun _ _ hS he => hS.next hbody he).mono fun _ hS => hS.not_selfWaits

end Once

end Threads
