import TweetNacl.Lib.Threads

/-!
# Invariants of threads with a token

A token goes with the work that only one thread may do at a time, and has a stage. The invariant of
the shared variables depends on the stage. A thread without the token keeps the invariant whatever
the stage is, or takes the token where it is free; the thread with the token moves on to another
stage, or gives the token back. The token is a matter of the proof: neither the programs nor the
states have it.
-/

namespace Threads

open Machine

variable {σ ρ α β δ κ μ τ : Type}

namespace Prog

/-- The program over more variables, of which it uses the first. -/
def lift (τ : Type) : Prog σ ρ α → Prog (σ × τ) ρ α
  | .pure a => .pure a
  | .atomic f k => .atomic (fun s => (f s.1, s.2)) fun s => (k s.1).lift τ
  | .ask k => .ask fun r => (k r).lift τ
  | .await p k => .await (fun s => p s.1) (k.lift τ)
  | .stuck => .stuck

/-- A thread with these variables may have this stage of the token, or be without it. -/
def Seen (I : Option μ → σ → Prop) : Option μ → σ → Prop
  | none, s => ∃ stage, I stage s
  | some m, s => I (some m) s

/-- The program keeps the invariant `I` from a stage of the token on, or without it, and returns as
`Q` says. -/
def Guarded (I : Option μ → σ → Prop) (Q : Option μ → α → Prop) : Option μ → Prog σ ρ α → Prop
  | held, .pure a => Q held a
  | none, .atomic f k => ∀ stage s, I stage s → I stage (f s) ∧ (k s).Guarded I Q none ∨
      stage = none ∧ ∃ m, I (some m) (f s) ∧ (k s).Guarded I Q (some m)
  | some m, .atomic f k => ∀ s, I (some m) s → ∃ stage, I stage (f s) ∧ (k s).Guarded I Q stage
  | held, .ask k => ∀ r, (k r).Guarded I Q held
  | held, .await p k => ∀ s, Seen I held s → p s = true → k.Guarded I Q held
  | _, .stuck => True

variable {I : Option μ → σ → Prop} {Q : Option μ → α → Prop} {R : Option μ → β → Prop}
  {held : Option μ} {m : μ}

/-- A guarded program followed by guarded ones. -/
theorem Guarded.bind {x : Prog σ ρ α} {g : α → Prog σ ρ β} (hx : x.Guarded I Q held)
    (hg : ∀ held a, Q held a → (g a).Guarded I R held) : (x >>= g).Guarded I R held := by
  change (x.bind g).Guarded I R held
  induction x generalizing held with
  | pure a => exact hg held a hx
  | atomic f k ih =>
    cases held with
    | none =>
      exact fun stage s hs => (hx stage s hs).imp (fun h => ⟨h.1, ih s h.2⟩)
        fun h => ⟨h.1, h.2.imp fun m hm => ⟨hm.1, ih s hm.2⟩⟩
    | some m => exact fun s hs => (hx s hs).imp fun stage h => ⟨h.1, ih s h.2⟩
  | ask k ih => exact fun r => ih r (hx r)
  | await p k ih => exact fun s hs hp => ih (hx s hs hp)
  | stuck => trivial

/-- A thread without the token reads the variables. -/
theorem Guarded.get {g : σ → Prog σ ρ β} (hg : ∀ stage s, I stage s → (g s).Guarded I R none) :
    (Prog.get >>= g).Guarded I R none := fun stage s hs => .inl ⟨hs, hg stage s hs⟩

/-- The thread with the token reads the variables. -/
theorem Guarded.get_held {g : σ → Prog σ ρ β}
    (hg : ∀ s, I (some m) s → (g s).Guarded I R (some m)) :
    (Prog.get >>= g).Guarded I R (some m) := fun s hs => ⟨some m, hs, hg s hs⟩

/-- A thread without the token changes the variables. -/
theorem Guarded.modify {f : σ → σ} {x : Prog σ ρ β} (hf : ∀ stage s, I stage s → I stage (f s))
    (hx : x.Guarded I R none) : (Prog.modify f >>= fun _ => x).Guarded I R none :=
  fun stage s hs => .inl ⟨hf stage s hs, hx⟩

/-- A thread without the token changes the variables, and returns. -/
theorem Guarded.modify_last {f : σ → σ} (hf : ∀ stage s, I stage s → I stage (f s)) :
    (Prog.modify f : Prog σ ρ Unit).Guarded I (fun held _ => held = none) none :=
  fun stage s hs => .inl ⟨hf stage s hs, rfl⟩

/-- The thread with the token changes the variables, and may move on or give the token back. -/
theorem Guarded.modify_held {f : σ → σ} {x : Prog σ ρ β} (stage : Option μ)
    (hf : ∀ s, I (some m) s → I stage (f s))
    (hx : x.Guarded I R stage) : (Prog.modify f >>= fun _ => x).Guarded I R (some m) :=
  fun s hs => ⟨stage, hf s hs, hx⟩

/-- A program that runs by itself keeps the invariant, and returns what it may return among other
threads. -/
theorem Guarded.post {x : Prog σ ρ α} (hx : x.Guarded I Q held) {s s' : σ} {h h' : Stream' ρ}
    {a : α} (hs : I held s) (hexec : x.exec s h = some (a, s', h')) : ∃ held', Q held' a ∧
    I held' s' := by
  induction x generalizing held s h with
  | pure b =>
    cases hexec
    exact ⟨held, hx, hs⟩
  | atomic f k ih =>
    cases held with
    | none =>
      obtain ⟨hf, hk⟩ | ⟨-, m, hf, hk⟩ := hx none s hs
      · exact ih s hk hf hexec
      · exact ih s hk hf hexec
    | some m =>
      obtain ⟨stage, hf, hk⟩ := hx s hs
      exact ih s hk hf hexec
  | ask k ih => exact ih h.head (hx h.head) hs hexec
  | await p k ih =>
    simp only [Prog.exec] at hexec
    split at hexec
    · rename_i hp
      refine ih (hx s ?_ hp) hs hexec
      cases held with
      | none => exact ⟨none, hs⟩
      | some m => exact hs
    · cases hexec
  | stuck => cases hexec

/-- Further variables are left alone. -/
theorem Guarded.lift {x : Prog σ ρ α} (hx : x.Guarded I Q held) (T : τ → Prop) :
    (x.lift τ).Guarded (fun stage s => I stage s.1 ∧ T s.2) Q held := by
  induction x generalizing held with
  | pure a => exact hx
  | atomic f k ih =>
    cases held with
    | none =>
      exact fun stage s hs => (hx stage s.1 hs.1).imp (fun h => ⟨⟨h.1, hs.2⟩, ih s.1 h.2⟩)
        fun h => ⟨h.1, h.2.imp fun m hm => ⟨⟨hm.1, hs.2⟩, ih s.1 hm.2⟩⟩
    | some m => exact fun s hs => (hx s.1 hs.1).imp fun stage h => ⟨⟨h.1, hs.2⟩, ih s.1 h.2⟩
  | ask k ih => exact fun r => ih r (hx r)
  | await p k ih =>
    refine fun s hs hp => ih (hx s.1 ?_ hp)
    cases held with
    | none => exact hs.imp fun stage h => h.1
    | some m => exact hs.1
  | stuck => trivial

end Prog

section System

variable [DecidableEq δ] {phase : σ → Phase} {body : κ → Prog σ ρ Unit} {I : Option μ → σ → Prop}
  {S : System δ σ ρ} {d : δ} {s : σ} {x : Prog σ ρ Unit} {m : μ}

/-- The stage of the token, for the thread that has it. -/
def heldBy (token : Option (δ × μ)) (d : δ) : Option μ :=
  token.bind fun t => if t.1 = d then some t.2 else none

/-- The holder of a token has it in its stage. -/
theorem heldBy_self (d : δ) (stage : Option μ) : heldBy (stage.map fun m => (d, m)) d = stage := by
  cases stage with
  | none => rfl
  | some m => exact if_pos rfl

/-- Another thread does not have it. -/
theorem heldBy_of_ne {d' : δ} (h : d' ≠ d) (stage : Option μ) :
    heldBy (stage.map fun m => (d, m)) d' = none := by
  cases stage with
  | none => rfl
  | some m => exact if_neg h.symm

/-- A thread that has the token in some stage is its holder. -/
theorem eq_of_heldBy {token : Option (δ × μ)} (h : heldBy token d = some m) :
    token = some (d, m) := by
  obtain ⟨⟨d', m'⟩, rfl, hm⟩ := Option.bind_eq_some_iff.mp h
  split at hm
  · rename_i hd
    rw [← hd, ← Option.some.inj hm]
  · cases hm

/-- Some thread has the token or none, the variables satisfy the invariant at its stage, and what
every thread has still to do is guarded. -/
def System.Kept (I : Option μ → σ → Prop) (S : System δ σ ρ) : Prop :=
  ∃ token : Option (δ × μ), I (token.map Prod.snd) S.shared ∧
    ∀ d, (S.prog d).Guarded I (fun held _ => held = none) (heldBy token d)

/-- A step of one thread that accounts for the token keeps the system guarded. -/
theorem System.Kept.move {token : Option (δ × μ)} (token' : Option (δ × μ))
    (hS : ∀ d, (S.prog d).Guarded I (fun held _ => held = none) (heldBy token d))
    (hs : I (token'.map Prod.snd) s) (hother : ∀ d', d' ≠ d → heldBy token' d' = heldBy token d')
    (hx : x.Guarded I (fun held _ => held = none) (heldBy token' d)) :
    (S.move phase d s x).Kept I := by
  refine ⟨token', hs, fun d' => ?_⟩
  rcases eq_or_ne d' d with rfl | hne
  · simpa only [System.move, Function.update_self] using hx
  · simpa only [System.move, Function.update_of_ne hne, hother d' hne] using hS d'

/-- An event keeps the invariant. -/
theorem System.Kept.next (hS : S.Kept I)
    (hbody : ∀ c, (body c).Guarded I (fun held _ => held = none) none)
    (e : δ × Event κ ρ) : (S.next phase body e).2.Kept I := by
  obtain ⟨token, hI, hprog⟩ := hS
  obtain ⟨d, ev⟩ := e
  have hd := hprog d
  have hsame : ∀ {x : Prog σ ρ Unit}, x.Guarded I (fun held _ => held = none) (heldBy token d) →
      (S.move phase d S.shared x).Kept I := fun hx => .move token hprog hI (fun _ _ => rfl) hx
  cases ev with
  | call c =>
    cases hx : S.prog d with
    | pure a =>
      rw [hx] at hd
      simp only [System.next, hx]
      exact hsame ((show heldBy token d = none from hd) ▸ hbody c)
    | _ =>
      simp only [System.next, hx]
      exact ⟨token, hI, hprog⟩
  | step r =>
    simp only [System.next]
    cases hx : S.prog d with
    | atomic f k =>
      rw [hx] at hd
      cases hheld : heldBy token d with
      | none =>
        rw [hheld] at hd
        obtain ⟨hs, hk⟩ | ⟨hfree, m, hs, hk⟩ := hd _ S.shared hI
        · exact .move token hprog hs (fun _ _ => rfl) (hheld.symm ▸ hk)
        · -- the thread takes the token
          have htoken : token = none := Option.map_eq_none_iff.mp hfree
          exact .move ((some m).map fun m => (d, m)) hprog hs
            (fun d' hne => by rw [heldBy_of_ne hne, htoken]; rfl)
            ((heldBy_self d (some m)).symm ▸ hk)
      | some m =>
        rw [hheld] at hd
        have htoken : token = (some m).map fun m => (d, m) := eq_of_heldBy hheld
        obtain ⟨stage, hs, hk⟩ := hd S.shared (by rw [htoken] at hI; exact hI)
        refine .move (stage.map fun m => (d, m)) hprog ?_ (fun d' hne => ?_)
          ((heldBy_self d stage).symm ▸ hk)
        · cases stage <;> exact hs
        · rw [heldBy_of_ne hne, htoken, heldBy_of_ne hne]
    | ask k =>
      rw [hx] at hd
      exact hsame (hd r)
    | await p k =>
      rw [hx] at hd
      simp only [Prog.step]
      split
      · rename_i hp
        refine hsame (hd S.shared ?_ hp)
        cases hheld : heldBy token d with
        | none => exact ⟨_, hI⟩
        | some m =>
          rw [eq_of_heldBy hheld] at hI
          exact hI
      · exact hsame hd
    | _ =>
      rw [hx] at hd
      exact hsame hd

/-- The invariant holds in every state of a run, whatever the threads call and in whatever order
they step. -/
theorem System.Kept.eachState (hS : S.Kept I)
    (hbody : ∀ c, (body c).Guarded I (fun held _ => held = none) none)
    (es : List (δ × Event κ ρ)) : EachState (System.next phase body)
      (fun S => ∃ stage, I stage S.shared) S es := by
  have hes : EachStep (System.next phase body) (fun _ _ => True) S es :=
    EachStep.of_forall_mem fun _ _ _ => trivial
  exact (hes.eachState hS fun _ e hS _ => hS.next hbody e).mono fun _ hS =>
    hS.elim fun token h => ⟨_, h.1⟩

end System

end Threads
