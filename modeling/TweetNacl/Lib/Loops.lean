import Mathlib.Algebra.Ring.Nat
import Mathlib.Tactic.Common

/-!
# Invariant rules for counted loops

A loop `for (i = 0; i < n; i++)` is `Nat.fold` and a loop `for (i = n - 1; i >= 0; i--)`
is `Nat.foldRev`; both hand the body a proof that the counter is in range. The rules
below are the only induction principles the developments above them use: a property
indexed by the counter, its initial case, and one preservation step.
-/

namespace Loops

variable {σ : Type*}

/-- An upward loop establishes what its body preserves, indexed by the number of passes made. -/
theorem fold_invariant {n : ℕ} {f : (i : ℕ) → i < n → σ → σ} {s : σ}
    (inv : ℕ → σ → Prop) (hinit : inv 0 s)
    (hstep : ∀ i (hi : i < n) state, inv i state → inv (i + 1) (f i hi state)) :
    inv n (Nat.fold n f s) := by
  induction n with
  | zero => simpa using hinit
  | succ n ih =>
    rw [Nat.fold_succ]
    exact hstep n _ _ (ih fun i hi => hstep i (by omega))

/-- A downward loop runs its invariant from the top counter value to zero. -/
theorem foldRev_invariant {n : ℕ} {f : (i : ℕ) → i < n → σ → σ} {s : σ}
    (inv : ℕ → σ → Prop) (hinit : inv n s)
    (hstep : ∀ i (hi : i < n) state, inv (i + 1) state → inv i (f i hi state)) :
    inv 0 (Nat.foldRev n f s) := by
  induction n generalizing s with
  | zero => simpa using hinit
  | succ n ih =>
    rw [Nat.foldRev_succ]
    exact ih (hstep n _ _ hinit) fun i hi => hstep i (by omega)

/-- A downward loop over the bits of a number goes through the numbers its leading bits denote. -/
theorem foldRev_bits {n k : ℕ} {f : (i : ℕ) → i < n → σ → σ} {s : σ} (inv : ℕ → σ → Prop)
    (hk : k < 2 ^ n) (hinit : inv 0 s)
    (hstep : ∀ i (hi : i < n) m state, inv m state →
      inv (2 * m + (k.testBit i).toNat) (f i hi state)) :
    inv k (Nat.foldRev n f s) := by
  have h := foldRev_invariant (f := f) (s := s) (fun i state => inv (k / 2 ^ i) state)
    (by rwa [Nat.div_eq_of_lt hk]) fun i hi state hstate => ?_
  · rwa [Nat.pow_zero, Nat.div_one] at h
  · have hbit : k / 2 ^ i = 2 * (k / 2 ^ (i + 1)) + (k.testBit i).toNat := by
      rw [Nat.toNat_testBit, Nat.pow_succ, ← Nat.div_div_eq_div_mul]
      omega
    rw [hbit]
    exact hstep i hi _ state hstate

/-- A downward loop whose body does not need the bound of the counter. -/
def countdown (f : ℕ → σ → σ) : ℕ → σ → σ
  | 0, s => s
  | n + 1, s => countdown f n (f n s)

/-- The descending fold is the countdown. -/
theorem foldRev_eq_countdown (f : ℕ → σ → σ) (n : ℕ) (s : σ) :
    Nat.foldRev n (fun i _ a => f i a) s = countdown f n s := by
  induction n generalizing s with
  | zero => rfl
  | succ n ih =>
    rw [Nat.foldRev_succ, ih]
    rfl

/-- Two upward loops whose bodies keep a relation end in related states. -/
theorem fold_simulation {τ : Type*} {n : ℕ} {f : (i : ℕ) → i < n → σ → σ}
    {g : (i : ℕ) → i < n → τ → τ} {s : σ} {t : τ} (rel : σ → τ → Prop)
    (hinit : rel s t)
    (hstep : ∀ i (hi : i < n) a b, rel a b → rel (f i hi a) (g i hi b)) :
    rel (Nat.fold n f s) (Nat.fold n g t) := by
  induction n with
  | zero => simpa using hinit
  | succ n ih =>
    rw [Nat.fold_succ, Nat.fold_succ]
    exact hstep n _ _ _ (ih fun i hi => hstep i (by omega))

/-- Two downward loops whose bodies keep a relation end in related states. -/
theorem foldRev_simulation {τ : Type*} {n : ℕ} {f : (i : ℕ) → i < n → σ → σ}
    {g : (i : ℕ) → i < n → τ → τ} {s : σ} {t : τ} (rel : σ → τ → Prop)
    (hinit : rel s t)
    (hstep : ∀ i (hi : i < n) a b, rel a b → rel (f i hi a) (g i hi b)) :
    rel (Nat.foldRev n f s) (Nat.foldRev n g t) := by
  induction n generalizing s t with
  | zero => simpa using hinit
  | succ n ih =>
    rw [Nat.foldRev_succ, Nat.foldRev_succ]
    exact ih (hstep n _ _ _ hinit) fun i hi => hstep i (by omega)

/-- An upward loop whose body can stop. -/
def tryFold (n : ℕ) (f : (i : ℕ) → i < n → σ → Option σ) (s : σ) : Option σ :=
  Nat.fold n (fun i hi s => s.bind (f i hi)) (some s)

/-- A downward loop whose body can stop. -/
def tryFoldRev (n : ℕ) (f : (i : ℕ) → i < n → σ → Option σ) (s : σ) : Option σ :=
  Nat.foldRev n (fun i hi s => s.bind (f i hi)) (some s)

/-- A loop does not stop if no pass does under an invariant of the loop that cannot stop. -/
theorem tryFold_eq {n : ℕ} {f : (i : ℕ) → i < n → σ → Option σ}
    {g : (i : ℕ) → i < n → σ → σ} {s : σ} (inv : ℕ → σ → Prop) (hinit : inv 0 s)
    (hstep : ∀ i (hi : i < n) state, inv i state → inv (i + 1) (g i hi state))
    (hsome : ∀ i (hi : i < n) state, inv i state → f i hi state = some (g i hi state)) :
    tryFold n f s = some (Nat.fold n g s) := by
  induction n with
  | zero => rw [tryFold, Nat.fold_zero, Nat.fold_zero]
  | succ n ih =>
    have hlow := ih (f := fun i hi => f i (by omega)) (g := fun i hi => g i (by omega))
      (fun i hi => hstep i (by omega)) fun i hi => hsome i (by omega)
    rw [tryFold] at hlow ⊢
    rw [Nat.fold_succ, hlow, Nat.fold_succ, Option.bind_some]
    exact hsome n _ _ (fold_invariant inv hinit fun i hi => hstep i (by omega))

/-- A downward loop on representations of states that does not stop is the loop on the states. -/
theorem tryFoldRev_rep {τ : Type*} {n : ℕ} {f : (i : ℕ) → i < n → σ → Option σ}
    {g : (i : ℕ) → i < n → τ → τ} {t : τ} (rep : τ → σ) (inv : ℕ → τ → Prop) (hinit : inv n t)
    (hstep : ∀ i (hi : i < n) state, inv (i + 1) state → inv i (g i hi state))
    (hsome : ∀ i (hi : i < n) state, inv (i + 1) state →
      f i hi (rep state) = some (rep (g i hi state))) :
    tryFoldRev n f (rep t) = some (rep (Nat.foldRev n g t)) := by
  induction n generalizing t with
  | zero => rw [tryFoldRev, Nat.foldRev_zero, Nat.foldRev_zero]
  | succ n ih =>
    rw [tryFoldRev, Nat.foldRev_succ, Nat.foldRev_succ, Option.bind_some, hsome n _ t hinit]
    exact ih (f := fun i hi => f i (by omega)) (hstep n _ t hinit) (fun i hi => hstep i (by omega))
      fun i hi => hsome i (by omega)

/-- A descending loop that may fail ends like the total one when its invariant excludes the
failures. -/
theorem tryFoldRev_eq {n : ℕ} {f : (i : ℕ) → i < n → σ → Option σ}
    {g : (i : ℕ) → i < n → σ → σ} {s : σ} (inv : ℕ → σ → Prop) (hinit : inv n s)
    (hstep : ∀ i (hi : i < n) state, inv (i + 1) state → inv i (g i hi state))
    (hsome : ∀ i (hi : i < n) state, inv (i + 1) state → f i hi state = some (g i hi state)) :
    tryFoldRev n f s = some (Nat.foldRev n g s) :=
  tryFoldRev_rep id inv hinit hstep hsome

/-- A loop on representations of states is the loop on the states. -/
theorem tryFold_map {τ : Type*} {n : ℕ} {f : (i : ℕ) → i < n → σ → Option σ}
    {g : (i : ℕ) → i < n → τ → Option τ}
    (rep : τ → σ) (h : ∀ i (hi : i < n) t, f i hi (rep t) = (g i hi t).map rep) (t : τ) :
    tryFold n f (rep t) = (tryFold n g t).map rep := by
  induction n with
  | zero => rfl
  | succ n ih =>
    have hlow := ih (f := fun i hi => f i (by omega)) (g := fun i hi => g i (by omega)) fun i hi =>
      h i (by omega)
    rw [tryFold, tryFold] at hlow ⊢
    rw [Nat.fold_succ, hlow, Nat.fold_succ]
    cases Nat.fold n (fun i hi (s : Option τ) => s.bind (g i (by omega))) (some t) with
    | none => rfl
    | some s => exact h n _ s

/-- Loops with the same passes are equal. -/
theorem fold_congr {n : ℕ} {f g : (i : ℕ) → i < n → σ → σ} {s : σ}
    (h : ∀ i (hi : i < n) a, f i hi a = g i hi a) : Nat.fold n f s = Nat.fold n g s :=
  fold_simulation Eq rfl fun i hi a b hab => by rw [hab, h i hi b]

/-- A loop of `q + r` passes is two loops. -/
theorem fold_append (f : ℕ → σ → σ) (q r : ℕ) (s : σ) :
    Nat.fold (q + r) (fun k _ a => f k a) s =
      Nat.fold r (fun k _ a => f (q + k) a) (Nat.fold q (fun k _ a => f k a) s) := by
  induction r with
  | zero => simp
  | succ r ih => rw [← Nat.add_assoc, Nat.fold_succ, Nat.fold_succ, ih]

end Loops
