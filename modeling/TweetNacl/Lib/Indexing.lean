import Mathlib.Tactic.Common

/-!
# Arrays at literal indices

A program that has been transcribed from C reads and writes its arrays at literal indices, or at
indices modulo the length. `nth`, `put` and `cyc` take the bound as an equation between Booleans:
evaluation proves it, and the term of a definition holds no lemma about its indices. Each is the
access it abbreviates.
-/

namespace Vector

variable {α : Type*} {n : ℕ}

/-- Element `i`. -/
abbrev nth (v : Vector α n) (i : ℕ) (h : Nat.blt i n = true := by exact Eq.refl true) : α :=
  v.get ⟨i, Nat.le_of_ble_eq_true h⟩

/-- The vector with `x` for element `i`. -/
abbrev put (v : Vector α n) (i : ℕ) (x : α) (h : Nat.blt i n = true := by exact Eq.refl true) :
    Vector α n :=
  v.set i x (Nat.le_of_ble_eq_true h)

/-- Element `i` modulo the length. -/
abbrev cyc (v : Vector α n) (i : ℕ) (h : Nat.blt 0 n = true := by exact Eq.refl true) : α :=
  v.get ⟨i % n, Nat.mod_lt i (Nat.le_of_ble_eq_true h)⟩

/-- Only the remainder of an index counts. -/
theorem cyc_congr (v : Vector α n) {i j : ℕ} (h : Nat.blt 0 n = true) (hij : i % n = j % n) :
    v.cyc i h = v.cyc j h := by
  simp only [cyc, hij]

/-- The total access is the ordinary one. -/
theorem nth_eq (v : Vector α n) {i : ℕ} (h : Nat.blt i n = true) (hi : i < n) :
    v.nth i h = v[i] := rfl

end Vector
