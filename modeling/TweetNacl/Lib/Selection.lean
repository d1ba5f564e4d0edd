import Mathlib.Algebra.Order.Ring.Int
import Mathlib.Data.List.Basic
import Mathlib.Data.List.Induction

/-!
# Selection of the best entry of a table

A scan of a table keeps the best entry so far and replaces it by an entry that is eligible and ranks
higher.
-/

namespace Selection

variable {α : Type*} (eligible : α → Bool) (rank : α → ℤ)

/-- The result of the scan, from an initial entry on. -/
def best (init : α) (xs : List α) : α :=
  xs.foldl (fun b x => if eligible x then (if rank x > rank b then x else b) else b) init

variable {eligible rank} {init : α} {xs : List α}

/-- One more entry is scanned. -/
theorem best_concat (x : α) : best eligible rank init (xs ++ [x]) =
    if eligible x ∧ rank (best eligible rank init xs) < rank x then x
    else best eligible rank init xs := by
  rw [best, List.foldl_concat, ← best]
  cases eligible x with
  | true => simp only [if_true, true_and, gt_iff_lt]
  | false => simp only [Bool.false_eq_true, if_false, false_and]

variable (eligible rank init xs)

/-- No eligible entry ranks higher, and neither does the initial one. -/
theorem rank_le_best : rank init ≤ rank (best eligible rank init xs) ∧
    ∀ x ∈ xs, eligible x → rank x ≤ rank (best eligible rank init xs) := by
  induction xs using List.reverseRecOn with
  | nil => exact ⟨le_rfl, fun x hx => absurd hx List.not_mem_nil⟩
  | append_singleton xs y ih =>
    rw [best_concat]
    split_ifs with hy
    · refine ⟨ih.1.trans hy.2.le, fun x hx hok => ?_⟩
      rcases List.mem_append.mp hx with hx | hx
      · exact (ih.2 x hx hok).trans hy.2.le
      · rw [List.mem_singleton.mp hx]
    · refine ⟨ih.1, fun x hx hok => ?_⟩
      rcases List.mem_append.mp hx with hx | hx
      · exact ih.2 x hx hok
      · rw [List.mem_singleton.mp hx] at hok ⊢
        exact not_lt.mp fun hlt => hy ⟨hok, hlt⟩

/-- The result is the initial entry or an eligible one. -/
theorem best_eq_or_mem : best eligible rank init xs = init ∨
    best eligible rank init xs ∈ xs ∧ eligible (best eligible rank init xs) := by
  induction xs using List.reverseRecOn with
  | nil => exact .inl rfl
  | append_singleton xs y ih =>
    rw [best_concat]
    split_ifs with hy
    · exact .inr ⟨List.mem_append_right _ List.mem_cons_self, hy.1⟩
    · exact ih.imp_right fun h => ⟨List.mem_append_left _ h.1, h.2⟩

variable {eligible rank init xs}

/-- An eligible entry that ranks above all other eligible ones and the initial one is selected. -/
theorem best_eq_of_forall_lt {x : α} (hx : x ∈ xs) (hok : eligible x) (hinit : rank init < rank x)
    (hothers : ∀ y ∈ xs, eligible y → rank x ≤ rank y → y = x) :
    best eligible rank init xs = x := by
  have hle := (rank_le_best eligible rank init xs).2 x hx hok
  rcases best_eq_or_mem eligible rank init xs with heq | ⟨hmem, hbest⟩
  · rw [heq] at hle
    exact absurd hle hinit.not_ge
  · exact hothers _ hmem hbest hle

/-- Without an eligible entry the initial one stays. -/
theorem best_eq_init (h : ∀ y ∈ xs, eligible y → rank y ≤ rank init) :
    best eligible rank init xs = init := by
  induction xs using List.reverseRecOn with
  | nil => rfl
  | append_singleton xs y ih =>
    rw [best_concat, ih fun y hy => h y (List.mem_append_left _ hy), if_neg]
    exact fun hy => (h y (List.mem_append_right _ List.mem_cons_self) hy.1).not_gt hy.2

end Selection
