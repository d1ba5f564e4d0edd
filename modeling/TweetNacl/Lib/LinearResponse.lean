import Mathlib.Algebra.Field.ZMod
import Mathlib.GroupTheory.OrderOfElement
import Mathlib.Tactic.Abel
import Mathlib.Tactic.LinearCombination
import Mathlib.Tactic.Ring

/-!
# Responses that are linear in the challenge

The response to a challenge is a nonce plus the challenge times a secret, modulo a prime order. Two
responses with the same nonce to different challenges determine the secret: as numbers, and as
multiples of an element of that order.
-/

namespace LinearResponse

/-- The secret of which `s` and `s'` are the responses to the challenges `h` and `h'`, with one
nonce. -/
def extract (q h h' s s' : ℕ) : ℕ := (((s : ZMod q) - s') * ((h : ZMod q) - h')⁻¹).val

variable {q h h' s s' a r : ℕ}

/-- Residues that differ have a difference that is not zero in the field. -/
theorem natCast_ne (hne : h % q ≠ h' % q) : (h : ZMod q) - h' ≠ 0 := fun heq =>
  hne ((ZMod.natCast_eq_natCast_iff' h h' q).mp (sub_eq_zero.mp heq))

/-- The extractor divides the difference of the responses by that of the challenges. -/
theorem extract_eq_of_sub [Fact q.Prime] (hne : h % q ≠ h' % q)
    (heq : (s : ZMod q) - s' = a * ((h : ZMod q) - h')) :
    extract q h h' s s' = a % q := by
  rw [extract, heq, mul_assoc, mul_inv_cancel₀ (natCast_ne hne), mul_one, ZMod.val_natCast]

/-- The secret of two responses. -/
theorem extract_responses (hq : q.Prime) (hne : h % q ≠ h' % q) (hs : s % q = (r + h * a) % q)
    (hs' : s' % q = (r + h' * a) % q) : extract q h h' s s' = a % q := by
  have := Fact.mk hq
  refine extract_eq_of_sub hne ?_
  rw [(ZMod.natCast_eq_natCast_iff' s _ q).mpr hs, (ZMod.natCast_eq_natCast_iff' s' _ q).mpr hs']
  push_cast
  ring

variable {G : Type*} [AddCommGroup G] {g : G}

/-- The secret of two responses that are given by the multiples of an element. -/
theorem extract_of_nsmul (hq : q.Prime) (hg : addOrderOf g = q) (hne : h % q ≠ h' % q)
    (heq : h • -(a • g) + s • g = h' • -(a • g) + s' • g) : extract q h h' s s' = a % q := by
  have := Fact.mk hq
  have hmultiple : (h' * a + s) • g = (h * a + s') • g := by
    rw [add_nsmul, add_nsmul, mul_nsmul', mul_nsmul']
    rw [neg_nsmul, neg_nsmul] at heq
    rw [← sub_eq_zero] at heq ⊢
    rw [← heq]
    abel
  have hmod := nsmul_eq_nsmul_iff_modEq.mp hmultiple
  rw [hg] at hmod
  have hcast := (ZMod.natCast_eq_natCast_iff _ _ q).mpr hmod
  push_cast at hcast
  exact extract_eq_of_sub hne (by linear_combination hcast)

end LinearResponse
