import Mathlib.Data.List.Basic
import Mathlib.Data.List.Induction

/-!
# Iterated hashing

A message is padded to blocks, and a compression function goes through the blocks from an initial
value. If no padded message is the end of another, then two messages with one hash value lead back
to two different inputs of the compression function with one output, and both are met in the two
computations.
-/

namespace IteratedHash

variable {σ β μ : Type*} {step : σ → β → σ} {z : σ}

/-- Two computations meet different inputs of the compression function with the same output. -/
def Collide (step : σ → β → σ) (z : σ) (bs bs' : List β) : Prop :=
  ∃ p b p' b', p ++ [b] <+: bs ∧ p' ++ [b'] <+: bs' ∧ (p.foldl step z, b) ≠ (p'.foldl step z, b') ∧
    step (p.foldl step z) b = step (p'.foldl step z) b'

/-- A collision in the first parts is one of the whole computations. -/
theorem Collide.append {bs bs' cs cs' : List β} (h : Collide step z bs bs') :
    Collide step z (bs ++ cs) (bs' ++ cs') := by
  obtain ⟨p, b, p', b', hp, hp', hne, hstep⟩ := h
  exact ⟨p, b, p', b', hp.trans (List.prefix_append _ _),
    hp'.trans (List.prefix_append _ _), hne, hstep⟩

/-- Computations with one result collide, unless the blocks of one are the last blocks of the
other. -/
theorem collide_of_foldl_eq {bs bs' : List β} (h : bs.foldl step z = bs'.foldl step z)
    (hend : ¬bs <:+ bs') (hend' : ¬bs' <:+ bs) : Collide step z bs bs' := by
  induction bs using List.reverseRecOn generalizing bs' with
  | nil => exact absurd List.nil_suffix hend
  | append_singleton bs b ih =>
    rcases List.eq_nil_or_concat' bs' with rfl | ⟨cs, c, rfl⟩
    · exact absurd List.nil_suffix hend'
    · rw [List.foldl_concat, List.foldl_concat] at h
      by_cases hsame : (bs.foldl step z, b) = (cs.foldl step z, c)
      · obtain ⟨hstate, rfl⟩ := Prod.mk.injEq .. ▸ hsame
        -- the last blocks agree, so the collision lies before them
        refine (ih hstate ?_ ?_).append
        · rintro ⟨t, rfl⟩
          exact hend ⟨t, (List.append_assoc _ _ _).symm⟩
        · rintro ⟨t, rfl⟩
          exact hend' ⟨t, (List.append_assoc _ _ _).symm⟩
      · exact ⟨bs, b, cs, c, List.prefix_rfl, List.prefix_rfl, hsame, h⟩

/-- The padded form of no other message ends in that of a message. -/
def SuffixFree (valid : μ → Prop) (pad : μ → List β) : Prop :=
  ∀ m m', valid m → valid m' → pad m <:+ pad m' → m = m'

/-- Different messages have different hash values, or their computations collide. -/
theorem SuffixFree.foldl_ne_or_collide {valid : μ → Prop} {pad : μ → List β}
    (h : SuffixFree valid pad) {m m' : μ} (hm : valid m) (hm' : valid m') (hne : m ≠ m') :
    (pad m).foldl step z ≠ (pad m').foldl step z ∨ Collide step z (pad m) (pad m') := by
  by_cases hsame : (pad m).foldl step z = (pad m').foldl step z
  · exact .inr (collide_of_foldl_eq hsame (fun hs => hne (h m m' hm hm' hs)) fun hs =>
      hne (h m' m hm' hm hs).symm)
  · exact .inl hsame

end IteratedHash
