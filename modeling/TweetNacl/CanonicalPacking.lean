import TweetNacl.OperandBounds

/-!
# Canonical packing

What `pack25519`, `neq25519`, `par25519` and `unpack25519` do, in terms of integers: an array stands
for the integer of its limbs, and is packed as the one integer below the prime that is congruent to
it.
-/

namespace TweetNacl

open Limbs

/-- `r` is the representative of `z` below the prime. -/
structure Canonical (z r : ℤ) : Prop where
  nonneg : 0 ≤ r
  lt : r < 2 ^ 255 - 19
  modEq : r ≡ z [ZMOD 2 ^ 255 - 19]

section Representatives

variable {z r : ℤ}

/-- The remainder modulo `p25519` is the canonical representative. -/
theorem canonical_emod (z : ℤ) : Canonical z (z % p25519) := by
  have hp := p25519_cast
  refine ⟨Int.emod_nonneg _ (by omega), ?_, ?_⟩
  · rw [← hp]
    exact Int.emod_lt_of_pos _ (by omega)
  · rw [← hp]
    exact Int.mod_modEq _ _

/-- A canonical representative is the remainder modulo `p25519`. -/
theorem Canonical.eq_emod (h : Canonical z r) : r = z % p25519 := by
  have hp := p25519_cast
  have hmod := h.modEq
  rw [← hp] at hmod
  rw [← hmod.eq]
  exact (Int.emod_eq_of_lt h.nonneg (by rw [hp]; exact h.lt)).symm

/-- Every integer has one representative. -/
theorem existsUnique_canonical (z : ℤ) : ∃! r, Canonical z r :=
  ⟨z % p25519, canonical_emod z, fun _ h => h.eq_emod⟩

end Representatives

/-- The range of the limbs of an array that is packed. -/
def Gf.Packable (n : Gf) : Prop := ∀ i < 16, -2 ^ 62 < n.limbs i ∧ n.limbs i < 2 ^ 62

instance (n : Gf) : Decidable n.Packable :=
  inferInstanceAs (Decidable (∀ i < 16, -2 ^ 62 < n.limbs i ∧ n.limbs i < 2 ^ 62))

/-- The limbs of a packable element stay below `2 ^ 62`, as the carries need. -/
theorem Gf.Packable.bounded {n : Gf} (h : n.Packable) : n.Bounded (2 ^ 62) := fun i hi => by
  obtain ⟨hlow, hhigh⟩ := h i hi
  exact abs_le.mpr ⟨hlow.le, hhigh.le⟩

/-- `pack25519` writes the representative of the integer of its array. -/
theorem pack25519_canonical {n : Gf} (hn : n.Bounded (2 ^ 62)) :
    Canonical n.value (leInt (pack25519 n)) := by
  rw [leInt_pack25519 hn, ← Gf.value_emod]
  exact canonical_emod _

/-- `par25519` is the parity of the canonical representative. -/
theorem par25519_canonical {a : Gf} (ha : a.Bounded (2 ^ 62)) {r : ℤ} (hr : Canonical a.value r) :
    ((Ed25519.par25519 a).toNat : ℤ) = r % 2 := by
  rw [hr.eq_emod, Gf.value_emod, Ed25519.par25519_eq ha, Int.natCast_mod]
  rfl

/-- Packing what was unpacked reduces the low 255 bits. -/
theorem pack_unpack25519_canonical (v : Vector UInt8 32) :
    Canonical (leInt v % 2 ^ 255) (leInt (pack25519 (unpack25519 v))) := by
  rw [← (unpack25519_spec v).2]
  exact pack25519_canonical ((unpack25519_denotes v).bounded.mono (by norm_num))

/-- Packing is canonical, does not overflow in its carries, and decides congruence and parity. -/
theorem canonical_packing :
    (∀ n : Gf, n.Packable → Checked.pack25519 n = some (pack25519 n) ∧ (∃! r, Canonical n.value r) ∧
      Canonical n.value (leInt (pack25519 n))) ∧
    (∀ a b : Gf, a.Packable → b.Packable → Checked.neq25519 a b = some (Ed25519.neq25519 a b) ∧
      (Ed25519.neq25519 a b = 0 ↔ a.value ≡ b.value [ZMOD 2 ^ 255 - 19])) ∧
    (∀ a : Gf, a.Packable → Checked.par25519 a = some (Ed25519.par25519 a) ∧
      ∀ r, Canonical a.value r → ((Ed25519.par25519 a).toNat : ℤ) = r % 2) ∧
    ∀ v : Vector UInt8 32, Checked.pack25519 (unpack25519 v) = some (pack25519 (unpack25519 v)) ∧
      Canonical (leInt v % 2 ^ 255) (leInt (pack25519 (unpack25519 v))) := by
  refine ⟨fun n hn => ?_, fun a b ha hb => ?_, fun a ha => ?_, fun v => ?_⟩
  · exact ⟨Checked.pack25519_eq hn.bounded, existsUnique_canonical _,
      pack25519_canonical hn.bounded⟩
  · refine ⟨Checked.neq25519_eq ha.bounded hb.bounded, ?_⟩
    rw [Ed25519.neq25519_eq_zero ha.bounded hb.bounded]
    exact intCast_eq_iff
  · exact ⟨Checked.par25519_eq ha.bounded, fun r hr => par25519_canonical ha.bounded hr⟩
  · exact ⟨Checked.pack25519_eq (unpack25519_denotes v).bounded, pack_unpack25519_canonical v⟩

/-- The difference of zero and one, which has a negative limb, and the coordinates of the base
point. -/
theorem canonical_packing_neg_one :
    Canonical (Gf.Z gf0 gf1).value (leInt (pack25519 (Gf.Z gf0 gf1))) ∧
      (Ed25519.neq25519 Gf.X Gf.Y = 0 ↔ Gf.X.value ≡ Gf.Y.value [ZMOD 2 ^ 255 - 19]) ∧
      ∀ r, Canonical Gf.X.value r → ((Ed25519.par25519 Gf.X).toNat : ℤ) = r % 2 :=
  ⟨(canonical_packing.1 (Gf.Z gf0 gf1) (by decide)).2.2,
    (canonical_packing.2.1 Gf.X Gf.Y (by decide) (by decide)).2,
    (canonical_packing.2.2.1 Gf.X (by decide)).2⟩

end TweetNacl
