import TweetNacl.Malleability

/-!
# Uniqueness of encoded public keys

`unpackneg` reduces the `y` coordinate of its 32 bytes without a comparison, and gives the sign bit
no meaning where `x` is zero. A byte string it accepts is the encoding of the point it denotes
exactly if it is canonical.
-/

namespace TweetNacl

open Edwards Limbs

namespace Ed25519

/-- The negative of a point in extended coordinates. -/
def negate (p : GfPoint) : GfPoint := ⟨Gf.Z gf0 p.x, p.y, p.z, Gf.Z gf0 p.t⟩

/-- The number in the low 255 bits is below `2 ^ 255 - 19`, and where it is `1` or `-1`, so that the
`x` coordinate is zero, the sign bit is clear. -/
def Canonical (p : Vector UInt8 32) : Prop :=
  leNat p % 2 ^ 255 < 2 ^ 255 - 19 ∧
    (leNat p % 2 ^ 255 = 1 ∨ leNat p % 2 ^ 255 = 2 ^ 255 - 20 → leNat p < 2 ^ 255)

instance (p : Vector UInt8 32) : Decidable (Canonical p) := inferInstanceAs (Decidable (_ ∧ _))

variable {p : Vector UInt8 32} {r : GfPoint} {P : EdPoint}

/-- Packing the negated coordinates encodes the negated point. -/
theorem leNat_pack_negate (h : r.Denotes P) : leNat (pack (negate r)) = encode (-P) := by
  obtain ⟨e, hr, he⟩ := h
  have hneg : ∀ {a : Gf} {x : Fp}, Gf.Denotes (2 ^ 17) a x →
      Gf.Denotes (2 ^ 25) (Gf.Z gf0 a) (-x) := fun ha =>
    ((gf0_denotes.Z ha (by norm_num)).mono (by norm_num)).congr (zero_sub _)
  have hwithin : (negate r).Within (2 ^ 25) ⟨-e.x, e.y, e.z, -e.t⟩ := by
    unfold negate
    exact ⟨hneg hr.x, hr.y.mono (by norm_num), hr.z.mono (by norm_num), hneg hr.t⟩
  have hrepresents : (⟨-e.x, e.y, e.z, -e.t⟩ : Extended Fp).Represents (-P) := by
    refine ⟨he.z_ne_zero, ?_, ?_, ?_⟩
    · rw [neg_x, he.x, neg_mul]
    · rw [neg_y, he.y]
    · rw [neg_x, neg_y, he.t]
      ring
  exact leNat_pack_of_within hwithin hrepresents

/-- The points with `x = 0` are those with `y = 1` and `y = -1`. -/
theorem x_eq_zero_iff (P : EdPoint) : P.x = 0 ↔ P.y = 1 ∨ P.y = -1 := by
  have hcurve := on_curve_iff.mp P.on_curve
  rw [← sq_eq_one_iff]
  constructor
  · intro hx
    rw [hx] at hcurve
    linear_combination -hcurve
  · intro hy
    have hden := one_add_d_sq_ne_zero P.y
    rw [hy] at hden
    rw [hy, sub_self] at hcurve
    exact pow_eq_zero_iff two_ne_zero |>.mp ((mul_eq_zero.mp hcurve).resolve_right hden)

/-- `unpack25519` drops the top bit and reduces. -/
theorem fieldOfBytes_val (p : Vector UInt8 32) :
    (fieldOfBytes p).val = leNat p % 2 ^ 255 % (2 ^ 255 - 19) := by
  have hcast : fieldOfBytes p = ((leNat p % 2 ^ 255 : ℕ) : Fp) := by
    rw [fieldOfBytes, ← leNat_cast, ← Int.cast_natCast (leNat p % 2 ^ 255), Int.natCast_mod,
      Nat.cast_pow, Nat.cast_ofNat]
  rw [hcast, ZMod.val_natCast, p25519_eq_pow]

/-- A residue is `1` or `-1`. -/
theorem eq_one_or_neg_one_iff (x : Fp) : x = 1 ∨ x = -1 ↔ x.val = 1 ∨ x.val = 2 ^ 255 - 20 := by
  have hone : (1 : Fp).val = 1 := ZMod.val_one _
  have hneg : (-1 : Fp).val = 2 ^ 255 - 20 := by
    have hp := p25519_cast
    rw [ZMod.neg_val, if_neg one_ne_zero, hone]
    omega
  rw [← (ZMod.val_injective p25519).eq_iff, ← (ZMod.val_injective p25519).eq_iff, hone, hneg]

/-- A number is composed of its low 255 bits and the rest in one way only. -/
theorem split_eq_iff {v n b s : ℕ} (hv : v < 2 ^ 255) (hn : n < 2 ^ 255) :
    v + 2 ^ 255 * b = n + 2 ^ 255 * s ↔ v = n ∧ b = s := by
  constructor
  · intro h
    omega
  · rintro ⟨rfl, rfl⟩
    rfl

/-- A string is the encoding of the negative of the point that `unpackneg` computes from it exactly
if it is canonical. -/
theorem DecodesTo.encode_eq_iff (h : DecodesTo p P) : encode (-P) = leNat p ↔ Canonical p := by
  have htop := leNat_lt p
  have hlow := Nat.mod_lt (leNat p) (Nat.two_pow_pos 255)
  have hsplit := Nat.mod_add_div (leNat p) (2 ^ 255)
  rw [← pow_mul] at htop
  have hy : P.y.val = leNat p % 2 ^ 255 ↔ leNat p % 2 ^ 255 < 2 ^ 255 - 19 := by
    rw [h.y, fieldOfBytes_val]
    exact ⟨fun h => h ▸ Nat.mod_lt _ (by norm_num), Nat.mod_eq_of_lt⟩
  have hzero : P.x = 0 ↔ P.y.val = 1 ∨
    P.y.val = 2 ^ 255 - 20 := by rw [x_eq_zero_iff, eq_one_or_neg_one_iff]
  rw [encode, neg_y, neg_x, Canonical, ← hy, ← hsplit, split_eq_iff (val_lt P.y) hlow, hsplit]
  refine and_congr_right fun heq => ?_
  rw [← heq, ← hzero]
  by_cases hx : P.x = 0
  · rw [hx, neg_zero, ZMod.val_zero, imp_iff_right rfl]
    omega
  · have hne := h.parity.resolve_left hx
    have hflip := val_neg_parity hx
    simp only [hx, false_imp_iff, iff_true]
    omega

/-- Packing the negative of the result of `unpackneg` gives the string back exactly if the string is
canonical. Among canonical strings no two are accepted as the same public key. -/
theorem pack_unpackneg_iff (h : unpackneg p = some r) :
    (pack (negate r) = p ↔ Canonical p) ∧
      ∀ p' r', unpackneg p' = some r' → (∃ P, r.Denotes P ∧ r'.Denotes P) → Canonical p →
      Canonical p' → p' = p := by
  obtain ⟨Q, hQ, hdenotes⟩ := unpackneg_some h
  refine ⟨?_, fun p' r' h' ⟨P, hr, hr'⟩ hp hp' => ?_⟩
  · rw [← leNat_injective.eq_iff, leNat_pack_negate hdenotes, hQ.encode_eq_iff]
  · obtain ⟨Q', hQ', hdenotes'⟩ := unpackneg_some h'
    have hsame : encode (-Q') = encode (-Q) := by
      rw [← leNat_pack_negate hdenotes', ← leNat_pack_negate hdenotes, leNat_pack_negate hr,
        leNat_pack_negate hr']
    exact leNat_injective (by rw [← hQ'.encode_eq_iff.mpr hp', hsame, hQ.encode_eq_iff.mpr hp])

/-- The encoding of the neutral element is accepted and given back. -/
theorem pack_unpackneg_neutralBytes : ∃ r, unpackneg neutralBytes = some r ∧
    pack (negate r) = neutralBytes := by
  obtain ⟨r, hr, -⟩ := decodesTo_neutralBytes.unpackneg
  refine ⟨r, hr, (pack_unpackneg_iff hr).1.mpr (decodesTo_neutralBytes.encode_eq_iff.mp ?_)⟩
  rw [neg_zero, leNat_neutralBytes]

/-- The number `2 ^ 255 - 18`, which has the residue of `1`. -/
def nonReducedOne : Vector UInt8 32 := ofNatLE 32 (2 ^ 255 - 18)

/-- The second encoding of the neutral element as a number. -/
theorem leNat_nonReducedOne : leNat nonReducedOne = 2 ^ 255 - 18 := leNat_ofNatLE (by norm_num)

/-- It is decoded to the neutral element. -/
theorem decodesTo_nonReducedOne : DecodesTo nonReducedOne 0 := by
  refine ⟨ZMod.val_injective p25519 ?_, Or.inl rfl⟩
  rw [zero_y, ZMod.val_one, fieldOfBytes_val, leNat_nonReducedOne]
  norm_num

/-- It is accepted too, and `pack` makes another string of its point. -/
theorem nonReducedOne_not_unique : ∃ r, unpackneg nonReducedOne = some r ∧
    pack (negate r) ≠ nonReducedOne := by
  obtain ⟨r, hr, hdenotes⟩ := decodesTo_nonReducedOne.unpackneg
  refine ⟨r, hr, fun hpack => ?_⟩
  have hencode := leNat_pack_negate hdenotes
  rw [hpack] at hencode
  have hcanonical := decodesTo_nonReducedOne.encode_eq_iff.mp hencode.symm
  rw [Canonical, leNat_nonReducedOne] at hcanonical
  norm_num at hcanonical

end Ed25519

end TweetNacl
