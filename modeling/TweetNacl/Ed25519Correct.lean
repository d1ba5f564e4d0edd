import TweetNacl.Ed25519
import TweetNacl.EdwardsCurve
import TweetNacl.X25519

/-!
# The point code computes in the group of the curve

Points of limbs denote points of the Edwards curve through extended coordinates. `add` is
the group operation, `scalarmult` multiplies, `pack` encodes, and `unpackneg` gives the negative of
the point an encoding denotes, or fails because there is none.
-/

namespace TweetNacl

open Edwards Limbs

/-- The limbs hold the extended coordinates. -/
structure GfPoint.Holds (p : GfPoint) (e : Extended Fp) : Prop where
  x : Gf.Denotes (2 ^ 17) p.x e.x
  y : Gf.Denotes (2 ^ 17) p.y e.y
  z : Gf.Denotes (2 ^ 17) p.z e.z
  t : Gf.Denotes (2 ^ 17) p.t e.t

/-- The limbs, none larger than `b`, hold the extended coordinates. -/
structure GfPoint.Within (b : ℤ) (p : GfPoint) (e : Extended Fp) : Prop where
  x : Gf.Denotes b p.x e.x
  y : Gf.Denotes b p.y e.y
  z : Gf.Denotes b p.z e.z
  t : Gf.Denotes b p.t e.t

/-- A looser bound holds as well. -/
theorem GfPoint.Within.mono {b b' : ℤ} {p : GfPoint} {e : Extended Fp} (h : p.Within b e)
    (hb : b ≤ b') :
    p.Within b' e := ⟨h.x.mono hb, h.y.mono hb, h.z.mono hb, h.t.mono hb⟩

/-- What the code keeps between calls is within `2 ^ 17`. -/
theorem GfPoint.Holds.within {p : GfPoint} {e : Extended Fp} (h : p.Holds e) :
    p.Within (2 ^ 17) e :=
  ⟨h.x, h.y, h.z, h.t⟩

/-- Coordinates within `2 ^ 17` are what the code keeps between calls. -/
theorem GfPoint.Within.holds {p : GfPoint} {e : Extended Fp} (h : p.Within (2 ^ 17) e) :
    p.Holds e :=
  ⟨h.x, h.y, h.z, h.t⟩

/-- The limbs denote a point of the curve. -/
def GfPoint.Denotes (p : GfPoint) (P : EdPoint) : Prop := ∃ e, p.Holds e ∧ e.Represents P

namespace Ed25519

section Constants

/-- Limbs with the value `n` stand for `n`. -/
theorem toField_of_value {a : Gf} {n : ℕ} (h : a.value = n) : a.toField = (n : Fp) := by
  rw [Gf.toField, h, Int.cast_natCast]

/-- The constant `D2` is twice the curve constant. -/
theorem D2_denotes : Gf.Denotes (2 ^ 16) Gf.D2 (2 * d25519) := by
  refine ⟨fun i hi => by revert i; decide, ?_⟩
  have h := natCast_eq_of_mod
    (a := 0x2406d9dc56dffce7198e80f2eef3d13000e0149a8283b156ebd69b9426b2f159) (b := 2 * dNat)
    (by decide +kernel)
  rw [toField_of_value (n := 0x2406d9dc56dffce7198e80f2eef3d13000e0149a8283b156ebd69b9426b2f159)
    (by decide +kernel), h, Nat.cast_mul, Nat.cast_ofNat, d25519]

/-- The constant `D` is the curve constant. -/
theorem D_denotes : Gf.Denotes (2 ^ 16) Gf.D d25519 :=
  ⟨fun i hi => by revert i; decide, toField_of_value (by decide +kernel)⟩

/-- The constant `I` is the square root of minus one. -/
theorem I_denotes : Gf.Denotes (2 ^ 16) Gf.I sqrtMinusOne :=
  ⟨fun i hi => by revert i; decide, toField_of_value (by decide +kernel)⟩

/-- The constant `X` is the base point's first coordinate. -/
theorem X_denotes : Gf.Denotes (2 ^ 16) Gf.X B.x :=
  ⟨fun i hi => by revert i; decide, toField_of_value (n := baseX) (by decide +kernel)⟩

/-- The constant `Y` is the base point's second coordinate. -/
theorem Y_denotes : Gf.Denotes (2 ^ 16) Gf.Y B.y :=
  ⟨fun i hi => by revert i; decide, toField_of_value (n := baseY) (by decide +kernel)⟩

end Constants

section Group

variable {p q : GfPoint} {e f : Extended Fp} {P Q : EdPoint}

/-- `add` is the addition formula. Sums of two coordinates have to stay within the bound of `M`. -/
theorem add_within (hp : p.Within (2 ^ 25) e) (hq : q.Within (2 ^ 25) f) :
    (add p q).Within (2 ^ 17) (Extended.add (2 * d25519) e f) := by
  have ha := (hp.y.Z hp.x (by norm_num)).mono (by norm_num) |>.M
    ((hq.y.Z hq.x (by norm_num)).mono (by norm_num))
  have hb := (hp.x.A hp.y (by norm_num)).mono (by norm_num) |>.M
    ((hq.x.A hq.y (by norm_num)).mono (by norm_num))
  have hc := ((hp.t.mono (by norm_num)).M (hq.t.mono (by norm_num))).mono (by norm_num) |>.M
    (D2_denotes.mono (by norm_num))
  have hd := (hp.z.mono (by norm_num)).M (hq.z.mono (by norm_num))
  have hdd := hd.A hd (by norm_num)
  have he := (hb.Z ha (by norm_num)).mono (by norm_num : (2 : ℤ) ^ 17 + 2 ^ 17 ≤ 2 ^ 26)
  have hf := (hdd.Z hc (by norm_num)).mono (by norm_num : (2 : ℤ) ^ 17 + 2 ^ 17 + 2 ^ 17 ≤ 2 ^ 26)
  have hg := (hdd.A hc (by norm_num)).mono (by norm_num : (2 : ℤ) ^ 17 + 2 ^ 17 + 2 ^ 17 ≤ 2 ^ 26)
  have hh := (hb.A ha (by norm_num)).mono (by norm_num : (2 : ℤ) ^ 17 + 2 ^ 17 ≤ 2 ^ 26)
  exact ⟨he.M hf, hh.M hg, hg.M hf, he.M hh⟩

/-- `add` adds points. -/
theorem add_denotes (hp : p.Denotes P) (hq : q.Denotes Q) : (add p q).Denotes (P + Q) := by
  obtain ⟨e, hpe, he⟩ := hp
  obtain ⟨f, hqf, hf⟩ := hq
  have hadd := add_within (hpe.within.mono (by norm_num)) (hqf.within.mono (by norm_num))
  exact ⟨_, hadd.holds, he.add hf⟩

/-- `cswap` on a bit swaps the points or leaves them. -/
theorem cswap_bit (p q : GfPoint) (bit : Bool) :
    cswap p q (if bit then 1 else 0) = if bit then (q, p) else (p, q) := by
  simp only [cswap, sel25519_bit]
  cases bit <;> rfl

variable {R : GfPoint → EdPoint → Prop}

/-- A pass of the loop takes the multiples `n` and `n + 1` to `2 n + bit` and its successor, for
every way of denoting points that `add` respects. -/
theorem scalarmultStep_of_add (hadd : ∀ {p q P Q}, R p P → R q Q → R (add p q) (P + Q)) {n : ℕ}
    (hp : R p (n • P)) (hq : R q ((n + 1) • P)) (bit : Bool) :
    R (scalarmultStep (if bit then 1 else 0) p q).1 ((2 * n + bit.toNat) • P) ∧
      R (scalarmultStep (if bit then 1 else 0) p q).2 ((2 * n + bit.toNat + 1) • P) := by
  simp only [scalarmultStep, cswap_bit]
  cases bit with
  | false =>
    have hsum := hadd hq hp
    have hdouble := hadd hp hp
    rw [← add_nsmul] at hsum hdouble
    rw [show n + 1 + n = 2 * n + 1 by ring] at hsum
    rw [← two_mul] at hdouble
    exact ⟨hdouble, hsum⟩
  | true =>
    have hsum := hadd hp hq
    have hdouble := hadd hq hq
    rw [← add_nsmul] at hsum hdouble
    rw [show n + (n + 1) = 2 * n + 1 by ring] at hsum
    rw [show n + 1 + (n + 1) = 2 * n + 1 + 1 by ring] at hdouble
    exact ⟨hsum, hdouble⟩

/-- The neutral element as `scalarmult` sets it up. -/
theorem neutral_denotes :
    GfPoint.Denotes ⟨set25519 gf0, set25519 gf1, set25519 gf1, set25519 gf0⟩ (0 : EdPoint) := by
  simp only [set25519_eq]
  exact ⟨Extended.zero, ⟨gf0_denotes.mono (by norm_num), gf1_denotes.mono (by norm_num),
    gf1_denotes.mono (by norm_num), gf0_denotes.mono (by norm_num)⟩, Extended.represents_zero⟩

/-- The loop of `scalarmult` multiplies by the number its scalar denotes. -/
theorem scalarmult_of_add (hadd : ∀ {p q P Q}, R p P → R q Q → R (add p q) (P + Q))
    (hzero : R ⟨set25519 gf0, set25519 gf1, set25519 gf1, set25519 gf0⟩ 0) (hq : R q P)
    (s : Vector UInt8 32) :
    R (scalarmult q s) (leNat s • P) := by
  have hk : leNat s < 2 ^ 256 := by
    have := leNat_lt s
    rwa [← pow_mul] at this
  have hloop := Loops.foldRev_bits (n := 256) (k := leNat s)
    (f := fun i hi (s' : GfPoint × GfPoint) => scalarmultStep (scalarBit s i hi) s'.1 s'.2)
    (s := (⟨set25519 gf0, set25519 gf1, set25519 gf1, set25519 gf0⟩, q))
    (fun n s => R s.1 (n • P) ∧ R s.2 ((n + 1) • P)) hk ?_ fun i hi n state hs => ?_
  · exact hloop.1
  · rw [zero_nsmul, zero_add, one_nsmul]
    exact ⟨hzero, hq⟩
  · rw [scalarBit_eq s hi]
    exact scalarmultStep_of_add hadd hs.1 hs.2 _

/-- `scalarmult` multiplies by the number its scalar denotes. -/
theorem scalarmult_denotes (hq : q.Denotes P) (s : Vector UInt8 32) :
    (scalarmult q s).Denotes (leNat s • P) := scalarmult_of_add add_denotes neutral_denotes hq s

/-- `scalarbase` multiplies the base point. -/
theorem scalarbase_denotes (s : Vector UInt8 32) : (scalarbase s).Denotes (leNat s • B) := by
  refine scalarmult_denotes ⟨⟨B.x, B.y, 1, B.x * B.y⟩, ?_, Extended.represents_affine B⟩ s
  simp only [set25519_eq]
  exact ⟨X_denotes.mono (by norm_num), Y_denotes.mono (by norm_num), gf1_denotes.mono (by norm_num),
    (X_denotes.mono (by norm_num)).M (Y_denotes.mono (by norm_num))⟩

end Group

section Encoding

open MachineInt

/-- The integer whose little-endian bytes encode a point: the `y` coordinate, with the parity of `x`
as the top bit. -/
def encode (P : EdPoint) : ℕ := P.y.val + 2 ^ 255 * (P.x.val % 2)

/-- A representative of a field element fits 255 bits. -/
theorem val_lt (x : Fp) : x.val < 2 ^ 255 := by
  have hlt := ZMod.val_lt x
  have hp := p25519_cast
  omega

/-- The top byte of an encoding. -/
theorem leNat_top (v : Vector UInt8 32) : (v.nth 31).toNat = leNat v / 2 ^ 248 := by
  rw [Vector.nth_eq v rfl (show 31 < 32 by omega)]
  have htop : v[31].toNat < 2 ^ 8 := UInt8.toNat_lt _
  obtain ⟨low, high, hsplit, hlow⟩ := leNat_split v (by norm_num : 31 < 32)
  have hlt := leNat_lt v
  rw [← pow_mul] at hsplit hlow hlt
  omega

/-- `par25519` is the parity of the residue. -/
theorem par25519_eq {a : Gf} (ha : a.Bounded (2 ^ 62)) :
    (par25519 a).toNat = a.toField.val % 2 := by
  have hbyte := leInt_emod (pack25519 a) (by norm_num)
  have hand : ∀ b : UInt8, (b &&& 1).toNat = b.toNat % 2 := forall_byte (by decide +kernel)
  rw [leInt_pack25519 ha] at hbyte
  rw [par25519, hand, Vector.nth_eq _ rfl (show 0 < 32 by omega)]
  omega

/-- `neq25519` compares field elements. -/
theorem neq25519_eq_zero {a b : Gf} (ha : a.Bounded (2 ^ 62)) (hb : b.Bounded (2 ^ 62)) :
    neq25519 a b = 0 ↔ a.toField = b.toField := by
  rw [← pack25519_inj ha hb, neq25519, vn_eq]
  split
  next h => exact ⟨fun _ => h, fun _ => rfl⟩
  next h => exact ⟨fun h' => absurd h' (by decide), fun h' => absurd h' h⟩

/-- `pack` encodes the point. -/
theorem leNat_pack_of_within {p : GfPoint} {e : Extended Fp} {P : EdPoint}
    (hpe : p.Within (2 ^ 25) e) (he : e.Represents P) : leNat (pack p) = encode P := by
  have hzi := (hpe.z.mono (by norm_num)).inv25519
  have htx := (hpe.x.mono (by norm_num)).M (hzi.mono (by norm_num))
  have hty := (hpe.y.mono (by norm_num)).M (hzi.mono (by norm_num))
  rw [he.affine.1] at htx
  rw [he.affine.2] at hty
  have hval : leNat (pack25519 (Gf.M p.y (inv25519 p.z))) = P.y.val := by
    have h := leInt_pack25519 (hty.bounded.mono (by norm_num))
    rw [hty.toField_eq, ← leNat_cast] at h
    exact Int.ofNat_inj.mp h
  have hpar := par25519_eq (htx.bounded.mono (by norm_num))
  rw [htx.toField_eq] at hpar
  have htop := leNat_top (pack25519 (Gf.M p.y (inv25519 p.z)))
  rw [Vector.nth_eq _ rfl (show 31 < 32 by omega)] at htop
  have hy := val_lt P.y
  have hflip : ∀ c b : UInt8, c.toNat < 128 → b.toNat < 2 →
      (c ^^^ (b <<< 7)).toNat = c.toNat + 128 * b.toNat := by
    intro c b hc hb
    have hb' : b = 0 ∨ b = 1 := by
      rcases Nat.lt_succ_iff_lt_or_eq.mp hb with h | h
      · exact Or.inl (UInt8.toNat_inj.mp (by simpa using h))
      · exact Or.inr (UInt8.toNat_inj.mp h)
    revert hc
    rcases hb' with rfl | rfl
    · exact forall_byte (P := fun c => c.toNat < 128 →
        (c ^^^ ((0 : UInt8) <<< 7)).toNat = c.toNat + 128 * 0) (by decide +kernel) c
    · exact forall_byte (P := fun c => c.toNat < 128 →
        (c ^^^ ((1 : UInt8) <<< 7)).toNat = c.toNat + 128 * 1) (by decide +kernel) c
  have hset := leInt_set (pack25519 (Gf.M p.y (inv25519 p.z))) (by norm_num : 31 < 32)
    ((pack25519 (Gf.M p.y (inv25519 p.z)))[31] ^^^ (par25519 (Gf.M p.x (inv25519 p.z)) <<< 7))
  rw [hflip _ _ (by omega) (by omega), ← leNat_cast, ← leNat_cast, hval, hpar] at hset
  apply Int.ofNat_inj.mp
  rw [pack, encode]
  refine hset.trans ?_
  push_cast
  ring

/-- `pack` writes the encoding of the point. -/
theorem leNat_pack {p : GfPoint} {P : EdPoint} (hp : p.Denotes P) : leNat (pack p) = encode P := by
  obtain ⟨e, hpe, he⟩ := hp
  exact leNat_pack_of_within (hpe.within.mono (by norm_num)) he

/-- The exponentiation of `unpackneg` computes the candidate root. -/
theorem rootCandidate_denotes {num den : Gf} {u v : Fp} (hnum : Gf.Denotes (2 ^ 26) num u)
    (hden : Gf.Denotes (2 ^ 26) den v) : Gf.Denotes (2 ^ 17) (rootCandidate num den)
    (candidate u v) := by
  have hden2 := hden.S
  have hden4 := (hden2.mono (by norm_num)).S
  have hden6 := (hden4.mono (by norm_num)).M (hden2.mono (by norm_num))
  have ht := ((hden6.mono (by norm_num)).M hnum).mono (by norm_num) |>.M hden
  have hpow := (ht.mono (by norm_num)).pow2523
  have ht := ((hpow.mono (by norm_num)).M hnum).mono (by norm_num) |>.M hden
  have hresult := ((ht.mono (by norm_num)).M hden).mono (by norm_num) |>.M hden
  refine hresult.congr ?_
  rw [candidate, show v * v * (v * v) * (v * v) * u * v = u * v ^ 7 by ring]
  generalize (u * v ^ 7) ^ (2 ^ 252 - 3) = r
  ring

/-- Negation changes the parity of a nonzero residue. -/
theorem val_neg_parity {x : Fp} (hx : x ≠ 0) : (-x).val % 2 ≠ x.val % 2 := by
  have hlt := ZMod.val_lt x
  have hval := ZMod.neg_val x
  have hp := p25519_cast
  rw [if_neg hx] at hval
  omega

/-- The choice between the candidate and its multiple by the root of `-1`. -/
def chosenRoot (u v : Fp) : Fp :=
  if candidate u v ^ 2 * v = u then candidate u v else candidate u v * sqrtMinusOne

/-- The chosen root is a root if there is one. -/
theorem chosenRoot_sq {u v x : Fp} (hv : v ≠ 0) (hx : x ^ 2 * v = u) :
    chosenRoot u v ^ 2 * v = u := by
  rw [chosenRoot]
  split
  next h => exact h
  next h =>
    have hneg := (candidate_sq hv hx).resolve_left h
    rw [mul_pow, sqrtMinusOne_sq]
    linear_combination -hneg

/-- What `unpackneg` computes: the chosen root, checked and negated if it has the parity of the top
bit. -/
theorem unpackneg_eq (p : Vector UInt8 32) : ∃ x, Gf.Denotes (2 ^ 17) x
    (chosenRoot (fieldOfBytes p ^ 2 - 1) (1 + d25519 * fieldOfBytes p ^ 2)) ∧
    unpackneg p =
      if chosenRoot (fieldOfBytes p ^ 2 - 1) (1 + d25519 * fieldOfBytes p ^ 2) ^ 2 *
          (1 + d25519 * fieldOfBytes p ^ 2) = fieldOfBytes p ^ 2 - 1 then
        some ⟨if par25519 x = p.nth 31 >>> 7 then Gf.Z gf0 x else x, unpack25519 p, gf1,
          Gf.M (if par25519 x = p.nth 31 >>> 7 then Gf.Z gf0 x else x) (unpack25519 p)⟩
      else none := by
  have hy := unpack25519_denotes p
  have hsq := (hy.mono (by norm_num)).S
  have hnum :=
    ((hsq.Z gf1_denotes (by norm_num)).mono (by norm_num : (2 : ℤ) ^ 17 + 1 ≤ 2 ^ 26)).congr
    (show _ = fieldOfBytes p ^ 2 - 1 by ring)
  have hden := ((gf1_denotes.A ((hsq.mono (by norm_num)).M (D_denotes.mono (by norm_num)))
    (by norm_num)).mono (by norm_num : 1 + (2 : ℤ) ^ 17 ≤ 2 ^ 26)).congr
    (show _ = 1 + d25519 * fieldOfBytes p ^ 2 by ring)
  generalize fieldOfBytes p ^ 2 - 1 = u at hnum ⊢
  generalize 1 + d25519 * fieldOfBytes p ^ 2 = v at hden ⊢
  have hroot := rootCandidate_denotes hnum hden
  simp only [unpackneg, set25519_eq]
  generalize Gf.Z (Gf.S (unpack25519 p)) gf1 = num at hnum hroot ⊢
  generalize Gf.A gf1 (Gf.M (Gf.S (unpack25519 p)) Gf.D) = den at hden hroot ⊢
  have hcheck : ∀ {x : Gf} {t : Fp}, Gf.Denotes (2 ^ 17) x t →
      (neq25519 (Gf.M (Gf.S x) den) num ≠ 0 ↔ t ^ 2 * v ≠ u) := by
    intro x t hx
    have hchk := ((hx.mono (by norm_num)).S.mono (by norm_num)).M hden
    rw [ne_eq, neq25519_eq_zero (hchk.bounded.mono (by norm_num)) (hnum.bounded.mono (by norm_num)),
      hchk.toField_eq, hnum.toField_eq, pow_two]
  have hchosen : Gf.Denotes (2 ^ 17)
      (if neq25519 (Gf.M (Gf.S (rootCandidate num den)) den) num ≠ 0 then
        Gf.M (rootCandidate num den) Gf.I else rootCandidate num den) (chosenRoot u v) := by
    rw [chosenRoot]
    by_cases h : candidate u v ^ 2 * v = u
    · rw [if_neg (by rw [hcheck hroot]; exact not_not.mpr h), if_pos h]
      exact hroot
    · rw [if_pos ((hcheck hroot).mpr h), if_neg h]
      exact (hroot.mono (by norm_num)).M (I_denotes.mono (by norm_num))
  refine ⟨_, hchosen, ?_⟩
  by_cases h : chosenRoot u v ^ 2 * v = u
  · rw [if_pos h, if_neg (by rw [hcheck hchosen]; exact not_not.mpr h)]
  · rw [if_neg h, if_pos ((hcheck hchosen).mpr h)]

/-- The encoding denotes the negative of a point, of which `unpackneg` knows the coordinate `y` and
that the parity of `x` is not the top bit. -/
structure DecodesTo (p : Vector UInt8 32) (P : EdPoint) : Prop where
  y : P.y = fieldOfBytes p
  parity : P.x = 0 ∨ P.x.val % 2 ≠ leNat p / 2 ^ 255

/-- The sign rule of `unpackneg`. -/
theorem signed_denotes {x : Gf} {t : Fp} (hx : Gf.Denotes (2 ^ 17) x t) (p : Vector UInt8 32) :
    ∃ t', Gf.Denotes (2 ^ 17) (if par25519 x = p.nth 31 >>> 7 then Gf.Z gf0 x else x) t' ∧
      t' ^ 2 = t ^ 2 ∧
      (t' = 0 ∨ t'.val % 2 ≠ leNat p / 2 ^ 255) := by
  have hpar := par25519_eq (hx.bounded.mono (by norm_num))
  have hshift : ∀ b : UInt8, (b >>> 7).toNat = b.toNat / 128 := forall_byte (by decide +kernel)
  have htop : (p.nth 31 >>> 7).toNat = leNat p / 2 ^ 255 := by
    rw [hshift, leNat_top]
    omega
  rw [hx.toField_eq] at hpar
  have hiff : par25519 x = p.nth 31 >>> 7 ↔ t.val % 2 = leNat p / 2 ^ 255 := by
    rw [← UInt8.toNat_inj, hpar, htop]
  split
  next h =>
    refine ⟨-t, ?_, neg_sq t, ?_⟩
    · exact ((gf0_denotes.Z hx (by norm_num)).mono (by norm_num)).congr (zero_sub t)
    · by_cases ht : t = 0
      · left
        rw [ht, neg_zero]
      · right
        rw [← hiff.mp h]
        exact val_neg_parity ht
  next h => exact ⟨t, hx, rfl, Or.inr fun h' => h (hiff.mpr h')⟩

/-- `unpackneg` fails only if no point has the encoded `y` coordinate. -/
theorem unpackneg_none {p : Vector UInt8 32} (h : unpackneg p = none) (P : EdPoint) :
    P.y ≠ fieldOfBytes p := by
  intro hy
  obtain ⟨x, -, heq⟩ := unpackneg_eq p
  rw [h] at heq
  have hP := on_curve_iff.mp P.on_curve
  rw [hy] at hP
  rw [if_pos (chosenRoot_sq (one_add_d_sq_ne_zero _) hP)] at heq
  cases heq

/-- The result of `unpackneg` denotes a point the encoding decodes to. -/
theorem unpackneg_some {p : Vector UInt8 32} {r : GfPoint} (h : unpackneg p = some r) :
    ∃ P, DecodesTo p P ∧ r.Denotes P := by
  obtain ⟨x, hx, heq⟩ := unpackneg_eq p
  rw [h] at heq
  split at heq
  next hroot =>
    obtain ⟨t, ht, hsq, hparity⟩ := signed_denotes hx p
    rw [← hsq] at hroot
    have hy := unpack25519_denotes p
    refine ⟨⟨t, fieldOfBytes p, on_curve_iff.mpr hroot⟩, ⟨rfl, hparity⟩, ?_⟩
    cases heq
    refine ⟨⟨t, fieldOfBytes p, 1, t * fieldOfBytes p⟩, ⟨ht, hy.mono (by norm_num),
      gf1_denotes.mono (by norm_num), (ht.mono (by norm_num)).M (hy.mono (by norm_num))⟩, ?_⟩
    exact Extended.represents_affine (⟨t, fieldOfBytes p, on_curve_iff.mpr hroot⟩ : EdPoint)
  next => cases heq

/-- An encoding denotes at most one point. -/
theorem DecodesTo.unique {p : Vector UInt8 32} {P Q : EdPoint} (hP : DecodesTo p P)
    (hQ : DecodesTo p Q) :
    P = Q := by
  have hy : P.y = Q.y := hP.y.trans hQ.y.symm
  refine Point.ext ?_ hy
  rcases EdPoint.eq_or_neg hy with hx | hx
  · exact hx
  · by_cases hzero : Q.x = 0
    · rw [hx, hzero, neg_zero]
    · have htop : leNat p < 2 ^ 256 := by
        have := leNat_lt p
        rwa [← pow_mul] at this
      have hparityP := hP.parity.resolve_left (by rw [hx]; exact neg_ne_zero.mpr hzero)
      have hparityQ := hQ.parity.resolve_left hzero
      have hparity := val_neg_parity hzero
      rw [hx] at hparityP
      omega

/-- A point that an encoding denotes is what `unpackneg` computes. -/
theorem DecodesTo.unpackneg {p : Vector UInt8 32} {P : EdPoint} (h : DecodesTo p P) :
    ∃ r, unpackneg p = some r ∧ r.Denotes P := by
  cases hr : Ed25519.unpackneg p with
  | none => exact absurd h.y (unpackneg_none hr P)
  | some r =>
    obtain ⟨Q, hQ, hrQ⟩ := unpackneg_some hr
    exact ⟨r, rfl, h.unique hQ ▸ hrQ⟩

/-- A string that encodes a point decodes to its negative. -/
theorem decodesTo_neg {p : Vector UInt8 32} {P : EdPoint} (hp : leNat p = encode P) :
    DecodesTo p (-P) := by
  have hy := val_lt P.y
  refine ⟨?_, ?_⟩
  · have hmod : leInt p % 2 ^ 255 = (P.y.val : ℤ) := by
      rw [← leNat_cast, hp, encode]
      omega
    rw [neg_y, fieldOfBytes, hmod]
    simp
  · have htop : leNat p / 2 ^ 255 = P.x.val % 2 := by
      rw [hp, encode]
      omega
    rw [neg_x, htop]
    by_cases hx : P.x = 0
    · left
      rw [hx, neg_zero]
    · exact Or.inr (val_neg_parity hx)

/-- An encoding of a point is decoded to the negative of the point. -/
theorem unpackneg_encode {p : Vector UInt8 32} {P : EdPoint} (hp : leNat p = encode P) :
    ∃ r, unpackneg p = some r ∧ r.Denotes (-P) := (decodesTo_neg hp).unpackneg

end Encoding

end Ed25519

end TweetNacl
