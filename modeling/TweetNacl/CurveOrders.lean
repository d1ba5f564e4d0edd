import Mathlib.NumberTheory.LegendreSymbol.QuadraticChar.GaussSum
import TweetNacl.Curve25519
import TweetNacl.EdwardsCurve
import TweetNacl.Lib.TwistCount

/-!
# The orders of Curve25519 and of its twist

Curve25519 has `8 L` points and its quadratic twist `2 y ^ 2 = x ^ 3 + 486662 x ^ 2 + x` has `4 L'`
points, with primes `L` and `L'`. Both numbers follow from one point of each order, because the two
curves together have at most `2 (p + 1)` points.
-/

namespace TweetNacl

open Montgomery

section Primes

/-- The order of the large subgroup of the twist. -/
def twistL : ℕ := 2 ^ 253 - 55484635554744707071703875581767296995

/-- The primes that the certificates start from. -/
private def smallPrimes : List ℕ :=
  [2, 3, 5, 7, 11, 13, 23, 31, 41, 43, 73, 79, 181, 269, 307, 383, 467, 487, 1361, 2281,
   2851, 3637, 3911, 4363, 5879, 8053, 11351, 12527, 28859, 30703, 82163, 117223, 132667, 137849,
   531581, 727169, 1224481, 6418733, 58964693]

/-- The primes under `L - 1`. -/
private def orderCertificate : List LucasEntry :=
  [⟨292386187, 2, [2, 3, 3, 3, 3, 307, 5879]⟩,
   ⟨213441916511, 13, [2, 5, 73, 292386187]⟩,
   ⟨1257559732178653, 2, [2, 2, 3, 7, 23, 531581, 1224481]⟩,
   ⟨4434155615661930479, 17, [2, 41, 43, 1257559732178653]⟩,
   ⟨3044861653679985063343, 5, [2, 3, 11, 30703, 82163, 132667, 137849]⟩,
   ⟨172054593956031949258510691, 2, [2, 5, 1361, 2851, 4434155615661930479]⟩,
   ⟨198211423230930754013084525763697, 5, [2, 2, 2, 2, 3, 23, 58964693, 3044861653679985063343]⟩,
   ⟨19757330305831588566944191468367130476339, 2,
   [2, 269, 213441916511, 172054593956031949258510691]⟩,
   ⟨276602624281642239937218680557139826668747, 2,
   [2, 7, 19757330305831588566944191468367130476339]⟩,
   ⟨L, 2, [2, 2, 3, 11, 198211423230930754013084525763697,
     276602624281642239937218680557139826668747]⟩]

/-- The primes under `twistL - 1`. -/
private def twistOrderCertificate : List LucasEntry :=
  [⟨743104567, 6, [2, 3, 3, 3637, 11351]⟩,
   ⟨1110318119, 7, [2, 7, 13, 487, 12527]⟩,
   ⟨2220636239, 23, [2, 1110318119]⟩,
   ⟨1013266244677, 2, [2, 2, 3, 7, 383, 3911, 8053]⟩,
   ⟨5171003929967, 5, [2, 7, 31, 181, 2281, 28859]⟩,
   ⟨22561162540501040539, 3, [2, 3, 727169, 5171003929967]⟩,
   ⟨203852586375664218368381551393371968928013, 2, [2, 2, 3, 743104567, 1013266244677,
     22561162540501040539]⟩,
   ⟨104719073621178708975837602950775180438320278101, 2, [2, 2, 5, 5, 11, 467,
     203852586375664218368381551393371968928013]⟩,
   ⟨27413359092552162435694767700453926735143482401279781, 2, [2, 2, 3, 5, 4363,
     104719073621178708975837602950775180438320278101]⟩,
   ⟨twistL, 2, [2, 2, 79, 117223, 6418733, 2220636239,
     27413359092552162435694767700453926735143482401279781]⟩]

/-- Every listed small prime is a prime. -/
private theorem smallPrimes_prime : ∀ q ∈ smallPrimes, q.Prime := by
  simp only [smallPrimes, List.forall_mem_cons, List.not_mem_nil, false_imp_iff,
    implies_true, and_true]
  norm_num

/-- The order of the base point is prime, by Lucas's test. -/
theorem L_prime : L.Prime :=
  prime_of_certifies smallPrimes_prime
    (show certifies smallPrimes orderCertificate by decide +kernel) L
    (by decide +kernel)

/-- The large factor of the twist's order is prime, by Lucas's test. -/
theorem twistL_prime : twistL.Prime :=
  prime_of_certifies smallPrimes_prime
    (show certifies smallPrimes twistOrderCertificate by decide +kernel)
    twistL (by decide +kernel)

end Primes

section Residues

/-- Two points in projective coordinates, as natural numbers. -/
structure XResidues where
  x2 : ℕ
  z2 : ℕ
  x3 : ℕ
  z3 : ℕ

/-- The residues in the field. -/
def XResidues.cast (s : XResidues) : XPair := ⟨s.x2, s.z2, s.x3, s.z3⟩

/-- The conditional swap on residues. -/
def XResidues.cswap (swap : Bool) (s : XResidues) : XResidues :=
  if swap then ⟨s.x3, s.z3, s.x2, s.z2⟩ else s

/-- `XPair.doubleAdd` modulo `m`. -/
def XResidues.doubleAdd (m x1 : ℕ) (s : XResidues) : XResidues :=
  let a := s.x2 + s.z2
  let aa := a * a % m
  let b := Edwards.subMod m s.x2 s.z2
  let bb := b * b % m
  let e := Edwards.subMod m aa bb
  let da := Edwards.subMod m s.x3 s.z3 * a % m
  let cb := (s.x3 + s.z3) * b % m
  let sum := da + cb
  let diff := Edwards.subMod m da cb
  ⟨aa * bb % m, e * (aa + 121665 * e) % m, sum * sum % m, x1 * (diff * diff % m) % m⟩

/-- A pass of the ladder on residues. -/
def XResidues.step (m x1 : ℕ) (bit : Bool) (s : XResidues) : XResidues :=
  ((s.cswap bit).doubleAdd m x1).cswap bit

/-- The ladder on natural numbers. -/
def ladderResidues (m bits k u : ℕ) : XResidues :=
  Loops.countdown (fun t s => XResidues.step m u (k.testBit t) s) bits ⟨1, 0, u, 1⟩

/-- Casting residues to the field commutes with the conditional swap. -/
theorem XResidues.cast_cswap (swap : Bool) (s : XResidues) :
    (s.cswap swap).cast = s.cast.cswap swap := by
  cases swap <;> rfl

/-- Casting residues to the field commutes with a ladder step. -/
theorem XResidues.cast_doubleAdd (x1 : ℕ) (s : XResidues) :
    (s.doubleAdd p25519 x1).cast = s.cast.doubleAdd x1 := by
  simp only [XResidues.doubleAdd, XResidues.cast, XPair.doubleAdd, Edwards.cast_subMod,
    Nat.cast_add, Nat.cast_mul, Nat.cast_pow, ZMod.natCast_mod, Nat.cast_ofNat, ← pow_two]

/-- The ladder pair, computed with the modulus written out. -/
theorem ladderPair_eq_cast (bits k u : ℕ) :
    ladderPair bits k u = (ladderResidues (2 ^ 255 - 19) bits k u).cast := by
  rw [← p25519_eq_pow, ladderResidues, ← Loops.foldRev_eq_countdown]
  refine (Loops.foldRev_simulation (fun (s : XResidues) t => s.cast = t) ?_
    fun i _ s t h => ?_).symm
  · simp [XResidues.cast]
  · rw [XResidues.step, XPair.step, ← h, XResidues.cast_cswap, XResidues.cast_doubleAdd,
      XResidues.cast_cswap]

/-- A numeral is zero in the field exactly if the prime divides it. -/
theorem natCast_eq_zero_iff_mod (n : ℕ) : (n : Fp) = 0 ↔ n % (2 ^ 255 - 19) = 0 := by
  rw [ZMod.natCast_eq_zero_iff, p25519_eq_pow, Nat.dvd_iff_mod_eq_zero]

end Residues

section Orders

variable {δ : Fp}

/-- A point has order `2 ^ (j + 1) * l` if half that multiple has coordinate zero, but is not zero,
and its multiple by the power of two is not zero. -/
theorem addOrderOf_of_ladder (hδ : δ ≠ 0) {P : (twist 486662 δ).Point} {u : ℕ} (hu : uCoord δ P = u)
    (hu0 : (u : Fp) ≠ 0) {j l bits : ℕ} (hl : l.Prime) (hbits : 2 ^ j * l < 2 ^ bits)
    (hx : (ladderPair bits (2 ^ j * l) u).x2 = 0) (hz : (ladderPair bits (2 ^ j * l) u).z2 ≠ 0)
    (hpower : (ladderPair (j + 2) (2 ^ (j + 1)) u).z2 ≠ 0) :
    addOrderOf P = 2 ^ (j + 1) * l := by
  rw [← hu] at hu0 hx hz hpower
  have hhalf := (ladderPair_twistRepresents rfl hδ hbits hu0).first
  have hsmall := (ladderPair_twistRepresents rfl hδ
    (show 2 ^ (j + 1) < 2 ^ (j + 2) from Nat.pow_lt_pow_right (by norm_num) (by omega)) hu0).first
  have hn : 2 ^ (j + 1) * l = 2 ^ j * l + 2 ^ j * l := by ring
  refine addOrderOf_eq_of_nsmul_and_div_prime_nsmul (by have := hl.pos; positivity) ?_
    fun q hq hdvd => ?_
  · rw [hn, add_smul]
    apply add_self_of_uCoord_eq_zero rfl hδ
    rw [← hhalf.uCoord_eq hδ, hx, zero_mul]
  · rcases (Nat.Prime.dvd_mul hq).mp hdvd with h | h
    · rw [(Nat.prime_dvd_prime_iff_eq hq Nat.prime_two).mp (hq.dvd_of_dvd_pow h), hn, ← two_mul,
        Nat.mul_div_cancel_left _ (by norm_num)]
      exact hhalf.ne_zero hz
    · rw [(Nat.prime_dvd_prime_iff_eq hq hl).mp h, Nat.mul_div_cancel _ hl.pos]
      exact hsmall.ne_zero hpower

/-- The same, computed on natural numbers. -/
theorem addOrderOf_of_residues (hδ : δ ≠ 0) {P : (twist 486662 δ).Point} {u : ℕ}
    (hu : uCoord δ P = u) (hu0 : (u : Fp) ≠ 0) {j l : ℕ} (hl : l.Prime)
    (hbits : 2 ^ j * l < 2 ^ 256)
    (hx : (ladderResidues (2 ^ 255 - 19) 256 (2 ^ j * l) u).x2 % (2 ^ 255 - 19) = 0)
    (hz : (ladderResidues (2 ^ 255 - 19) 256 (2 ^ j * l) u).z2 % (2 ^ 255 - 19) ≠ 0)
    (hpower : (ladderResidues (2 ^ 255 - 19) (j + 2) (2 ^ (j + 1)) u).z2 % (2 ^ 255 - 19) ≠ 0) :
    addOrderOf P = 2 ^ (j + 1) * l := by
  rw [← natCast_eq_zero_iff_mod] at hx
  rw [ne_eq, ← natCast_eq_zero_iff_mod] at hz hpower
  refine addOrderOf_of_ladder hδ hu hu0 hl hbits ?_ ?_ ?_ <;> rw [ladderPair_eq_cast] <;> assumption

/-- A point with a given coordinate, from a root of the curve equation on natural numbers. -/
theorem exists_point_of_residues {u d y : ℕ} (hd : (d : Fp) ≠ 0) (hy : (y : Fp) ≠ 0)
    (h : y ^ 2 % (2 ^ 255 - 19) = d ^ 3 * (u ^ 3 + 486662 * u ^ 2 + u) % (2 ^ 255 - 19)) :
    ∃ P : (twist 486662 (d : Fp)).Point, uCoord (d : Fp) P = u := by
  refine exists_uCoord two_ne_zero_fp hd hy ?_
  have hroot := natCast_eq_of_mod h
  push_cast at hroot
  rw [hroot, cubic]

/-- A point of order `8 L` on the curve, with coordinate 6. -/
theorem exists_addOrderOf_curve :
    ∃ P : (twist 486662 ((1 : ℕ) : Fp)).Point, addOrderOf P = 2 ^ (2 + 1) * L := by
  have hone : ((1 : ℕ) : Fp) ≠ 0 := natCast_ne_zero (by decide) (by decide)
  obtain ⟨P, hP⟩ := exists_point_of_residues (u := 6)
    (y := 33590358295557883748358844092087322125413355467859547929220696967698785419395) hone
    (natCast_ne_zero (by decide) (by decide)) (by decide +kernel)
  exact ⟨P, addOrderOf_of_residues hone hP (natCast_ne_zero (by decide) (by decide)) L_prime
    (by decide) (by decide +kernel) (by decide +kernel) (by decide +kernel)⟩

/-- A point of order `4 L'` on the twist, with coordinate 3. -/
theorem exists_addOrderOf_twist :
    ∃ P : (twist 486662 ((2 : ℕ) : Fp)).Point, addOrderOf P = 2 ^ (1 + 1) * twistL := by
  have htwo : ((2 : ℕ) : Fp) ≠ 0 := natCast_ne_zero (by decide) (by decide)
  obtain ⟨P, hP⟩ := exists_point_of_residues (u := 3)
    (y := 5671381949860991799208549907369449191353686442955599940438599596257952785253) htwo
    (natCast_ne_zero (by decide) (by decide)) (by decide +kernel)
  exact ⟨P, addOrderOf_of_residues htwo hP (natCast_ne_zero (by decide) (by decide)) twistL_prime
    (by decide) (by decide +kernel) (by decide +kernel) (by decide +kernel)⟩

/-- The field has odd characteristic. -/
theorem ringChar_ne_two : ringChar Fp ≠ 2 := by
  rw [ZMod.ringChar_zmod_n, p25519_eq]
  norm_num

/-- The parameters of the curve and of its twist multiply to a nonsquare. -/
theorem not_isSquare_one_mul_two : ¬ IsSquare (((1 : ℕ) : Fp) * ((2 : ℕ) : Fp)) := by
  rw [Nat.cast_one, one_mul, Nat.cast_ofNat, FiniteField.isSquare_two_iff, ZMod.card, p25519_eq]
  norm_num

/-- The curve has `8 L` points and the twist `4 L'`. -/
theorem card_curve_twist :
    Nat.card (twist 486662 ((1 : ℕ) : Fp)).Point = 8 * L ∧
      Nat.card (twist 486662 ((2 : ℕ) : Fp)).Point = 4 * twistL := by
  obtain ⟨P, hP⟩ := exists_addOrderOf_curve
  obtain ⟨Q, hQ⟩ := exists_addOrderOf_twist
  have hcard := card_eq_addOrderOf ringChar_ne_two not_isSquare_one_mul_two (P := P) (Q := Q) <| by
    rw [hP, hQ, ZMod.card, p25519_eq]
    decide
  rwa [hP, hQ] at hcard

/-- Eight times the prime order annihilates the curve. -/
theorem smul_curve_eq_zero (P : (twist 486662 ((1 : ℕ) : Fp)).Point) : (8 * L) • P = 0 := by
  rw [← card_curve_twist.1]
  exact card_nsmul_eq_zero'

/-- Eight times the twist's prime factor annihilates the twist. -/
theorem smul_twist_eq_zero (P : (twist 486662 ((2 : ℕ) : Fp)).Point) : (8 * twistL) • P = 0 := by
  rw [show 8 * twistL =
    2 * (4 * twistL) by ring, ← card_curve_twist.2, mul_smul, card_nsmul_eq_zero',
    nsmul_zero]

end Orders

end TweetNacl
