import TweetNacl.GfMul

/-!
# Encoding and decoding field elements

`pack25519` carries three times, which leaves proper digits, and subtracts the prime
twice under a condition, which leaves the least nonnegative residue. Its 32 bytes are
therefore the one canonical encoding of the field element. `unpack25519` reads the low
255 bits, canonical or not.
-/

namespace TweetNacl

open Limbs MachineInt

/-- Every limb is a digit. -/
def Gf.Digits (a : Gf) : Prop := ∀ i < 16, 0 ≤ a.limbs i ∧ a.limbs i < 2 ^ 16

/-- Sixteen digits have a value below `2 ^ 256`. -/
theorem Gf.Digits.value_range {a : Gf} (h : a.Digits) : 0 ≤ a.value ∧ a.value < 2 ^ 256 := by
  refine ⟨limbSum_nonneg (by norm_num) fun i hi => (h i hi).1, ?_⟩
  have := limbSum_lt (B := 2 ^ 16) (by norm_num) fun i hi => (h i hi).2
  rwa [← pow_mul] at this

/-- The top limb splits off from digits below it. -/
theorem Gf.value_eq_top {a : Gf} (h : ∀ i < 15, 0 ≤ a.limbs i ∧ a.limbs i < 2 ^ 16) :
    ∃ low, a.value = low + a.limbs 15 * 2 ^ 240 ∧ 0 ≤ low ∧ low < 2 ^ 240 := by
  refine ⟨limbSum (2 ^ 16) 15 a.limbs, (limbSum_succ _ 15 _).trans (by rw [← pow_mul]),
    limbSum_nonneg (by norm_num) fun i hi => (h i hi).1, ?_⟩
  have := limbSum_lt (B := 2 ^ 16) (by norm_num) fun i hi => (h i hi).2
  rwa [← pow_mul] at this

/-- A third carry pass leaves digits: an overflow can only have come from the lowest limb, and
then all other digits are extreme. -/
theorem car25519_digits {o : Gf} (hhigh : o.HighDigits)
    (hlow : -38 ≤ o.limbs 0 ∧ o.limbs 0 < 2 ^ 16 + 38) : (car25519 o).Digits := by
  obtain ⟨w, hw, hsum, hlimbs⟩ := car25519_limbs
    (hhigh.bounded (abs_le.mpr (by constructor <;> omega)))
  obtain ⟨v, hv, hv0, hv1⟩ := hhigh.value_eq
  have hlowest : o.value % 2 ^ 256 % 2 ^ 16 = w 0 := by
    have h := limbSum_emod (B := 2 ^ 16) (n := 16) (f := w) (by norm_num)
    rw [hsum, Int.ModEq, Int.emod_eq_of_lt (hw 0 (by omega)).1 (hw 0 (by omega)).2] at h
    exact h
  intro i hi
  have hwi := hw i hi
  rw [hlimbs]
  rcases Nat.eq_zero_or_pos i with rfl | hpos
  · rw [Function.update_self]
    constructor <;> omega
  · rw [Function.update_of_ne hpos.ne']
    exact hwi

/-- The three carry passes of `pack25519` leave digits of a number congruent to the value. -/
theorem car25519_three {o : Gf} (ho : o.Bounded (2 ^ 62)) :
    (car25519 (car25519 (car25519 o))).Digits ∧
      (car25519 (car25519 (car25519 o))).toField = o.toField := by
  have hb1 := car25519_bounded ho
  have hb2 := car25519_bounded hb1
  refine ⟨car25519_digits (car25519_highDigits hb1).1 (car25519_tight ho 0 (by norm_num)), ?_⟩
  rw [car25519_toField hb2, car25519_toField hb1, car25519_toField ho]

/-- The constant-time swap exchanges its operands for the bit 1. -/
theorem sel25519_one (p q : Gf) : sel25519 p q 1 = (q, p) := by
  have hmask : (~~~((1 : Int32) - 1)).toInt64 = -1 := by decide
  simp only [sel25519, hmask, Int64.neg_one_and]
  refine Prod.ext ?_ ?_ <;> ext i hi
  · simp only [Vector.getElem_ofFn, Fin.getElem_fin]
    rw [← Int64.xor_assoc, Int64.xor_self, Int64.zero_xor]
  · simp only [Vector.getElem_ofFn, Fin.getElem_fin]
    rw [Int64.xor_comm p[i] q[i], ← Int64.xor_assoc, Int64.xor_self, Int64.zero_xor]

/-- The constant-time swap keeps its operands for the bit 0. -/
theorem sel25519_zero (p q : Gf) : sel25519 p q 0 = (p, q) := by
  have hmask : (~~~((0 : Int32) - 1)).toInt64 = 0 := by decide
  simp only [sel25519, hmask, Int64.zero_and]
  refine Prod.ext ?_ ?_ <;> ext i hi <;> simp

/-- Digit `i` of the prime. -/
def primeDigit (i : ℕ) : ℤ := if i = 0 then 0xffed else if i < 15 then 0xffff else 0x7fff

/-- The digits that the code subtracts are those of the modulus. -/
theorem limbSum_primeDigit : limbSum (2 ^ 16) 16 primeDigit = p25519 := by
  rw [p25519_cast]
  norm_num [limbSum, Finset.sum_range_succ, primeDigit]

/-- The trial subtraction in progress: below limb `i` the digits are final, limb `i` is the signed
difference before its borrow is taken from the limb above, and together they are the
difference of the low parts. -/
structure PartialBorrow (t : ℕ → ℤ) (i : ℕ) (m : Gf) : Prop where
  digit : ∀ k < i, 0 ≤ m.limbs k ∧ m.limbs k < 2 ^ 16
  current : -2 ^ 16 ≤ m.limbs i ∧ m.limbs i < 2 ^ 16
  sum_eq : limbSum (2 ^ 16) (i + 1) m.limbs = limbSum (2 ^ 16) (i + 1) (fun k => t k - primeDigit k)

/-- The borrow a signed difference passes on is its second 16-bit part modulo 2. -/
theorem borrow_eq {x : Int64} (hx : -2 ^ 16 ≤ x.toInt ∧ x.toInt < 2 ^ 16) :
    ((x >>> 16) &&& 1).toInt = -(x.toInt / 2 ^ 16) := by
  rw [toInt_and_one, toInt_shiftRight_sixteen]
  omega

/-- A borrow moves the partial description one limb up. -/
theorem PartialBorrow.step {t m : Gf} (ht : t.Digits) {i : ℕ} (hi : i < 15) {c : Int64}
    (hc : c.toInt = primeDigit (i + 1)) (h : PartialBorrow t.limbs i m) :
    PartialBorrow t.limbs (i + 1) (borrowStep t c i hi m) := by
  have hti := ht (i + 1) (by omega)
  have hcur := h.current
  have hrange : 0 ≤ primeDigit (i + 1) ∧ primeDigit (i + 1) < 2 ^ 16 := by
    unfold primeDigit
    split_ifs <;> norm_num
  have hborrow : ((m[i] >>> 16) &&& 1).toInt = -(m.limbs i / 2 ^ 16) := by
    rw [Gf.limbs_getElem m (by omega)] at hcur ⊢
    exact borrow_eq hcur
  have hnew : (t[i + 1] - c - ((m[i] >>> 16) &&& 1)).toInt =
      t.limbs (i + 1) - primeDigit (i + 1) + m.limbs i / 2 ^ 16 := by
    rw [Gf.limbs_getElem t (by omega)] at hti ⊢
    rw [toInt_sub, toInt_sub, hc, hborrow, sub_neg_eq_add]
    · rw [hc]; constructor <;> omega
    · rw [toInt_sub (by rw [hc]; constructor <;> omega), hc, hborrow]; constructor <;> omega
  have hlimbs : (borrowStep t c i hi m).limbs = Function.update (Function.update m.limbs (i + 1)
      (t.limbs (i + 1) - primeDigit (i + 1) + m.limbs i / 2 ^ 16)) i (m.limbs i % 2 ^ 16) := by
    rw [borrowStep, Gf.limbs_set, Gf.limbs_set, hnew, toInt_and_ffff,
      Vector.getElem_set_ne _ _ (by omega), ← Gf.limbs_getElem m (by omega)]
  refine ⟨fun k hk => ?_, ?_, ?_⟩
  · rw [hlimbs]
    by_cases hki : k = i
    · rw [hki, Function.update_self]
      exact ⟨Int.emod_nonneg _ (by norm_num), Int.emod_lt_of_pos _ (by norm_num)⟩
    · rw [Function.update_of_ne hki, Function.update_of_ne (by omega)]
      exact h.digit k (by omega)
  · rw [hlimbs, Function.update_of_ne (by omega), Function.update_self]
    constructor <;> omega
  · rw [hlimbs, limbSum_update (by omega), limbSum_update (by omega),
      Function.update_of_ne (by omega), limbSum_succ _ (i + 1), h.sum_eq, limbSum_succ _ (i + 1),
      pow_succ ((2 : ℤ) ^ 16) i]
    have := Int.emod_add_mul_ediv (m.limbs i) (2 ^ 16)
    linear_combination (2 ^ 16) ^ i * this

/-- The fourteen borrows of the loop of `subtractModulus`. -/
theorem subtractModulus_loop {t : Gf} (ht : t.Digits) :
    PartialBorrow t.limbs 14 (borrowLoop t) := by
  have h0 := ht 0 (by omega)
  have hfirst : (t[0] - (0xffed : Int64)).toInt = t.limbs 0 - primeDigit 0 := by
    rw [Gf.limbs_getElem t (by omega)] at h0 ⊢
    have hc : (0xffed : Int64).toInt = 0xffed := rfl
    rw [toInt_sub (by rw [hc]; constructor <;> omega), hc]
    rfl
  refine Loops.fold_invariant (PartialBorrow t.limbs) ⟨by simp, ?_, ?_⟩ fun i hi m hm =>
    hm.step ht _ (by simp [primeDigit, show i + 1 < 15 by omega])
  · rw [Gf.limbs_set, Function.update_self, hfirst, primeDigit, if_pos rfl]
    constructor <;> omega
  · simp [limbSum, hfirst]

/-- The difference is the partial description at the top limb. -/
theorem difference_borrowed {t : Gf} (ht : t.Digits) : PartialBorrow t.limbs 15 (difference t) :=
  (subtractModulus_loop ht).step ht (c := 0x7fff) (by norm_num) rfl

/-- One conditional subtraction removes the prime from a number that is not below it. -/
theorem packStep_spec {t : Gf} (ht : t.Digits) :
    (packStep t).Digits ∧
      (packStep t).value = if (p25519 : ℤ) ≤ t.value then t.value - p25519 else t.value := by
  obtain ⟨hdigit, hcur, hsum⟩ := difference_borrowed ht
  have hval : (difference t).value = t.value - p25519 := by
    rw [Gf.value, hsum, limbSum_sub, limbSum_primeDigit, Gf.value]
  obtain ⟨low, hsplit, hlow0, hlow⟩ := Gf.value_eq_top hdigit
  -- `b` is the sign of the difference
  have htop : (subtractModulus t)[15] = (difference t)[15] := by
    rw [difference, Vector.getElem_set_ne _ _ (by norm_num)]
  have hb : (((subtractModulus t)[15] >>> 16) &&& 1).toInt =
      -((difference t).limbs 15 / 2 ^ 16) := by
    rw [Gf.limbs_getElem _ (by omega)] at hcur ⊢
    rw [htop]
    exact borrow_eq hcur
  have hstep : packStep t = (sel25519 t (difference t)
      ((1 : Int32) - (((subtractModulus t)[15] >>> 16) &&& 1).toInt32)).1 := rfl
  rcases lt_or_ge ((difference t).limbs 15) 0 with hneg | hpos
  · have hone : ((subtractModulus t)[15] >>> 16) &&& 1 = 1 := by
      apply Int64.toInt_inj.mp
      rw [hb, show (1 : Int64).toInt = 1 from rfl]
      omega
    have hlt : t.value < p25519 := by
      rw [← sub_neg, ← hval, hsplit]
      omega
    rw [hstep, hone, show (1 : Int32) - (1 : Int64).toInt32 = 0 from rfl, sel25519_zero,
      if_neg hlt.not_ge]
    exact ⟨ht, rfl⟩
  · have hzero : ((subtractModulus t)[15] >>> 16) &&& 1 = 0 := by
      apply Int64.toInt_inj.mp
      rw [hb, show (0 : Int64).toInt = 0 from rfl]
      omega
    have hge : (p25519 : ℤ) ≤ t.value := by
      rw [← sub_nonneg, ← hval, hsplit]
      omega
    rw [hstep, hzero, show (1 : Int32) - (0 : Int64).toInt32 = 1 from rfl, sel25519_one,
      if_pos hge]
    refine ⟨fun i hi => ?_, hval⟩
    rcases Nat.lt_or_ge i 15 with hi15 | hi15
    · exact hdigit i hi15
    · obtain rfl : i = 15 := by omega
      exact ⟨hpos, hcur.2⟩

/-- Two conditional subtractions reduce a 256-bit number. -/
theorem packStep_twice {t : Gf} (ht : t.Digits) :
    (packStep (packStep t)).Digits ∧ (packStep (packStep t)).value = t.value % p25519 := by
  obtain ⟨hd1, hv1⟩ := packStep_spec ht
  obtain ⟨hd2, hv2⟩ := packStep_spec hd1
  refine ⟨hd2, ?_⟩
  have := ht.value_range
  rw [hv2, hv1]
  rw [p25519_cast]
  split_ifs <;> omega

/-- The integer of 32 bytes, two at a time. -/
theorem leInt_pairs (n : Vector UInt8 32) : leInt n =
    limbSum (2 ^ 16) 16 fun i => byteLimbs n (2 * i) + 2 ^ 8 * byteLimbs n (2 * i + 1) :=
  (limbSum_pairs (2 ^ 8) 16 (byteLimbs n)).trans (by rw [← pow_mul])

/-- The bytes of the digits denote the same number. -/
theorem leInt_digitBytes {t : Gf} (ht : t.Digits) : leInt (digitBytes t) = t.value := by
  rw [leInt_pairs, Gf.value]
  refine limbSum_congr fun i hi => ?_
  have hd := ht i hi
  rw [byteLimbs_getElem _ (by omega), byteLimbs_getElem _ (by omega)]
  rw [Gf.limbs_getElem t hi] at hd ⊢
  simp only [digitBytes, Vector.getElem_ofFn, Nat.mul_mod_right, if_true,
    show (2 * i + 1) % 2 ≠ 0 by omega, if_false, show 2 * i / 2 = i by omega,
    show (2 * i + 1) / 2 = i by omega, toNat_truncate, toInt_and_ff, toInt_shiftRight_eight]
  omega

/-- The residue of the value is the canonical representative of the field element. -/
theorem Gf.value_emod (a : Gf) : a.value % p25519 = (a.toField.val : ℤ) := by
  rw [Gf.toField, ZMod.val_intCast]

/-- `pack25519` writes the canonical encoding of the field element. -/
theorem leInt_pack25519 {n : Gf} (hn : n.Bounded (2 ^ 62)) :
    leInt (pack25519 n) = (n.toField.val : ℤ) := by
  obtain ⟨hdigits, hfield⟩ := car25519_three hn
  obtain ⟨hd, hv⟩ := packStep_twice hdigits
  have hpack : pack25519 n =
      digitBytes (packStep (packStep (car25519 (car25519 (car25519 n))))) := by
    rw [pack25519, set25519_eq]
    rfl
  rw [hpack, leInt_digitBytes hd, hv, Gf.value_emod, hfield]

/-- Equal encodings mean equal field elements. -/
theorem pack25519_inj {a b : Gf} (ha : a.Bounded (2 ^ 62)) (hb : b.Bounded (2 ^ 62)) :
    pack25519 a = pack25519 b ↔ a.toField = b.toField := by
  rw [← leInt_injective.eq_iff, leInt_pack25519 ha, leInt_pack25519 hb, Int.ofNat_inj,
    (ZMod.val_injective p25519).eq_iff]

/-- `unpack25519` reads the low 255 bits, with digits as limbs. -/
theorem unpack25519_spec (n : Vector UInt8 32) :
    (unpack25519 n).Digits ∧ (unpack25519 n).value = leInt n % 2 ^ 255 := by
  set o : Gf := Vector.ofFn fun i =>
    n[2 * i.val].toUInt64.toInt64 + (n[2 * i.val + 1].toUInt64.toInt64 <<< 8) with ho
  have hlimb : ∀ i < 16, o.limbs i = byteLimbs n (2 * i) + 2 ^ 8 * byteLimbs n (2 * i + 1) := by
    intro i hi
    have h0 := byteLimbs_range n (show 2 * i < 32 by omega)
    have h1 := byteLimbs_range n (show 2 * i + 1 < 32 by omega)
    rw [byteLimbs_getElem n (by omega)] at h0 h1 ⊢
    rw [byteLimbs_getElem n (by omega)]
    have hshift : (n[2 * i + 1].toUInt64.toInt64 <<< 8).toInt = n[2 * i + 1].toNat * 2 ^ 8 := by
      rw [toInt_shiftLeft_eight, toInt_ofByte]
      rw [toInt_ofByte]; constructor <;> omega
    have hlow := toInt_ofByte n[2 * i]
    rw [ho, Gf.limbs_ofFn _ hi, toInt_add (by rw [hshift, hlow]; constructor <;> omega), hshift,
      hlow]
    ring
  have hdigit : o.Digits := by
    intro i hi
    have h0 := byteLimbs_range n (show 2 * i < 32 by omega)
    have h1 := byteLimbs_range n (show 2 * i + 1 < 32 by omega)
    rw [hlimb i hi]
    constructor <;> omega
  have hval : o.value = leInt n := by
    rw [leInt_pairs, Gf.value]
    exact limbSum_congr hlimb
  have hun : (unpack25519 n).limbs = Function.update o.limbs 15 (o.limbs 15 % 2 ^ 15) := by
    rw [unpack25519, Gf.limbs_set, toInt_and_7fff, ← ho, ← Gf.limbs_getElem o (by omega)]
  refine ⟨fun i hi => ?_, ?_⟩
  · rw [hun]
    by_cases h15 : i = 15
    · rw [h15, Function.update_self]
      constructor <;> omega
    · rw [Function.update_of_ne h15]
      exact hdigit i hi
  · obtain ⟨low, hsplit, hlow0, hlow⟩ := Gf.value_eq_top fun i hi => hdigit i (by omega)
    rw [← hval, Gf.value, hun, limbSum_update (by omega), ← Gf.value, hsplit, ← pow_mul]
    omega

/-- The field element a byte string denotes. -/
def fieldOfBytes (n : Vector UInt8 32) : Fp := ((leInt n % 2 ^ 255 : ℤ) : Fp)

/-- A decoded operand is a field element within the bound of a product. -/
theorem unpack25519_denotes (n : Vector UInt8 32) :
    Gf.Denotes (2 ^ 16) (unpack25519 n) (fieldOfBytes n) := by
  obtain ⟨hdigit, hval⟩ := unpack25519_spec n
  refine ⟨fun i hi => ?_, by rw [Gf.toField, hval, fieldOfBytes]⟩
  have := hdigit i hi
  rw [abs_le]
  constructor <;> omega

/-- A byte string that holds the residue of a field element denotes it. -/
theorem fieldOfBytes_of_leInt {n : Vector UInt8 32} {x : Fp} (h : leInt n = (x.val : ℤ)) :
    fieldOfBytes n = x := by
  have hlt : (x.val : ℤ) < 2 ^ 255 := by
    have := ZMod.val_lt x
    have hp := p25519_cast
    omega
  rw [fieldOfBytes, h, Int.emod_eq_of_lt (by omega) hlt]
  simp

end TweetNacl
