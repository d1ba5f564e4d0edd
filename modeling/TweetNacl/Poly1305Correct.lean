import TweetNacl.Poly1305
import TweetNacl.Lib.Limbs
import TweetNacl.Lib.Loops
import Mathlib.Tactic.IntervalCases
import Mathlib.Tactic.LinearCombination

/-!
# Poly1305

The specification evaluates the message polynomial at the clamped key modulo
`2 ^ 130 - 5` on integers. The limbs of the code hold digits of radix `2 ^ 8` between
operations; each operation is described once by the integer its result holds. All of it
is proved from the rules of exact words, so it also shows that no word wraps.
-/

namespace TweetNacl

open Limbs CheckedWord Memory

/-- The prime `2 ^ 130 - 5`. -/
def p1305 : ℤ := 2 ^ 130 - 5

/-- The value of block `i` of a message: its bytes with a 1 appended. -/
def blockValue (m : List UInt8) (i : ℕ) : ℤ := leBytes ((m.drop (16 * i)).take 16 ++ [1])

/-- The message polynomial at `r`. -/
def messagePoly (r : ℤ) (m : List UInt8) : ℤ :=
  let q := (m.length + 15) / 16
  ∑ i ∈ Finset.range q, blockValue m i * r ^ (q - i)

/-- The multiplier: the first half of the key, clamped. -/
def keyR (k : Vector UInt8 32) : ℕ :=
  leNat (Vector.ofFn fun j : Fin 16 => k[j.val]) &&& 0x0ffffffc0ffffffc0ffffffc0fffffff

/-- The final summand: the second half of the key. -/
def keyS (k : Vector UInt8 32) : ℤ := leInt (Vector.ofFn fun j : Fin 16 => k[j.val + 16])

/-- The Poly1305 authenticator as an integer. -/
def poly1305 (m : List UInt8) (k : Vector UInt8 32) : ℤ :=
  (messagePoly (keyR k) m % p1305 + keyS k) % 2 ^ 128

/-- A nonempty message contributes its first block at the highest power. -/
theorem messagePoly_drop (r : ℤ) {m : List UInt8} (hm : m.length ≠ 0) :
    messagePoly r m = blockValue m 0 * r ^ ((m.length + 15) / 16) + messagePoly r (m.drop 16) := by
  have hcount : (m.length + 15) / 16 = ((m.drop 16).length + 15) / 16 + 1 := by
    rw [List.length_drop]
    omega
  simp only [messagePoly, hcount]
  rw [Finset.sum_range_succ', add_comm]
  congr 1
  refine Finset.sum_congr rfl fun i _ => ?_
  rw [Nat.add_sub_add_right]
  congr 1
  rw [blockValue, blockValue, List.drop_drop, Nat.mul_succ, Nat.add_comm]

section Exact

variable {α : Type} [Word α] [ExactWord α]

/-- The limbs are exact digits of the integer `v`. -/
def Holds (h : Vector α 17) (v : ℤ) : Prop :=
  ∃ d : ℕ → ℤ, ExactVec h d ∧ (∀ k < 17, 0 ≤ d k ∧ d k < 2 ^ 8) ∧ limbSum (2 ^ 8) 17 d = v

/-- Seventeen digits have a value below `2 ^ 136`. -/
theorem Holds.range {h : Vector α 17} {v : ℤ} (hv : Holds h v) : 0 ≤ v ∧ v < 2 ^ 136 := by
  obtain ⟨d, -, hd, rfl⟩ := hv
  refine ⟨limbSum_nonneg (by norm_num) fun k hk => (hd k hk).1, ?_⟩
  have := limbSum_lt (B := 2 ^ 8) (by norm_num) fun k hk => (hd k hk).2
  rwa [← pow_mul] at this

/-- A carry chain leaves digits and the carry out; together with the carry in they have the value
of the sums that went through it. `T` bounds the sums and `U` the carries. -/
theorem carryChain_spec {n : ℕ} (hn : n ≤ 17) {w : (j : ℕ) → j < 17 → α → α} {h : Vector α 17}
    {u : α} {f t : ℕ → ℤ} {u₀ T U : ℤ} (hh : ExactVec h f) (hu : ExactWord.Is u u₀) (hu₀ : u₀ ≤ U)
    (hw : ∀ j (hj : j < 17) x, j < n → ExactWord.Is x (f j) → ExactWord.Is (w j hj x) (t j))
    (ht : ∀ j < n, t j ≤ T) (hfit : U + T < 2 ^ 32) (hstay : (U + T) / 2 ^ 8 ≤ U) :
    ∃ d c, ExactVec (carryChain n hn w h u).1 (fun k => if k < n then d k else f k) ∧
      ExactWord.Is (carryChain n hn w h u).2 c ∧ c ≤ U ∧ (∀ k < n, 0 ≤ d k ∧ d k < 2 ^ 8) ∧
      limbSum (2 ^ 8) n d + c * (2 ^ 8) ^ n = limbSum (2 ^ 8) n t + u₀ := by
  have hinv := Loops.fold_invariant (n := n)
    (f := fun j _ (s : Vector α 17 × α) =>
      let u := s.2 + w j (by omega) s.1[j]
      (s.1.set j (u &&& Word.lit 255), Word.shr u 8)) (s := (h, u))
    (fun i s => ∃ d c, ExactVec s.1 (fun k => if k < i then d k else f k) ∧
      ExactWord.Is s.2 c ∧ c ≤ U ∧ (∀ k < i, 0 ≤ d k ∧ d k < 2 ^ 8) ∧
      limbSum (2 ^ 8) i d + c * (2 ^ 8) ^ i = limbSum (2 ^ 8) i t + u₀)
    ⟨0, u₀, by simpa using hh, hu, hu₀, by simp, by simp⟩ ?_
  · exact hinv
  · rintro i hi ⟨h', u'⟩ ⟨d, c, hexact, hcarry, hcU, hd, hsum⟩
    have hlimb := hexact i (by omega)
    simp only [lt_irrefl, if_false] at hlimb
    have hti := hw i (by omega) _ hi hlimb
    have htT := ht i hi
    have hadd := ExactWord.add hcarry hti (by linarith)
    have hrange := ExactWord.range hadd
    have hdigit : 0 ≤ (c + t i) % 2 ^ 8 ∧ (c + t i) % 2 ^ 8 < 2 ^ 8 :=
      ⟨Int.emod_nonneg _ (by norm_num), Int.emod_lt_of_pos _ (by norm_num)⟩
    refine ⟨Function.update d i ((c + t i) % 2 ^ 8), (c + t i) / 2 ^ 8, ?_, ?_, ?_, ?_, ?_⟩
    · exact hexact.push (by omega) (ExactWord.mask (k := 8) hadd rfl)
    · exact ExactWord.shr hadd (by norm_num)
    · exact (Int.ediv_le_ediv (by norm_num) (by linarith)).trans hstay
    · exact forall_update_top (P := fun z => 0 ≤ z ∧ z < 2 ^ 8) hd hdigit
    · have hdiv := Int.emod_add_mul_ediv (c + t i) (2 ^ 8)
      rw [limbSum_update_top, limbSum_succ _ i, pow_succ ((2 : ℤ) ^ 8) i]
      linear_combination hsum + (2 ^ 8) ^ i * hdiv

/-- Addition of digits is addition modulo `2 ^ 136`. -/
theorem Holds.add1305 {h c : Vector α 17} {a b : ℤ} (hh : Holds h a) (hc : Holds c b) :
    Holds (add1305 h c) ((a + b) % 2 ^ 136) := by
  obtain ⟨f, hf, hfd, rfl⟩ := hh
  obtain ⟨g, hg, hgd, rfl⟩ := hc
  obtain ⟨d, carry, hexact, -, -, hd, hsum⟩ := carryChain_spec (n := 17) le_rfl
    (w := fun j _ x => x + (c)[j]) (t := fun j => f j + g j) (T := 510) (U := 510) hf
    (ExactWord.lit 0) (by norm_num)
    (fun j hj x _ hx => ExactWord.add hx (hg j hj) (by
      have := hfd j hj
      have := hgd j hj
      omega))
    (fun j hj => by
      have := hfd j hj
      have := hgd j hj
      omega) (by norm_num) (by norm_num)
  refine ⟨d, hexact.congr fun k hk => if_pos hk, hd, ?_⟩
  have hlow := limbSum_nonneg (B := 2 ^ 8) (by norm_num) fun k hk => (hd k hk).1
  have hhigh := limbSum_lt (B := 2 ^ 8) (by norm_num) fun k hk => (hd k hk).2
  rw [limbSum_add] at hsum
  rw [← pow_mul] at hhigh hsum
  exact ((Int.ediv_emod_unique (a := limbSum (2 ^ 8) 17 f + limbSum (2 ^ 8) 17 g) (b := 2 ^ 136)
    (q := carry) (by norm_num)).mpr ⟨by
      norm_num at hsum ⊢
      linarith, hlow, hhigh⟩).2.symm

/-- A column of the product is the sum over the wrapped columns. -/
theorem mulColumn_exact {h r : Vector α 17} {f g : ℕ → ℤ} (hf : ExactVec h f) (hg : ExactVec r g)
    (hfd : ∀ k < 17, 0 ≤ f k ∧ f k < 2 ^ 8) (hgd : ∀ k < 17, 0 ≤ g k ∧ g k < 2 ^ 8) {i : ℕ}
    (hi : i < 17) :
    ExactWord.Is (mulColumn h r i hi) (∑ j ∈ Finset.range 17, f j * wrapCoeff 320 17 g i j) ∧
      ∑ j ∈ Finset.range 17, f j * wrapCoeff 320 17 g i j ≤ 17 * 20808000 := by
  have hinv := Loops.fold_invariant (n := 17)
    (f := fun j _ (x : α) =>
      x + h[j] * (if hj : j ≤ i then r[i - j] else Word.lit 320 * r[i + 17 - j]))
    (s := Word.lit 0)
    (fun n x => ExactWord.Is x (∑ j ∈ Finset.range n, f j * wrapCoeff 320 17 g i j) ∧
      ∑ j ∈ Finset.range n, f j * wrapCoeff 320 17 g i j ≤ n * 20808000)
    ⟨ExactWord.lit 0, by simp⟩ ?_
  · exact hinv
  · rintro j hj x ⟨hx, hbound⟩
    have hfj := hfd j hj
    -- the coefficient is a limb of the multiplier, or 320 times one
    have hcoeff : ExactWord.Is (if hj : j ≤ i then r[i - j] else Word.lit 320 * r[i + 17 - j])
        (wrapCoeff 320 17 g i j) ∧ 0 ≤ wrapCoeff 320 17 g i j ∧ wrapCoeff 320 17 g i j ≤ 81600 := by
      by_cases hji : j ≤ i
      · have hgk := hgd (i - j) (by omega)
        rw [dif_pos hji, wrapCoeff, if_pos hji]
        exact ⟨hg _ (by omega), by omega, by omega⟩
      · have hgk := hgd (i + 17 - j) (by omega)
        rw [dif_neg hji, wrapCoeff, if_neg hji]
        exact ⟨ExactWord.mul (ExactWord.lit 320) (hg _ (by omega)) (by norm_num; omega), by omega,
          by omega⟩
    obtain ⟨hexact, hnonneg, hle⟩ := hcoeff
    have hprod : f j * wrapCoeff 320 17 g i j ≤ 20808000 := by
      calc f j * wrapCoeff 320 17 g i j ≤ 255 * 81600 :=
            mul_le_mul (by omega) hle hnonneg (by norm_num)
        _ = 20808000 := by norm_num
    have hjle : (j : ℤ) ≤ 16 := by omega
    rw [Finset.sum_range_succ]
    refine ⟨ExactWord.add hx (ExactWord.mul (hf j hj) hexact (by linarith)) (by linarith), ?_⟩
    push_cast
    linarith

/-- The reduction of wide columns keeps the number modulo the prime and leaves digits of a number
just above `2 ^ 130`. -/
theorem reduce1305_spec {x : Vector α 17} {f : ℕ → ℤ} (hf : ExactVec x f)
    (hrange : ∀ k < 17, f k ≤ 17 * 20808000) :
    ∃ v, Holds (reduce1305 x) v ∧ v ≡ limbSum (2 ^ 8) 17 f [ZMOD p1305] ∧ v < 2 ^ 130 + 2 ^ 31 := by
  have hzero : ExactWord.Is (Word.lit 0 : α) 0 := ExactWord.lit 0
  have hfive : ExactWord.Is (Word.lit 5 : α) 5 := ExactWord.lit 5
  obtain ⟨d, c, hexact, hcarry, hcU, hd, hsum⟩ := carryChain_spec (n := 16) (by norm_num)
    (w := fun _ _ x => x) (t := f) (T := 17 * 20808000) (U := 2 ^ 21) hf hzero
    (by norm_num) (fun _ _ _ _ hx => hx) (fun k hk => hrange k (by omega)) (by norm_num)
    (by norm_num)
  have htop := hexact 16 (by norm_num)
  simp only [lt_irrefl, if_false] at htop
  have hf16 := hrange 16 (by norm_num)
  obtain ⟨w, hw⟩ : ∃ w, w = c + f 16 := ⟨_, rfl⟩
  have hu := ExactWord.add hcarry htop (by linarith)
  have hwrange := ExactWord.range hu
  rw [← hw] at hu hwrange
  have hu' := ExactWord.mul hfive (ExactWord.shr (k := 2) hu (by norm_num)) (by omega)
  have hlow := limbSum_lt (B := 2 ^ 8) (by norm_num) fun k hk => (hd k hk).2
  -- the second chain starts from five times the overflow beyond `2 ^ 130`
  obtain ⟨d', c', hexact', hcarry', hcU', hd', hsum'⟩ := carryChain_spec (n := 16) (by norm_num)
    (w := fun _ _ x => x) (t := d) (T := 255) (U := 2 ^ 29)
    (hexact.set (i := 16) (by norm_num) (ExactWord.mask (k := 2) (c := 3) hu rfl)) hu'
    (by omega)
    (fun j hj x hj16 hx => by
      rwa [Function.update_of_ne hj16.ne, if_pos hj16] at hx)
    (fun k hk => by have := hd k hk; omega) (by norm_num) (by norm_num)
  have htop' := hexact' 16 (by norm_num)
  simp only [lt_irrefl, if_false, Function.update_self] at htop'
  have hc0 := (ExactWord.range hcarry').1
  have hlast := ExactWord.add hcarry' htop' (by omega)
  have hlow' := limbSum_nonneg (B := 2 ^ 8) (by norm_num) fun k hk => (hd' k hk).1
  rw [← pow_mul] at hsum hsum' hlow
  have hc1 : c' ≤ 1 := by omega
  have hvalue : limbSum (2 ^ 8) 17 (Function.update d' 16 (c' + w % 2 ^ 2)) =
      limbSum (2 ^ 8) 16 d + 5 * (w / 2 ^ 2) + w % 2 ^ 2 * 2 ^ 128 := by
    rw [limbSum_update_top, ← pow_mul]
    omega
  refine ⟨_, ⟨Function.update d' 16 (c' + w % 2 ^ 2), ?_, ?_, rfl⟩, ?_, ?_⟩
  · exact (hexact'.push (by norm_num) hlast).congr fun k hk => if_pos hk
  · exact forall_update_top (P := fun z => 0 ≤ z ∧ z < 2 ^ 8) hd' (by omega)
  · rw [hvalue, limbSum_succ _ 16, ← pow_mul]
    refine Int.modEq_iff_dvd.mpr ⟨w / 2 ^ 2, ?_⟩
    rw [p1305]
    omega
  · rw [hvalue]
    omega

/-- A loaded block holds its value. -/
theorem loadBlock_holds (m : List UInt8) : Holds (loadBlock m : Vector α 17) (blockValue m 0) := by
  have hlen : ((m.drop (16 * 0)).take 16 ++ [1]).length = min 16 m.length + 1 := by simp
  have hget : ∀ k < min 16 m.length + 1, ((m.drop (16 * 0)).take 16 ++ [1]).getD k 0 =
      if h : k < 16 ∧ k < m.length then m[k] else 1 := by
    intro k hk
    by_cases h : k < 16 ∧ k < m.length
    · rw [dif_pos h]
      simp [List.getD, List.getElem?_append_left, h.1, h.2]
    · obtain rfl : k = min 16 m.length := by omega
      rw [dif_neg h]
      simp [List.getD]
  refine ⟨fun k => if h : k < 16 ∧ k < m.length then (m[k].toNat : ℤ)
    else if k = min 16 m.length then 1 else 0, ?_, ?_, ?_⟩
  · refine ExactVec.ofFn fun k hk => ?_
    dsimp only
    split_ifs
    · exact ExactWord.lit _
    · exact ExactWord.lit 1
    · exact ExactWord.lit 0
  · intro k _
    dsimp only
    split_ifs with h
    · have := m[k].toNat_lt
      omega
    · norm_num
    · norm_num
  · rw [blockValue, leBytes, hlen, limbSum_extend (n := min 16 m.length + 1) (by omega)]
    · refine limbSum_congr fun k hk => ?_
      rw [hget k hk]
      by_cases h : k < 16 ∧ k < m.length
      · rw [dif_pos h, dif_pos h]
      · rw [dif_neg h, dif_neg h, if_pos (by omega)]
        rfl
    · intro k hk _
      rw [dif_neg (by omega), if_neg (by omega)]

/-- A block with its marker is below `2 ^ 129`. -/
theorem blockValue_lt (m : List UInt8) (i : ℕ) : blockValue m i < 2 ^ 129 := by
  have hlen : ((m.drop (16 * i)).take 16).length ≤ 16 := by simp
  obtain ⟨l, hl⟩ : ∃ l, l = (m.drop (16 * i)).take 16 := ⟨_, rfl⟩
  have hlow : limbSum (2 ^ 8) l.length (fun k => (((l ++ [1]).getD k 0).toNat : ℤ)) <
      (2 ^ 8) ^ l.length :=
    limbSum_lt (by norm_num) fun k _ => by
      have := ((l ++ [1]).getD k 0).toNat_lt
      omega
  have hpow : ((2 : ℤ) ^ 8) ^ l.length ≤ (2 ^ 8) ^ 16 :=
    pow_le_pow_right₀ (by norm_num) (hl ▸ hlen)
  rw [blockValue, ← hl, leBytes, List.length_append, List.length_singleton, limbSum_succ]
  simp only [List.getD_append_right, le_refl, Nat.sub_self, List.getD_cons_zero]
  rw [show ((1 : UInt8).toNat : ℤ) = 1 from rfl]
  norm_num at hpow hlow ⊢
  omega

/-- One block: add, multiply, reduce. -/
theorem Holds.block {h r : Vector α 17} {a y : ℤ} (hh : Holds h a) (hr : Holds r y)
    (ha : a < 2 ^ 130 + 2 ^ 31) (m : List UInt8) :
    ∃ v, Holds (onetimeauthBlock r h m) v ∧
      v ≡ (a + blockValue m 0) * y [ZMOD p1305] ∧ v < 2 ^ 130 + 2 ^ 31 := by
  have hsum := hh.add1305 (loadBlock_holds m)
  have hrange := hh.range
  have hblock := (loadBlock_holds (α := α) m).range
  have hlt := blockValue_lt m 0
  rw [Int.emod_eq_of_lt (by omega) (by omega)] at hsum
  obtain ⟨f, hf, hfd, hfv⟩ := hsum
  obtain ⟨g, hg, hgd, rfl⟩ := hr
  have hcolumn := fun i (hi : i < 17) => mulColumn_exact hf hg hfd hgd hi
  obtain ⟨v, hv, hmod, hlt⟩ := reduce1305_spec
    (ExactVec.ofFn (x := fun i => mulColumn (TweetNacl.add1305 h (loadBlock m)) r i i.isLt)
      fun i hi => (hcolumn i hi).1) fun i hi => (hcolumn i hi).2
  have hbase : ((2 : ℤ) ^ 8) ^ 17 ≡ 320 [ZMOD p1305] :=
    Int.modEq_iff_dvd.mpr ⟨-64, by norm_num [p1305]⟩
  refine ⟨v, hv, hmod.trans ?_, hlt⟩
  rw [← hfv]
  exact limbSum_wrapProduct hbase g f

/-- The loop over the blocks evaluates the message polynomial by Horner's rule. -/
theorem onetimeauthLoop_holds {r : Vector α 17} {y : ℤ} (hr : Holds r y) (m : List UInt8)
    {h : Vector α 17} {a : ℤ} (hh : Holds h a) (ha : a < 2 ^ 130 + 2 ^ 31) :
    ∃ v, Holds (onetimeauthLoop r h m) v ∧
      v ≡ a * y ^ ((m.length + 15) / 16) + messagePoly y m [ZMOD p1305] ∧
      v < 2 ^ 130 + 2 ^ 31 := by
  fun_induction onetimeauthLoop r h m generalizing a with
  | case1 h m hempty =>
    refine ⟨a, hh, ?_, ha⟩
    simp [messagePoly, hempty]
  | case2 h m hm ih =>
    obtain ⟨v, hv, hmod, hlt⟩ := hh.block hr ha m
    obtain ⟨v', hv', hmod', hlt'⟩ := ih hv hlt
    refine ⟨v', hv', hmod'.trans ?_, hlt'⟩
    have hcount : (m.length + 15) / 16 = ((m.drop 16).length + 15) / 16 + 1 := by
      rw [List.length_drop]
      omega
    calc v * y ^ (((m.drop 16).length + 15) / 16) + messagePoly y (m.drop 16)
        ≡ (a + blockValue m 0) * y * y ^ (((m.drop 16).length + 15) / 16) +
            messagePoly y (m.drop 16) [ZMOD p1305] := (hmod.mul_right _).add_right _
      _ = a * y ^ ((m.length + 15) / 16) + messagePoly y m := by
          rw [messagePoly_drop y hm, hcount, pow_succ]
          ring

/-- The constant `minusp` holds `2 ^ 136 - p`. -/
theorem minusp_holds : Holds (minusp.map Word.lit : Vector α 17) (2 ^ 136 - p1305) := by
  refine ⟨fun k => if k = 0 then 5 else if k = 16 then 252 else 0, ?_, ?_, ?_⟩
  · intro k hk
    rw [Vector.getElem_map]
    interval_cases k <;> exact ExactWord.lit _
  · intro k _
    dsimp only
    split_ifs <;> norm_num
  · norm_num [limbSum, Finset.sum_range_succ, p1305]

/-- Bytes followed by a zero limb hold the number of the bytes. -/
theorem bytes_holds {v : Vector UInt8 16} {h : Vector α 17}
    (hbyte : ∀ k (hk : k < 16), ExactWord.Is h[k] (v[k].toNat : ℤ))
    (htop : ∀ _ : 16 < 17, ExactWord.Is h[16] 0) :
    Holds h (leInt v) := by
  refine ⟨byteLimbs v, fun k hk => ?_, fun k hk => ?_, ?_⟩
  · rcases Nat.lt_succ_iff_lt_or_eq.mp hk with hlt | rfl
    · rw [byteLimbs_getElem v hlt]
      exact hbyte k hlt
    · rw [byteLimbs, entries_of_ge _ _ le_rfl]
      exact htop hk
  · rcases Nat.lt_succ_iff_lt_or_eq.mp hk with hlt | rfl
    · exact byteLimbs_range v hlt
    · rw [byteLimbs, entries_of_ge _ _ le_rfl]
      norm_num
  · exact limbSum_extend (by norm_num) fun k hk _ => entries_of_ge _ _ hk

/-- The byte mask of the clamp. -/
def clampMask : Vector UInt8 16 :=
  #v[255, 255, 255, 15, 252, 255, 255, 15, 252, 255, 255, 15, 252, 255, 255, 15]

/-- The clamping mask as a number. -/
theorem leNat_clampMask : leNat clampMask = 0x0ffffffc0ffffffc0ffffffc0fffffff := by decide +kernel

/-- Clamping the first half of a key gives its `r`. -/
theorem clampR_holds (k : Vector UInt8 32) : Holds (clampR k : Vector α 17) (keyR k) := by
  have hkey : (keyR k : ℤ) =
      leInt (Vector.ofFn fun i : Fin 16 => (Vector.ofFn fun j : Fin 16 => k[j.val])[i] &&&
        clampMask[i]) := by
    rw [keyR, ← leNat_clampMask, ← leNat_and, leNat_cast]
  rw [hkey]
  have hlit : ∀ b : UInt8, ExactWord.Is (Word.lit b.toUInt32 : α) (b.toNat : ℤ) := fun b => by
    simpa using ExactWord.lit (α := α) b.toUInt32
  have hmask : ∀ (b : UInt8) (c : UInt32),
      ExactWord.Is (Word.lit b.toUInt32 &&& Word.lit c : α) ((b.toNat &&& c.toNat : ℕ) : ℤ) :=
    fun b c => ExactWord.and (hlit b) (ExactWord.lit c)
  have hkeep : ∀ b : UInt8,
      ExactWord.Is (Word.lit b.toUInt32 : α) ((b.toNat &&& 255 : ℕ) : ℤ) := fun b => by
    rw [Nat.and_two_pow_sub_one_eq_mod b.toNat 8, Nat.mod_eq_of_lt b.toNat_lt]
    exact hlit b
  refine bytes_holds (fun i hi => ?_) fun _ => ?_
  · interval_cases i <;> simp [clampR, clampMask]
    all_goals first | exact hkeep _ | exact hmask _ 15 | exact hmask _ 252
  · simpa [clampR] using ExactWord.lit (α := α) 0

/-- The masked exchange keeps the difference if it is not negative, and the original digits if it
is: the sign shows in the top bit of the top limb. -/
theorem select_holds {g h : Vector α 17} {a b : ℤ} (hg : Holds g a) (hh : Holds h b) :
    Holds (selectLimbs (Word.neg (Word.shr (h.nth 16) 7)) g h) (if b < 2 ^ 135 then b else a) := by
  obtain ⟨f, hf, hfd, rfl⟩ := hg
  obtain ⟨d, hd, hdd, hdv⟩ := hh
  have hsign := ExactWord.shr (k := 7) (hd 16 (by norm_num)) (by norm_num)
  have htop := hdd 16 (by norm_num)
  have hlow := limbSum_nonneg (B := 2 ^ 8) (n := 16) (by norm_num) fun k hk => (hdd k (by omega)).1
  have hlow' := limbSum_lt (B := 2 ^ 8) (n := 16) (by norm_num) fun k hk => (hdd k (by omega)).2
  rw [limbSum_succ _ 16, ← pow_mul] at hdv
  rw [← pow_mul] at hlow'
  by_cases hlt : b < 2 ^ 135
  · rw [show d 16 / 2 ^ 7 = 0 by omega] at hsign
    rw [if_pos hlt]
    refine ⟨d, ExactVec.ofFn fun i hi => ?_, hdd, ?_⟩
    · exact ExactWord.select_zero hsign (hd i hi) (hf i hi)
    · rw [limbSum_succ _ 16, ← pow_mul]
      exact hdv
  · rw [show d 16 / 2 ^ 7 = 1 by omega] at hsign
    rw [if_neg hlt]
    exact ⟨f, ExactVec.ofFn fun i hi => ExactWord.select_one hsign (hd i hi) (hf i hi), hfd, rfl⟩

/-- The final subtraction reduces, and the final addition adds the second half of the key. -/
theorem onetimeauthFinish_holds {h : Vector α 17} {a : ℤ} (hh : Holds h a) (ha : a < 2 * p1305)
    (k : Vector UInt8 32) : Holds (onetimeauthFinish h k) (a % p1305 + keyS k) := by
  have hrange := hh.range
  have hdiff := hh.add1305 minusp_holds
  have hreduced : Holds (Vector.ofFn fun j : Fin 17 =>
      (add1305 h (minusp.map Word.lit))[j] ^^^
        (Word.neg (Word.shr (add1305 h (minusp.map Word.lit))[16] 7) &&&
          (h[j] ^^^ (add1305 h (minusp.map Word.lit))[j]))) (a % p1305) := by
    have h := select_holds hh hdiff
    have hvalue : (if (a + (2 ^ 136 - p1305)) % 2 ^ 136 < 2 ^ 135 then
        (a + (2 ^ 136 - p1305)) % 2 ^ 136 else a) = a % p1305 := by
      rw [p1305] at ha ⊢
      split_ifs <;> omega
    rwa [hvalue] at h
  have hkey : Holds (Vector.ofFn fun j : Fin 17 =>
      if hj : j.val < 16 then Word.lit k[j.val + 16].toUInt32 else Word.lit 0 : Vector α 17)
      (keyS k) := by
    refine bytes_holds (fun i hi => ?_) fun _ => ?_
    · have h := ExactWord.lit (α := α) k[i + 16].toUInt32
      simpa [hi] using h
    · simpa using ExactWord.lit (α := α) 0
  have hsum := hreduced.add1305 hkey
  have hs := hkey.range
  have hs' := leInt_lt (Vector.ofFn fun j : Fin 16 => k[j.val + 16])
  have hmod := Int.emod_lt_of_pos a (show 0 < p1305 by norm_num [p1305])
  have hmod' := Int.emod_nonneg a (show p1305 ≠ 0 by norm_num [p1305])
  rw [← pow_mul] at hs'
  have hfit : a % p1305 + keyS k < 2 ^ 136 := by
    rw [keyS]
    have : p1305 < 2 ^ 130 := by norm_num [p1305]
    omega
  rwa [Int.emod_eq_of_lt (by omega) hfit] at hsum

/-- The limbs of the authenticator, before its top limb is dropped. -/
theorem onetimeauthLimbs_holds (m : List UInt8) (k : Vector UInt8 32) :
    Holds (onetimeauthLimbs m k : Vector α 17) (messagePoly (keyR k) m % p1305 + keyS k) := by
  have hzero : Holds (Vector.replicate 17 (Word.lit 0) : Vector α 17) 0 := by
    refine ⟨fun _ => 0, fun i hi => ?_, fun _ _ => by norm_num, by simp [limbSum]⟩
    rw [Vector.getElem_replicate]
    exact ExactWord.lit 0
  obtain ⟨v, hv, hmod, hlt⟩ := onetimeauthLoop_holds (clampR_holds k) m hzero (by norm_num)
  have hfinish := onetimeauthFinish_holds hv (by rw [p1305]; omega) k
  rw [zero_mul, zero_add] at hmod
  rwa [hmod] at hfinish

end Exact

/-- The bytes `crypto_onetimeauth` computes are the Poly1305 authenticator. -/
theorem leInt_onetimeauth (m : List UInt8) (k : Vector UInt8 32) :
    leInt (onetimeauth m k) = poly1305 m k := by
  obtain ⟨d, hd, hdd, hsum⟩ := onetimeauthLimbs_holds (α := UInt32) m k
  have hbytes : leInt (onetimeauth m k) = limbSum (2 ^ 8) 16 d := by
    refine limbSum_congr fun i hi => ?_
    have hlimb : ((onetimeauthLimbs (α := UInt32) m k)[i].toNat : ℤ) = d i := hd i (by omega)
    have hrange := hdd i (by omega)
    rw [byteLimbs_getElem _ hi, onetimeauth, Vector.getElem_ofFn, UInt32.toNat_toUInt8]
    dsimp only
    omega
  have hlow := limbSum_nonneg (B := 2 ^ 8) (n := 16) (by norm_num) fun k hk => (hdd k (by omega)).1
  have hhigh := limbSum_lt (B := 2 ^ 8) (n := 16) (by norm_num) fun k hk => (hdd k (by omega)).2
  rw [limbSum_succ _ 16, ← pow_mul] at hsum
  rw [← pow_mul] at hhigh
  rw [hbytes, poly1305, ← hsum]
  omega

/-- No addition or multiplication of the 32-bit code wraps, on any message and key: the run with
overflow tracking ends in the same words, with no flag set. -/
theorem onetimeauthLimbs_tracked (m : List UInt8) (k : Vector UInt8 32) {i : ℕ} (hi : i < 17) :
    (onetimeauthLimbs (α := Tracked) m k)[i] =
      ⟨(onetimeauthLimbs (α := UInt32) m k)[i], false⟩ := by
  obtain ⟨d, hd, hdd, hsum⟩ := onetimeauthLimbs_holds (α := UInt32) m k
  obtain ⟨d', hd', hdd', hsum'⟩ := onetimeauthLimbs_holds (α := Tracked) m k
  have hsame := limbs_unique (by norm_num) hdd hdd' (hsum.trans hsum'.symm) i hi
  have hword : ((onetimeauthLimbs (α := UInt32) m k)[i].toNat : ℤ) = d i := hd i hi
  obtain ⟨hval, hwrapped⟩ : ((onetimeauthLimbs (α := Tracked) m k)[i].val.toNat : ℤ) = d' i ∧
      (onetimeauthLimbs (α := Tracked) m k)[i].wrapped = false := hd' i hi
  have heq : (onetimeauthLimbs (α := Tracked) m k)[i].val =
      (onetimeauthLimbs (α := UInt32) m k)[i] :=
    UInt32.toNat_inj.mp (by omega)
  rw [← heq, ← hwrapped]

/-- `crypto_onetimeauth` succeeds and leaves in `out` the Poly1305 authenticator of the message,
for every key and every length, and no word of its arithmetic wraps. -/
theorem cryptoOnetimeauth_is_poly1305 {mem : Mem} {out m k : Addr} {n : UInt64}
    (hout : mem.Valid out 16) (hm : mem.Valid m n.toNat) (hk : mem.Valid k 32) :
    ∃ mem', Runs (cryptoOnetimeauth (some out) (some m) n (some k)) mem 0 mem' ∧
      leInt (mem'.vec out 16) = poly1305 (mem.bytes m n.toNat) (mem.vec k 32) ∧
      ∀ i (hi : i < 17),
        (onetimeauthLimbs (α := Tracked) (mem.bytes m n.toNat) (mem.vec k 32))[i] =
          ⟨(onetimeauthLimbs (α := UInt32) (mem.bytes m n.toNat) (mem.vec k 32))[i], false⟩ :=
  ⟨_, cryptoOnetimeauth_runs hout hm hk, by rw [Mem.vec_writeVec, leInt_onetimeauth],
    fun _ hi => onetimeauthLimbs_tracked _ _ hi⟩

/-- An authenticator of zeros, a message of the bytes 1 to 33 and a key of the bytes 34 to 65. -/
def onetimeauthMemory : Mem :=
  Mem.ofBytes [List.replicate 16 0, numberedBytes 1 33, numberedBytes 34 32]

/-- The statement at this message, of three blocks, and this key. -/
theorem cryptoOnetimeauth_is_poly1305_numbered :
    ∃ mem', Runs (cryptoOnetimeauth (some ⟨0, 0⟩) (some ⟨1, 0⟩) 33 (some ⟨2, 0⟩)) onetimeauthMemory
        0 mem' ∧
      leInt (mem'.vec ⟨0, 0⟩ 16) = poly1305 (onetimeauthMemory.bytes ⟨1, 0⟩ 33)
        (onetimeauthMemory.vec ⟨2, 0⟩ 32) ∧
      ∀ i (hi : i < 17),
        (onetimeauthLimbs (α := Tracked) (onetimeauthMemory.bytes ⟨1, 0⟩ 33)
            (onetimeauthMemory.vec ⟨2, 0⟩ 32))[i] =
          ⟨(onetimeauthLimbs (α := UInt32) (onetimeauthMemory.bytes ⟨1, 0⟩ 33)
            (onetimeauthMemory.vec ⟨2, 0⟩ 32))[i], false⟩ :=
  cryptoOnetimeauth_is_poly1305 (n := 33) (by decide) (by decide) (by decide)

end TweetNacl
