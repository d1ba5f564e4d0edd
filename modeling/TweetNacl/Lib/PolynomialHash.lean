import Mathlib.Algebra.Polynomial.Roots

/-!
# Hashing by the evaluation of a polynomial

The blocks of a message are the coefficients of a polynomial without a constant term, the first
block at the highest power, and the key is the point at which it is evaluated. Two messages have
values with a given difference at few keys only, because these are the roots of a polynomial that is
not zero.
-/

namespace PolynomialHash

open Polynomial

section Blocks

variable {R : Type*} [CommRing R] {c d : ℕ → R} {q r : ℕ}

/-- The polynomial of the blocks `c 0` to `c (q - 1)`. -/
noncomputable def blockPoly (c : ℕ → R) (q : ℕ) : R[X] :=
  ∑ i ∈ Finset.range q, C (c i) * X ^ (q - i)

/-- The value of the polynomial of some blocks. -/
theorem eval_blockPoly (c : ℕ → R) (q : ℕ) (x : R) :
    (blockPoly c q).eval x = ∑ i ∈ Finset.range q, c i * x ^ (q - i) := by
  simp only [blockPoly, eval_finsetSum, eval_mul, eval_C, eval_pow, eval_X]

/-- Block `i` is the coefficient at `q - i`. -/
theorem coeff_blockPoly (c : ℕ → R) {i : ℕ} (hi : i < q) : (blockPoly c q).coeff (q - i) = c i := by
  rw [blockPoly, finsetSum_coeff, Finset.sum_eq_single i]
  · rw [coeff_C_mul, coeff_X_pow, if_pos rfl, mul_one]
  · intro j hj hji
    have hjq := Finset.mem_range.mp hj
    rw [coeff_C_mul, coeff_X_pow, if_neg (by omega), mul_zero]
  · exact fun h => absurd (Finset.mem_range.mpr hi) h

/-- It has no constant term. -/
theorem coeff_blockPoly_zero (c : ℕ → R) (q : ℕ) : (blockPoly c q).coeff 0 = 0 := by
  rw [blockPoly, finsetSum_coeff]
  refine Finset.sum_eq_zero fun i hi => ?_
  have hiq := Finset.mem_range.mp hi
  rw [coeff_C_mul, coeff_X_pow, if_neg (by omega), mul_zero]

/-- Its degree is at most the number of blocks. -/
theorem natDegree_blockPoly_le (c : ℕ → R) (q : ℕ) : (blockPoly c q).natDegree ≤ q :=
  natDegree_sum_le_of_forall_le _ _ fun i _ => (natDegree_C_mul_X_pow_le _ _).trans (Nat.sub_le q i)

/-- Blocks that are not zero are as many as the degree. -/
theorem natDegree_blockPoly (hc : ∀ i < q, c i ≠ 0) : (blockPoly c q).natDegree = q := by
  rcases Nat.eq_zero_or_pos q with rfl | hq
  · exact Nat.le_zero.mp (natDegree_blockPoly_le c 0)
  · refine natDegree_eq_of_le_of_coeff_ne_zero (natDegree_blockPoly_le c q) ?_
    have htop := coeff_blockPoly c hq
    rw [Nat.sub_zero] at htop
    rw [htop]
    exact hc 0 hq

/-- The blocks of a polynomial are determined, if none is zero. -/
theorem blocks_unique (hc : ∀ i < q, c i ≠ 0) (hd : ∀ i < r, d i ≠ 0)
    (h : blockPoly c q = blockPoly d r) :
    q = r ∧ ∀ i < q, c i = d i := by
  obtain rfl : q = r := by rw [← natDegree_blockPoly hc, h, natDegree_blockPoly hd]
  refine ⟨rfl, fun i hi => ?_⟩
  rw [← coeff_blockPoly c hi, h, coeff_blockPoly d hi]

end Blocks

section Keys

variable {F : Type*} [Field F] {p p' : F[X]} {n : ℕ}

/-- Two polynomials without constant terms do not differ by a constant. -/
theorem sub_ne_C (hp : p.coeff 0 = 0) (hp' : p'.coeff 0 = 0) (hne : p ≠ p') (t : F) :
    p - p' - C t ≠ 0 := by
  intro h
  have hconst := congrArg (fun f => coeff f 0) h
  simp only [coeff_sub, hp, hp', coeff_C_zero, coeff_zero, sub_zero, zero_sub,
    neg_eq_zero] at hconst
  rw [hconst, C_0, sub_zero, sub_eq_zero] at h
  exact hne h

variable [DecidableEq F]

/-- The keys at which the values have a given difference are at most as many as the degree. -/
theorem card_sub_eval_eq_le (hp : p.coeff 0 = 0) (hp' : p'.coeff 0 = 0) (hne : p ≠ p')
    (hn : p.natDegree ≤ n) (hn' : p'.natDegree ≤ n) (keys : Finset F) (t : F) :
    (keys.filter fun x => p.eval x - p'.eval x = t).card ≤ n := by
  have hroots : (keys.filter fun x => p.eval x - p'.eval x = t) ⊆
      (p - p' - C t).roots.toFinset := by
    intro x hx
    rw [Multiset.mem_toFinset, mem_roots (sub_ne_C hp hp' hne t), IsRoot.def, eval_sub,
      eval_sub, eval_C, sub_eq_zero]
    exact (Finset.mem_filter.mp hx).2
  have hdegree : (p - p' - C t).natDegree ≤ n := by
    refine (natDegree_sub_le_of_le (natDegree_sub_le_of_le hn hn') (natDegree_C t).le).trans ?_
    rw [max_self, Nat.max_zero]
  exact (Finset.card_le_card hroots).trans
    ((Multiset.toFinset_card_le _).trans ((card_roots' _).trans hdegree))

/-- The same for a finite set of differences. -/
theorem card_sub_eval_mem_le (hp : p.coeff 0 = 0) (hp' : p'.coeff 0 = 0) (hne : p ≠ p')
    (hn : p.natDegree ≤ n) (hn' : p'.natDegree ≤ n) {keys targets : Finset F}
    (hkeys : ∀ x ∈ keys, p.eval x - p'.eval x ∈ targets) :
    keys.card ≤ n * targets.card :=
  Finset.card_le_mul_card_image_of_maps_to hkeys n fun t _ =>
    card_sub_eval_eq_le hp hp' hne hn hn' keys t

end Keys

section Clamping

/-- The numbers under `2 ^ width` with given bits in a mask are at most as many as the settings of
the other bits. -/
theorem card_and_eq_le (width mask r : ℕ) :
    ((Finset.range (2 ^ width)).filter fun a => a &&& mask = r).card ≤
    2 ^ ((Finset.range width).filter fun i => mask.testBit i = false).card := by
  rw [← Finset.card_powerset]
  refine Finset.card_le_card_of_injOn
    (fun a => ((Finset.range width).filter fun i => mask.testBit i = false).filter fun i =>
    a.testBit i = true) (fun a _ => Finset.mem_powerset.mpr (Finset.filter_subset _ _)) ?_
  intro a ha b hb hab
  obtain ⟨hlt, hmask⟩ := Finset.mem_filter.mp ha
  obtain ⟨hlt', hmask'⟩ := Finset.mem_filter.mp hb
  refine Nat.eq_of_testBit_eq fun i => ?_
  rcases Nat.lt_or_ge i width with hi | hi
  · cases hbit : mask.testBit i with
    | true =>
      have hsame := congrArg (fun n => Nat.testBit n i) (hmask.trans hmask'.symm)
      simpa only [Nat.testBit_and, hbit, Bool.and_true] using hsame
    | false =>
      have hsame := Finset.ext_iff.mp hab i
      simp only [Finset.mem_filter, Finset.mem_range, hi, hbit, true_and] at hsame
      exact Bool.eq_iff_iff.mpr hsame
  · have hpow := Nat.pow_le_pow_right (show 0 < 2 by norm_num) hi
    rw [Nat.testBit_lt_two_pow ((Finset.mem_range.mp hlt).trans_le hpow),
      Nat.testBit_lt_two_pow ((Finset.mem_range.mp hlt').trans_le hpow)]

end Clamping

end PolynomialHash
