import Mathlib.Data.Int.Interval
import Mathlib.Data.Set.Card
import Mathlib.Tactic.NormNum.Prime
import TweetNacl.Lib.Lucas
import TweetNacl.Lib.PolynomialHash
import TweetNacl.Poly1305Correct

/-!
# Forgeries of the one-time authenticator

A message is a polynomial over the field of `2 ^ 130 - 5` elements, and different messages are
different polynomials. Of the keys that give a message its tag, few give another message a tag of
the forger's choice.
-/

namespace TweetNacl

open Limbs PolynomialHash

section Field

/-- The prime `2 ^ 130 - 5` as a natural number. -/
@[irreducible] def prime1305 : ℕ := 2 ^ 130 - 5

/-- The field of Poly1305. -/
abbrev F1305 := ZMod prime1305

/-- The modulus is `2 ^ 130 - 5`. -/
theorem prime1305_eq : prime1305 = 2 ^ 130 - 5 := by
  unfold prime1305
  rfl

/-- The modulus as an integer. -/
theorem prime1305_cast : (prime1305 : ℤ) = p1305 := by
  rw [prime1305_eq, p1305]
  norm_num

/-- The primes that the certificate starts from. -/
private def smallPrimes1305 : List ℕ :=
  [2, 3, 5, 13, 23, 43, 73, 487, 4889, 37003, 221101, 3134801, 32985101]

/-- The primes under `2 ^ 130 - 6`. -/
private def certificate1305 : List LucasEntry :=
  [⟨4024685905107147541, 2, [2, 2, 3, 3, 5, 13, 43, 4889, 37003, 221101]⟩,
   ⟨897064739519922787230182993783, 5, [2, 73, 487, 3134801, 4024685905107147541]⟩,
   ⟨2 ^ 130 - 5, 2, [2, 23, 32985101, 897064739519922787230182993783]⟩]

/-- Every listed factor is a prime. -/
private theorem smallPrimes1305_prime : ∀ q ∈ smallPrimes1305, q.Prime := by
  simp only [smallPrimes1305, List.forall_mem_cons, List.not_mem_nil, false_imp_iff,
    implies_true, and_true]
  norm_num

/-- The modulus is prime, by Lucas's test. -/
theorem prime1305_prime : Nat.Prime prime1305 := by
  rw [prime1305_eq]
  exact prime_of_certifies smallPrimes1305_prime
    (show certifies smallPrimes1305 certificate1305 by decide +kernel) _
    (by decide +kernel)

instance : Fact prime1305.Prime := ⟨prime1305_prime⟩

/-- Residues are determined by their field elements. -/
theorem emod_eq_of_cast_eq {x y : ℤ} (h : (x : F1305) = y) : x % p1305 = y % p1305 := by
  rw [← prime1305_cast]
  exact (ZMod.intCast_eq_intCast_iff x y prime1305).mp h

/-- Reducing first does not change the field element. -/
theorem intCast_emod (x : ℤ) : ((x % p1305 : ℤ) : F1305) = x := by
  rw [← prime1305_cast]
  exact ZMod.intCast_mod x prime1305

end Field

section Messages

/-- The blocks of a message. -/
def blockCount (m : List UInt8) : ℕ := (m.length + 15) / 16

/-- The marker byte weighs one place above the bytes. -/
theorem leBytes_append_one (l : List UInt8) :
    leBytes (l ++ [1]) = leBytes l + (2 ^ 8) ^ l.length := by
  rw [leBytes, List.length_append, List.length_singleton, limbSum_succ, leBytes]
  congr 1
  · refine limbSum_congr fun i hi => ?_
    rw [List.getD_append _ _ _ _ hi]
  · rw [List.getD_append_right _ _ _ _ le_rfl, Nat.sub_self, List.getD_cons_zero]
    exact one_mul _

/-- The range of a number of so many bytes. -/
theorem leBytes_range (l : List UInt8) : 0 ≤ leBytes l ∧ leBytes l < (2 ^ 8) ^ l.length := by
  have hbyte : ∀ b : UInt8, (0 : ℤ) ≤ b.toNat ∧ (b.toNat : ℤ) < 2 ^ 8 := fun b => by
    have := b.toNat_lt
    omega
  exact ⟨limbSum_nonneg (by norm_num) fun i _ => (hbyte _).1, limbSum_lt (by norm_num) fun i _ =>
    (hbyte _).2⟩

/-- The appended 1 marks the length of a shorter string. -/
theorem leBytes_append_one_lt {l l' : List UInt8} (h : l.length < l'.length) :
    leBytes (l ++ [1]) < leBytes (l' ++ [1]) := by
  obtain ⟨-, hlow⟩ := leBytes_range l
  obtain ⟨hlow', -⟩ := leBytes_range l'
  have hpow : ((2 : ℤ) ^ 8) ^ (l.length + 1) ≤ (2 ^ 8) ^ l'.length :=
    pow_le_pow_right₀ (by norm_num) h
  have hpos : (0 : ℤ) < (2 ^ 8) ^ l.length := by positivity
  rw [pow_succ] at hpow
  rw [leBytes_append_one, leBytes_append_one]
  linarith

/-- With the marker a number determines its bytes. -/
theorem leBytes_append_one_injective {l l' : List UInt8}
    (h : leBytes (l ++ [1]) = leBytes (l' ++ [1])) : l = l' := by
  rcases lt_trichotomy l.length l'.length with hlt | hlen | hgt
  · exact absurd h (leBytes_append_one_lt hlt).ne
  · have hbyte : ∀ b : UInt8, (0 : ℤ) ≤ b.toNat ∧ (b.toNat : ℤ) < 2 ^ 8 := fun b => by
      have := b.toNat_lt
      omega
    rw [leBytes_append_one, leBytes_append_one, hlen, add_left_inj, leBytes, leBytes, hlen] at h
    have hbytes :=
      limbs_unique (by norm_num) (fun i _ => hbyte (l.getD i 0)) (fun i _ => hbyte (l'.getD i 0)) h
    refine List.ext_getElem hlen fun i hi hi' => ?_
    have hi'' := UInt8.toNat_inj.mp (Int.ofNat_inj.mp (hbytes i hi'))
    rwa [List.getD_eq_getElem _ _ hi, List.getD_eq_getElem _ _ hi'] at hi''
  · exact absurd h (leBytes_append_one_lt hgt).ne'

/-- A message is determined by its blocks. -/
theorem eq_of_blocks_eq {m m' : List UInt8}
    (h : ∀ i, (m.drop (16 * i)).take 16 = (m'.drop (16 * i)).take 16) :
    m = m' := by
  refine List.ext_getElem? fun j => ?_
  have hbyte := congrArg (fun l => l[j % 16]?) (h (j / 16))
  have hlt : j % 16 < 16 := Nat.mod_lt _ (by norm_num)
  simpa only [List.getElem?_take_of_lt hlt, List.getElem?_drop, Nat.div_add_mod] using hbyte

/-- A block with its marker is not zero. -/
theorem blockValue_pos (m : List UInt8) (i : ℕ) : 0 < blockValue m i := by
  obtain ⟨hlow, -⟩ := leBytes_range ((m.drop (16 * i)).take 16)
  rw [blockValue, leBytes_append_one]
  positivity

/-- The block values are residues. -/
theorem blockValue_emod (m : List UInt8) (i : ℕ) : blockValue m i % p1305 = blockValue m i :=
  Int.emod_eq_of_lt (blockValue_pos m i).le ((blockValue_lt m i).trans (by norm_num [p1305]))

/-- Nor is it zero in the field. -/
theorem blockValue_ne_zero (m : List UInt8) (i : ℕ) : (blockValue m i : F1305) ≠ 0 := by
  intro h
  rw [← Int.cast_zero] at h
  have hzero := emod_eq_of_cast_eq h
  rw [blockValue_emod, Int.zero_emod] at hzero
  exact (blockValue_pos m i).ne' hzero

/-- The polynomial of a message. -/
noncomputable def hashPoly (m : List UInt8) : Polynomial F1305 :=
  blockPoly (fun i => (blockValue m i : F1305)) (blockCount m)

/-- The value of the polynomial at a key is the accumulated sum. -/
theorem eval_hashPoly (m : List UInt8) (r : ℤ) :
    (hashPoly m).eval (r : F1305) = (messagePoly r m : ℤ) := by
  rw [hashPoly, eval_blockPoly, messagePoly]
  push_cast
  rfl

/-- Different messages have different polynomials. -/
theorem hashPoly_injective : Function.Injective hashPoly := by
  intro m m' h
  obtain ⟨hcount, hblocks⟩ :=
    blocks_unique (fun i _ => blockValue_ne_zero m i) (fun i _ => blockValue_ne_zero m' i) h
  refine eq_of_blocks_eq fun i => ?_
  by_cases hi : i < blockCount m
  · have hvalue := emod_eq_of_cast_eq (hblocks i hi)
    rw [blockValue_emod, blockValue_emod] at hvalue
    exact leBytes_append_one_injective hvalue
  · have hend : ∀ l : List UInt8, blockCount l ≤ i → (l.drop (16 * i)).take 16 = [] :=
        fun l hl => by
      rw [blockCount] at hl
      rw [List.drop_eq_nil_of_le (by omega), List.take_nil]
    rw [hend m (not_lt.mp hi), hend m' (hcount ▸ not_lt.mp hi)]

end Messages

section Keys

/-- The bits that the clamp keeps. -/
def clampBits : ℕ := 0x0ffffffc0ffffffc0ffffffc0fffffff

/-- A key is its two halves. -/
theorem leNat_key (k : Vector UInt8 32) :
    keyR k = leNat k % 2 ^ 128 &&& clampBits ∧ keyS k = (leNat k / 2 ^ 128 : ℕ) := by
  obtain ⟨low, hlow⟩ : ∃ low, low = Vector.ofFn fun j : Fin 16 => k[j.val] := ⟨_, rfl⟩
  obtain ⟨high, hhigh⟩ : ∃ high, high = Vector.ofFn fun j : Fin 16 => k[j.val + 16] := ⟨_, rfl⟩
  have hlowLimbs : limbSum (2 ^ 8) 16 (byteLimbs k) = leInt low := limbSum_congr fun i hi => by
    rw [byteLimbs_getElem k (by omega), byteLimbs_getElem low hi, hlow, Vector.getElem_ofFn]
  have hhighLimbs : limbSum (2 ^ 8) 16 (fun i => byteLimbs k (16 + i)) = leInt high :=
      limbSum_congr fun i hi => by
    rw [byteLimbs_getElem k (by omega), byteLimbs_getElem high hi, hhigh, Vector.getElem_ofFn]
    simp only [Nat.add_comm 16 i]
  have hsum : leInt k = leInt low + (2 ^ 8) ^ 16 * leInt high := by
    rw [← hlowLimbs, ← hhighLimbs]
    exact limbSum_add_len _ 16 16 _
  have hnat : leNat k = leNat low + 2 ^ 128 * leNat high := by
    apply Int.ofNat_inj.mp
    rw [leNat_cast, hsum, ← pow_mul, ← leNat_cast, ← leNat_cast]
    norm_cast
  have hlt : leNat low < 2 ^ 128 := (leNat_lt low).trans_eq (pow_mul 2 8 16).symm
  rw [keyR, keyS, ← hlow, ← hhigh, hnat, Nat.add_mul_mod_self_left, Nat.mod_eq_of_lt hlt,
    Nat.add_mul_div_left _ _ (by norm_num), Nat.div_eq_of_lt hlt, zero_add, leNat_cast]
  exact ⟨rfl, rfl⟩

/-- The tag of a message is the sum of the value of its polynomial and the second half of the
key. -/
theorem onetimeauth_eq_iff (m : List UInt8) (k : Vector UInt8 32) (t : Vector UInt8 16) :
    onetimeauth m k = t ↔ (messagePoly (keyR k) m % p1305 + keyS k) % 2 ^ 128 = leInt t := by
  rw [← leInt_injective.eq_iff, leInt_onetimeauth, poly1305]

/-- The keys under which a message has a tag. -/
def tagKeys (m : List UInt8) (t : Vector UInt8 16) : Set (Vector UInt8 32) :=
  {k | onetimeauth m k = t}

/-- The key with given halves. -/
def keyOf (low high : ℕ) : Vector UInt8 32 := ofNatLE 32 (low + 2 ^ 128 * high)

/-- The halves of such a key. -/
theorem leNat_keyOf {low high : ℕ} (hlow : low < 2 ^ 128) (hhigh : high < 2 ^ 128) :
    leNat (keyOf low high) % 2 ^ 128 = low ∧ leNat (keyOf low high) / 2 ^ 128 = high := by
  rw [keyOf, leNat_ofNatLE (by omega)]
  omega

/-- The range of a key as a number. -/
theorem leNat_key_lt (k : Vector UInt8 32) : leNat k < 2 ^ 128 * 2 ^ 128 :=
  (leNat_lt k).trans_eq (by norm_num)

/-- For each first half there is one second half that gives a message its tag. -/
theorem mem_tagKeys_iff {m : List UInt8} {k : Vector UInt8 32} {t : Vector UInt8 16} :
    k ∈ tagKeys m t ↔
      (leNat k / 2 ^ 128 : ℕ) = (leInt t - messagePoly (keyR k) m % p1305) % 2 ^ 128 := by
  have hk := leNat_key_lt k
  have ht : leInt t < 2 ^ 128 := (leInt_lt t).trans_eq (by norm_num)
  have ht' := leInt_nonneg t
  rw [tagKeys, Set.mem_ofPred_eq, onetimeauth_eq_iff, (leNat_key k).2]
  generalize messagePoly (keyR k) m % p1305 = v
  omega

/-- Under one tag a key is determined by its first half. -/
theorem tagKeys_injOn (m : List UInt8) (t : Vector UInt8 16) :
    Set.InjOn (fun k => leNat k % 2 ^ 128) (tagKeys m t) := by
  intro k hk k' hk' hlow
  have hhigh : (leNat k / 2 ^ 128 : ℕ) = (leNat k' / 2 ^ 128 : ℕ) := by
    apply Int.ofNat_inj.mp
    rw [mem_tagKeys_iff.mp hk, mem_tagKeys_iff.mp hk', (leNat_key k).1, (leNat_key k').1]
    dsimp only at hlow
    rw [hlow]
  have hnat : leNat k = leNat k' := by
    rw [← Nat.div_add_mod (leNat k) (2 ^ 128), ← Nat.div_add_mod (leNat k') (2 ^ 128), hhigh]
    exact congrArg _ hlow
  exact leInt_injective (by rw [← leNat_cast, ← leNat_cast, hnat])

/-- Every first half belongs to a key with the tag. -/
theorem image_tagKeys (m : List UInt8) (t : Vector UInt8 16) :
    (fun k => leNat k % 2 ^ 128) '' tagKeys m t = (Finset.range (2 ^ 128) : Set ℕ) := by
  refine Set.Subset.antisymm ?_ fun low hlow => ?_
  · rintro _ ⟨k, -, rfl⟩
    exact Finset.mem_coe.mpr (Finset.mem_range.mpr (Nat.mod_lt _ (by norm_num)))
  · have hlow' := Finset.mem_range.mp (Finset.mem_coe.mp hlow)
    obtain ⟨v, hv⟩ : ∃ v, v = (leInt t - messagePoly (low &&& clampBits : ℕ) m % p1305) % 2 ^ 128 :=
      ⟨_, rfl⟩
    have hrange : 0 ≤ v ∧ v < 2 ^ 128 := by omega
    obtain ⟨hmod, hdiv⟩ := leNat_keyOf hlow' (show v.toNat < 2 ^ 128 by omega)
    refine ⟨keyOf low v.toNat, mem_tagKeys_iff.mpr ?_, hmod⟩
    rw [hdiv, (leNat_key _).1, hmod, ← hv, Int.toNat_of_nonneg hrange.1]

/-- A message has each tag under `2 ^ 128` keys. -/
theorem ncard_tagKeys (m : List UInt8) (t : Vector UInt8 16) : (tagKeys m t).ncard = 2 ^ 128 := by
  rw [← (tagKeys_injOn m t).ncard_image, image_tagKeys, Set.ncard_coe_finset, Finset.card_range]

/-- The difference of the values of two messages under keys that give them their tags is one of
eight. -/
theorem sub_messagePoly_mem {m m' : List UInt8} {t t' : Vector UInt8 16} {k : Vector UInt8 32}
    (hk : onetimeauth m k = t) (hk' : onetimeauth m' k = t') :
    ∃ j ∈ Finset.range 8, messagePoly (keyR k) m % p1305 - messagePoly (keyR k) m' % p1305 =
      (leInt t - leInt t') % 2 ^ 128 + 2 ^ 128 * ((j : ℤ) - 4) := by
  rw [onetimeauth_eq_iff] at hk hk'
  have hp : p1305 = 2 ^ 130 - 5 := rfl
  have hv := Int.emod_nonneg (messagePoly (keyR k) m) (b := p1305) (by omega)
  have hv' := Int.emod_nonneg (messagePoly (keyR k) m') (b := p1305) (by omega)
  have hlt := Int.emod_lt_of_pos (messagePoly (keyR k) m) (b := p1305) (by omega)
  have hlt' := Int.emod_lt_of_pos (messagePoly (keyR k) m') (b := p1305) (by omega)
  generalize messagePoly (keyR k) m % p1305 = v at *
  generalize messagePoly (keyR k) m' % p1305 = v' at *
  obtain ⟨w, ⟨hlow, hhigh⟩, hdiff⟩ : ∃ w, (-4 ≤ w ∧ w < 4) ∧
      v - v' = (leInt t - leInt t') % 2 ^ 128 + 2 ^ 128 * w := by
    refine ⟨(v - v' - (leInt t - leInt t') % 2 ^ 128) / 2 ^ 128, ?_, ?_⟩
    · omega
    · omega
  clear hk hk' hp hv hv' hlt hlt'
  have hj : ((w + 4).toNat : ℤ) = w + 4 := Int.toNat_of_nonneg (by omega)
  refine ⟨(w + 4).toNat, Finset.mem_range.mpr (by omega), ?_⟩
  rw [hdiff, hj, add_sub_cancel_right]

/-- The eight differences of values that make the difference of the tags. -/
def tagDifferences (t t' : Vector UInt8 16) : Finset F1305 :=
  (Finset.range 8).image fun j : ℕ =>
    (((leInt t - leInt t') % 2 ^ 128 + 2 ^ 128 * ((j : ℤ) - 4) : ℤ) : F1305)

/-- There are at most eight differences. -/
theorem card_tagDifferences_le (t t' : Vector UInt8 16) : (tagDifferences t t').card ≤ 8 :=
  Finset.card_image_le.trans_eq (Finset.card_range 8)

/-- A key of both tags makes the polynomials differ by one of the differences. -/
theorem sub_eval_hashPoly_mem {m m' : List UInt8} {t t' : Vector UInt8 16} {k : Vector UInt8 32}
    (hk : k ∈ tagKeys m t ∩ tagKeys m' t') :
    (hashPoly m).eval ((keyR k : ℤ) : F1305) - (hashPoly m').eval ((keyR k : ℤ) : F1305) ∈
      tagDifferences t t' := by
  obtain ⟨j, hj, hdiff⟩ := sub_messagePoly_mem hk.1 hk.2
  refine Finset.mem_image.mpr ⟨j, hj, ?_⟩
  rw [eval_hashPoly, eval_hashPoly, ← hdiff, Int.cast_sub, intCast_emod, intCast_emod]

/-- Few multipliers give two messages their tags. -/
theorem card_multipliers_le {m m' : List UInt8} (hne : m ≠ m') (t t' : Vector UInt8 16)
    (keys : Finset ℕ) (hkeys : ∀ r ∈ keys, ∃ k ∈ tagKeys m t ∩ tagKeys m' t', keyR k = r) :
    keys.card ≤ max (blockCount m) (blockCount m') * 8 := by
  have hinj : Set.InjOn (fun r : ℕ => ((r : ℤ) : F1305)) keys := by
    intro r hr r' hr' hcast
    have hlt : ∀ {r}, r ∈ keys → (r : ℤ) % p1305 = r := fun hr => by
      obtain ⟨k, -, rfl⟩ := hkeys _ hr
      have hp : p1305 = 2 ^ 130 - 5 := rfl
      have hmask : keyR k < 2 ^ 128 := by
        rw [(leNat_key k).1]
        exact Nat.and_lt_two_pow _ (by norm_num [clampBits])
      exact Int.emod_eq_of_lt (by omega) (by omega)
    have hmod := emod_eq_of_cast_eq hcast
    rw [hlt hr, hlt hr'] at hmod
    exact_mod_cast hmod
  have hdifference : ∀ x ∈ keys.image fun r : ℕ => ((r : ℤ) : F1305),
      (hashPoly m).eval x - (hashPoly m').eval x ∈ tagDifferences t t' := fun x hx => by
    obtain ⟨r, hr, rfl⟩ := Finset.mem_image.mp hx
    obtain ⟨k, hk, rfl⟩ := hkeys r hr
    exact sub_eval_hashPoly_mem hk
  rw [← Finset.card_image_of_injOn hinj]
  exact (card_sub_eval_mem_le (coeff_blockPoly_zero _ _) (coeff_blockPoly_zero _ _)
    (hashPoly_injective.ne hne) ((natDegree_blockPoly_le _ _).trans (le_max_left _ _))
    ((natDegree_blockPoly_le _ _).trans (le_max_right _ _)) hdifference).trans
    (Nat.mul_le_mul_left _ (card_tagDifferences_le t t'))

/-- The clamp clears 22 bits. -/
theorem card_clearedBits :
    ((Finset.range 128).filter fun i => clampBits.testBit i = false).card = 22 := by
  decide +kernel

/-- Of the `2 ^ 128` keys under which a message has a tag, few give another message a given tag:
eight for each block of the longer one and each choice of the cleared bits. -/
theorem ncard_tagKeys_inter_le {m m' : List UInt8} (hne : m ≠ m') (t t' : Vector UInt8 16) :
    (tagKeys m t).ncard = 2 ^ 128 ∧
      (tagKeys m t ∩ tagKeys m' t').ncard ≤ max (blockCount m) (blockCount m') * 8 * 2 ^ 22 := by
  classical
  refine ⟨ncard_tagKeys m t, ?_⟩
  have hinj := (tagKeys_injOn m t).mono (Set.inter_subset_left (t := tagKeys m' t'))
  have hrange : (fun k => leNat k % 2 ^ 128) '' (tagKeys m t ∩ tagKeys m' t') ⊆
      (Finset.range (2 ^ 128) : Set ℕ) :=
    (image_tagKeys m t).subset.trans' (Set.image_mono Set.inter_subset_left)
  obtain ⟨lows, hlows⟩ := (Finset.finite_toSet _).subset hrange |>.exists_finset_coe
  rw [← hinj.ncard_image, ← hlows, Set.ncard_coe_finset]
  have hmem : ∀ low ∈ lows, ∃ k ∈ tagKeys m t ∩ tagKeys m' t', leNat k % 2 ^ 128 = low :=
      fun low hlow => by
    rw [← Finset.mem_coe, hlows] at hlow
    exact hlow
  have hfibre : ∀ r, (lows.filter fun low => low &&& clampBits = r).card ≤ 2 ^ 22 := fun r => by
    refine le_trans (Finset.card_le_card fun low hlow => ?_)
      ((card_and_eq_le 128 clampBits r).trans_eq (by rw [card_clearedBits]))
    obtain ⟨hlow, hr⟩ := Finset.mem_filter.mp hlow
    exact Finset.mem_filter.mpr ⟨Finset.mem_coe.mp (hrange (hlows ▸ Finset.mem_coe.mpr hlow)), hr⟩
  refine (Finset.card_le_mul_card_image lows (2 ^ 22) fun r _ => hfibre r).trans ?_
  rw [mul_comm]
  refine Nat.mul_le_mul_right _ (card_multipliers_le hne t t' _ fun r hr => ?_)
  obtain ⟨low, hlow, rfl⟩ := Finset.mem_image.mp hr
  obtain ⟨k, hk, rfl⟩ := hmem low hlow
  exact ⟨k, hk, (leNat_key k).1⟩

/-- The bound for messages of three and of five blocks. -/
theorem ncard_tagKeys_blocks :
    List.replicate 40 (1 : UInt8) ≠ List.replicate 70 (2 : UInt8) ∧
    (tagKeys (List.replicate 40 1) (ofNatLE 16 3)).ncard = 2 ^ 128 ∧
      (tagKeys (List.replicate 40 1) (ofNatLE 16 3) ∩
        tagKeys (List.replicate 70 2) (ofNatLE 16 4)).ncard ≤ 5 * 8 * 2 ^ 22 := by
  have hne : List.replicate 40 (1 : UInt8) ≠ List.replicate 70 (2 : UInt8) := fun h => by
    have hlength := congrArg List.length h
    rw [List.length_replicate, List.length_replicate] at hlength
    exact absurd hlength (by decide)
  have hcount : max (blockCount (List.replicate 40 (1 : UInt8)))
      (blockCount (List.replicate 70 (2 : UInt8))) = 5 := by
    rw [blockCount, blockCount, List.length_replicate, List.length_replicate]
    decide
  obtain ⟨hcard, hinter⟩ := ncard_tagKeys_inter_le hne (ofNatLE 16 3) (ofNatLE 16 4)
  rw [hcount] at hinter
  exact ⟨hne, hcard, hinter⟩

/-- The empty message has no block. -/
theorem messagePoly_nil (r : ℤ) : messagePoly r [] = 0 := by
  simp [messagePoly]

/-- Four zero bytes have the block value `2 ^ 32`. -/
theorem messagePoly_zeros (r : ℤ) : messagePoly r [0, 0, 0, 0] = 2 ^ 32 * r := by
  have hblock : blockValue [0, 0, 0, 0] 0 = 2 ^ 32 := by
    rw [blockValue]
    decide
  simp [messagePoly, hblock]

/-- The bits 96 and 97 of a multiplier are cleared. -/
theorem keyR_parts (k : Vector UInt8 32) :
    keyR k % 2 ^ 98 < 2 ^ 96 ∧ keyR k / 2 ^ 98 < 2 ^ 26 ∧ keyR k < 2 ^ 124 := by
  have hlt : keyR k < 2 ^ 124 := by
    rw [(leNat_key k).1]
    exact Nat.and_lt_two_pow _ (by norm_num [clampBits])
  have hcleared : clampBits.testBit 96 = false ∧ clampBits.testBit 97 = false := by decide +kernel
  refine ⟨Nat.lt_pow_two_of_testBit _ fun i hi => ?_, by omega, hlt⟩
  rw [Nat.testBit_mod_two_pow, (leNat_key k).1, Nat.testBit_and]
  obtain rfl | rfl | hhigh : i = 96 ∨ i = 97 ∨ 98 ≤ i := by omega
  · rw [hcleared.1, Bool.and_false, Bool.and_false]
  · rw [hcleared.2, Bool.and_false, Bool.and_false]
  · rw [decide_eq_false (by omega : ¬i < 98), Bool.false_and]

/-- Division with remainder is unique. -/
theorem mul_add_unique {B low low' high high' : ℕ} (hB : 0 < B) (hhigh : 5 * high < B)
    (hhigh' : 5 * high' < B) (h : B * low + 5 * high = B * low' + 5 * high') : low = low' ∧
    high = high' := by
  have hhighs : 5 * high = 5 * high' := by
    rw [← Nat.mod_eq_of_lt hhigh, ← Nat.mod_eq_of_lt hhigh', ← Nat.mul_add_mod B low, h,
      Nat.mul_add_mod]
  rw [hhighs, Nat.add_right_cancel_iff] at h
  exact ⟨Nat.eq_of_mul_eq_mul_left hB h, by omega⟩

/-- The range of a folded value. -/
theorem fold_range {low high : ℕ} (hlow : low < 2 ^ 96) (hhigh : high < 2 ^ 26) :
    0 ≤ 2 ^ 32 * (low : ℤ) + 5 * (high : ℤ) ∧ 2 ^ 32 * (low : ℤ) + 5 * (high : ℤ) < 2 ^ 128 := by
  omega

/-- A folded value determines its parts. -/
theorem eq_of_fold_eq {low low' high high' : ℕ} {s : ℤ} (hlow : low < 2 ^ 96)
    (hlow' : low' < 2 ^ 96) (hhigh : high < 2 ^ 26) (hhigh' : high' < 2 ^ 26)
    (h : Int.ModEq (2 ^ 128) (2 ^ 32 * (low : ℤ) + 5 * (high : ℤ) + s)
      (2 ^ 32 * (low' : ℤ) + 5 * (high' : ℤ) + s)) :
    low = low' ∧ high = high' := by
  obtain ⟨hnonneg, hlt⟩ := fold_range hlow hhigh
  obtain ⟨hnonneg', hlt'⟩ := fold_range hlow' hhigh'
  have hsum := h.add_right_cancel' s
  rw [Int.ModEq, Int.emod_eq_of_lt hnonneg hlt, Int.emod_eq_of_lt hnonneg' hlt'] at hsum
  have hfit : ∀ {x : ℕ}, x < 2 ^ 26 → 5 * x < 2 ^ 32 := fun hx => by omega
  exact mul_add_unique (B := 2 ^ 32) (by norm_num) (hfit hhigh) (hfit hhigh')
    (by exact_mod_cast hsum)

/-- Keys give all messages the same tags exactly if they have the same clamped multiplier and the
same second half. -/
theorem onetimeauth_congr_iff (k k' : Vector UInt8 32) :
    (∀ m, onetimeauth m k = onetimeauth m k') ↔ keyR k = keyR k' ∧ keyS k = keyS k' := by
  have hp : p1305 = 2 ^ 130 - 5 := rfl
  have htag : ∀ (k : Vector UInt8 32) m,
      leInt (onetimeauth m k) = (messagePoly (keyR k) m % p1305 + keyS k) % 2 ^ 128 := fun k m => by
    rw [leInt_onetimeauth, poly1305]
  have hs : ∀ k : Vector UInt8 32, 0 ≤ keyS k ∧ keyS k < 2 ^ 128 := fun k => by
    have := leNat_key_lt k
    rw [(leNat_key k).2]
    omega
  constructor
  · intro hsame
    have hempty := congrArg leInt (hsame [])
    have hzeros := congrArg leInt (hsame [0, 0, 0, 0])
    rw [htag, htag, messagePoly_nil, messagePoly_nil, Int.zero_emod] at hempty
    obtain ⟨hlow, hhigh, hlt⟩ := keyR_parts k
    obtain ⟨hlow', hhigh', hlt'⟩ := keyR_parts k'
    have hkeyS : keyS k = keyS k' := by
      have := hs k
      have := hs k'
      omega
    -- the product wraps at 2 ^ 130, and loses only bits that the clamp clears
    have hfold : ∀ r : ℕ, r < 2 ^ 124 →
        2 ^ 32 * (r : ℤ) % p1305 = 2 ^ 32 * ((r % 2 ^ 98 : ℕ) : ℤ) + 5 * ((r / 2 ^ 98 : ℕ) : ℤ) :=
        fun r hr => by
      rw [hp]
      omega
    rw [htag, htag, messagePoly_zeros, messagePoly_zeros, hfold _ hlt, hfold _ hlt',
      hkeyS] at hzeros
    obtain ⟨hmod, hdiv⟩ := eq_of_fold_eq hlow hlow' hhigh hhigh' hzeros
    exact ⟨by rw [← Nat.div_add_mod (keyR k) (2 ^ 98), ← Nat.div_add_mod (keyR k') (2 ^ 98), hmod,
      hdiv], hkeyS⟩
  · rintro ⟨hr, hs⟩ m
    apply leInt_injective
    rw [htag, htag, hr, hs]

end Keys

end TweetNacl
