import Mathlib.Data.Int.CardIntervalMod
import Mathlib.Data.Set.Card
import TweetNacl.KeyExtraction

/-!
# The signatures of a commitment

For a commitment, a public key and a message, the second halves that `crypto_sign_open` accepts are
the byte strings of one residue modulo the order of the base point, fifteen or sixteen of them, or
none. For a generated public key there are some exactly when the commitment encodes a multiple of
the base point, and the residue is that of the response.
-/

namespace TweetNacl

open Edwards Memory Limbs Ed25519

section Counting

variable {n r : ℕ}

/-- The byte strings of a residue are the numbers of it in the range. -/
theorem image_residue (n r k : ℕ) :
    {v : Vector UInt8 n | leNat v % r = k % r} =
      ofNatLE n '' ↑((Finset.range (2 ^ (8 * n))).filter (· ≡ k [MOD r])) := by
  ext v
  have hv : leNat v < 2 ^ (8 * n) := (leNat_lt v).trans_eq (pow_mul 2 8 n).symm
  simp only [Set.mem_ofPred_eq, Set.mem_image, Finset.coe_filter, Finset.mem_range]
  constructor
  · exact fun h => ⟨leNat v, ⟨hv, h⟩, leNat_injective (leNat_ofNatLE hv)⟩
  · rintro ⟨j, ⟨hj, hmod⟩, rfl⟩
    rw [leNat_ofNatLE hj]
    exact hmod

/-- The number of byte strings of a residue. -/
theorem ncard_residue (hr : 0 < r) (k : ℕ) :
    {v : Vector UInt8 n | leNat v % r = k % r}.ncard =
      2 ^ (8 * n) / r + if k % r < 2 ^ (8 * n) % r then 1 else 0 := by
  have hinj : Set.InjOn (ofNatLE n) ↑((Finset.range (2 ^ (8 * n))).filter (· ≡ k [MOD r])) := by
    intro i hi j hj heq
    have hi' := Finset.mem_range.mp (Finset.mem_filter.mp (Finset.mem_coe.mp hi)).1
    have hj' := Finset.mem_range.mp (Finset.mem_filter.mp (Finset.mem_coe.mp hj)).1
    rw [← leNat_ofNatLE hi', heq, leNat_ofNatLE hj']
  rw [image_residue, Set.InjOn.ncard_image hinj, Set.ncard_coe_finset,
    ← Nat.count_eq_card_filter_range, Nat.count_modEq_card _ hr]

end Counting

section Residues

/-- Multiples of the base point are equal exactly for equal residues. -/
theorem nsmul_base_eq_iff {j k : ℕ} : j • B = k • B ↔ j % L = k % L := by
  rw [nsmul_eq_nsmul_iff_modEq, addOrderOf_base]
  exact Iff.rfl

/-- The order less one is minus one. -/
theorem sub_one_nsmul (x : ℕ) : ((L - 1) * x) • B = -(x • B) := by
  rw [eq_neg_iff_add_eq_zero, ← add_nsmul, ← Nat.succ_mul,
    show (L - 1).succ = L by norm_num [L], mul_comm, mul_nsmul',
    order_smul_base, nsmul_zero]

variable (hash : List UInt8 → Vector UInt8 64) {mem : Mem} {m mlen sm pk : Addr} {n : UInt64}

/-- All that fits has one residue. -/
theorem Fits.mod_eq {l j k : ℕ} (hj : Fits hash mem sm pk l j) (hk : Fits hash mem sm pk l k) :
    j % L = k % L := by
  obtain ⟨A, hA, heq⟩ := hj
  obtain ⟨A', hA', heq'⟩ := hk
  rw [hA'.unique hA] at heq'
  exact nsmul_base_eq_iff.mp (add_left_cancel (eq_of_encode heq heq'))

/-- For every public key, commitment and message the accepted second halves are none, or those of
one residue modulo the order: sixteen for the residues below `2 ^ 256 % L`, fifteen for the
others. -/
theorem accepted_halves (h : OpenBuffers mem m mlen sm pk n.toNat) (hpk : Disjoint pk 32 sm n.toNat)
    (hn : 64 ≤ n) (hn' : n ≤ sizeMax - 64) :
    (∀ S, ¬ AcceptsWith hash mem m mlen sm pk n S) ∨
      ∃ k < L, (∀ S, AcceptsWith hash mem m mlen sm pk n S ↔ leNat S % L = k) ∧
        {S | AcceptsWith hash mem m mlen sm pk n S}.ncard = if k < 2 ^ 256 % L then 16 else 15 := by
  have haccepts := acceptsWith_iff hash h hpk hn hn'
  by_cases hsome : ∃ k, Fits hash mem sm pk (n.toNat - 64) k
  · obtain ⟨k, hk⟩ := hsome
    have hiff : ∀ S, AcceptsWith hash mem m mlen sm pk n S ↔ leNat S % L = k % L := fun S => by
      rw [haccepts]
      exact ⟨fun hS => hS.mod_eq hash hk, fun hmod => hk.congr hash hmod⟩
    refine Or.inr ⟨k % L, Nat.mod_lt _ L_prime.pos, hiff, ?_⟩
    have hquotient : 2 ^ (8 * 32) / L = 15 := by norm_num [L]
    have hset : {S | AcceptsWith hash mem m mlen sm pk n S} = {S | leNat S % L = k % L} :=
      Set.ext hiff
    rw [hset, ncard_residue L_prime.pos, hquotient]
    split <;> rfl
  · exact Or.inl fun S hS => hsome ⟨_, (haccepts S).mp hS⟩

/-- For a generated public key the second half `S` is accepted exactly when the commitment encodes a
multiple of the base point and `S` is the response to the challenge, up to multiples of the
order. -/
theorem accepted_response_iff {seed : List UInt8} (h : OpenBuffers mem m mlen sm pk n.toNat)
    (hdisjoint : Disjoint pk 32 sm n.toNat) (hn : 64 ≤ n) (hn' : n ≤ sizeMax - 64)
    (hpk : mem.vec pk 32 = publicKey hash seed) (S : Vector UInt8 32) :
    AcceptsWith hash mem m mlen sm pk n S ↔
      ∃ r < L, leNat (mem.vec sm 32) = encode (r • B) ∧
        leNat S % L = (r + challengeAt hash mem sm pk n.toNat * secretScalar hash seed) % L := by
  obtain ⟨x, hx⟩ : ∃ x, x = challengeAt hash mem sm pk n.toNat * secretScalar hash seed := ⟨_, rfl⟩
  have hkey : ∀ A, DecodesTo (mem.vec pk 32) A → A = -(secretScalar hash seed • B) := fun A hA =>
    hA.unique (hpk ▸ decodesTo_neg (leNat_publicKey hash seed))
  have hmul : challengeAt hash mem sm pk n.toNat • -(secretScalar hash seed • B) = -(x • B) := by
    rw [neg_nsmul, ← mul_nsmul', hx]
  rw [acceptsWith_iff hash h hdisjoint hn hn', ← hx]
  constructor
  · rintro ⟨A, hA, heq⟩
    rw [hkey A hA] at heq
    refine ⟨(leNat S + (L - 1) * x) % L, Nat.mod_lt _ L_prime.pos, ?_, ?_⟩
    · rw [nsmul_base_mod, add_nsmul, sub_one_nsmul, add_comm (leNat S • B), ← hmul]
      exact heq
    · rw [Nat.mod_add_mod, add_assoc, ← Nat.succ_mul,
        show (L - 1).succ = L by norm_num [L], Nat.add_mul_mod_self_left]
  · rintro ⟨r, -, hcommitment, hmod⟩
    refine ⟨_, hpk ▸ decodesTo_neg (leNat_publicKey hash seed), ?_⟩
    rw [hcommitment, nsmul_base_congr hmod, add_nsmul]
    change encode _ = encode
      (challengeAt hash mem sm pk n.toNat • -(secretScalar hash seed • B) + _)
    rw [hmul, add_comm (r • B), neg_add_cancel_left]

end Residues

section Example

/-- The second half in memory is the order, so the residue is zero. -/
theorem accepted_halves_malleable :
    {S | AcceptsWith Sha512.hash malleableMemory ⟨2, 0⟩ ⟨3, 0⟩ ⟨1, 0⟩ ⟨0, 0⟩ 64 S}.ncard = 16 := by
  have hdisjoint : Disjoint ⟨0, 0⟩ 32 ⟨1, 0⟩ (64 : UInt64).toNat :=
    Disjoint.of_obj_ne (by decide) _ _
  have horder : AcceptsWith Sha512.hash malleableMemory ⟨2, 0⟩ ⟨3, 0⟩ ⟨1, 0⟩ ⟨0, 0⟩ 64
      (malleableMemory.vec ((⟨1, 0⟩ : Addr) + 32) 32) :=
    (acceptsWith_iff Sha512.hash malleableMemory_buffers hdisjoint (by decide) (by decide) _).mpr
    malleableMemory_fits
  rcases accepted_halves Sha512.hash malleableMemory_buffers hdisjoint (by decide) (by decide) with
    hnone | ⟨k, -, hiff, hcard⟩
  · exact absurd horder (hnone _)
  · have hk : 0 = k := by rw [← (hiff _).mp horder, malleableMemory_second, Nat.mod_self]
    rw [hcard, ← hk, if_pos (by norm_num [L])]

/-- The commitment encodes the base point, and its response is accepted for the empty message. -/
theorem accepted_response_iff_one :
    AcceptsWith Sha512.hash (reuseMemory []) ⟨2, 0⟩ ⟨3, 0⟩ ⟨1, 0⟩ ⟨0, 0⟩ 64
      (ofNatLE 32 ((1 + challengeAt Sha512.hash (reuseMemory []) ⟨1, 0⟩ ⟨0, 0⟩ (64 : UInt64).toNat *
        secretScalar Sha512.hash oneSeed.toList) % L)) := by
  have hL : L < 2 ^ (8 * 32) := by norm_num [L]
  refine (accepted_response_iff Sha512.hash (reuseMemory_buffers (n := 64) rfl)
    (Disjoint.of_obj_ne (by decide) _ _)
    (by decide) (by decide) (reuseMemory_key []) _).mpr ⟨1, L_prime.one_lt, ?_, ?_⟩
  · rw [(reuseMemory_parts []).1, ← pack_scalarbase_one, leNat_pack (scalarbase_denotes _),
      leNat_ofNatLE (by norm_num)]
  · rw [leNat_ofNatLE ((Nat.mod_lt _ L_prime.pos).trans hL), Nat.mod_mod]

end Example

end TweetNacl
