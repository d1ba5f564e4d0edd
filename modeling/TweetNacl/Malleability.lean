import TweetNacl.SignCorrect

/-!
# Signatures are malleable

`crypto_sign_open` takes any 32 bytes for `S` and multiplies the base point by them. The result only
depends on `S` modulo the group order `L`, and `2 L < 2 ^ 256`, so with a signature `R ‖ S` a second
one is accepted for the same commitment, key and message. `S < L` holds of everything that is
accepted exactly when nothing is.
-/

namespace TweetNacl

open Edwards Memory Limbs Ed25519

section Acceptance

variable (hash : List UInt8 → Vector UInt8 64) {mem : Mem} {m mlen sm pk : Addr} {n : UInt64}

/-- `k` fits as the second half of a signature: the commitment encodes `h A + k B`, where `-A` is
the public key and `h` the challenge. -/
def Fits (mem : Mem) (sm pk : Addr) (l k : ℕ) : Prop :=
  ∃ A, DecodesTo (mem.vec pk 32) A ∧ leNat (mem.vec sm 32) =
    encode (leNat (low32 (challenge hash (mem.bytes sm 32) (mem.bytes pk 32)
      (mem.bytes (sm + 64) l))) • A + k • B)

/-- The comparison of `crypto_sign_open` says whether the second half fits. -/
theorem eq_recovered_iff_fits {q : GfPoint} {A : EdPoint} {l : ℕ} (hA : DecodesTo (mem.vec pk 32) A)
    (hq : q.Denotes A) :
    mem.vec sm 32 = recovered hash q (mem.vec sm 32) (mem.vec (sm + 32) 32) (mem.bytes pk 32)
        (mem.bytes (sm + 64) l) ↔
      Fits hash mem sm pk l (leNat (mem.vec (sm + 32) 32)) := by
  rw [← leNat_injective.eq_iff, leNat_recovered hq, Mem.toList_vec]
  exact ⟨fun heq => ⟨A, hA, heq⟩, fun ⟨A', hA', heq⟩ => hA.unique hA' ▸ heq⟩

/-- What `crypto_sign_open` accepts. -/
theorem cryptoSignOpen_accepts_iff (h : OpenBuffers mem m mlen sm pk n.toNat) (hn : 64 ≤ n)
    (hn' : n ≤ sizeMax - 64) :
    (∃ mem', Runs (cryptoSignOpen hash (some m) (some mlen) (some sm) n (some pk)) mem 0 mem') ↔
      Fits hash mem sm pk (n.toNat - 64) (leNat (mem.vec (sm + 32) 32)) := by
  cases hq : unpackneg (mem.vec pk 32) with
  | none =>
    refine ⟨fun ⟨mem', hrun⟩ => ?_, fun ⟨A, hA, _⟩ => ?_⟩
    · exact absurd (hrun.unique (cryptoSignOpen_refuses hash h.valid_pk (Or.inr (Or.inr hq)))).1
        (by decide)
    · obtain ⟨r, hr, -⟩ := hA.unpackneg
      rw [hq] at hr
      cases hr
  | some q =>
    obtain ⟨A, hA, hdenotes⟩ := unpackneg_some hq
    obtain ⟨mem', hrun, -⟩ := cryptoSignOpen_runs hash h hn hn' hq rfl
    rw [← eq_recovered_iff_fits hash hA hdenotes]
    refine ⟨fun ⟨mem'', hrun'⟩ => ?_, fun hacc => ⟨mem', by rwa [if_pos hacc] at hrun⟩⟩
    by_contra hrejected
    rw [if_neg hrejected] at hrun
    exact absurd (hrun.unique hrun').1 (by decide)

/-- Fitting depends on `k` modulo the group order. -/
theorem Fits.congr {l j k : ℕ} (h : Fits hash mem sm pk l k) (hmod : j % L = k % L) :
    Fits hash mem sm pk l j := by
  obtain ⟨A, hA, heq⟩ := h
  exact ⟨A, hA, by rw [heq, nsmul_base_congr hmod]⟩

/-- `crypto_sign_open` accepts the signed message in memory with `S` for its second half. -/
def AcceptsWith (mem : Mem) (m mlen sm pk : Addr) (n : UInt64) (S : Vector UInt8 32) : Prop :=
  ∃ mem', Runs (cryptoSignOpen hash (some m) (some mlen) (some sm) n (some pk))
    (mem.writeVec (sm + 32) S) 0 mem'

/-- For the commitment, the key and the message in memory, every second half that is accepted is
below the group order, and there is at most one. -/
def SignatureUnique (mem : Mem) (m mlen sm pk : Addr) (n : UInt64) : Prop :=
  (∀ S, AcceptsWith hash mem m mlen sm pk n S → leNat S < L) ∧
    ∀ S S', AcceptsWith hash mem m mlen sm pk n S → AcceptsWith hash mem m mlen sm pk n S' → S = S'

/-- `crypto_sign_open` accepts a second half exactly if it fits. -/
theorem acceptsWith_iff (h : OpenBuffers mem m mlen sm pk n.toNat) (hpk : Disjoint pk 32 sm n.toNat)
    (hn : 64 ≤ n) (hn' : n ≤ sizeMax - 64) (S : Vector UInt8 32) :
    AcceptsWith hash mem m mlen sm pk n S ↔ Fits hash mem sm pk (n.toNat - 64) (leNat S) := by
  have hn64 : 64 ≤ n.toNat := hn
  have hpk' : Disjoint pk 32 (sm + 32) 32 := hpk.add_right (by omega)
  have hbody : Disjoint (sm + 64) (n.toNat - 64) (sm + 32) 32 := (Disjoint.of_le le_rfl).symm
  have hbuf : OpenBuffers (mem.writeVec (sm + 32) S) m mlen sm pk n.toNat :=
    ⟨h.valid_m, h.valid_mlen, h.valid_sm, h.valid_pk, h.sm_m, h.pk_m, h.m_mlen⟩
  rw [AcceptsWith, cryptoSignOpen_accepts_iff hash hbuf hn hn', Fits, Mem.vec_writeVec,
    Mem.writeVec, Mem.vec_write_of_disjoint hpk', Mem.bytes_write_of_disjoint hpk',
    Mem.bytes_write_of_disjoint hbody, Mem.vec_write_of_disjoint (Disjoint.of_le_self le_rfl),
    Mem.bytes_write_of_disjoint (Disjoint.of_le_self le_rfl), Fits]

/-- Nothing is accepted when the length is refused. -/
theorem not_acceptsWith (h : OpenBuffers mem m mlen sm pk n.toNat) (hmax : sizeMax - 64 < n)
    (S : Vector UInt8 32) :
    ¬ AcceptsWith hash mem m mlen sm pk n S := by
  rintro ⟨mem', hrun⟩
  have hvalid : (mem.writeVec (sm + 32) S).Valid pk 32 := h.valid_pk
  exact absurd (hrun.unique (cryptoSignOpen_refuses hash hvalid (Or.inl hmax))).1 (by decide)

/-- Signatures are unique for a commitment, a key and a message exactly when none is accepted: the
length is refused, or no multiple of the base point fits. -/
theorem signatureUnique_iff (h : OpenBuffers mem m mlen sm pk n.toNat)
    (hpk : Disjoint pk 32 sm n.toNat) (hn : 64 ≤ n) :
    SignatureUnique hash mem m mlen sm pk n ↔
      sizeMax - 64 < n ∨ ∀ k, ¬ Fits hash mem sm pk (n.toNat - 64) k := by
  by_cases hmax : sizeMax - 64 < n
  · have hnone := not_acceptsWith hash h hmax
    exact ⟨fun _ => Or.inl hmax, fun _ =>
      ⟨fun S hS => absurd hS (hnone S), fun S _ hS => absurd hS (hnone S)⟩⟩
  · have haccepts := acceptsWith_iff hash h hpk hn (UInt64.not_lt.mp hmax)
    refine ⟨fun hunique => Or.inr fun k hk => ?_, fun hcond => ?_⟩
    · -- the residue of `k` plus the order is accepted, and it is not reduced
      have hlow : k % L < L := Nat.mod_lt _ (by norm_num [L])
      have hL : L + L < 2 ^ (8 * 32) := by norm_num [L]
      have hbig : leNat (ofNatLE 32 (k % L + L)) = k % L + L := leNat_ofNatLE (by omega)
      have hfits := hk.congr hash (show leNat (ofNatLE 32 (k % L + L)) % L = k % L by
        rw [hbig, Nat.add_mod_right, Nat.mod_mod])
      have hreduced := hunique.1 _ ((haccepts _).mpr hfits)
      omega
    · have hnone : ∀ S, ¬ AcceptsWith hash mem m mlen sm pk n S := fun S hS =>
        hcond.resolve_left hmax _ ((haccepts S).mp hS)
      exact ⟨fun S hS => absurd hS (hnone S), fun S _ hS => absurd hS (hnone S)⟩

end Acceptance

section Example

/-- The byte string `01 00 … 00`, which encodes the neutral element. -/
def neutralBytes : Vector UInt8 32 := ofNatLE 32 1

/-- A key and a signed message of no bytes, in separate objects: the key and the commitment encode
the neutral element, and the second half of the signature is the group order. -/
def malleableMemory : Mem :=
  (((Mem.ofSizes [32, 64, 64, 8]).writeVec ⟨0, 0⟩ neutralBytes).writeVec
    ⟨1, 0⟩ neutralBytes).writeVec ((⟨1, 0⟩ : Addr) + 32) (ofNatLE 32 L)

/-- The bytes of the example encode the neutral element. -/
theorem leNat_neutralBytes : leNat neutralBytes = encode 0 := by
  rw [neutralBytes, leNat_ofNatLE (by norm_num), encode, zero_x, zero_y, ZMod.val_zero,
    ZMod.val_one, Nat.zero_mod, Nat.mul_zero, Nat.add_zero]

/-- They are decoded to it. -/
theorem decodesTo_neutralBytes : DecodesTo neutralBytes 0 := by
  have hneg := decodesTo_neg leNat_neutralBytes
  rwa [neg_zero] at hneg

/-- The buffers of the example hold a signed empty message. -/
theorem malleableMemory_buffers :
    OpenBuffers malleableMemory ⟨2, 0⟩ ⟨3, 0⟩ ⟨1, 0⟩ ⟨0, 0⟩ (64 : UInt64).toNat := by
  have hvalid : ∀ o k, (Mem.ofSizes [32, 64, 64, 8]).Valid ⟨o, 0⟩ k →
      malleableMemory.Valid ⟨o, 0⟩ k :=
    fun _ _ h => h
  exact ⟨hvalid _ _ (by decide), hvalid _ _ (by decide), hvalid _ _ (by decide),
    hvalid _ _ (by decide), Disjoint.of_obj_ne (by decide) _ _, Disjoint.of_obj_ne (by decide) _ _,
    Disjoint.of_obj_ne (by decide) _ _⟩

/-- Its second half is the group order. -/
theorem malleableMemory_second : leNat (malleableMemory.vec ((⟨1, 0⟩ : Addr) + 32) 32) = L := by
  rw [malleableMemory, Mem.vec_writeVec, leNat_ofNatLE (by norm_num [L])]

/-- The second half fits. -/
theorem malleableMemory_fits :
    Fits Sha512.hash malleableMemory ⟨1, 0⟩ ⟨0, 0⟩ ((64 : UInt64).toNat - 64)
      (leNat (malleableMemory.vec ((⟨1, 0⟩ : Addr) + 32) 32)) := by
  have hkey : malleableMemory.vec ⟨0, 0⟩ 32 = neutralBytes := by
    rw [malleableMemory, Mem.writeVec,
      Mem.vec_write_of_disjoint (Disjoint.of_obj_ne (by decide) _ _),
      Mem.writeVec, Mem.vec_write_of_disjoint (Disjoint.of_obj_ne (by decide) _ _),
      Mem.vec_writeVec]
  have hcommitment : malleableMemory.vec ⟨1, 0⟩ 32 = neutralBytes := by
    rw [malleableMemory, Mem.writeVec, Mem.vec_write_of_disjoint (Disjoint.of_le_self le_rfl),
      Mem.vec_writeVec]
  refine ⟨0, hkey ▸ decodesTo_neutralBytes, ?_⟩
  rw [hcommitment, malleableMemory_second, nsmul_zero, order_smul_base, add_zero]
  exact leNat_neutralBytes

/-- The group order is accepted as the second half of a signature. -/
theorem order_accepted :
    ∃ mem', Runs (cryptoSignOpen Sha512.hash (some ⟨2, 0⟩) (some ⟨3, 0⟩) (some ⟨1, 0⟩) 64
      (some ⟨0, 0⟩)) malleableMemory 0 mem' ∧
      ¬ leNat (malleableMemory.vec ((⟨1, 0⟩ : Addr) + 32) 32) < L := by
  obtain ⟨mem', hrun⟩ := (cryptoSignOpen_accepts_iff Sha512.hash malleableMemory_buffers (by decide)
    (by decide)).mpr malleableMemory_fits
  exact ⟨mem', hrun, by rw [malleableMemory_second]; exact lt_irrefl L⟩

/-- For its key, commitment and message signatures are not unique. -/
theorem malleableMemory_not_unique :
    ¬ SignatureUnique Sha512.hash malleableMemory ⟨2, 0⟩ ⟨3, 0⟩ ⟨1, 0⟩ ⟨0, 0⟩ 64 := by
  rw [signatureUnique_iff Sha512.hash malleableMemory_buffers (Disjoint.of_obj_ne (by decide) _ _)
    (by decide)]
  rintro (hmax | hnone)
  · exact absurd hmax (by decide)
  · exact hnone _ malleableMemory_fits

end Example

end TweetNacl
