import TweetNacl.Sign

/-!
# Signatures in the group

A signature `R ‖ S` fits a key and a message if `R` encodes `S B - h A`. Signatures made with the
secret key fit, because `S` is `r + h a` modulo the order of `B`. Nothing asks for `S` to be
reduced, so `S + L` fits where `S` does.
-/

namespace TweetNacl

open Edwards Memory Limbs Ed25519

variable {hash : List UInt8 → Vector UInt8 64}

section Group

/-- A multiple of the base point depends on the multiplier modulo the group order. -/
theorem nsmul_base_mod (k : ℕ) : (k % L) • B = k • B := by
  conv_rhs => rw [← Nat.mod_add_div k L, add_nsmul, mul_comm, mul_nsmul',
    order_smul_base, nsmul_zero, add_zero]

/-- Multiples of the base point depend on the scalar modulo `L`. -/
theorem nsmul_base_congr {j k : ℕ} (h : j % L = k % L) : j • B = k • B := by
  rw [← nsmul_base_mod j, h, nsmul_base_mod]

/-- The encoding that a commitment is compared with. -/
theorem leNat_recovered {q : GfPoint} {A : EdPoint} (hq : q.Denotes A) (r s : Vector UInt8 32)
    (pk msg : List UInt8) :
    leNat (recovered hash q r s pk msg) =
      encode (leNat (low32 (challenge hash r.toList pk msg)) • A + leNat s • B) :=
  leNat_pack (add_denotes (scalarmult_denotes hq _) (scalarbase_denotes s))

/-- A number determines its bytes, for vectors of one length. -/
theorem leNat_injective {n : ℕ} : Function.Injective (leNat : Vector UInt8 n → ℕ) := fun v w h =>
  leInt_injective (by rw [← leNat_cast, ← leNat_cast, h])

/-- The public key encodes the secret multiple of the base point. -/
theorem leNat_publicKey (hash : List UInt8 → Vector UInt8 64) (seed : List UInt8) :
    leNat (publicKey hash seed) = encode (leNat (low32 (expandSeed hash seed)) • B) :=
  leNat_pack (scalarbase_denotes _)

/-- The second half of a signature as a number. -/
theorem leNat_response (seed pk msg : List UInt8) :
    leNat (response hash seed pk msg) =
      (leNat (low32 (nonce hash seed msg)) +
        leNat (low32 (challenge hash (commitment hash seed msg).toList pk msg)) *
          leNat (low32 (expandSeed hash seed))) % L := by
  apply Int.ofNat_inj.mp
  rw [leNat_cast, response, leInt_modL_mulAdd]
  push_cast
  rw [leNat_cast, leNat_cast, leNat_cast]

/-- The response recovers the commitment. -/
theorem recovered_response {q : GfPoint} (seed msg : List UInt8)
    (hq : q.Denotes (-(leNat (low32 (expandSeed hash seed)) • B))) :
    recovered hash q (commitment hash seed msg)
      (response hash seed (publicKey hash seed).toList msg)
      (publicKey hash seed).toList msg = commitment hash seed msg := by
  have hcancel : ∀ P Q : EdPoint, -P + (Q + P) = Q :=
    fun P Q => by rw [add_comm Q, neg_add_cancel_left]
  apply leNat_injective
  rw [leNat_recovered hq, leNat_response, nsmul_base_mod, add_nsmul, mul_nsmul', neg_nsmul, hcancel,
    commitment, leNat_pack (scalarbase_denotes _)]

end Group

section RoundTrip

variable {mem mem' : Mem} {pk sk sm smlen m out outlen : Addr} {n : UInt64} {seed : List UInt8}

/-- The buffers of a signature that is made and opened, with a message of `n` bytes. -/
structure RoundTripBuffers (mem : Mem) (pk sk sm smlen m out outlen : Addr) (n : ℕ) : Prop where
  signing : SignBuffers mem sm smlen m sk n
  valid_pk : mem.Valid pk 32
  valid_out : mem.Valid out (n + 64)
  valid_outlen : mem.Valid outlen 8
  pk_sm : Disjoint pk 32 sm (n + 64)
  pk_smlen : Disjoint pk 32 smlen 8
  sm_out : Disjoint sm (n + 64) out (n + 64)
  pk_out : Disjoint pk 32 out (n + 64)
  out_outlen : Disjoint out (n + 64) outlen 8

/-- The signed message for a key pair. -/
theorem KeyPair.sign (hkey : KeyPair hash mem pk sk seed)
    (h : SignBuffers mem sm smlen m sk n.toNat) (hpk_sm : Disjoint pk 32 sm (n.toNat + 64))
    (hpk_smlen : Disjoint pk 32 smlen 8) (hn : n ≤ sizeMax - 64) :
    ∃ mem', Runs (cryptoSign hash (some sm) (some smlen) (some m) n (some sk)) mem 0 mem' ∧
      mem'.u64 smlen = n + 64 ∧
      mem'.bytes sm (n.toNat + 64) = signedMessage hash seed (publicKey hash seed).toList
        (mem.bytes m n.toNat) ∧
      mem'.vec pk 32 = publicKey hash seed ∧ mem'.size = mem.size ∧ mem'.fresh = mem.fresh ∧
      ∀ {p k}, Disjoint p k smlen 8 → Disjoint p k sm (n.toNat + 64) →
        mem'.bytes p k = mem.bytes p k := by
  obtain ⟨mem', hrun, hframe, hbytes⟩ := cryptoSign_runs hash h hn
  rw [hkey.secret, hkey.secret_copy] at hbytes
  have hlen := mem.frame_writeU64 smlen (n + 64)
  refine ⟨mem', hrun, ?_, hbytes, ?_, hframe.size, hframe.fresh, fun hsmlen hsm => ?_⟩
  · rw [hframe.u64_of_disjoint h.mlen_sm, Mem.u64_writeU64]
  · rw [hframe.vec_of_disjoint hpk_sm, hlen.vec_of_disjoint hpk_smlen, hkey.pk_eq]
  · rw [hframe.bytes_of_disjoint hsm, hlen.bytes_of_disjoint hsmlen]

/-- A signed message in a buffer, taken apart. -/
theorem bytes_eq_signedMessage {l : ℕ} {pkBytes msg : List UInt8} (hl : msg.length = l)
    (h : mem.bytes sm (l + 64) = signedMessage hash seed pkBytes msg) :
    mem.vec sm 32 = commitment hash seed msg ∧
      mem.vec (sm + 32) 32 = response hash seed pkBytes msg ∧
      mem.bytes (sm + 64) l = msg := by
  rw [bytes_signed, signedMessage] at h
  obtain ⟨hleft, hbody⟩ := List.append_inj' h (by simp [hl])
  obtain ⟨hhead, htail⟩ := List.append_inj' hleft (by simp)
  rw [← Mem.toList_vec] at hhead htail
  exact ⟨Vector.toList_inj.mp hhead, Vector.toList_inj.mp htail, hbody⟩

/-- `crypto_sign_open` opens what was signed with the secret key. -/
theorem open_signedMessage (h : OpenBuffers mem out outlen sm pk n.toNat) (hn : 64 ≤ n)
    (hn' : n ≤ sizeMax - 64) {msg : List UInt8} (hmsg : msg.length + 64 = n.toNat)
    (hpk : mem.vec pk 32 = publicKey hash seed)
    (hsm : mem.bytes sm n.toNat = signedMessage hash seed (publicKey hash seed).toList msg) :
    ∃ mem', Runs (cryptoSignOpen hash (some out) (some outlen) (some sm) n (some pk)) mem 0 mem' ∧
      mem'.u64 outlen = n - 64 ∧ mem'.bytes out (n.toNat - 64) = msg ∧ mem'.size = mem.size ∧
      mem'.fresh = mem.fresh := by
  obtain ⟨q, hq, hdenotes⟩ := unpackneg_encode (leNat_publicKey hash seed)
  obtain ⟨hr, hs, hbody⟩ := bytes_eq_signedMessage rfl (hmsg ▸ hsm)
  obtain ⟨mem', hrun, hsize, hfresh, hlen, hout⟩ := cryptoSignOpen_runs hash h hn hn' (hpk ▸ hq) rfl
  have hpkBytes : mem.bytes pk 32 = (publicKey hash seed).toList := by rw [← Mem.toList_vec, hpk]
  have hlength : n.toNat - 64 = msg.length := by omega
  rw [hlength, hr, hs, hbody, hpkBytes, recovered_response seed msg hdenotes,
    if_pos rfl] at hrun hlen hout
  rw [hlength]
  exact ⟨mem', hrun, hlen, hout, hsize, hfresh⟩

/-- A key pair is where its bytes are. -/
theorem KeyPair.congr {pk' sk' : Addr} (h : KeyPair hash mem pk sk seed)
    (hpk : mem'.vec pk' 32 = mem.vec pk 32)
    (hsk : mem'.vec sk' 64 = mem.vec sk 64) : KeyPair hash mem' pk' sk' seed := by
  have hbytes : mem'.bytes sk' (32 + 32) = mem.bytes sk (32 + 32) := by
    rw [← Mem.toList_vec, ← Mem.toList_vec, hsk]
  rw [Mem.bytes_append, Mem.bytes_append] at hbytes
  obtain ⟨hsecret, hcopy⟩ := List.append_inj hbytes (by simp)
  exact ⟨hsecret.trans h.secret, hcopy.trans h.secret_copy, hpk.trans h.pk_eq⟩

/-- Whether ranges are buffers depends on the objects only. -/
theorem RoundTripBuffers.congr {l : ℕ} (h : RoundTripBuffers mem pk sk sm smlen m out outlen l)
    (hsize : mem'.size = mem.size) : RoundTripBuffers mem' pk sk sm smlen m out outlen l := by
  have hvalid : ∀ {p k}, mem.Valid p k → mem'.Valid p k := fun hp => hp.of_size hsize
  have hs := h.signing
  exact ⟨⟨hvalid hs.valid_sm, hvalid hs.valid_mlen, hvalid hs.valid_m, hvalid hs.valid_sk,
    hs.m_sm, hs.sk_sm, hs.mlen_sm, hs.m_mlen, hs.sk_mlen⟩, hvalid h.valid_pk, hvalid h.valid_out,
    hvalid h.valid_outlen, h.pk_sm, h.pk_smlen, h.sm_out, h.pk_out, h.out_outlen⟩

/-- The buffers of a round trip include those of the opening call. -/
theorem RoundTripBuffers.opening {l : ℕ} (h : RoundTripBuffers mem pk sk sm smlen m out outlen l) :
    OpenBuffers mem out outlen sm pk (l + 64) :=
  ⟨h.valid_out, h.valid_outlen, h.signing.valid_sm, h.valid_pk, h.sm_out, h.pk_out, h.out_outlen⟩

end RoundTrip

/-- `crypto_sign_keypair` derives a key pair from its seed. Wherever the keys are kept afterwards,
every message of at most `SIZE_MAX - 64` bytes is signed, and the signed message opens to the
message. The lengths of signed messages that `crypto_sign_open` refuses are those above `SIZE_MAX -
64`. -/
theorem sign_roundtrip (hash : List UInt8 → Vector UInt8 64) {mem : Mem} {pk sk : Addr}
    {rng : RngAnswer 32} (hrng : rng.status = 0)
    (hpk : mem.Valid pk 32) (hsk : mem.Valid sk 64) (hdisjoint : Disjoint pk 32 sk 64) :
    ∃ mem₁, Runs (cryptoSignKeypair hash rng (some pk) (some sk)) mem 0 mem₁ ∧
      mem₁.size = mem.size ∧
      ∀ mem₂ pk' sk' sm smlen m out outlen (n : UInt64), mem₂.vec pk' 32 = mem₁.vec pk 32 →
        mem₂.vec sk' 64 = mem₁.vec sk 64 →
        RoundTripBuffers mem₂ pk' sk' sm smlen m out outlen n.toNat →
        n ≤ sizeMax - 64 → ∃ mem₃,
          Runs (cryptoSign hash (some sm) (some smlen) (some m) n (some sk')) mem₂ 0 mem₃ ∧
          mem₃.u64 smlen = n + 64 ∧ mem₃.bytes (sm + 64) n.toNat = mem₂.bytes m n.toNat ∧
          (n ≤ sizeMax - 128 → ∃ mem₄,
            Runs (cryptoSignOpen hash (some out) (some outlen) (some sm) (n + 64) (some pk'))
            mem₃ 0 mem₄ ∧
            mem₄.u64 outlen = n ∧ mem₄.bytes out n.toNat = mem₂.bytes m n.toNat) ∧
          (sizeMax - 128 < n →
            Runs (cryptoSignOpen hash (some out) (some outlen) (some sm) (n + 64) (some pk')) mem₃
            (-1) mem₃) := by
  obtain ⟨mem₁, hrun, hkey, hsize, -⟩ := cryptoSignKeypair_runs hash hrng hpk hsk hdisjoint
  refine ⟨mem₁, hrun, hsize, fun mem₂ pk' sk' sm smlen m out outlen n hpk' hsk' hbuf hn => ?_⟩
  obtain ⟨mem₃, hsign, hlen, hsigned, hpk₃, hsize₃, -⟩ :=
    (hkey.congr hpk' hsk').sign hbuf.signing hbuf.pk_sm hbuf.pk_smlen hn
  have hbuf₃ := hbuf.congr hsize₃
  have hn64 : (n + 64).toNat = n.toNat + 64 := toNat_add_of_le hn le_rfl
  obtain ⟨-, -, hbody⟩ := bytes_eq_signedMessage (by simp) hsigned
  refine ⟨mem₃, hsign, hlen, hbody, fun hmax => ?_, fun hmax => ?_⟩
  · have hmax' : n.toNat ≤ 0xffffffffffffffff - 128 := hmax
    have hmsg : (mem₂.bytes m n.toNat).length + 64 = (n + 64).toNat := by
      rw [Mem.length_bytes, hn64]
    obtain ⟨mem₄, hopen, hlen₄, hout, -, -⟩ :=
      open_signedMessage (n := n + 64) (hn64 ▸ hbuf₃.opening)
      (UInt64.le_iff_toNat_le.mpr (by rw [hn64]; exact Nat.le_add_left _ _))
      (UInt64.le_iff_toNat_le.mpr (by rw [hn64]; change _ ≤ 0xffffffffffffffff - 64; omega))
      hmsg hpk₃ (by rw [hn64]; exact hsigned)
    rw [hn64, Nat.add_sub_cancel] at hout
    rw [UInt64.add_sub_cancel] at hlen₄
    exact ⟨mem₄, hopen, hlen₄, hout⟩
  · have hmax' : 0xffffffffffffffff - 128 < n.toNat := hmax
    refine cryptoSignOpen_refuses hash hbuf₃.valid_pk (Or.inl (UInt64.lt_iff_toNat_lt.mpr ?_))
    rw [hn64]
    change 0xffffffffffffffff - 64 < _
    omega

section Examples

/-- The keys, a message of `n` bytes and the buffers for it as separate objects of a zeroed
memory. -/
def roundTripMemory (n : ℕ) : Mem := Mem.ofSizes [32, 64, n, n + 64, 8, n + 64, 8]

/-- The buffers of the example lie apart and hold a message of `n` bytes. -/
theorem roundTripMemory_buffers (n : ℕ) :
    RoundTripBuffers (roundTripMemory n) ⟨0, 0⟩ ⟨1, 0⟩ ⟨3, 0⟩ ⟨4, 0⟩ ⟨2, 0⟩ ⟨5, 0⟩ ⟨6, 0⟩ n := by
  have hvalid : ∀ o k, (roundTripMemory n).size o = k → (roundTripMemory n).Valid ⟨o, 0⟩ k :=
    fun o k hk i hi => by
      rw [hk, Nat.zero_add]
      exact hi
  have hdisjoint : ∀ o o' k k', o ≠ o' → Disjoint ⟨o, 0⟩ k ⟨o', 0⟩ k' := fun o o' k k' h =>
    Disjoint.of_obj_ne h k k'
  exact ⟨⟨hvalid 3 _ rfl, hvalid 4 _ rfl, hvalid 2 _ rfl, hvalid 1 _ rfl,
    hdisjoint _ _ _ _ (by decide),
    hdisjoint _ _ _ _ (by decide), hdisjoint _ _ _ _ (by decide), hdisjoint _ _ _ _ (by decide),
    hdisjoint _ _ _ _ (by decide)⟩, hvalid 0 _ rfl, hvalid 5 _ rfl, hvalid 6 _ rfl,
    hdisjoint _ _ _ _ (by decide), hdisjoint _ _ _ _ (by decide), hdisjoint _ _ _ _ (by decide),
    hdisjoint _ _ _ _ (by decide), hdisjoint _ _ _ _ (by decide)⟩

/-- Eight zero bytes signed with the key pair of the zero seed, and opened. -/
theorem sign_roundtrip_eight :
    ∃ mem₁ mem₂ mem₃,
      Runs (cryptoSignKeypair Sha512.hash ⟨0, Vector.replicate 32 0⟩ (some ⟨0, 0⟩) (some ⟨1, 0⟩))
        (roundTripMemory 8) 0 mem₁ ∧
      Runs (cryptoSign Sha512.hash (some ⟨3, 0⟩) (some ⟨4, 0⟩) (some ⟨2, 0⟩) 8 (some ⟨1, 0⟩))
        mem₁ 0 mem₂ ∧
      Runs (cryptoSignOpen Sha512.hash (some ⟨5, 0⟩) (some ⟨6, 0⟩) (some ⟨3, 0⟩) (8 + 64)
        (some ⟨0, 0⟩)) mem₂ 0 mem₃ ∧
      mem₃.u64 ⟨6, 0⟩ = 8 ∧ mem₃.bytes ⟨5, 0⟩ 8 = mem₁.bytes ⟨2, 0⟩ 8 := by
  have hbuf := roundTripMemory_buffers 8
  obtain ⟨mem₁, hkeys, hsize, h⟩ := sign_roundtrip Sha512.hash
    (rfl : (⟨0, Vector.replicate 32 0⟩ : RngAnswer 32).status = 0) hbuf.valid_pk
    hbuf.signing.valid_sk (Disjoint.of_obj_ne (by decide) _ _)
  obtain ⟨mem₂, hsign, -, -, hopen, -⟩ :=
    h mem₁ _ _ _ _ _ _ _ 8 rfl rfl (hbuf.congr hsize) (by decide)
  obtain ⟨mem₃, hrun, hlen, hout⟩ := hopen (by decide)
  exact ⟨mem₁, mem₂, mem₃, hkeys, hsign, hrun, hlen, hout⟩

/-- A message of `SIZE_MAX - 64` bytes is signed, and `crypto_sign_open` refuses its length. -/
theorem longest_message_not_opened :
    ∃ mem₁ mem₂,
      Runs (cryptoSignKeypair Sha512.hash ⟨0, Vector.replicate 32 0⟩ (some ⟨0, 0⟩) (some ⟨1, 0⟩))
        (roundTripMemory 0xffffffffffffffbf) 0 mem₁ ∧
      Runs (cryptoSign Sha512.hash (some ⟨3, 0⟩) (some ⟨4, 0⟩) (some ⟨2, 0⟩) 0xffffffffffffffbf
        (some ⟨1, 0⟩)) mem₁ 0 mem₂ ∧
      mem₂.u64 ⟨4, 0⟩ = 0xffffffffffffffff ∧
      ∀ mem₃, ¬ Runs (cryptoSignOpen Sha512.hash (some ⟨5, 0⟩) (some ⟨6, 0⟩)
        (some ⟨3, 0⟩) 0xffffffffffffffff (some ⟨0, 0⟩)) mem₂ 0 mem₃ := by
  have hbuf := roundTripMemory_buffers 0xffffffffffffffbf
  obtain ⟨mem₁, hkeys, hkey, hsize, -⟩ := cryptoSignKeypair_runs Sha512.hash
    (rfl : (⟨0, Vector.replicate 32 0⟩ : RngAnswer 32).status = 0) hbuf.valid_pk
    hbuf.signing.valid_sk (Disjoint.of_obj_ne (by decide) _ _)
  have hbuf₁ := hbuf.congr hsize
  obtain ⟨mem₂, hsign, hlen, -, -, hsize₂, -⟩ :=
    hkey.sign (n := 0xffffffffffffffbf) hbuf₁.signing hbuf₁.pk_sm
    hbuf₁.pk_smlen (by decide)
  refine ⟨mem₁, mem₂, hkeys, hsign, hlen, fun mem₃ hrun => ?_⟩
  have hpk := ((hbuf.congr hsize).congr hsize₂).valid_pk
  exact absurd (hrun.unique (cryptoSignOpen_refuses Sha512.hash hpk (Or.inl (by decide)))).1
    (by decide)

end Examples

end TweetNacl
