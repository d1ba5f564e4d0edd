import TweetNacl.CurveOrders
import TweetNacl.EncodingUnique
import TweetNacl.KeypairValidate
import TweetNacl.Lib.LinearResponse

/-!
# What signed messages give away

The second half of a signature is linear in the challenge. Two signed messages with the same first
half and different challenges determine the secret scalar modulo the order of the base point, and
with it every message can be signed. `crypto_sign` makes such messages itself from secret keys with
different second halves, which it takes for the public key and does not check. A public key that
denotes the neutral element lets the message drop out of the verification.
-/

namespace TweetNacl

open Edwards Memory Limbs Ed25519 LinearResponse

section Order

/-- The base point is not the neutral element. -/
theorem base_ne_zero : B ≠ 0 := by
  intro h
  have hx : ((baseX : ℕ) : Fp) = 0 := congrArg Point.x h
  exact natCast_ne_zero (by norm_num [baseX]) (by norm_num [baseX]) hx

/-- The base point has order `L`. -/
theorem addOrderOf_base : addOrderOf B = L := by
  have := Fact.mk L_prime
  exact addOrderOf_eq_prime order_smul_base base_ne_zero

/-- The encoding of a point determines the point. -/
theorem eq_of_encode {p : Vector UInt8 32} {P Q : EdPoint} (hP : leNat p = encode P)
    (hQ : leNat p = encode Q) :
    P = Q :=
  neg_injective ((decodesTo_neg hP).unique (decodesTo_neg hQ))

/-- `reduce` leaves the remainder modulo the group order. -/
theorem leNat_low32_reduce (r : Vector UInt8 64) : leNat (low32 (reduce r)) = leNat r % L := by
  apply Int.ofNat_inj.mp
  rw [leNat_cast, leInt_reduce, Int.natCast_mod, leNat_cast]

end Order

variable (hash : List UInt8 → Vector UInt8 64)

section Scalars

/-- The challenge of a signature as a number. -/
def challengeScalar (r pk msg : List UInt8) : ℕ := leNat (low32 (challenge hash r pk msg))

/-- The secret scalar of a seed. -/
def secretScalar (seed : List UInt8) : ℕ := leNat (low32 (expandSeed hash seed))

/-- A challenge is reduced already. -/
theorem challengeScalar_mod (r pk msg : List UInt8) :
    challengeScalar hash r pk msg % L = challengeScalar hash r pk msg := by
  rw [challengeScalar, challenge, leNat_low32_reduce, Nat.mod_mod]

/-- The challenge of a signed message of `n` bytes in memory. -/
def challengeAt (mem : Mem) (sm pk : Addr) (n : ℕ) : ℕ :=
  challengeScalar hash (mem.bytes sm 32) (mem.bytes pk 32) (mem.bytes (sm + 64) (n - 64))

/-- A message signed with a nonce and a scalar. -/
def signWith (x : ℕ) (r : Vector UInt8 32) (pk msg : List UInt8) : List UInt8 :=
  let commitment := pack (scalarbase r)
  commitment.toList ++
    (ofNatLE 32 ((leNat r + challengeScalar hash commitment.toList pk msg * x) % L)).toList ++ msg

end Scalars

section Opening

variable {hash} {mem : Mem} {m mlen sm pk : Addr} {n : UInt64} {seed : List UInt8} {x : ℕ}
  {r : Vector UInt8 32}

/-- A signature with any scalar that has the residue of the secret one is recovered. -/
theorem recovered_signWith {q : GfPoint} {s : Vector UInt8 32} {pkBytes msg : List UInt8}
    (hq : q.Denotes (-(secretScalar hash seed • B))) (hx : x % L = secretScalar hash seed % L)
    (hs : leNat s =
      (leNat r + challengeScalar hash (pack (scalarbase r)).toList pkBytes msg * x) % L) :
    recovered hash q (pack (scalarbase r)) s pkBytes msg = pack (scalarbase r) := by
  have hcancel : ∀ P Q : EdPoint, -P + (Q + P) = Q :=
    fun P Q => by rw [add_comm Q, neg_add_cancel_left]
  apply leNat_injective
  rw [leNat_recovered hq, ← challengeScalar, hs, nsmul_base_mod, add_nsmul, mul_nsmul',
    nsmul_base_congr hx, neg_nsmul, hcancel, leNat_pack (scalarbase_denotes r)]

/-- `crypto_sign_open` opens what was signed with such a scalar. -/
theorem open_signWith (h : OpenBuffers mem m mlen sm pk n.toNat) (hn : n ≤ sizeMax - 64)
    {msg : List UInt8} (hx : x % L = secretScalar hash seed % L)
    (hpk : mem.vec pk 32 = publicKey hash seed)
    (hsm : mem.bytes sm n.toNat = signWith hash x r (publicKey hash seed).toList msg) :
    ∃ mem', Runs (cryptoSignOpen hash (some m) (some mlen) (some sm) n (some pk)) mem 0 mem' ∧
      mem'.u64 mlen = n - 64 ∧ mem'.bytes m (n.toNat - 64) = msg := by
  have hlength : n.toNat = msg.length + 64 := by
    have hlen := congrArg List.length hsm
    simp only [Mem.length_bytes, signWith, List.length_append, Vector.length_toList] at hlen
    omega
  have hn64 : 64 ≤ n := UInt64.le_iff_toNat_le.mpr (hlength ▸ Nat.le_add_left 64 _)
  rw [hlength, bytes_signed, signWith] at hsm
  obtain ⟨hleft, hbody⟩ := List.append_inj' hsm (by simp)
  obtain ⟨hhead, htail⟩ := List.append_inj' hleft (by simp)
  rw [← Mem.toList_vec] at hhead htail
  have hs : leNat (mem.vec (sm + 32) 32) =
      (leNat r + challengeScalar hash (pack (scalarbase r)).toList
        (publicKey hash seed).toList msg * x) % L := by
    rw [Vector.toList_inj.mp htail, leNat_ofNatLE]
    exact (Nat.mod_lt _ L_prime.pos).trans (by norm_num [L])
  obtain ⟨q, hq, hdenotes⟩ := unpackneg_encode (leNat_publicKey hash seed)
  obtain ⟨mem', hrun, -, -, hlen, hout⟩ := cryptoSignOpen_runs hash h hn64 hn (hpk ▸ hq) rfl
  have hbytes : mem.bytes (sm + 64) (n.toNat - 64) = msg := by
    rw [hlength, Nat.add_sub_cancel, hbody]
  have hpkBytes : mem.bytes pk 32 = (publicKey hash seed).toList := by rw [← Mem.toList_vec, hpk]
  rw [hbytes, Vector.toList_inj.mp hhead, hpkBytes, recovered_signWith hdenotes hx hs,
    if_pos rfl] at hrun hlen hout
  exact ⟨mem', hrun, hlen, hout⟩

/-- `crypto_sign_open` accepts the signed message of `n` bytes in memory. -/
def Opens (hash : List UInt8 → Vector UInt8 64) (mem : Mem) (sm pk : Addr) (n : UInt64) : Prop :=
  ∃ m mlen mem', OpenBuffers mem m mlen sm pk n.toNat ∧
    Runs (cryptoSignOpen hash (some m) (some mlen) (some sm) n (some pk)) mem 0 mem'

/-- The point behind the first half of a signed message that is accepted. -/
theorem Opens.commitment (h : Opens hash mem sm pk n) (hpk : mem.vec pk 32 = publicKey hash seed) :
    leNat (mem.vec sm 32) = encode
      (challengeAt hash mem sm pk n.toNat • -(secretScalar hash seed • B) +
      leNat (mem.vec (sm + 32) 32) • B) := by
  obtain ⟨m, mlen, mem', hbuf, hrun⟩ := h
  have hlength : ¬ (sizeMax - 64 < n ∨ n < 64) := fun hrefused =>
    absurd (hrun.unique (cryptoSignOpen_refuses hash hbuf.valid_pk (hrefused.imp_right Or.inl))).1
      (by decide)
  obtain ⟨hmax, hmin⟩ := not_or.mp hlength
  obtain ⟨A, hA, heq⟩ :=
    (cryptoSignOpen_accepts_iff hash hbuf (UInt64.not_lt.mp hmin) (UInt64.not_lt.mp hmax)).mp
    ⟨mem', hrun⟩
  rw [hpk] at hA
  rw [heq, hA.unique (decodesTo_neg (leNat_publicKey hash seed))]
  rfl

end Opening

section Extraction

variable {hash} {mem mem' : Mem} {sm sm' pk pk' : Addr} {n n' : UInt64} {seed : List UInt8}

/-- The scalar that two signed messages in memory determine. -/
def extractAt (hash : List UInt8 → Vector UInt8 64) (mem mem' : Mem) (sm sm' pk pk' : Addr)
    (n n' : ℕ) : ℕ :=
  extract L (challengeAt hash mem sm pk n) (challengeAt hash mem' sm' pk' n')
    (leNat (mem.vec (sm + 32) 32))
    (leNat (mem'.vec (sm' + 32) 32))

/-- Different challenges differ modulo the group order. -/
theorem challengeAt_ne
    (hne : challengeAt hash mem sm pk n.toNat ≠ challengeAt hash mem' sm' pk' n'.toNat) :
    challengeAt hash mem sm pk n.toNat % L ≠ challengeAt hash mem' sm' pk' n'.toNat % L := by
  rwa [challengeAt, challengeAt, challengeScalar_mod, challengeScalar_mod]

/-- From two signed messages that `crypto_sign_open` accepts for one generated public key, with the
same first half and different challenges, the secret scalar is computed modulo the order of the base
point. With it every message of at most `SIZE_MAX - 128` bytes is signed with any nonce so that
`crypto_sign_open` returns the message. -/
theorem commitment_reuse_forges (hopens : Opens hash mem sm pk n)
    (hopens' : Opens hash mem' sm' pk' n')
    (hpk : mem.vec pk 32 = publicKey hash seed) (hpk' : mem'.vec pk' 32 = publicKey hash seed)
    (hcommitment : mem.vec sm 32 = mem'.vec sm' 32)
    (hne : challengeAt hash mem sm pk n.toNat ≠ challengeAt hash mem' sm' pk' n'.toNat) :
    extractAt hash mem mem' sm sm' pk pk' n.toNat n'.toNat = secretScalar hash seed % L ∧
      ∀ mem₁ m mlen sm₁ pk₁ (n₁ : UInt64) r msg, OpenBuffers mem₁ m mlen sm₁ pk₁ n₁.toNat →
      n₁ ≤ sizeMax - 64 →
        mem₁.vec pk₁ 32 = publicKey hash seed →
        mem₁.bytes sm₁ n₁.toNat = signWith hash
        (extractAt hash mem mem' sm sm' pk pk' n.toNat n'.toNat) r
          (publicKey hash seed).toList msg →
        ∃ mem₂, Runs (cryptoSignOpen hash (some m) (some mlen) (some sm₁) n₁ (some pk₁))
        mem₁ 0 mem₂ ∧
          mem₂.u64 mlen = n₁ - 64 ∧ mem₂.bytes m (n₁.toNat - 64) = msg := by
  have hextract : extractAt hash mem mem' sm sm' pk pk' n.toNat n'.toNat =
      secretScalar hash seed % L := by
    have hpoint := hopens'.commitment hpk'
    rw [← hcommitment] at hpoint
    exact extract_of_nsmul L_prime addOrderOf_base (challengeAt_ne hne)
      (eq_of_encode (hopens.commitment hpk) hpoint)
  refine ⟨hextract, fun mem₁ m mlen sm₁ pk₁ n₁ r msg hbuf hn hpk₁ hsm => ?_⟩
  exact open_signWith hbuf hn (by rw [hextract, Nat.mod_mod]) hpk₁ hsm

variable (hash) {m m' mlen mlen' sk sk' : Addr}

/-- A message signed with a secret key in memory, taken apart. -/
theorem signed_at (h : SignBuffers mem sm mlen m sk n.toNat) (hn : n ≤ sizeMax - 64) :
    ∃ mem₁, Runs (cryptoSign hash (some sm) (some mlen) (some m) n (some sk)) mem 0 mem₁ ∧
      mem₁.vec sm 32 = commitment hash (mem.bytes sk 32) (mem.bytes m n.toNat) ∧
      mem₁.vec (sm + 32) 32 = response hash (mem.bytes sk 32) (mem.bytes (sk + 32) 32)
        (mem.bytes m n.toNat) ∧
      challengeAt hash mem₁ sm (sk + 32) (n.toNat + 64) =
        challengeScalar hash (mem₁.vec sm 32).toList (mem.bytes (sk + 32) 32)
        (mem.bytes m n.toNat) := by
  obtain ⟨mem₁, hrun, hframe, hbytes⟩ := cryptoSign_runs hash h hn
  obtain ⟨hcommitment, hresponse, hbody⟩ := bytes_eq_signedMessage (Mem.length_bytes _ _ _) hbytes
  have hhalf : mem₁.bytes (sk + 32) 32 = mem.bytes (sk + 32) 32 := by
    rw [hframe.bytes_of_disjoint (h.sk_sm.add_left (by norm_num : 32 + 32 ≤ 64)),
      (mem.frame_writeU64 mlen (n + 64)).bytes_of_disjoint
      (h.sk_mlen.add_left (by norm_num : 32 + 32 ≤ 64))]
  refine ⟨mem₁, hrun, hcommitment, hresponse, ?_⟩
  rw [challengeAt, Nat.add_sub_cancel, hbody, hhalf, Mem.toList_vec]

/-- `crypto_sign` takes the second half of the secret key for the public key. For two secret keys of
one seed and one message it makes the same first half, and if the challenges are different the two
signed messages give the secret scalar away. -/
theorem secret_halves_extract (h : SignBuffers mem sm mlen m sk n.toNat)
    (h' : SignBuffers mem' sm' mlen' m' sk' n.toNat) (hn : n ≤ sizeMax - 64)
    (hseed : mem'.bytes sk' 32 = mem.bytes sk 32)
    (hmsg : mem'.bytes m' n.toNat = mem.bytes m n.toNat) :
    ∃ mem₁ mem₁', Runs (cryptoSign hash (some sm) (some mlen) (some m) n (some sk)) mem 0 mem₁ ∧
      Runs (cryptoSign hash (some sm') (some mlen') (some m') n (some sk')) mem' 0 mem₁' ∧
      mem₁.vec sm 32 = mem₁'.vec sm' 32 ∧
      (challengeAt hash mem₁ sm (sk + 32) (n.toNat + 64) ≠ challengeAt hash mem₁' sm' (sk' + 32)
        (n.toNat + 64) →
        extractAt hash mem₁ mem₁' sm sm' (sk + 32) (sk' + 32) (n.toNat + 64) (n.toNat + 64) =
          secretScalar hash (mem.bytes sk 32) % L) := by
  obtain ⟨mem₁, hrun, hcommitment, hresponse, hchallenge⟩ := signed_at hash h hn
  obtain ⟨mem₁', hrun', hcommitment', hresponse', hchallenge'⟩ := signed_at hash h' hn
  rw [hseed, hmsg] at hcommitment' hresponse'
  refine ⟨mem₁, mem₁', hrun, hrun', hcommitment.trans hcommitment'.symm, fun hne => ?_⟩
  rw [hchallenge, hchallenge', hcommitment, hcommitment', hmsg] at hne
  rw [extractAt, hchallenge, hchallenge', hresponse, hresponse', hcommitment, hcommitment', hmsg]
  refine extract_responses (r := leNat (low32 (nonce hash (mem.bytes sk 32) (mem.bytes m n.toNat))))
    L_prime ?_ ?_ ?_
  · rwa [challengeScalar_mod, challengeScalar_mod]
  · rw [leNat_response, Nat.mod_mod]
    rfl
  · rw [leNat_response, Nat.mod_mod]
    rfl

end Extraction

section LowOrder

variable {mem : Mem} {m mlen sm pk : Addr} {n : UInt64} {A : EdPoint} {k : ℕ}

/-- The challenge counts modulo the order of the point of the public key only. -/
theorem lowOrder_accepts_iff (h : OpenBuffers mem m mlen sm pk n.toNat) (hn : 64 ≤ n)
    (hn' : n ≤ sizeMax - 64) (hA : DecodesTo (mem.vec pk 32) A) (hk : k • A = 0) :
    (∃ mem', Runs (cryptoSignOpen hash (some m) (some mlen) (some sm) n (some pk)) mem 0 mem') ↔
      leNat (mem.vec sm 32) =
        encode ((challengeAt hash mem sm pk n.toNat % k) • A + leNat
          (mem.vec (sm + 32) 32) • B) := by
  have hmod : challengeAt hash mem sm pk n.toNat • A =
      (challengeAt hash mem sm pk n.toNat % k) • A := by
    conv_lhs => rw [← Nat.mod_add_div (challengeAt hash mem sm pk n.toNat) k, add_nsmul, mul_comm,
      mul_nsmul', hk,
      nsmul_zero, add_zero]
  rw [cryptoSignOpen_accepts_iff hash h hn hn', ← hmod]
  exact ⟨fun ⟨A', hA', heq⟩ => hA'.unique hA ▸ heq, fun heq => ⟨A, hA, heq⟩⟩

/-- The public keys that denote the neutral element: the numbers `1` and `2 ^ 255 - 18`, with any
sign bit. -/
theorem decodesTo_zero_iff (p : Vector UInt8 32) :
    DecodesTo p 0 ↔ leNat p % 2 ^ 255 = 1 ∨ leNat p % 2 ^ 255 = 2 ^ 255 - 18 := by
  have hlow := Nat.mod_lt (leNat p) (Nat.two_pow_pos 255)
  have hy : (0 : EdPoint).y = fieldOfBytes p ↔ leNat p % 2 ^ 255 % (2 ^ 255 - 19) = 1 := by
    rw [← fieldOfBytes_val, zero_y, ← (ZMod.val_injective p25519).eq_iff, ZMod.val_one, eq_comm]
  refine Iff.trans ⟨fun h => hy.mp h.y, fun h => ⟨hy.mpr h, Or.inl rfl⟩⟩ ?_
  generalize leNat p % 2 ^ 255 = v at hlow ⊢
  omega

/-- With such a public key `crypto_sign_open` accepts exactly the signatures `R ‖ S` in which `R`
encodes the multiple of the base point by `S`, whatever the message is. -/
theorem neutralKey_accepts_iff (h : OpenBuffers mem m mlen sm pk n.toNat) (hn : 64 ≤ n)
    (hn' : n ≤ sizeMax - 64)
    (hpk : leNat (mem.vec pk 32) % 2 ^ 255 = 1 ∨ leNat (mem.vec pk 32) % 2 ^ 255 = 2 ^ 255 - 18) :
    (∃ mem', Runs (cryptoSignOpen hash (some m) (some mlen) (some sm) n (some pk)) mem 0 mem') ↔
      mem.vec sm 32 = pack (scalarbase (mem.vec (sm + 32) 32)) := by
  rw [lowOrder_accepts_iff hash h hn hn' ((decodesTo_zero_iff _).mpr hpk) (one_nsmul 0),
    nsmul_zero, zero_add, ← leNat_pack (scalarbase_denotes _), leNat_injective.eq_iff]

/-- The condition on the example of the malleable signature, whose key is the neutral element. -/
theorem neutralKey_accepts_iff_malleable :
    (∃ mem', Runs (cryptoSignOpen Sha512.hash (some ⟨2, 0⟩) (some ⟨3, 0⟩) (some ⟨1, 0⟩) 64
      (some ⟨0, 0⟩)) malleableMemory 0 mem') ↔
      malleableMemory.vec ⟨1, 0⟩ 32 = pack
        (scalarbase (malleableMemory.vec ((⟨1, 0⟩ : Addr) + 32) 32)) := by
  have hkey : malleableMemory.vec ⟨0, 0⟩ 32 = neutralBytes := by
    rw [malleableMemory, Mem.writeVec,
      Mem.vec_write_of_disjoint (Disjoint.of_obj_ne (by decide) _ _),
      Mem.writeVec, Mem.vec_write_of_disjoint (Disjoint.of_obj_ne (by decide) _ _),
      Mem.vec_writeVec]
  refine neutralKey_accepts_iff Sha512.hash malleableMemory_buffers (by decide)
    (by decide) (Or.inl ?_)
  rw [hkey, neutralBytes, leNat_ofNatLE (by norm_num)]
  norm_num

end LowOrder

section Example

/-- A multiple of the base point in projective coordinates, computed on natural numbers. -/
def baseMultiple (n : ℕ) : Extended ℕ :=
  Extended.mulMod (2 ^ 255 - 19) (2 * dNat) 256 n ⟨baseX, baseY, 1, baseX * baseY⟩

/-- The encoding of a multiple of the base point whose affine coordinates are given. -/
theorem encode_nsmul_base {n x y : ℕ} (hn : n < 2 ^ 256) (hxlt : x < 2 ^ 255 - 19)
    (hylt : y < 2 ^ 255 - 19)
    (hx : (baseMultiple n).x % (2 ^ 255 - 19) = x * (baseMultiple n).z % (2 ^ 255 - 19))
    (hy : (baseMultiple n).y % (2 ^ 255 - 19) = y * (baseMultiple n).z % (2 ^ 255 - 19)) :
    encode (n • B) = y + 2 ^ 255 * (x % 2) := by
  have h := mulMod_base_represents hn
  rw [← baseMultiple] at h
  have hpx : ((baseMultiple n).x : Fp) = (n • B).x * (baseMultiple n).z := h.x
  have hpy : ((baseMultiple n).y : Fp) = (n • B).y * (baseMultiple n).z := h.y
  rw [natCast_eq_of_mod hx, Nat.cast_mul] at hpx
  rw [natCast_eq_of_mod hy, Nat.cast_mul] at hpy
  rw [encode, ← mul_right_cancel₀ h.z_ne_zero hpx, ← mul_right_cancel₀ h.z_ne_zero hpy,
    ZMod.val_natCast_of_lt (by rw [p25519_eq]; exact hylt),
    ZMod.val_natCast_of_lt (by rw [p25519_eq]; exact hxlt)]

/-- The `y` coordinate of the point of the public key of the seed `01 00 … 00`. -/
def oneSeedY : ℕ := 56461774818723834839721450787889437474891852695816614318545467683432985644238

/-- The public key of the seed, whose `x` coordinate is odd. -/
theorem oneSeed_publicKey :
    publicKey Sha512.hash oneSeed.toList = ofNatLE 32 (oneSeedY + 2 ^ 255) := by
  apply leNat_injective
  rw [leNat_publicKey, oneSeed_scalar, leNat_ofNatLE (by norm_num [oneSeedY]),
    encode_nsmul_base (x := oneSeedX) (y := oneSeedY) (by decide) (by decide) (by decide)
      (by decide +kernel) (by decide +kernel)]
  decide

/-- The commitment for the nonce `1`. -/
theorem pack_scalarbase_one : pack (scalarbase (ofNatLE 32 1)) = ofNatLE 32 baseY := by
  apply leNat_injective
  rw [leNat_pack (scalarbase_denotes _), leNat_ofNatLE (by norm_num),
    leNat_ofNatLE (by norm_num [baseY]), one_nsmul, encode, B,
    ZMod.val_natCast_of_lt (by rw [p25519_eq]; decide),
    ZMod.val_natCast_of_lt (by rw [p25519_eq]; decide)]
  decide

/-- The public key of the seed and a message signed with the nonce `1`, in separate objects. -/
def reuseMemory (msg : List UInt8) : Mem :=
  ((Mem.ofSizes [32, msg.length + 64, msg.length + 64, 8]).writeVec ⟨0, 0⟩
    (publicKey Sha512.hash oneSeed.toList)).writeBytes ⟨1, 0⟩
      (signWith Sha512.hash oneSeedScalar (ofNatLE 32 1)
        (publicKey Sha512.hash oneSeed.toList).toList msg)

/-- The example holds the public key of the seed. -/
theorem reuseMemory_key (msg : List UInt8) :
    (reuseMemory msg).vec ⟨0, 0⟩ 32 = publicKey Sha512.hash oneSeed.toList := by
  rw [reuseMemory, Mem.writeBytes, Mem.vec_write_of_disjoint (Disjoint.of_obj_ne (by decide) _ _),
    Mem.vec_writeVec]

/-- The example holds a signed message behind it. -/
theorem reuseMemory_signed (msg : List UInt8) : (reuseMemory msg).bytes ⟨1, 0⟩ (msg.length + 64) =
    signWith Sha512.hash oneSeedScalar (ofNatLE 32 1)
    (publicKey Sha512.hash oneSeed.toList).toList msg := by
  have hlength : (signWith Sha512.hash oneSeedScalar (ofNatLE 32 1)
      (publicKey Sha512.hash oneSeed.toList).toList msg).length = msg.length + 64 := by
    simp only [signWith, List.length_append, Vector.length_toList]
    omega
  rw [reuseMemory, Mem.writeBytes, Mem.bytes_write hlength.ge]
  refine List.ext_getElem (by rw [List.length_ofFn, hlength]) fun i hi hi' => ?_
  rw [List.getElem_ofFn, List.getD_eq_getElem _ _ hi']

/-- The buffers of the example hold it and lie apart. -/
theorem reuseMemory_buffers {msg : List UInt8} {n : UInt64} (hn : n.toNat = msg.length + 64) :
    OpenBuffers (reuseMemory msg) ⟨2, 0⟩ ⟨3, 0⟩ ⟨1, 0⟩ ⟨0, 0⟩ n.toNat := by
  have hvalid : ∀ o k, (Mem.ofSizes [32, msg.length + 64, msg.length + 64, 8]).size o = k →
      (reuseMemory msg).Valid ⟨o, 0⟩ k := fun o k hk i hi => by
    rw [← hk] at hi
    rwa [Nat.zero_add]
  exact ⟨hvalid 2 _ hn.symm, hvalid 3 _ rfl, hvalid 1 _ hn.symm, hvalid 0 _ rfl,
    Disjoint.of_obj_ne (by decide) _ _,
    Disjoint.of_obj_ne (by decide) _ _, Disjoint.of_obj_ne (by decide) _ _⟩

/-- `crypto_sign_open` accepts the signed message of the example. -/
theorem reuseMemory_opens {msg : List UInt8} {n : UInt64} (hn : n.toNat = msg.length + 64)
    (hn' : n ≤ sizeMax - 64) :
    Opens Sha512.hash (reuseMemory msg) ⟨1, 0⟩ ⟨0, 0⟩ n := by
  have hscalar : oneSeedScalar % L = secretScalar Sha512.hash oneSeed.toList % L := by
    rw [secretScalar, oneSeed_scalar]
  obtain ⟨mem', hrun, -, -⟩ :=
    open_signWith (reuseMemory_buffers hn) hn' hscalar (reuseMemory_key msg)
    (hn ▸ reuseMemory_signed msg)
  exact ⟨_, _, mem', reuseMemory_buffers hn, hrun⟩

/-- The parts of the signed message in memory. -/
theorem reuseMemory_parts (msg : List UInt8) : (reuseMemory msg).vec ⟨1, 0⟩ 32 = ofNatLE 32 baseY ∧
    challengeAt Sha512.hash (reuseMemory msg) ⟨1, 0⟩ ⟨0, 0⟩ (msg.length + 64) =
      leNat (Sha512.hash
        ((ofNatLE 32 baseY).toList ++ (ofNatLE 32 (oneSeedY + 2 ^ 255)).toList ++ msg)) % L := by
  have hsigned := reuseMemory_signed msg
  rw [bytes_signed, signWith] at hsigned
  obtain ⟨hleft, hbody⟩ := List.append_inj' hsigned (by simp)
  obtain ⟨hhead, -⟩ := List.append_inj' hleft (by simp)
  rw [pack_scalarbase_one] at hhead
  refine ⟨Vector.toList_inj.mp (by rw [Mem.toList_vec, hhead]), ?_⟩
  rw [challengeAt, Nat.add_sub_cancel, hbody, hhead, ← Mem.toList_vec _ ⟨0, 0⟩, reuseMemory_key,
    oneSeed_publicKey, challengeScalar, challenge, leNat_low32_reduce]

/-- The empty message and a message of one zero byte, signed with the nonce `1`. -/
theorem commitment_reuse_forges_one :
    extractAt Sha512.hash (reuseMemory []) (reuseMemory [0]) ⟨1, 0⟩ ⟨1, 0⟩ ⟨0, 0⟩
      ⟨0, 0⟩ 64 65 = oneSeedScalar % L := by
  have hne : challengeAt Sha512.hash (reuseMemory []) ⟨1, 0⟩ ⟨0, 0⟩ 64 ≠
      challengeAt Sha512.hash (reuseMemory [0]) ⟨1, 0⟩ ⟨0, 0⟩ 65 := by
    refine ((reuseMemory_parts []).2.trans_ne ?_).trans_eq (reuseMemory_parts [0]).2.symm
    decide +kernel
  have hextract := (commitment_reuse_forges (reuseMemory_opens (n := 64) rfl (by decide))
    (reuseMemory_opens (n := 65) rfl (by decide)) (reuseMemory_key []) (reuseMemory_key [0])
    ((reuseMemory_parts []).1.trans (reuseMemory_parts [0]).1.symm) hne).1
  rwa [secretScalar, oneSeed_scalar] at hextract

/-- The nonce for the message 1, 2, 3 under this seed. -/
def oneSeedNonce : ℕ := 1854693864770243411032344963519912287411074296323096583997812375241425052517

/-- The encoding of the commitment to this nonce. -/
def oneSeedCommitment : ℕ :=
  111878676421491806826687849937392163446849703308996168568194508387870009335834

/-- The nonce is the one that `crypto_sign` derives. -/
theorem oneSeed_nonce :
    leNat (low32 (nonce Sha512.hash oneSeed.toList [1, 2, 3])) = oneSeedNonce := by
  rw [nonce, leNat_low32_reduce]
  decide +kernel

/-- The first half of what `crypto_sign` makes from the message and the seed. -/
theorem oneSeed_commitment :
    commitment Sha512.hash oneSeed.toList [1, 2, 3] = ofNatLE 32 oneSeedCommitment := by
  apply leNat_injective
  rw [commitment, leNat_pack (scalarbase_denotes _), oneSeed_nonce,
    leNat_ofNatLE (by norm_num [oneSeedCommitment]),
    encode_nsmul_base
      (x := 34208377927068662890548015696459907082628368275261294200702286758527236707855)
      (y := 53982631802833709114902357433048209520214710976175886548465716383913444515866)
      (by decide) (by decide) (by decide) (by decide +kernel) (by decide +kernel)]
  decide

/-- A secret key with the seed and `half`, the message and the buffers of `crypto_sign`. -/
def halfMemory (half : List UInt8) : Mem :=
  Mem.ofBytes [[], oneSeed.toList ++ half, [1, 2, 3], List.replicate 67 0, List.replicate 8 0]

/-- The half that `crypto_sign_keypair` makes. -/
def publicHalf : List UInt8 := (ofNatLE 32 (oneSeedY + 2 ^ 255)).toList

/-- The challenges for this half and for the bytes 1 to 32 are different. -/
theorem challenges_ne :
    challengeScalar Sha512.hash (ofNatLE 32 oneSeedCommitment).toList publicHalf [1, 2, 3] ≠
      challengeScalar Sha512.hash (ofNatLE 32 oneSeedCommitment).toList (numberedBytes 1 32)
        [1, 2, 3] := by
  rw [challengeScalar, challengeScalar, challenge, challenge, leNat_low32_reduce,
    leNat_low32_reduce]
  decide +kernel

/-- The parts of such a secret key, and the message. -/
theorem halfMemory_bytes :
    (halfMemory publicHalf).bytes ⟨1, 0⟩ 32 = oneSeed.toList ∧
      (halfMemory (numberedBytes 1 32)).bytes ⟨1, 0⟩ 32 = oneSeed.toList ∧
      (halfMemory publicHalf).bytes ((⟨1, 0⟩ : Addr) + 32) 32 = publicHalf ∧
      (halfMemory (numberedBytes 1 32)).bytes ((⟨1, 0⟩ : Addr) + 32) 32 = numberedBytes 1 32 ∧
      (halfMemory publicHalf).bytes ⟨2, 0⟩ (3 : UInt64).toNat = [1, 2, 3] ∧
      (halfMemory (numberedBytes 1 32)).bytes ⟨2, 0⟩ (3 : UInt64).toNat = [1, 2, 3] := by
  decide +kernel

/-- The buffers of `crypto_sign` with one of these secret keys. -/
theorem halfMemory_buffers {half : List UInt8} (hhalf : half.length = 32) :
    SignBuffers (halfMemory half) ⟨3, 0⟩ ⟨4, 0⟩ ⟨2, 0⟩ ⟨1, 0⟩ (3 : UInt64).toNat := by
  have hvalid : ∀ o k, (halfMemory half).size o = k → (halfMemory half).Valid ⟨o, 0⟩ k :=
    fun o k hk i hi => by
      rw [hk, Nat.zero_add]
      exact hi
  have hkey : (halfMemory half).size 1 = 64 := by
    change (oneSeed.toList ++ half).length = 64
    rw [List.length_append, Vector.length_toList, hhalf]
  exact ⟨hvalid 3 _ rfl, hvalid 4 _ rfl, hvalid 2 _ rfl, hvalid 1 _ hkey,
    Disjoint.of_obj_ne (by decide) _ _, Disjoint.of_obj_ne (by decide) _ _,
    Disjoint.of_obj_ne (by decide) _ _, Disjoint.of_obj_ne (by decide) _ _,
    Disjoint.of_obj_ne (by decide) _ _⟩

/-- The message signed with the secret key of the seed and with a damaged second half: the
challenges are different, and the secret scalar is extracted. -/
theorem secret_halves_extract_one : ∃ mem₁ mem₁',
    Runs (cryptoSign Sha512.hash (some ⟨3, 0⟩) (some ⟨4, 0⟩) (some ⟨2, 0⟩) 3 (some ⟨1, 0⟩))
        (halfMemory publicHalf) 0 mem₁ ∧
      Runs (cryptoSign Sha512.hash (some ⟨3, 0⟩) (some ⟨4, 0⟩) (some ⟨2, 0⟩) 3 (some ⟨1, 0⟩))
        (halfMemory (numberedBytes 1 32)) 0 mem₁' ∧
      extractAt Sha512.hash mem₁ mem₁' ⟨3, 0⟩ ⟨3, 0⟩ ((⟨1, 0⟩ : Addr) + 32) ((⟨1, 0⟩ : Addr) + 32)
        ((3 : UInt64).toNat + 64) ((3 : UInt64).toNat + 64) = oneSeedScalar % L := by
  obtain ⟨hseed, hseed', hhalf, hhalf', hmsg, hmsg'⟩ := halfMemory_bytes
  have hbuf := halfMemory_buffers (show publicHalf.length = 32 from Vector.length_toList)
  have hbuf' := halfMemory_buffers (show (numberedBytes 1 32).length = 32 by decide)
  obtain ⟨mem₁, mem₁', hrun, hrun', -, hextract⟩ := secret_halves_extract Sha512.hash hbuf hbuf'
    (by decide) (hseed'.trans hseed.symm) (hmsg'.trans hmsg.symm)
  obtain ⟨mem₂, hsign, hcommitment, -, hchallenge⟩ := signed_at Sha512.hash hbuf (by decide)
  obtain ⟨mem₂', hsign', hcommitment', -, hchallenge'⟩ := signed_at Sha512.hash hbuf' (by decide)
  obtain ⟨-, rfl⟩ := hrun.unique hsign
  obtain ⟨-, rfl⟩ := hrun'.unique hsign'
  rw [hseed, hmsg, oneSeed_commitment] at hcommitment
  rw [hseed', hmsg', oneSeed_commitment] at hcommitment'
  rw [hcommitment, hhalf, hmsg] at hchallenge
  rw [hcommitment', hhalf', hmsg'] at hchallenge'
  have hscalar := hextract (by
    rw [hchallenge, hchallenge']
    exact challenges_ne)
  rw [hseed, secretScalar, oneSeed_scalar] at hscalar
  exact ⟨_, _, hrun, hrun', hscalar⟩

end Example

end TweetNacl
