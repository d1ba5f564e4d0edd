import TweetNacl.Ed25519Correct
import TweetNacl.ModL
import TweetNacl.Sha512

/-!
# Ed25519 signatures

`crypto_sign` builds the signed message in its output buffer, which is also the scratch space for
the inputs of two of its three hash calls; `crypto_sign_open` uses the buffer of the message in the
same way. The hash function is a parameter of the code, and `Sha512.hash` is what the library
passes. Local arrays are values, so clearing them before they go out of scope leaves no trace.
-/

namespace TweetNacl

open Memory Limbs Ed25519

/-- `SIZE_MAX`. -/
def sizeMax : UInt64 := 0xffffffffffffffff

section Code

variable (hash : List UInt8 → Vector UInt8 64)

/-- `crypto_hash` into a local array. -/
def hashOf (m : Addr) (n : ℕ) : Exec (Vector UInt8 64) := do
  let message ← loadBytes m n
  pure (hash message)

/-- An answer of the random number generator: the status and the bytes it leaves in the buffer. -/
structure RngAnswer (n : ℕ) where
  status : Int32
  bytes : Vector UInt8 n

/-- `randombytes_safe`. -/
def randombytesSafe {n : ℕ} (rng : RngAnswer n) (buf : Addr) : Exec Int32 := do
  storeVec buf rng.bytes
  pure rng.status

/-- The first half of the hash of a seed becomes a scalar. -/
def clampHash (d : Vector UInt8 64) : Vector UInt8 64 :=
  let d := d.put 0 (d.nth 0 &&& 248)
  let d := d.put 31 (d.nth 31 &&& 127)
  d.put 31 (d.nth 31 ||| 64)

/-- `crypto_sign_keypair`. -/
def cryptoSignKeypair (rng : RngAnswer 32) (pk sk : Ptr) : Exec Int32 :=
  match pk, sk with
  | some pk, some sk => do
    let ret ← randombytesSafe rng sk
    if ret ≠ 0 then pure (-1)
    else do
      let d ← hashOf hash sk 32
      let d := clampHash d
      storeVec pk (pack (scalarbase (low32 d)))
      copy (sk + 32) pk 32
      pure 0
  | _, _ => pure (-1)

/-- `crypto_sign`. -/
def cryptoSign (sm mlen m : Ptr) (n : UInt64) (sk : Ptr) : Exec Int32 :=
  match sm, mlen, m, sk with
  | some sm, some mlen, some m, some sk =>
    if n > sizeMax - 64 then pure (-1)
    else do
      let d ← hashOf hash sk 32
      let d := clampHash d
      storeU64 mlen (n + 64)
      copy (sm + 64) m n.toNat
      forN 32 fun i => store (sm + 32 + i) (d.getD (32 + i) 0)
      let r ← hashOf hash (sm + 32) (n + 32).toNat
      let r := reduce r
      storeVec sm (pack (scalarbase (low32 r)))
      copy (sm + 32) (sk + 32) 32
      let h ← hashOf hash sm (n + 64).toNat
      let h := reduce h
      storeVec (sm + 32) (modL (mulAdd r h d))
      pure 0
  | _, _, _, _ => pure (-1)

/-- `crypto_sign_open` from the copy of the signed message on, with the decoded key `q`. The call of
`crypto_verify_32` compares `sm` with a local array. -/
def signOpenBody (m mlen sm : Addr) (n : UInt64) (pk : Addr) (q : GfPoint) : Exec Int32 := do
  copy m sm n.toNat
  copy (m + 32) pk 32
  let h ← hashOf hash m n.toNat
  let h := reduce h
  let p := scalarmult q (low32 h)
  let s ← loadVec (sm + 32) 32
  let q := scalarbase s
  let p := add p q
  let t := pack p
  let r ← loadVec sm 32
  let failed : UInt8 := if vn r t ≠ 0 then 1 else 0
  let mask := -failed
  forN (n - 64).toNat fun i => do
    let src ← load (sm + 64 + i)
    store (m + i) (src &&& ~~~mask)
  if failed = 0 then do
    storeU64 mlen (n - 64)
    pure 0
  else do
    storeU64 mlen 0
    pure (-1)

/-- `crypto_sign_open`. -/
def cryptoSignOpen (m mlen sm : Ptr) (n : UInt64) (pk : Ptr) : Exec Int32 :=
  match m, mlen, sm, pk with
  | some m, some mlen, some sm, some pk =>
    if n > sizeMax - 64 then pure (-1)
    else if n < 64 then pure (-1)
    else do
      let key ← loadVec pk 32
      match unpackneg key with
      | none => pure (-1)
      | some q => signOpenBody hash m mlen sm n pk q
  | _, _, _, _ => pure (-1)

end Code

section Spec

variable (hash : List UInt8 → Vector UInt8 64)

/-- The clamped hash of a seed: the secret scalar, and the prefix for the nonce hash. -/
def expandSeed (seed : List UInt8) : Vector UInt8 64 := clampHash (hash seed)

/-- The public key of a seed. -/
def publicKey (seed : List UInt8) : Vector UInt8 32 :=
  pack (scalarbase (low32 (expandSeed hash seed)))

/-- The nonce of a signature. -/
def nonce (seed msg : List UInt8) : Vector UInt8 64 :=
  reduce (hash ((expandSeed hash seed).toList.drop 32 ++ msg))

/-- The first half `R` of a signature. -/
def commitment (seed msg : List UInt8) : Vector UInt8 32 :=
  pack (scalarbase (low32 (nonce hash seed msg)))

/-- The challenge for a commitment, a public key and a message. -/
def challenge (r pk msg : List UInt8) : Vector UInt8 64 := reduce (hash (r ++ pk ++ msg))

/-- The second half `S` of a signature, for the secret key `seed ‖ pk`. -/
def response (seed pk msg : List UInt8) : Vector UInt8 32 :=
  modL (mulAdd (nonce hash seed msg) (challenge hash (commitment hash seed msg).toList pk msg)
    (expandSeed hash seed))

/-- The signed message for the secret key `seed ‖ pk`. -/
def signedMessage (seed pk msg : List UInt8) : List UInt8 :=
  (commitment hash seed msg).toList ++ (response hash seed pk msg).toList ++ msg

/-- What `crypto_sign_open` compares the commitment with. -/
def recovered (q : GfPoint) (r s : Vector UInt8 32) (pk msg : List UInt8) : Vector UInt8 32 :=
  pack (add (scalarmult q (low32 (challenge hash r.toList pk msg))) (scalarbase s))

end Spec

section Runs

variable (hash : List UInt8 → Vector UInt8 64) {mem mem' : Mem} {pk sk sm mlen m : Addr}
  {n : UInt64}

/-- A hash reads its buffer and leaves the memory alone. -/
theorem hashOf_runs {p : Addr} {l : ℕ} (hp : mem.Valid p l) :
    Runs (hashOf hash p l) mem (hash (mem.bytes p l)) mem :=
  (Runs.loadBytes hp).bind (Runs.pure _ _)

/-- The lengths of a signed message do not wrap. -/
theorem toNat_add_of_le {k : ℕ} (hn : n ≤ sizeMax - 64) (hk : k ≤ 64) :
    (n + UInt64.ofNat k).toNat = n.toNat + k := by
  have h : n.toNat ≤ 0xffffffffffffffff - 64 := hn
  rw [UInt64.toNat_add, UInt64.toNat_ofNat']
  omega

/-- A key pair as `crypto_sign_keypair` leaves it. -/
structure KeyPair (hash : List UInt8 → Vector UInt8 64) (mem : Mem) (pk sk : Addr)
    (seed : List UInt8) :
    Prop where
  secret : mem.bytes sk 32 = seed
  secret_copy : mem.bytes (sk + 32) 32 = (publicKey hash seed).toList
  pk_eq : mem.vec pk 32 = publicKey hash seed

/-- `crypto_sign_keypair` derives the key pair of the random seed. -/
theorem cryptoSignKeypair_runs {rng : RngAnswer 32} (hrng : rng.status = 0) (hpk : mem.Valid pk 32)
    (hsk : mem.Valid sk 64) (hdisjoint : Disjoint pk 32 sk 64) :
    ∃ mem', Runs (cryptoSignKeypair hash rng (some pk) (some sk)) mem 0 mem' ∧
      KeyPair hash mem' pk sk rng.bytes.toList ∧ mem'.size = mem.size ∧ mem'.fresh = mem.fresh := by
  have hlow : Disjoint sk 32 pk 32 := hdisjoint.symm.mono (by norm_num) le_rfl
  have hhigh : Disjoint pk 32 (sk + 32) 32 := hdisjoint.add_right (by norm_num)
  have hrandom : Runs (randombytesSafe rng sk) mem rng.status (mem.writeVec sk rng.bytes) :=
    (Runs.storeVec (hsk.mono (by norm_num)) _).bind (Runs.pure _ _)
  have hhash :=
    hashOf_runs hash (show (mem.writeVec sk rng.bytes).Valid sk 32 from hsk.mono (by norm_num))
  rw [Mem.bytes_writeVec] at hhash
  have hpack := Runs.storeVec (m := mem.writeVec sk rng.bytes) hpk (publicKey hash rng.bytes.toList)
  have hcopy :=
    Runs.copy (m := (mem.writeVec sk rng.bytes).writeVec pk (publicKey hash rng.bytes.toList))
    (hsk.add (by norm_num) : mem.Valid (sk + 32) 32) hpk hhigh
  rw [hrng] at hrandom
  refine ⟨_, hrandom.bind (hhash.bind (hpack.bind (hcopy.bind (Runs.pure _ _)))),
    ⟨?_, ?_, ?_⟩, rfl, rfl⟩
  · rw [Mem.bytes_write_of_disjoint (Disjoint.of_le_self le_rfl), Mem.writeVec,
      Mem.bytes_write_of_disjoint hlow, Mem.bytes_writeVec]
  · rw [Mem.bytes_write_copy, Mem.bytes_writeVec]
  · rw [Mem.vec_write_of_disjoint hhigh, Mem.vec_writeVec]

/-- The buffers of `crypto_sign`, with a message of `n` bytes. -/
structure SignBuffers (mem : Mem) (sm mlen m sk : Addr) (n : ℕ) : Prop where
  valid_sm : mem.Valid sm (n + 64)
  valid_mlen : mem.Valid mlen 8
  valid_m : mem.Valid m n
  valid_sk : mem.Valid sk 64
  m_sm : Disjoint m n sm (n + 64)
  sk_sm : Disjoint sk 64 sm (n + 64)
  mlen_sm : Disjoint mlen 8 sm (n + 64)
  m_mlen : Disjoint m n mlen 8
  sk_mlen : Disjoint sk 64 mlen 8

/-- The bytes stored from an array, as a list. -/
theorem ofFn_getD_drop (d : Vector UInt8 64) :
    (List.ofFn fun i : Fin 32 => d.getD (32 + i.val) 0) = d.toList.drop 32 := by
  refine List.ext_getElem (by simp) fun i h1 h2 => ?_
  have hi : 32 + i < 64 := by
    have : i < 32 := by simpa using h1
    omega
  rw [List.getElem_ofFn, List.getElem_drop, Vector.getElem_toList]
  simp [Vector.getD, hi]

/-- A signed message in its three parts. -/
theorem bytes_signed (mem : Mem) (sm : Addr) (l : ℕ) :
    mem.bytes sm (l + 64) = mem.bytes sm 32 ++ mem.bytes (sm + 32) 32 ++ mem.bytes (sm + 64) l := by
  rw [show l + 64 = 32 + (32 + l) by omega, Mem.bytes_append, Mem.bytes_append, Addr.add_add,
    List.append_assoc]

/-- The buffer of a signed message after its second half has been replaced. -/
theorem bytes_signed_write (mem : Mem) (sm : Addr) (l : ℕ) (f : ℕ → UInt8) :
    (mem.write (sm + 32) 32 f).bytes sm (l + 64) =
      mem.bytes sm 32 ++ (List.ofFn fun i : Fin 32 => f i.val) ++ mem.bytes (sm + 64) l := by
  rw [bytes_signed, Mem.bytes_write_of_disjoint (Disjoint.of_le_self le_rfl),
    Mem.bytes_write le_rfl, Mem.bytes_write_of_disjoint (Disjoint.of_le le_rfl).symm]

/-- The signed message after its second half has been written. -/
theorem bytes_signed_writeVec (mem : Mem) (sm : Addr) (l : ℕ) (v : Vector UInt8 32) :
    (mem.writeVec (sm + 32) v).bytes sm (l + 64) = mem.bytes sm 32 ++ v.toList ++ mem.bytes
      (sm + 64) l := by
  rw [← mem.bytes_writeVec (sm + 32) v, Mem.writeVec, bytes_signed_write, Mem.bytes_write le_rfl]

section Stages

variable {α : Type} {rest : Exec α} {a : α} {l : ℕ} {d : Vector UInt8 64} {r : Vector UInt8 32}

/-- The memory when the nonce is hashed: the prefix and the message are in the buffer of the signed
message. -/
def nonceInput (mem : Mem) (sm m : Addr) (l : ℕ) (d : Vector UInt8 64) : Mem :=
  (mem.write (sm + 64) l fun i => mem.byte (m + i)).write (sm + 32) 32 fun i => d.getD (32 + i) 0

/-- The input of the nonce is built inside the signed message. -/
theorem frame_nonceInput (mem : Mem) (sm m : Addr) (l : ℕ) (d : Vector UInt8 64) :
    mem.Frame (nonceInput mem sm m l d) sm (l + 64) :=
  ((Mem.Frame.refl mem sm (l + 64)).write_add (by omega)).write_add (by omega)

/-- The message stands behind its 64 bytes. -/
theorem message_nonceInput : (nonceInput mem sm m l d).bytes (sm + 64) l = mem.bytes m l := by
  rw [nonceInput, Mem.bytes_write_of_disjoint (Disjoint.of_le le_rfl).symm, Mem.bytes_write_copy]

/-- The bytes that the nonce is the hash of. -/
theorem bytes_nonceInput :
    (nonceInput mem sm m l d).bytes (sm + 32) (l + 32) = d.toList.drop 32 ++ mem.bytes m l := by
  rw [Nat.add_comm l, Mem.bytes_append, Addr.add_add, message_nonceInput, nonceInput,
    Mem.bytes_write le_rfl, ofFn_getD_drop]

/-- The copies that build them run. -/
theorem nonceInput_runs (hsm : mem.Valid sm (l + 64)) (hm : mem.Valid m l)
    (hdisjoint : Disjoint m l sm (l + 64)) (hrest : Runs rest (nonceInput mem sm m l d) a mem') :
    Runs (do
      copy (sm + 64) m l
      forN 32 fun i => store (sm + 32 + i) (d.getD (32 + i) 0)
      rest) mem a mem' := by
  have hcopy :=
    Runs.copy (hsm.add (by omega) : mem.Valid (sm + 64) l) hm (hdisjoint.add_right (by omega))
  have hfill : Runs (forN 32 fun i => store (sm + 32 + i) (d.getD (32 + i) 0))
      (mem.write (sm + 64) l fun i => mem.byte (m + i)) () (nonceInput mem sm m l d) :=
    Runs.fill (Mem.valid_write.mpr (hsm.add (by omega : 32 + 32 ≤ l + 64))) _
  exact hcopy.bind (hfill.bind hrest)

/-- The memory when the challenge is hashed: the commitment and the public key are in front of the
message. -/
def challengeInput (mem : Mem) (sm sk : Addr) (r : Vector UInt8 32) : Mem :=
  (mem.writeVec sm r).write (sm + 32) 32 fun i => (mem.writeVec sm r).byte (sk + 32 + i)

/-- The input of the challenge is built inside the signed message. -/
theorem frame_challengeInput (mem : Mem) (sm sk : Addr) (l : ℕ) (r : Vector UInt8 32) :
    mem.Frame (challengeInput mem sm sk r) sm (l + 64) :=
  ((Mem.Frame.refl mem sm (l + 64)).write (by omega)).write_add (by omega)

/-- It starts with the commitment. -/
theorem commitment_challengeInput : (challengeInput mem sm sk r).bytes sm 32 = r.toList := by
  rw [challengeInput, Mem.bytes_write_of_disjoint (Disjoint.of_le_self le_rfl), Mem.bytes_writeVec]

/-- The message behind it is as it was. -/
theorem message_challengeInput :
    (challengeInput mem sm sk r).bytes (sm + 64) l = mem.bytes (sm + 64) l := by
  rw [challengeInput, Mem.bytes_write_of_disjoint (Disjoint.of_le le_rfl).symm, Mem.writeVec,
    Mem.bytes_write_of_disjoint (Disjoint.of_le_self (by norm_num)).symm]

/-- The bytes that the challenge is the hash of. -/
theorem bytes_challengeInput (hdisjoint : Disjoint (sk + 32) 32 sm (l + 64)) :
    (challengeInput mem sm sk r).bytes sm (l + 64) =
      r.toList ++ mem.bytes (sk + 32) 32 ++ mem.bytes (sm + 64) l := by
  have hkey : (challengeInput mem sm sk r).bytes (sm + 32) 32 = mem.bytes (sk + 32) 32 := by
    rw [challengeInput, Mem.bytes_write_copy]
    exact Mem.bytes_write_of_disjoint (hdisjoint.mono le_rfl (by omega))
  rw [bytes_signed, commitment_challengeInput, hkey, message_challengeInput]

/-- The copies that build them run. -/
theorem challengeInput_runs (hsm : mem.Valid sm (l + 64)) (hsk : mem.Valid (sk + 32) 32)
    (hdisjoint : Disjoint (sk + 32) 32 sm (l + 64))
    (hrest : Runs rest (challengeInput mem sm sk r) a mem') :
    Runs (do
      storeVec sm r
      copy (sm + 32) (sk + 32) 32
      rest) mem a mem' := by
  have hvalid : (mem.writeVec sm r).Valid (sm + 32) 32 := hsm.add (by omega)
  have hcopy := Runs.copy hvalid (hsk : (mem.writeVec sm r).Valid (sk + 32) 32)
    (hdisjoint.add_right (by omega))
  exact (Runs.storeVec (hsm.mono (by omega)) r).bind (hcopy.bind hrest)

end Stages

/-- `crypto_sign` writes the signed message. -/
theorem cryptoSign_runs (h : SignBuffers mem sm mlen m sk n.toNat) (hn : n ≤ sizeMax - 64) :
    ∃ mem', Runs (cryptoSign hash (some sm) (some mlen) (some m) n (some sk)) mem 0 mem' ∧
      (mem.writeU64 mlen (n + 64)).Frame mem' sm (n.toNat + 64) ∧
      mem'.bytes sm (n.toNat + 64) =
        signedMessage hash (mem.bytes sk 32) (mem.bytes (sk + 32) 32) (mem.bytes m n.toNat) := by
  obtain ⟨l, hl⟩ : ∃ l, l = n.toNat := ⟨_, rfl⟩
  have hl32 : (n + 32).toNat = l + 32 := hl ▸ toNat_add_of_le hn (by norm_num)
  have hl64 : (n + 64).toNat = l + 64 := hl ▸ toNat_add_of_le hn le_rfl
  rw [← hl] at h ⊢
  obtain ⟨mem₁, hmem₁⟩ : ∃ mem₁, mem₁ = mem.writeU64 mlen (n + 64) := ⟨_, rfl⟩
  have hframe : mem.Frame mem₁ mlen 8 := hmem₁ ▸ mem.frame_writeU64 mlen (n + 64)
  have hmsg := hframe.bytes_of_disjoint h.m_mlen
  have hpk := hframe.bytes_of_disjoint (h.sk_mlen.add_left (by norm_num : 32 + 32 ≤ 64))
  have hsm := hframe.valid h.valid_sm
  have hsk := (hframe.valid h.valid_sk).add (by norm_num : 32 + 32 ≤ 64)
  have hskpk := h.sk_sm.add_left (by norm_num : 32 + 32 ≤ 64)
  rw [← hmem₁]
  -- the inputs of the hashes for the nonce and for the challenge, and the response
  obtain ⟨d, hd⟩ : ∃ d, d = expandSeed hash (mem.bytes sk 32) := ⟨_, rfl⟩
  obtain ⟨r, hr⟩ : ∃ r, r = nonce hash (mem.bytes sk 32) (mem.bytes m l) := ⟨_, rfl⟩
  obtain ⟨s, hs⟩ : ∃ s, s = response hash (mem.bytes sk 32) (mem.bytes (sk + 32) 32)
    (mem.bytes m l) := ⟨_, rfl⟩
  obtain ⟨mem₂, hmem₂⟩ : ∃ mem₂, mem₂ = nonceInput mem₁ sm m l d := ⟨_, rfl⟩
  obtain ⟨mem₃, hmem₃⟩ : ∃ mem₃, mem₃ = challengeInput mem₂ sm sk (pack (scalarbase (low32 r))) :=
    ⟨_, rfl⟩
  have hframe₂ : mem₁.Frame mem₂ sm (l + 64) := hmem₂ ▸ frame_nonceInput mem₁ sm m l d
  have hframe₃ : mem₁.Frame mem₃ sm (l + 64) :=
    hframe₂.trans (hmem₃ ▸ frame_challengeInput mem₂ sm sk l _)
  have hnonce : mem₂.bytes (sm + 32) (l + 32) = d.toList.drop 32 ++ mem.bytes m l := by
    rw [hmem₂, bytes_nonceInput, hmsg]
  have hmsg₂ : mem₂.bytes (sm + 64) l = mem.bytes m l := by rw [hmem₂, message_nonceInput, hmsg]
  have hmsg₃ : mem₃.bytes (sm + 64) l = mem.bytes m l := by
    rw [hmem₃, message_challengeInput, hmsg₂]
  have hchallenge : mem₃.bytes sm (l + 64) =
      (pack (scalarbase (low32 r))).toList ++ mem.bytes (sk + 32) 32 ++ mem.bytes m l := by
    rw [hmem₃, bytes_challengeInput hskpk, hframe₂.bytes_of_disjoint hskpk, hpk, hmsg₂]
  refine ⟨mem₃.writeVec (sm + 32) s, ?_, hframe₃.write_add (by omega), ?_⟩
  · have hstore := Runs.storeU64 h.valid_mlen (n + 64)
    have hhash := hashOf_runs hash (h.valid_sk.mono (by norm_num : 32 ≤ 64))
    have hhash₂ := hashOf_runs hash (hframe₂.valid (hsm.add (by omega : 32 + (l + 32) ≤ l + 64)))
    have hhash₃ := hashOf_runs hash (hframe₃.valid hsm)
    have hend := Runs.storeVec (hframe₃.valid (hsm.add (by omega : 32 + 32 ≤ l + 64))) s
    rw [← hmem₁] at hstore
    rw [hnonce] at hhash₂
    rw [hchallenge] at hhash₃
    simp only [cryptoSign, if_neg (UInt64.not_lt.mpr hn), hl32, hl64, ← hl]
    refine hhash.bind (hstore.bind (nonceInput_runs hsm (hframe.valid h.valid_m) h.m_sm ?_))
    rw [← expandSeed, ← hd, ← hmem₂]
    refine hhash₂.bind ?_
    rw [hd, ← nonce, ← hr, ← hd]
    refine challengeInput_runs (hframe₂.valid hsm) (hframe₂.valid hsk) hskpk ?_
    rw [← hmem₃]
    subst hd hr hs
    exact hhash₃.bind (hend.bind (Runs.pure _ _))
  · have hcommitment : mem₃.bytes sm 32 = (pack (scalarbase (low32 r))).toList := by
      rw [hmem₃, commitment_challengeInput]
    rw [bytes_signed_writeVec, hcommitment, hmsg₃, hr, hs, signedMessage, commitment]

/-- The buffers of `crypto_sign_open`, with a signed message of `n` bytes. -/
structure OpenBuffers (mem : Mem) (m mlen sm pk : Addr) (n : ℕ) : Prop where
  valid_m : mem.Valid m n
  valid_mlen : mem.Valid mlen 8
  valid_sm : mem.Valid sm n
  valid_pk : mem.Valid pk 32
  sm_m : Disjoint sm n m n
  pk_m : Disjoint pk 32 m n
  m_mlen : Disjoint m n mlen 8

/-- What the buffer of the message holds when its hash is taken. -/
theorem cryptoSignOpen_input {l : ℕ} (mem mem₁ : Mem) (m sm : Addr) (f : ℕ → UInt8)
    (h : mem₁.bytes m (l + 64) = mem.bytes sm (l + 64)) :
    (mem₁.write (m + 32) 32 f).bytes m (l + 64) =
      mem.bytes sm 32 ++ (List.ofFn fun i : Fin 32 => f i.val) ++ mem.bytes (sm + 64) l := by
  rw [bytes_signed, bytes_signed mem] at h
  obtain ⟨hleft, hbody⟩ := List.append_inj' h (by simp)
  obtain ⟨hhead, -⟩ := List.append_inj' hleft (by simp)
  rw [bytes_signed_write, hhead, hbody]

/-- A byte of the scratch copy of the signed message: the public key stands in place of `S`. -/
def openScratch (mem : Mem) (sm pk : Addr) (i : ℕ) : UInt8 :=
  if 32 ≤ i ∧ i < 64 then mem.byte (pk + (i - 32)) else mem.byte (sm + i)

/-- The scratch copy, byte by byte. -/
theorem byte_openScratch {mem₁ : Mem} {l i : ℕ} (hframe : mem.Frame mem₁ m l)
    (hcopy : mem₁ = mem.write m l fun i => mem.byte (sm + i)) (hpk : Disjoint pk 32 m l)
    (hi : i < l) :
    (mem₁.write (m + 32) 32 fun i => mem₁.byte (pk + i)).byte
      (m + i) = openScratch mem sm pk i := by
  rw [openScratch]
  split
  next hkey =>
    have haddr : m + i = m + 32 + (i - 32) := by rw [Addr.add_add, Nat.add_sub_cancel' hkey.1]
    rw [haddr, Mem.write_byte (by omega)]
    exact hframe.byte_of_disjoint hpk (by omega)
  next hbody =>
    have hne : ∀ j < 32, m + i ≠ m + 32 + j := fun j hj h => by
      rw [Addr.add_add, Addr.add_inj] at h
      omega
    rw [Mem.write_byte_of_ne hne, hcopy, Mem.write_byte hi]

/-- The mask of `crypto_sign_open` keeps a byte if the commitments agree and clears it otherwise. -/
theorem openMask_eq (a t : Vector UInt8 32) (src : UInt8) :
    src &&& ~~~(-(if vn a t ≠ 0 then 1 else 0)) = if a = t then src else 0 := by
  by_cases h : a = t
  · rw [vn_eq, if_pos h, if_pos h]
    simp
  · rw [vn_eq, if_neg h, if_neg h]
    revert src
    exact MachineInt.forall_byte (by decide +kernel)

section OpenStages

variable {α : Type} {rest : Exec α} {a : α} {l : ℕ} {r t : Vector UInt8 32}

/-- The memory when the challenge is hashed: the scratch copy is in the buffer of the message. -/
def openInput (mem : Mem) (m sm pk : Addr) (l : ℕ) : Mem :=
  let copied := mem.write m (l + 64) fun i => mem.byte (sm + i)
  copied.write (m + 32) 32 fun i => copied.byte (pk + i)

/-- An opening builds its hash input inside the output buffer. -/
theorem frame_openInput (mem : Mem) (m sm pk : Addr) (l : ℕ) :
    mem.Frame (openInput mem m sm pk l) m (l + 64) := by
  rw [openInput]
  exact (mem.frame_write m (l + 64) _).write_add (by omega)

/-- The bytes of that input. -/
theorem byte_openInput (hpk : Disjoint pk 32 m (l + 64)) {i : ℕ} (hi : i < l + 64) :
    (openInput mem m sm pk l).byte (m + i) = openScratch mem sm pk i :=
  byte_openScratch (mem.frame_write m (l + 64) _) rfl hpk hi

/-- The whole input: commitment, public key and message. -/
theorem bytes_openInput (hpk : Disjoint pk 32 m (l + 64)) :
    (openInput mem m sm pk l).bytes m (l + 64) = mem.bytes sm 32 ++ mem.bytes pk 32 ++ mem.bytes
      (sm + 64) l := by
  rw [openInput, cryptoSignOpen_input mem _ m sm _ (Mem.bytes_write_copy mem mem m sm (l + 64)),
    ← (mem.frame_write m (l + 64) fun i => mem.byte (sm + i)).bytes_of_disjoint hpk]
  rfl

/-- The copies that build it run. -/
theorem openInput_runs (h : OpenBuffers mem m mlen sm pk (l + 64))
    (hrest : Runs rest (openInput mem m sm pk l) a mem') :
    Runs (do
      copy m sm (l + 64)
      copy (m + 32) pk 32
      rest) mem a mem' := by
  have hframe := mem.frame_write m (l + 64) fun i => mem.byte (sm + i)
  have hkey := Runs.copy (hframe.valid (h.valid_m.add (by omega : 32 + 32 ≤ l + 64)))
    (hframe.valid h.valid_pk) (h.pk_m.add_right (by omega))
  exact (Runs.copy h.valid_m h.valid_sm h.sm_m).bind (hkey.bind hrest)

/-- The memory after the message has been moved or cleared. -/
def openOutput (mem : Mem) (m sm : Addr) (l : ℕ) (accepted : Bool) : Mem :=
  mem.write m l fun i => if accepted then mem.byte (sm + 64 + i) else 0

/-- The output is the message if it is accepted and zero bytes if not. -/
theorem bytes_openOutput (accepted : Bool) : (openOutput mem m sm l accepted).bytes m l =
    if accepted then mem.bytes (sm + 64) l else List.replicate l 0 := by
  rw [openOutput, Mem.bytes_write le_rfl]
  cases accepted with
  | true => rfl
  | false => exact List.ofFn_const l 0

/-- The last loop of `crypto_sign_open`, and the length it stores for the commitment `r` and the
recovered one. -/
theorem openOutput_runs (hm : mem.Valid m l) (hsm : mem.Valid (sm + 64) l)
    (hmlen : mem.Valid mlen 8) (hdisjoint : Disjoint (sm + 64) l m l) (r t : Vector UInt8 32)
    (v : UInt64) :
    Runs (do
      forN l fun i => do
        let src ← load (sm + 64 + i)
        store (m + i) (src &&& ~~~(-(if vn r t ≠ 0 then 1 else 0)))
      if (if vn r t ≠ 0 then (1 : UInt8) else 0) = 0 then do
        storeU64 mlen v
        pure 0
      else do
        storeU64 mlen 0
        pure (-1)) mem (if r = t then 0 else -1 : Int32)
      ((openOutput mem m sm l (decide (r = t))).writeU64 mlen (if r = t then v else 0)) := by
  have hmove := Runs.transform hm hsm (fun _ src => src &&& ~~~(-(if vn r t ≠ 0 then 1 else 0)))
    fun j hj i hi => hdisjoint j hj i (by omega)
  refine hmove.bind ?_
  simp only [openMask_eq]
  by_cases hacc : r = t
  · simp only [hacc, vn_eq, if_true, ne_eq, not_true, if_false, openOutput, decide_true]
    exact (Runs.storeU64 (Mem.valid_write.mpr hmlen) v).bind (Runs.pure _ _)
  · simp only [hacc, vn_eq, if_false, openOutput, decide_false]
    exact (Runs.storeU64 (Mem.valid_write.mpr hmlen) 0).bind (Runs.pure _ _)

end OpenStages

/-- `crypto_sign_open` compares the commitment with the recovered one, and moves the message if they
agree. The last 64 bytes of the buffer keep what the scratch copy put there. -/
theorem cryptoSignOpen_writes (h : OpenBuffers mem m mlen sm pk n.toNat) (hn : 64 ≤ n)
    (hn' : n ≤ sizeMax - 64) {q : GfPoint} (hq : unpackneg (mem.vec pk 32) = some q)
    {t : Vector UInt8 32} (ht : t = recovered hash q (mem.vec sm 32) (mem.vec (sm + 32) 32)
      (mem.bytes pk 32) (mem.bytes (sm + 64) (n.toNat - 64))) :
    ∃ mem', Runs (cryptoSignOpen hash (some m) (some mlen) (some sm) n (some pk)) mem
        (if mem.vec sm 32 = t then 0 else -1)
        (mem'.writeU64 mlen (if mem.vec sm 32 = t then n - 64 else 0)) ∧
      mem.Frame mem' m n.toNat ∧
      mem'.bytes m (n.toNat - 64) =
        (if mem.vec sm 32 = t then mem.bytes (sm + 64) (n.toNat - 64) else List.replicate
          (n.toNat - 64) 0) ∧
      ∀ i < n.toNat, n.toNat - 64 ≤ i → mem'.byte (m + i) = openScratch mem sm pk i := by
  obtain ⟨l, hl⟩ : ∃ l, n.toNat = l + 64 := ⟨n.toNat - 64, (Nat.sub_add_cancel hn).symm⟩
  have hl64 : (n - 64).toNat = l := by
    rw [UInt64.toNat_sub_of_le _ _ hn, hl]
    rfl
  rw [hl] at h ht ⊢
  rw [Nat.add_sub_cancel] at ht ⊢
  obtain ⟨mem₁, hmem₁⟩ : ∃ mem₁, mem₁ = openInput mem m sm pk l := ⟨_, rfl⟩
  have hframe : mem.Frame mem₁ m (l + 64) := hmem₁ ▸ frame_openInput mem m sm pk l
  have hinput : mem₁.bytes m (l + 64) = mem.bytes sm 32 ++ mem.bytes pk 32 ++ mem.bytes
      (sm + 64) l :=
    hmem₁ ▸ bytes_openInput h.pk_m
  have hsource : Disjoint (sm + 64) l m (l + 64) := h.sm_m.add_left (by omega)
  have hr := hframe.vec_of_disjoint (h.sm_m.mono (by omega : 32 ≤ l + 64) le_rfl)
  have hs := hframe.vec_of_disjoint (h.sm_m.add_left (by omega : 32 + 32 ≤ l + 64))
  refine ⟨openOutput mem₁ m sm l (decide (mem.vec sm 32 = t)), ?_, hframe.write (by omega), ?_,
    fun i hi hli => ?_⟩
  · have hkey := Runs.loadVec h.valid_pk
    have hhash := hashOf_runs hash (hframe.valid h.valid_m)
    have hresponse := Runs.loadVec (hframe.valid (h.valid_sm.add (by omega : 32 + 32 ≤ l + 64)))
    have hcommitment := Runs.loadVec (hframe.valid (h.valid_sm.mono (by omega : 32 ≤ l + 64)))
    have hend := openOutput_runs (hframe.valid (h.valid_m.mono (by omega : l ≤ l + 64)))
      (hframe.valid (h.valid_sm.add (by omega : 64 + l ≤ l + 64))) (hframe.valid h.valid_mlen)
      (hsource.mono le_rfl (by omega)) (mem.vec sm 32) t (n - 64)
    rw [hinput] at hhash
    rw [hs] at hresponse
    rw [hr] at hcommitment
    simp only [cryptoSignOpen, if_neg (UInt64.not_lt.mpr hn'), if_neg (UInt64.not_lt.mpr hn)]
    refine hkey.bind ?_
    simp only [hq, signOpenBody, hl, hl64]
    refine openInput_runs h ?_
    rw [← hmem₁]
    refine hhash.bind (hresponse.bind (hcommitment.bind ?_))
    rw [ht, recovered, challenge, Mem.toList_vec] at hend ⊢
    exact hend
  · rw [bytes_openOutput, hframe.bytes_of_disjoint hsource]
    simp only [decide_eq_true_eq]
  · have hne : ∀ j < l, m + i ≠ m + j := fun j hj heq => by
      rw [Addr.add_inj] at heq
      omega
    rw [openOutput, Mem.write_byte_of_ne hne, hmem₁]
    exact byte_openInput h.pk_m hi

/-- The result of `crypto_sign_open`, and what its outputs hold. -/
theorem cryptoSignOpen_runs (h : OpenBuffers mem m mlen sm pk n.toNat) (hn : 64 ≤ n)
    (hn' : n ≤ sizeMax - 64) {q : GfPoint} (hq : unpackneg (mem.vec pk 32) = some q)
    {t : Vector UInt8 32} (ht : t = recovered hash q (mem.vec sm 32) (mem.vec (sm + 32) 32)
      (mem.bytes pk 32) (mem.bytes (sm + 64) (n.toNat - 64))) :
    ∃ mem', Runs (cryptoSignOpen hash (some m) (some mlen) (some sm) n (some pk)) mem
        (if mem.vec sm 32 = t then 0 else -1) mem' ∧
      mem'.size = mem.size ∧ mem'.fresh = mem.fresh ∧
      mem'.u64 mlen = (if mem.vec sm 32 = t then n - 64 else 0) ∧
      mem'.bytes m (n.toNat - 64) =
        (if mem.vec sm 32 = t then mem.bytes (sm + 64) (n.toNat - 64) else List.replicate
          (n.toNat - 64) 0) := by
  obtain ⟨mem', hrun, hframe, hbytes, -⟩ := cryptoSignOpen_writes hash h hn hn' hq ht
  refine ⟨_, hrun, hframe.size, hframe.fresh, Mem.u64_writeU64 _ _ _, ?_⟩
  rw [(mem'.frame_writeU64 mlen _).bytes_of_disjoint
    (h.m_mlen.mono (Nat.sub_le _ _) le_rfl), hbytes]

/-- `crypto_sign_open` leaves the memory alone when it refuses the lengths or the key. -/
theorem cryptoSignOpen_refuses (hpk : mem.Valid pk 32)
    (h : sizeMax - 64 < n ∨ n < 64 ∨ unpackneg (mem.vec pk 32) = none) :
    Runs (cryptoSignOpen hash (some m) (some mlen) (some sm) n (some pk)) mem (-1) mem := by
  by_cases hmax : n > sizeMax - 64
  · simp only [cryptoSignOpen, if_pos hmax]
    exact Runs.pure _ _
  · by_cases hmin : n < 64
    · simp only [cryptoSignOpen, if_neg hmax, if_pos hmin]
      exact Runs.pure _ _
    · have hkey := (h.resolve_left hmax).resolve_left hmin
      simp only [cryptoSignOpen, if_neg hmax, if_neg hmin]
      refine (Runs.loadVec hpk).bind ?_
      rw [hkey]
      exact Runs.pure _ _

/-- `crypto_sign_open` copies the whole signed message to `m`, beyond the end of a smaller
buffer. -/
theorem cryptoSignOpen_overflows (hn : 64 ≤ n) (hn' : n ≤ sizeMax - 64) (hsm : mem.Valid sm n.toNat)
    (hpk : mem.Valid pk 32) (hsm_m : Disjoint sm n.toNat m n.toNat) {q : GfPoint}
    (hq : unpackneg (mem.vec pk 32) = some q) {c : ℕ} (hc : c < n.toNat)
    (hsize : mem.size m.obj = m.off + c) :
    Faults (cryptoSignOpen hash (some m) (some mlen) (some sm) n (some pk)) mem
      (.store (m + c)) := by
  simp only [cryptoSignOpen, if_neg (UInt64.not_lt.mpr hn'), if_neg (UInt64.not_lt.mpr hn)]
  refine Faults.bind_right (Runs.loadVec hpk) ?_
  rw [hq]
  exact (Faults.copy hsm hsm_m hc hsize).bind_left

end Runs

end TweetNacl
