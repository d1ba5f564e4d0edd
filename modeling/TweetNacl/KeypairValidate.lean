import TweetNacl.Curve25519
import TweetNacl.Fips1865

/-!
# The validated key generation

`nacl_keypair_validate` is documented for Ed25519 key pairs, and recomputes the public key of an
X25519 key pair. `nacl_keypair_generate_validated` generates X25519 key pairs, writes the first half
of its 64-byte secret key, and counts a success of its last attempt as a failure. The answers of the
random number generator, one for each attempt, are a parameter.
-/

namespace TweetNacl

open Memory Limbs Ed25519 Edwards Montgomery

section Code

/-- `crypto_box_keypair`. -/
def cryptoBoxKeypair (rng : RngAnswer 32) (y x : Ptr) : Exec Int32 :=
  match y, x with
  | some y, some x => do
    let ret ← randombytesSafe rng x
    if ret ≠ 0 then pure (-1)
    else cryptoScalarmultBase (some y) (some x)
  | _, _ => pure (-1)

/-- `nacl_keypair_validate`. -/
def naclKeypairValidate (pk sk : Ptr) : Exec Int32 :=
  match pk, sk with
  | some pk, some sk => withLocal 32 fun testPk => do
    let _ ← cryptoScalarmultBase (some testPk) (some sk)
    let x ← loadVec testPk 32
    let y ← loadVec pk 32
    pure (if secureMemcmp x y = 0 then 0 else -1)
  | _, _ => pure (-1)

/-- `max_attempts`. -/
def maxAttempts : ℕ := 3

/-- The loop of `nacl_keypair_generate_validated` after some attempts, with the validation of each
attempt as a parameter. Every attempt that is followed by another one uses fuel. -/
def generateLoop (validate : ℕ → Exec Int32) (rng : ℕ → RngAnswer 32) (pk sk : Ptr) :
    ℕ → ℕ → Exec Int32
  | 0, _ => pure (-1)
  | fuel + 1, attempts => do
    let ret ← cryptoBoxKeypair (rng attempts) pk sk
    if ret ≠ 0 then pure (-1)
    else do
      let invalid ← validate attempts
      if invalid ≠ 0 ∧ attempts + 1 < maxAttempts then
        generateLoop validate rng pk sk fuel (attempts + 1)
      else pure (if attempts + 1 < maxAttempts then 0 else -1)

/-- `nacl_keypair_generate_validated`, with the validation of each attempt as a parameter. -/
def generateValidatedWith (validate : ℕ → Exec Int32) (rng : ℕ → RngAnswer 32) (pk sk : Ptr) :
    Exec Int32 :=
  match pk, sk with
  | some pk, some sk => generateLoop validate rng (some pk) (some sk) maxAttempts 0
  | _, _ => pure (-1)

/-- `nacl_keypair_generate_validated`. -/
def naclKeypairGenerateValidated (rng : ℕ → RngAnswer 32) (pk sk : Ptr) : Exec Int32 :=
  generateValidatedWith (fun _ => naclKeypairValidate pk sk) rng pk sk

end Code

section Validation

variable {mem : Mem} {pk sk : Addr}

/-- The validation compares with the X25519 public key, and leaves the memory alone. -/
theorem naclKeypairValidate_runs (hpk : mem.Valid pk 32) (hsk : mem.Valid sk 32) :
    Runs (naclKeypairValidate (some pk) (some sk)) mem
      (if scalarmultBytes (mem.vec sk 32) basePoint9 = mem.vec pk 32 then 0 else -1) mem := by
  obtain ⟨mem₁, hmem₁⟩ : ∃ mem₁, mem₁ =
      (mem.alloc 32).writeVec ⟨mem.fresh, 0⟩ (scalarmultBytes (mem.vec sk 32) basePoint9) :=
      ⟨_, rfl⟩
  have hframe : (mem.alloc 32).Frame mem₁ ⟨mem.fresh, 0⟩ 32 := hmem₁ ▸ Mem.frame_writeVec _ _ _
  have hkeeps : mem.Keeps mem₁ := (Mem.keeps_alloc mem 32).frame hframe le_rfl
  have hbase := cryptoScalarmultBase_runs (mem.valid_alloc 32) (hsk.alloc 32)
  have hload := Runs.loadVec (hframe.valid (mem.valid_alloc 32))
  have hload' := Runs.loadVec (hframe.valid (hpk.alloc 32))
  have hcompare : ∀ x y : Vector UInt8 32, (if secureMemcmp x y = 0 then (0 : Int32) else -1) =
      if x = y then 0 else -1 :=
    fun x y => if_congr (secureMemcmp_eq_zero x y) rfl rfl
  rw [show (mem.alloc 32).vec sk 32 = mem.vec sk 32 from rfl, ← hmem₁] at hbase
  rw [hmem₁, Mem.vec_writeVec, ← hmem₁] at hload
  rw [hframe.vec_of_disjoint (hpk.disjoint_fresh le_rfl 32)] at hload'
  simp only [naclKeypairValidate, ← hcompare]
  refine (congrArg (Runs _ mem _) hkeeps.release).mp (Runs.withLocal ?_)
  exact hbase.bind (hload.bind (hload'.bind (Runs.pure _ _)))

end Validation

section KeyGeneration

variable (hash : List UInt8 → Vector UInt8 64) (seed : Vector UInt8 32)

/-- The validation accepts the key pair of a seed, and with its secret key no other public key. -/
structure AgreesWithKeygen : Prop where
  accepts : ∀ {mem mem' : Mem} {pk sk : Addr}, mem.Valid pk 32 → mem.Valid sk 64 →
    Disjoint pk 32 sk 64 →
    Runs (cryptoSignKeypair hash ⟨0, seed⟩ (some pk) (some sk)) mem 0 mem' →
    Runs (naclKeypairValidate (some pk) (some sk)) mem' 0 mem'
  rejects : ∀ {mem mem' : Mem} {pk sk q : Addr} {pk' : Vector UInt8 32}, mem.Valid pk 32 →
    mem.Valid sk 64 →
    Disjoint pk 32 sk 64 → Runs (cryptoSignKeypair hash ⟨0, seed⟩ (some pk) (some sk)) mem 0 mem' →
    mem.Valid q 32 → Disjoint sk 64 q 32 → pk' ≠ mem'.vec pk 32 →
    Runs (naclKeypairValidate (some q) (some sk)) (mem'.writeVec q pk') (-1) (mem'.writeVec q pk')

/-- The point of the Ed25519 public key of a seed. -/
def keyPoint : EdPoint := leNat (low32 (expandSeed hash seed.toList)) • B

/-- The two public keys of a seed are the same bytes: `x` of the Edwards point is even, and `y` is
the coordinate of the multiple of the Montgomery base point by the clamped seed itself. -/
theorem scalarmultBytes_eq_publicKey_iff :
    scalarmultBytes seed basePoint9 = publicKey hash seed.toList ↔
      (keyPoint hash seed).x.val % 2 = 0 ∧
        (keyPoint hash seed).y = xCoord (decodeScalar25519 seed • basePoint) := by
  obtain ⟨u, hu⟩ : ∃ u, u = xCoord (decodeScalar25519 seed • basePoint) := ⟨_, rfl⟩
  have hbytes : leNat (scalarmultBytes seed basePoint9) = u.val := by
    have h := leInt_scalarmultBytes seed basePoint9
    rw [x25519_basePoint9, ← hu, ← leNat_cast] at h
    exact Int.ofNat_inj.mp h
  have hlow := val_lt u
  have hlow' := val_lt (keyPoint hash seed).y
  rw [← leNat_injective.eq_iff, hbytes, leNat_publicKey, encode, ← hu]
  constructor
  · intro h
    have hparity : (keyPoint hash seed).x.val % 2 = 0 := by
      rw [keyPoint]
      omega
    refine ⟨hparity, ZMod.val_injective _ ?_⟩
    rw [keyPoint] at hparity ⊢
    omega
  · rintro ⟨hparity, rfl⟩
    rw [keyPoint] at hparity ⊢
    omega

variable {hash seed}

/-- What is in memory after `crypto_sign_keypair`. -/
theorem keypair_memory {mem mem' : Mem} {pk sk : Addr} (hpk : mem.Valid pk 32)
    (hsk : mem.Valid sk 64) (hdisjoint : Disjoint pk 32 sk 64)
    (hrun : Runs (cryptoSignKeypair hash ⟨0, seed⟩ (some pk) (some sk)) mem 0 mem') :
    mem'.vec sk 32 = seed ∧ mem'.vec pk 32 = publicKey hash seed.toList ∧ mem'.size = mem.size := by
  obtain ⟨mem'', hrun', hkey, hsize, -⟩ :=
    cryptoSignKeypair_runs hash (rfl : (⟨0, seed⟩ : RngAnswer 32).status = 0)
    hpk hsk hdisjoint
  obtain ⟨-, rfl⟩ := hrun.unique hrun'
  refine ⟨Vector.toList_inj.mp ?_, hkey.pk_eq, hsize⟩
  rw [Mem.toList_vec, hkey.secret]

/-- The validation agrees with the key generation exactly if the two public keys of the seed are the
same. -/
theorem agreesWithKeygen_iff_eq :
    AgreesWithKeygen hash seed ↔ scalarmultBytes seed basePoint9 = publicKey hash seed.toList := by
  constructor
  · intro h
    have hpk : (Mem.ofSizes [32, 64]).Valid ⟨0, 0⟩ 32 := by decide
    have hsk : (Mem.ofSizes [32, 64]).Valid ⟨1, 0⟩ 64 := by decide
    have hdisjoint : Disjoint ⟨0, 0⟩ 32 ⟨1, 0⟩ 64 := Disjoint.of_obj_ne (by decide) _ _
    obtain ⟨mem', hrun, -⟩ :=
      cryptoSignKeypair_runs hash (rfl : (⟨0, seed⟩ : RngAnswer 32).status = 0) hpk hsk
      hdisjoint
    obtain ⟨hseed, hkey, hsize⟩ := keypair_memory hpk hsk hdisjoint hrun
    have hvalidate :=
      naclKeypairValidate_runs (hpk.of_size hsize) ((hsk.mono (by norm_num)).of_size hsize)
    have hresult := (hvalidate.unique (h.accepts hpk hsk hdisjoint hrun)).1
    rw [hseed, hkey] at hresult
    by_contra hne
    rw [if_neg hne] at hresult
    exact absurd hresult (by decide)
  · intro heq
    refine ⟨fun {mem mem' pk sk} hpk hsk hdisjoint hrun => ?_,
      fun {mem mem' pk sk q pk'} hpk hsk hdisjoint hrun hq hqsk hne => ?_⟩
    · obtain ⟨hseed, hkey, hsize⟩ := keypair_memory hpk hsk hdisjoint hrun
      have hvalidate :=
        naclKeypairValidate_runs (hpk.of_size hsize) ((hsk.mono (by norm_num)).of_size hsize)
      rwa [hseed, hkey, if_pos heq] at hvalidate
    · obtain ⟨hseed, hkey, hsize⟩ := keypair_memory hpk hsk hdisjoint hrun
      have hsize' : (mem'.writeVec q pk').size = mem.size := by
        rw [Mem.writeVec, Mem.write_size, hsize]
      have hvalidate := naclKeypairValidate_runs (hq.of_size hsize')
        ((hsk.mono (by norm_num : 32 ≤ 64)).of_size hsize')
      have hsame : (mem'.writeVec q pk').vec sk 32 = mem'.vec sk 32 :=
        Mem.vec_write_of_disjoint (hqsk.mono (by norm_num) le_rfl)
      rwa [hsame, hseed, Mem.vec_writeVec, heq, ← hkey, if_neg hne.symm] at hvalidate

/-- The validation agrees with the key generation for the seeds whose Ed25519 public key happens to
be the X25519 public key of the same bytes. -/
theorem agreesWithKeygen_iff (hash : List UInt8 → Vector UInt8 64) (seed : Vector UInt8 32) :
    AgreesWithKeygen hash seed ↔
      (keyPoint hash seed).x.val % 2 = 0 ∧
        (keyPoint hash seed).y = xCoord (decodeScalar25519 seed • basePoint) := by
  rw [agreesWithKeygen_iff_eq, scalarmultBytes_eq_publicKey_iff]

end KeyGeneration

section Generation

variable {mem : Mem} {pk sk : Addr} {rng : ℕ → RngAnswer 32} {outcome : ℕ → Int32}

/-- The pair of an attempt validates, and the random number generator did not fail before. -/
def Validates (rng : ℕ → RngAnswer 32) (outcome : ℕ → Int32) (i : ℕ) : Prop :=
  (∀ j ≤ i, (rng j).status = 0) ∧ outcome i = 0

/-- The buffers of the key generation. -/
structure KeypairBuffers (mem : Mem) (pk sk : Addr) : Prop where
  valid_pk : mem.Valid pk 32
  valid_sk : mem.Valid sk 64
  pk_sk : Disjoint pk 32 sk 64

/-- `crypto_box_keypair` writes the public key and the first half of `sk`. -/
theorem cryptoBoxKeypair_runs (h : KeypairBuffers mem pk sk) {answer : RngAnswer 32}
    (hrng : answer.status = 0) :
    ∃ mem', Runs (cryptoBoxKeypair answer (some pk) (some sk)) mem 0 mem' ∧
      mem'.vec sk 32 = answer.bytes ∧ mem'.vec pk 32 = scalarmultBytes answer.bytes basePoint9 ∧
      mem'.bytes (sk + 32) 32 = mem.bytes (sk + 32) 32 ∧ mem'.size = mem.size := by
  have hlow : Disjoint sk 32 pk 32 := h.pk_sk.symm.mono (by norm_num) le_rfl
  have hrandom : Runs (randombytesSafe answer sk) mem answer.status
      (mem.writeVec sk answer.bytes) :=
    (Runs.storeVec (h.valid_sk.mono (by norm_num)) _).bind (Runs.pure _ _)
  have hbase := cryptoScalarmultBase_runs (m := mem.writeVec sk answer.bytes) h.valid_pk
    (h.valid_sk.mono (by norm_num : 32 ≤ 64))
  rw [hrng] at hrandom
  rw [Mem.vec_writeVec] at hbase
  refine ⟨_, hrandom.bind hbase, ?_, Mem.vec_writeVec _ _ _, ?_, rfl⟩
  · rw [Mem.writeVec, Mem.vec_write_of_disjoint hlow, Mem.vec_writeVec]
  · rw [Mem.writeVec, Mem.bytes_write_of_disjoint (h.pk_sk.add_right (by norm_num)).symm,
      Mem.writeVec, Mem.bytes_write_of_disjoint (Disjoint.of_le_self le_rfl).symm]

/-- Without random bytes `crypto_box_keypair` fails and leaves them in the first half of `sk`. -/
theorem cryptoBoxKeypair_fails (hsk : mem.Valid sk 64) {answer : RngAnswer 32}
    (hrng : answer.status ≠ 0) :
    Runs (cryptoBoxKeypair answer (some pk) (some sk)) mem (-1) (mem.writeVec sk answer.bytes) := by
  have hrandom : Runs (randombytesSafe answer sk) mem answer.status
      (mem.writeVec sk answer.bytes) :=
    (Runs.storeVec (hsk.mono (by norm_num)) _).bind (Runs.pure _ _)
  refine hrandom.bind ?_
  rw [if_pos hrng]
  exact Runs.pure _ _

/-- From an attempt on, a pair validates before the last attempt. -/
def Succeeds (rng : ℕ → RngAnswer 32) (outcome : ℕ → Int32) (attempts : ℕ) : Prop :=
  ∃ i, attempts ≤ i ∧ i + 1 < maxAttempts ∧ (∀ j, attempts ≤ j → j ≤ i → (rng j).status = 0) ∧
    outcome i = 0

/-- A success needs random bytes for its first attempt. -/
theorem Succeeds.status {attempts : ℕ} (h : Succeeds rng outcome attempts) :
    (rng attempts).status = 0 := by
  obtain ⟨i, hi, -, hok, -⟩ := h
  exact hok attempts le_rfl hi

/-- A success comes before the last attempt. -/
theorem Succeeds.lt {attempts : ℕ} (h : Succeeds rng outcome attempts) :
    attempts + 1 < maxAttempts := by
  obtain ⟨i, hi, hi', -⟩ := h
  omega

/-- A success needs a pair that validates. -/
theorem Succeeds.validates (h : Succeeds rng outcome 0) :
    ∃ i < maxAttempts, Validates rng outcome i := by
  obtain ⟨i, -, hi, hok, hzero⟩ := h
  exact ⟨i, by omega, fun j hji => hok j (Nat.zero_le j) hji, hzero⟩

/-- The next attempt validates, or a later one. -/
theorem succeeds_iff {attempts : ℕ} (hrng : (rng attempts).status = 0) :
    Succeeds rng outcome attempts ↔
      outcome attempts = 0 ∧ attempts + 1 < maxAttempts ∨ Succeeds rng outcome (attempts + 1) := by
  constructor
  · rintro ⟨i, hi, hi', hok, hzero⟩
    rcases hi.eq_or_lt with rfl | hlt
    · exact Or.inl ⟨hzero, hi'⟩
    · exact Or.inr ⟨i, hlt, hi', fun j hj hji => hok j (by omega) hji, hzero⟩
  · rintro (⟨hzero, hlt⟩ | ⟨i, hi, hi', hok, hzero⟩)
    · exact ⟨attempts, le_rfl, hlt, fun j hj hji => Nat.le_antisymm hj hji ▸ hrng, hzero⟩
    · refine ⟨i, by omega, hi', fun j hj hji => ?_, hzero⟩
      rcases hj.eq_or_lt with rfl | hlt
      · exact hrng
      · exact hok j hlt hji

/-- The loop returns 0 exactly if a pair validates before the last attempt, and leaves the second
half of `sk` alone. -/
theorem generateLoop_runs (fuel attempts : ℕ) (hfuel : attempts + fuel = maxAttempts) (mem : Mem)
    (h : KeypairBuffers mem pk sk) :
    ∃ ret mem',
      Runs (generateLoop (fun i => pure (outcome i)) rng (some pk) (some sk) fuel attempts)
      mem ret mem' ∧
      (ret = 0 ↔ Succeeds rng outcome attempts) ∧
        mem'.bytes (sk + 32) 32 = mem.bytes (sk + 32) 32 := by
  induction fuel generalizing attempts mem with
  | zero => exact ⟨-1, mem,
      Runs.pure _ _, iff_of_false (by decide) fun hs => by have := hs.lt; omega, rfl⟩
  | succ fuel ih =>
    by_cases hrng : (rng attempts).status = 0
    · obtain ⟨mem₁, hrun, -, -, hhigh, hsize⟩ := cryptoBoxKeypair_runs h hrng
      have h₁ : KeypairBuffers mem₁ pk sk :=
        ⟨fun i hi => hsize ▸ h.valid_pk i hi, fun i hi => hsize ▸ h.valid_sk i hi, h.pk_sk⟩
      have hvalidate := Runs.pure (outcome attempts) mem₁
      rw [succeeds_iff hrng]
      by_cases hagain : outcome attempts ≠ 0 ∧ attempts + 1 < maxAttempts
      · obtain ⟨ret, mem', hrest, hret, hhigh'⟩ := ih (attempts + 1) (by omega) mem₁ h₁
        refine ⟨ret, mem', hrun.bind ?_, ?_, hhigh'.trans hhigh⟩
        · rw [if_neg (not_not.mpr rfl)]
          refine hvalidate.bind ?_
          rwa [if_pos hagain]
        · rw [hret]
          exact ⟨Or.inr, fun hs => hs.resolve_left fun hzero => hagain.1 hzero.1⟩
      · refine ⟨if attempts + 1 < maxAttempts then 0 else -1, mem₁, hrun.bind ?_, ?_, hhigh⟩
        · rw [if_neg (not_not.mpr rfl)]
          refine hvalidate.bind ?_
          rw [if_neg hagain]
          exact Runs.pure _ _
        · by_cases hlast : attempts + 1 < maxAttempts
          · rw [if_pos hlast]
            exact iff_of_true rfl (Or.inl ⟨by_contra fun hne => hagain ⟨hne, hlast⟩, hlast⟩)
          · rw [if_neg hlast]
            refine iff_of_false (by decide) ?_
            rintro (⟨-, hlt⟩ | hs)
            · exact hlast hlt
            · have := hs.lt
              omega
    · refine ⟨-1, mem.writeVec sk (rng attempts).bytes, ?_,
        iff_of_false (by decide) fun hs => hrng hs.status, ?_⟩
      · refine (cryptoBoxKeypair_fails h.valid_sk hrng).bind ?_
        rw [if_pos (by decide)]
        exact Runs.pure _ _
      · rw [Mem.writeVec, Mem.bytes_write_of_disjoint (Disjoint.of_le_self le_rfl).symm]

/-- Whatever the validation says, the loop returns 0 exactly on a success before the last
attempt. -/
theorem generateValidatedWith_runs (rng : ℕ → RngAnswer 32) (outcome : ℕ → Int32)
    (h : KeypairBuffers mem pk sk) :
    ∃ ret mem', Runs (generateValidatedWith (fun i => pure (outcome i)) rng (some pk) (some sk))
      mem ret mem' ∧
      (ret = 0 ↔ Succeeds rng outcome 0) ∧ mem'.bytes (sk + 32) 32 = mem.bytes (sk + 32) 32 :=
  generateLoop_runs maxAttempts 0 rfl mem h

/-- The first half of `sk` and `pk` become a key pair of X25519, which its validation accepts: the
function returns 0 after the first attempt, or −1 if the random number generator fails. -/
theorem naclKeypairGenerateValidated_runs (h : KeypairBuffers mem pk sk) :
    ∃ mem', Runs (naclKeypairGenerateValidated rng (some pk) (some sk))
      mem (if (rng 0).status = 0 then 0 else -1) mem' := by
  by_cases hrng : (rng 0).status = 0
  · obtain ⟨mem₁, hrun, hsk, hpk, -, hsize⟩ := cryptoBoxKeypair_runs h hrng
    have hpk' : mem₁.Valid pk 32 := fun i hi => hsize ▸ h.valid_pk i hi
    have hsk' : mem₁.Valid sk 32 := fun i hi => hsize ▸ h.valid_sk i (by omega)
    have hvalidate := naclKeypairValidate_runs hpk' hsk'
    rw [hsk, hpk, if_pos rfl] at hvalidate
    rw [if_pos hrng]
    refine ⟨mem₁, hrun.bind ?_⟩
    rw [if_neg (not_not.mpr rfl)]
    exact hvalidate.bind (Runs.pure _ _)
  · rw [if_neg hrng]
    refine ⟨mem.writeVec sk (rng 0).bytes, (cryptoBoxKeypair_fails h.valid_sk hrng).bind ?_⟩
    rw [if_pos (by decide)]
    exact Runs.pure _ _

/-- The function returns 0 exactly if one of the pairs it generates validates, and then `sk` has
been written, its second half is the public key, and what is signed with it is opened. -/
structure DeliversUsableKeys (hash : List UInt8 → Vector UInt8 64) (rng : ℕ → RngAnswer 32)
    (outcome : ℕ → Int32) :
    Prop where
  result : ∀ {mem mem' : Mem} {pk sk : Addr} {ret : Int32}, KeypairBuffers mem pk sk →
    Runs (generateValidatedWith (fun i => pure (outcome i)) rng (some pk) (some sk)) mem ret mem' →
    (ret = 0 ↔ ∃ i < maxAttempts, Validates rng outcome i)
  written : ∀ {mem₁ mem₁' mem₂ mem₂' : Mem} {pk sk : Addr}, KeypairBuffers mem₁ pk sk →
    KeypairBuffers mem₂ pk sk →
    Runs (generateValidatedWith (fun i => pure (outcome i)) rng (some pk) (some sk)) mem₁ 0 mem₁' →
    Runs (generateValidatedWith (fun i => pure (outcome i)) rng (some pk) (some sk)) mem₂ 0 mem₂' →
    mem₁'.bytes sk 64 = mem₂'.bytes sk 64
  public_key : ∀ {mem mem' : Mem} {pk sk : Addr}, KeypairBuffers mem pk sk →
    Runs (generateValidatedWith (fun i => pure (outcome i)) rng (some pk) (some sk)) mem 0 mem' →
    mem'.bytes (sk + 32) 32 = mem'.bytes pk 32
  signs : ∀ {mem mem' : Mem} {pk sk sm smlen m out outlen : Addr} {n : UInt64},
    KeypairBuffers mem pk sk →
    Runs (generateValidatedWith (fun i => pure (outcome i)) rng (some pk) (some sk)) mem 0 mem' →
    RoundTripBuffers mem pk sk sm smlen m out outlen n.toNat → n ≤ sizeMax - 128 →
    ∃ mem₁ mem₂, Runs (cryptoSign hash (some sm) (some smlen) (some m) n (some sk)) mem' 0 mem₁ ∧
      Runs (cryptoSignOpen hash (some out) (some outlen) (some sm) (mem₁.u64 smlen)
        (some pk)) mem₁ 0 mem₂

/-- What is delivered for a pair that validates is not usable: the second half of `sk` is not
written. -/
theorem not_deliversUsableKeys {hash : List UInt8 → Vector UInt8 64}
    (hsuccess : ∃ i < maxAttempts, Validates rng outcome i) :
    ¬ DeliversUsableKeys hash rng outcome := by
  intro h
  have hbuf : KeypairBuffers (Mem.ofSizes [32, 64]) ⟨0, 0⟩ ⟨1, 0⟩ :=
    ⟨by decide, by decide, Disjoint.of_obj_ne (by decide) _ _⟩
  obtain ⟨mem₂, hmem₂⟩ :
    ∃ mem₂, mem₂ = (Mem.ofSizes [32, 64]).write ((⟨1, 0⟩ : Addr) + 32) 1 fun _ => 1 := ⟨_, rfl⟩
  have hbuf₂ : KeypairBuffers mem₂ ⟨0, 0⟩ ⟨1, 0⟩ := by
    rw [hmem₂]
    exact ⟨hbuf.valid_pk, hbuf.valid_sk, hbuf.pk_sk⟩
  obtain ⟨ret, mem', hrun, -, hhigh⟩ := generateValidatedWith_runs rng outcome hbuf
  obtain ⟨ret₂, mem₂', hrun₂, -, hhigh₂⟩ := generateValidatedWith_runs rng outcome hbuf₂
  obtain rfl := (h.result hbuf hrun).mpr hsuccess
  obtain rfl := (h.result hbuf₂ hrun₂).mpr hsuccess
  -- the second half of `sk` is still what it was before, here a zero and there a one
  have hsame := h.written hbuf hbuf₂ hrun hrun₂
  rw [show 64 = 32 + 32 from rfl, Mem.bytes_append, Mem.bytes_append, hhigh, hhigh₂, hmem₂] at hsame
  have hbyte := byte_of_bytes_eq (List.append_inj hsame (by simp)).2 (by norm_num : 0 < 32)
  rw [Mem.write_byte (by norm_num : 0 < 1)] at hbyte
  exact absurd hbyte (by decide)

/-- Usable keys are delivered exactly if no pair validates, so that none is delivered. -/
theorem deliversUsableKeys_iff (hash : List UInt8 → Vector UInt8 64) (rng : ℕ → RngAnswer 32)
    (outcome : ℕ → Int32) :
    DeliversUsableKeys hash rng outcome ↔ ∀ i < maxAttempts, ¬ Validates rng outcome i := by
  constructor
  · exact fun h i hi hvalidates => not_deliversUsableKeys ⟨i, hi, hvalidates⟩ h
  · intro hnone
    have hfails : ¬ Succeeds rng outcome 0 := fun hs => by
      obtain ⟨i, hi, hvalidates⟩ := hs.validates
      exact hnone i hi hvalidates
    have hreturns : ∀ {mem mem' : Mem} {pk sk : Addr} {ret : Int32}, KeypairBuffers mem pk sk →
        Runs (generateValidatedWith (fun i => pure (outcome i)) rng (some pk) (some sk)) mem ret
        mem' → ret ≠ 0 :=
      fun h hrun hzero => by
        obtain ⟨ret', mem'', hrun', hret, -⟩ := generateValidatedWith_runs rng outcome h
        obtain ⟨rfl, -⟩ := hrun.unique hrun'
        exact hfails (hret.mp hzero)
    refine ⟨fun h hrun => ?_, fun h _ hrun _ => ?_, fun h hrun => ?_, fun h hrun _ _ => ?_⟩
    · exact iff_of_false (hreturns h hrun) fun ⟨i, hi, hvalidates⟩ => hnone i hi hvalidates
    · exact absurd rfl (hreturns h hrun)
    · exact absurd rfl (hreturns h hrun)
    · exact absurd rfl (hreturns h hrun)

/-- With a random number generator that gives zeros, the keys are not usable if every validation
accepts, and a success of the third attempt is a failure. -/
theorem not_deliversUsableKeys_zero :
    ¬ DeliversUsableKeys Sha512.hash (fun _ => ⟨0, Vector.replicate 32 0⟩) (fun _ => 0) ∧
      ¬ DeliversUsableKeys Sha512.hash (fun _ => ⟨0, Vector.replicate 32 0⟩)
      (fun i => if i < 2 then -1 else 0) :=
  ⟨not_deliversUsableKeys ⟨0, by decide, fun _ _ => rfl, rfl⟩,
    not_deliversUsableKeys ⟨2, by decide, fun _ _ => rfl, rfl⟩⟩

end Generation

section Example

/-- The seed `01 00 … 00`. -/
def oneSeed : Vector UInt8 32 := ofNatLE 32 1

/-- The `x` coordinate of the point of its Ed25519 public key. -/
def oneSeedX : ℕ := 26822555233711949854380153315158647482531717314742952720223963642152101436051

/-- The secret scalar of the seed. -/
def oneSeedScalar : ℕ :=
  41354757114163650016304086911142683682198188400503391378057401993857692208328

/-- The secret scalar of the seed. -/
theorem oneSeed_scalar : leNat (low32 (expandSeed Sha512.hash oneSeed.toList)) = oneSeedScalar := by
  decide +kernel

/-- The multiple of the base point, in extended coordinates. -/
def oneSeedMultiple : Extended ℕ :=
  Extended.mulMod (2 ^ 255 - 19) (2 * dNat) 256 oneSeedScalar ⟨baseX, baseY, 1, baseX * baseY⟩

/-- The first coordinate of its public point. -/
theorem oneSeed_x : (keyPoint Sha512.hash oneSeed).x = (oneSeedX : Fp) := by
  have h := mulMod_base_represents (show oneSeedScalar < 2 ^ 256 by decide)
  rw [← oneSeed_scalar, ← keyPoint, oneSeed_scalar, ← oneSeedMultiple] at h
  have hx : ((oneSeedMultiple.x : ℕ) : Fp) = ((oneSeedX * oneSeedMultiple.z : ℕ) : Fp) :=
    natCast_eq_of_mod (by decide +kernel)
  have hrepresents :
    (oneSeedMultiple.x : Fp) = (keyPoint Sha512.hash oneSeed).x * oneSeedMultiple.z := h.x
  rw [hx, Nat.cast_mul] at hrepresents
  exact (mul_right_cancel₀ h.z_ne_zero hrepresents).symm

/-- The validation does not accept the key pair that `crypto_sign_keypair` derives from the seed. -/
theorem oneSeed_not_accepted : ¬ AgreesWithKeygen Sha512.hash oneSeed := by
  rw [agreesWithKeygen_iff_eq, scalarmultBytes_eq_publicKey_iff, oneSeed_x]
  rintro ⟨hparity, -⟩
  rw [ZMod.val_natCast_of_lt (by rw [p25519_eq]; decide)] at hparity
  exact absurd hparity (by decide)

end Example

end TweetNacl
