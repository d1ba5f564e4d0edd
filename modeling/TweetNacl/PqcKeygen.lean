import TweetNacl.Pqc

/-!
# Key generation that fails

Both builds of `pqc_keygen` can fail after they have written to the key buffers. The build with
liboqs clears them then; of liboqs itself only the calls are modelled, with their answers as
arguments. The stub returns at once, so that its buffers keep what the random number generator has
written.
-/

namespace TweetNacl.Pqc

open Buffers

section Liboqs

/-- The algorithm names of liboqs. -/
inductive OqsAlg where
  | kyber512
  | kyber768
  | kyber1024
  | dilithium2
  | dilithium3
  | dilithium5
  | falcon512
  | falcon1024
  | sphincsSha2_128f
  | sphincsSha2_128s
  | sphincsShake_128f
  | sphincsShake_128s
deriving DecidableEq, Repr

/-- `oqs_alg_name`; `none` is the null pointer. -/
def oqsAlgName (algo : Int32) : Option OqsAlg :=
  if algo = 0 then some .kyber512
  else if algo = 1 then some .kyber768
  else if algo = 2 then some .kyber1024
  else if algo = 3 then some .dilithium2
  else if algo = 4 then some .dilithium3
  else if algo = 5 then some .dilithium5
  else if algo = 6 then some .falcon512
  else if algo = 7 then some .falcon1024
  else if algo = 8 then some .sphincsSha2_128f
  else if algo = 9 then some .sphincsSha2_128s
  else if algo = 10 then some .sphincsShake_128f
  else if algo = 11 then some .sphincsShake_128s
  else none

/-- An object of liboqs: the lengths of its keys, whether its key generation returns `OQS_SUCCESS`,
and what that has written to the two buffers. -/
structure OqsObject where
  lengthPublicKey : UInt64
  lengthSecretKey : UInt64
  keypairSucceeds : Bool
  publicKeyWritten : List UInt8
  secretKeyWritten : List UInt8

/-- What liboqs answers: whether an algorithm is enabled, and the object for it, if there is one. -/
structure Oqs where
  kemIsEnabled : OqsAlg → Bool
  kemNew : OqsAlg → Option OqsObject
  sigIsEnabled : OqsAlg → Bool
  sigNew : OqsAlg → Option OqsObject

/-- One of the two branches of `pqc_keygen`, which differ in the kind of the object. -/
def oqsKeygen (object : Option OqsObject) (publicKey secretKey : Buffer) (pk sk : List UInt8) :
    Checked Keys :=
  match object with
  | none => .ok ⟨.keyGenerationFailed, some pk, some sk⟩
  | some object =>
    if publicKey.len < object.lengthPublicKey ∨ secretKey.len < object.lengthSecretKey then
      .ok ⟨.bufferTooSmall, some pk, some sk⟩
    else do
      let pk ← overwrite pk (object.publicKeyWritten.take object.lengthPublicKey.toNat)
      let sk ← overwrite sk (object.secretKeyWritten.take object.lengthSecretKey.toNat)
      if object.keypairSucceeds then .ok ⟨.success, some pk, some sk⟩
      else
        let pk ← secureZero pk publicKey.len
        let sk ← secureZero sk secretKey.len
        .ok ⟨.keyGenerationFailed, some pk, some sk⟩

/-- `pqc_keygen` of the build with liboqs, which does not use the seed. -/
def oqsPqcKeygen (oqs : Oqs) (algo : Int32) (publicKey secretKey : Buffer) : Checked Keys :=
  match oqsAlgName algo with
  | none => .ok ⟨.algorithmNotSupported, publicKey.data, secretKey.data⟩
  | some algName =>
    match publicKey.data, secretKey.data with
    | some pk, some sk =>
      if oqs.kemIsEnabled algName then oqsKeygen (oqs.kemNew algName) publicKey secretKey pk sk
      else if oqs.sigIsEnabled algName then oqsKeygen (oqs.sigNew algName) publicKey secretKey pk sk
      else .ok ⟨.algorithmNotSupported, some pk, some sk⟩
    | pk, sk => .ok ⟨.invalidParam, pk, sk⟩

end Liboqs

section Failure

/-- The buffer is as it was before, or all zero. -/
def Clean (before after : Option (List UInt8)) : Prop :=
  after = before ∨ ∀ bytes, after = some bytes → ∀ b ∈ bytes, b = 0

/-- A call that fails leaves no partial key. -/
def LeavesClean (publicKey secretKey : Buffer) (call : Checked Keys) : Prop :=
  ∀ out, call = .ok out → out.result ≠ .success →
    Clean publicKey.data out.publicKey ∧ Clean secretKey.data out.secretKey

variable {publicKey secretKey : Buffer}

/-- A return before the first write. -/
theorem leavesClean_unchanged (result : PqcResult) {pk sk : Option (List UInt8)}
    (hpk : publicKey.data = pk) (hsk : secretKey.data = sk) : LeavesClean publicKey secretKey
    (.ok ⟨result, pk, sk⟩) := by
  rintro out hout -
  cases hout
  exact ⟨.inl hpk.symm, .inl hsk.symm⟩

/-- A success asks for nothing. -/
theorem leavesClean_success (pk sk : Option (List UInt8)) :
    LeavesClean publicKey secretKey (.ok ⟨.success, pk, sk⟩) := by
  rintro out hout hfailed
  cases hout
  exact absurd rfl hfailed

/-- A failed fill leaves no partial key exactly if both buffers are clean. -/
theorem leavesClean_failed_iff (pk sk : Option (List UInt8)) :
    LeavesClean publicKey secretKey (.ok ⟨.rngFailure, pk, sk⟩) ↔
      Clean publicKey.data pk ∧ Clean secretKey.data sk := by
  constructor
  · intro h
    exact h _ rfl nofun
  · rintro h out hout -
    cases hout
    exact h

/-- A whole buffer is cleared. -/
theorem secureZero_clean {buf : List UInt8} {len : UInt64} (hlen : buf.length = len.toNat)
    (before : Option (List UInt8)) : ∃ out, secureZero buf len = .ok out ∧
    Clean before (some out) := by
  refine ⟨_, secureZero_eq (Nat.le_of_eq hlen.symm), .inr fun bytes hbytes b hb => ?_⟩
  cases hbytes
  rw [List.drop_eq_nil_of_le (Nat.le_of_eq hlen), List.append_nil] at hb
  exact List.eq_of_mem_replicate hb

/-- What liboqs writes to a buffer is within the length of the key. -/
theorem overwrite_key (written : List UInt8) {b : Buffer} {bytes : List UInt8} {len : UInt64}
    (hdata : b.data = some bytes) (hlen : ¬ b.len < len) :
    ∃ out, overwrite bytes (written.take len.toNat) = .ok out ∧ out.length = b.len.toNat := by
  have hfit : (written.take len.toNat).length ≤ bytes.length := by
    have := Buffer.le_length hdata hlen
    rw [List.length_take]
    omega
  exact ⟨_, overwrite_eq hfit, (length_overwritten hfit).trans (b.length_data bytes hdata)⟩

/-- The wrapper of the library leaves no partial key. -/
theorem oqsKeygen_leavesClean (object : Option OqsObject) {pk sk : List UInt8}
    (hpk : publicKey.data = some pk) (hsk : secretKey.data = some sk) :
    LeavesClean publicKey secretKey (oqsKeygen object publicKey secretKey pk sk) := by
  unfold oqsKeygen
  cases object with
  | none => exact leavesClean_unchanged _ hpk hsk
  | some object =>
    dsimp only
    by_cases hsmall : publicKey.len < object.lengthPublicKey ∨
      secretKey.len < object.lengthSecretKey
    · rw [if_pos hsmall]
      exact leavesClean_unchanged _ hpk hsk
    · obtain ⟨hpkLen, hskLen⟩ := not_or.mp hsmall
      obtain ⟨pk₁, hpkRun, hpk₁⟩ := overwrite_key object.publicKeyWritten hpk hpkLen
      obtain ⟨sk₁, hskRun, hsk₁⟩ := overwrite_key object.secretKeyWritten hsk hskLen
      rw [if_neg hsmall, hpkRun, ok_bind, hskRun, ok_bind]
      cases object.keypairSucceeds with
      | true => exact leavesClean_success _ _
      | false =>
        obtain ⟨pk₂, hpkZero, hpkClean⟩ := secureZero_clean hpk₁ publicKey.data
        obtain ⟨sk₂, hskZero, hskClean⟩ := secureZero_clean hsk₁ secretKey.data
        rw [if_neg Bool.false_ne_true, hpkZero, ok_bind, hskZero, ok_bind]
        rintro out hout -
        cases hout
        exact ⟨hpkClean, hskClean⟩

/-- The build with liboqs clears both buffers when the key generation fails. -/
theorem oqsPqcKeygen_leavesClean (oqs : Oqs) (algo : Int32) (publicKey secretKey : Buffer) :
    LeavesClean publicKey secretKey (oqsPqcKeygen oqs algo publicKey secretKey) := by
  unfold oqsPqcKeygen
  cases oqsAlgName algo with
  | none => exact leavesClean_unchanged _ rfl rfl
  | some algName =>
    cases hpk : publicKey.data with
    | none => exact leavesClean_unchanged _ hpk rfl
    | some pk =>
      cases hsk : secretKey.data with
      | none => exact leavesClean_unchanged _ hpk hsk
      | some sk =>
        dsimp only
        split_ifs
        · exact oqsKeygen_leavesClean _ hpk hsk
        · exact oqsKeygen_leavesClean _ hpk hsk
        · exact leavesClean_unchanged _ hpk hsk

end Failure

section Stub

/-- Writing the string to the start of a buffer leaves it as it was, or all zero. -/
def Harmless (before written : List UInt8) : Prop :=
  before.take written.length = written ∨ (∀ b ∈ written, b = 0) ∧
    ∀ b ∈ before.drop written.length, b = 0

/-- Overwriting a prefix is clean exactly if the bytes do no harm. -/
theorem clean_overwritten_iff {before written : List UInt8} :
    Clean (some before) (some (written ++ before.drop written.length)) ↔
      Harmless before written := by
  rw [Clean, Harmless]
  refine or_congr ?_ ?_
  · constructor
    · intro h
      have := congrArg (fun o => o.map (List.take written.length)) h
      simpa using this.symm
    · intro h
      conv_rhs => rw [← List.take_append_drop written.length before, h]
  · constructor
    · intro h
      exact List.forall_mem_append.mp (h _ rfl)
    · rintro h bytes hbytes
      cases hbytes
      exact List.forall_mem_append.mpr h

/-- What the generator has written when it fails is harmless: in the first call to the public key,
in the second one to both keys. -/
def FailsHarmlessly (params : PqcParams) (pk sk : List UInt8) (rng : ℕ → Outcome) : Prop :=
  ¬ ((rng 0).Fills ∧ (rng 1).Fills) →
    Harmless pk ((rng 0).written params.publicKeySize) ∧
      ((rng 0).Fills → Harmless sk ((rng 1).written params.secretKeySize))

/-- Filling the keys is clean exactly if the generator fails harmlessly. -/
theorem fillKeys_leavesClean_iff {algo : Int32} {params : PqcParams} {pk sk : List UInt8}
    (seed : Buffer) (rng : ℕ → Outcome)
    (hchecked : KeygenChecked algo publicKey secretKey params pk sk) :
    LeavesClean publicKey secretKey (fillKeys params pk sk seed rng) ↔
      FailsHarmlessly params pk sk rng := by
  obtain ⟨hpkSize, hskSize, -, -⟩ := pqcParamsTable_sizes params (pqcGetParams_mem hchecked.algo)
  have hpkFit := Buffer.le_length hchecked.publicKey_data hchecked.publicKey_len
  have hskFit := Buffer.le_length hchecked.secretKey_data hchecked.secretKey_len
  unfold FailsHarmlessly fillKeys
  by_cases hfills : (rng 0).Fills
  swap
  · rw [randombytesSafe_eq (rng 0) hpkSize hpkFit, ok_bind, decide_eq_false hfills]
    simp only [Bool.false_eq_true, if_false, leavesClean_failed_iff, hchecked.publicKey_data,
      hchecked.secretKey_data, clean_overwritten_iff]
    simp [hfills, Clean]
  obtain ⟨pk₁, hpkRun, hpk₁⟩ := randombytesSafe_fills hfills hpkSize hpkFit
  by_cases hfills' : (rng 1).Fills
  · obtain ⟨sk₁, hskRun, hsk₁⟩ := randombytesSafe_fills hfills' hskSize hskFit
    obtain ⟨pk₂, hpkMix, -⟩ := mixIn_min seed (hpk₁.symm ▸ hpkFit)
    obtain ⟨sk₂, hskMix, -⟩ := mixIn_min seed (hsk₁.symm ▸ hskFit)
    simp only [hpkRun, hskRun, hpkMix, hskMix, ok_bind, if_true]
    exact iff_of_true (leavesClean_success _ _) fun h => absurd ⟨hfills, hfills'⟩ h
  · simp only [randombytesSafe_eq (rng 0) hpkSize hpkFit,
      randombytesSafe_eq (rng 1) hskSize hskFit, ok_bind,
      decide_eq_true hfills, decide_eq_false hfills', if_true, Bool.false_eq_true, if_false,
      leavesClean_failed_iff, hchecked.publicKey_data, hchecked.secretKey_data,
      clean_overwritten_iff]
    simp [hfills, hfills']

/-- The stub leaves no partial key exactly when what a failing generator has written happens to do
no harm. -/
theorem pqcKeygen_leavesClean_iff (algo : Int32) (publicKey secretKey seed : Buffer)
    (rng : ℕ → Outcome) :
    LeavesClean publicKey secretKey (pqcKeygen algo publicKey secretKey seed rng) ↔
      ∀ params pk sk, KeygenChecked algo publicKey secretKey params pk sk →
      FailsHarmlessly params pk sk rng := by
  obtain ⟨result, -, hchecked, hrun⟩ | ⟨params, pk, sk, hchecked, hrun⟩ :=
    pqcKeygen_cases algo publicKey secretKey seed rng
  · rw [hrun]
    exact iff_of_true (leavesClean_unchanged _ rfl rfl) fun params pk sk h =>
      absurd h (hchecked params pk sk)
  · rw [hrun, fillKeys_leavesClean_iff seed rng hchecked]
    refine ⟨fun h params' pk' sk' h' => ?_, fun h => h params pk sk hchecked⟩
    cases hchecked.algo.symm.trans h'.algo
    cases hchecked.publicKey_data.symm.trans h'.publicKey_data
    cases hchecked.secretKey_data.symm.trans h'.secretKey_data
    exact h

/-- The generator fails after it has written one byte of the public key. -/
theorem pqcKeygen_partial_key : ¬ ∀ algo publicKey secretKey seed rng,
    LeavesClean publicKey secretKey (pqcKeygen algo publicKey secretKey seed rng) := by
  intro h
  have hclean :=
    h 8 (Buffer.zeros 16) (Buffer.zeros 16) .null (fun _ => .failed [1]) _ rfl (by decide)
  revert hclean
  unfold Clean
  decide

end Stub

end TweetNacl.Pqc
