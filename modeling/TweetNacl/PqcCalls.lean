import TweetNacl.Pqc

/-!
# The calls of the post-quantum interface

For each operation the arguments with which it succeeds; on all others it returns an error, but for
one case in which `pqc_decapsulate` divides by zero. From this follow which calls are total, which
calls take an algorithm of the wrong kind, and whether the hybrid operations check the lengths that
the component operations check.
-/

namespace TweetNacl.Pqc

open Buffers

section Operations

/-- The arguments with which `pqc_keygen` succeeds. -/
def KeygenAccepts (algo : Int32) (publicKey secretKey : Buffer) (rng : ℕ → Outcome) : Prop :=
  ∃ params, pqcGetParams algo false = .ok params ∧ publicKey.Holds params.publicKeySize ∧
    secretKey.Holds params.secretKeySize ∧ (rng 0).Fills ∧ (rng 1).Fills

/-- Acceptance is the checks and two successful fills. -/
theorem keygenAccepts_iff (algo : Int32) (publicKey secretKey : Buffer) (rng : ℕ → Outcome) :
    KeygenAccepts algo publicKey secretKey rng ↔
      ∃ params pk sk, KeygenChecked algo publicKey secretKey params pk sk ∧ (rng 0).Fills ∧
      (rng 1).Fills := by
  constructor
  · rintro ⟨params, hparams, ⟨hpk, hpkLen⟩, ⟨hsk, hskLen⟩, hfills⟩
    obtain ⟨pk, hpk⟩ := Option.ne_none_iff_exists'.mp hpk
    obtain ⟨sk, hsk⟩ := Option.ne_none_iff_exists'.mp hsk
    exact ⟨params, pk, sk,
      ⟨hparams, hpk, hsk, UInt64.not_lt.mpr hpkLen, UInt64.not_lt.mpr hskLen⟩, hfills⟩
  · rintro ⟨params, pk, sk, h, hfills⟩
    exact ⟨params, h.algo, Buffer.holds h.publicKey_data h.publicKey_len,
      Buffer.holds h.secretKey_data h.secretKey_len, hfills⟩

/-- After the checks, key generation succeeds if both keys are filled. -/
theorem fillKeys_spec {params : PqcParams} {pk sk : List UInt8} (seed : Buffer) (rng : ℕ → Outcome)
    (hmem : params ∈ pqcParamsTable) (hpkFit : params.publicKeySize.toNat ≤ pk.length)
    (hskFit : params.secretKeySize.toNat ≤ sk.length) :
    ∃ out, fillKeys params pk sk seed rng = .ok out ∧ (out.result = .success ↔ (rng 0).Fills ∧
      (rng 1).Fills) := by
  obtain ⟨hpkSize, hskSize, -, -⟩ := pqcParamsTable_sizes params hmem
  unfold fillKeys
  by_cases hfills : (rng 0).Fills
  swap
  · obtain ⟨pk₁, hpkRun⟩ := randombytesSafe_fails (fun h => hfills h.2) hpkFit
    exact ⟨_, by rw [hpkRun]; rfl, by simp [hfills]⟩
  obtain ⟨pk₁, hpkRun, hpk₁⟩ := randombytesSafe_fills hfills hpkSize hpkFit
  by_cases hfills' : (rng 1).Fills
  swap
  · obtain ⟨sk₁, hskRun⟩ := randombytesSafe_fails (fun h => hfills' h.2) hskFit
    exact ⟨_, by simp only [hpkRun, hskRun, ok_bind, if_true]; rfl, by simp [hfills']⟩
  obtain ⟨sk₁, hskRun, hsk₁⟩ := randombytesSafe_fills hfills' hskSize hskFit
  obtain ⟨pk₂, hpkMix, -⟩ := mixIn_min seed (hpk₁.symm ▸ hpkFit)
  obtain ⟨sk₂, hskMix, -⟩ := mixIn_min seed (hsk₁.symm ▸ hskFit)
  exact ⟨_, by simp only [hpkRun, hskRun, hpkMix, hskMix,
    ok_bind, if_true]; rfl, by simp [hfills, hfills']⟩

/-- Key generation returns without a fault, and succeeds exactly if it accepts. -/
theorem pqcKeygen_spec (algo : Int32) (publicKey secretKey seed : Buffer) (rng : ℕ → Outcome) :
    ∃ out, pqcKeygen algo publicKey secretKey seed rng = .ok out ∧
      (out.result = .success ↔ KeygenAccepts algo publicKey secretKey rng) := by
  rw [keygenAccepts_iff]
  obtain ⟨result, hresult, hchecked, hrun⟩ | ⟨params, pk, sk, hchecked, hrun⟩ :=
    pqcKeygen_cases algo publicKey secretKey seed rng
  · exact ⟨_, hrun, by simp [hresult, hchecked]⟩
  · obtain ⟨out, hout, hiff⟩ := fillKeys_spec seed rng (pqcGetParams_mem hchecked.algo)
      (Buffer.le_length hchecked.publicKey_data hchecked.publicKey_len)
      (Buffer.le_length hchecked.secretKey_data hchecked.secretKey_len)
    refine ⟨out, hrun.trans hout, hiff.trans ⟨fun h => ⟨params, pk, sk, hchecked, h⟩, ?_⟩⟩
    rintro ⟨-, -, -, -, h⟩
    exact h

/-- The arguments with which `pqc_encapsulate` succeeds. -/
def EncapsulateAccepts (algo : Int32) (publicKey : Buffer)
    (ciphertext : SizedBuffer) (sharedSecret : Buffer) (rng : ℕ → Outcome) : Prop :=
  ∃ params, pqcGetParams algo false = .ok params ∧ publicKey.Holds params.publicKeySize ∧
    ciphertext.Holds params.ciphertextSize ∧ sharedSecret.Holds params.sharedSecretSize ∧
    (params.ciphertextSize ≠ 0 ∧ (rng 0).Fills) ∧ (rng 1).Fills ∧ (rng 2).Fills

/-- The same for encapsulation. -/
theorem pqcEncapsulate_spec (algo : Int32) (publicKey : Buffer) (ciphertext : SizedBuffer)
    (sharedSecret random : Buffer) (rng : ℕ → Outcome) :
    ∃ out, pqcEncapsulate algo publicKey ciphertext sharedSecret random rng = .ok out ∧
      (out.result = .success ↔ EncapsulateAccepts algo publicKey ciphertext sharedSecret rng) := by
  unfold pqcEncapsulate
  cases hpk : publicKey.data with
  | none => exact ⟨_, rfl, by simp [EncapsulateAccepts, Buffer.not_holds_null hpk]⟩
  | some pk =>
  cases hct : ciphertext.data with
  | none => exact ⟨_, rfl, by simp [EncapsulateAccepts, SizedBuffer.not_holds_null hct]⟩
  | some ct =>
  cases hss : sharedSecret.data with
  | none => exact ⟨_, rfl, by simp [EncapsulateAccepts, Buffer.not_holds_null hss]⟩
  | some ss =>
  cases hlen : ciphertext.len with
  | none => exact ⟨_, rfl, by simp [EncapsulateAccepts, SizedBuffer.not_holds_of_len hlen]⟩
  | some ctLen =>
  obtain ⟨params, hmem, hparams⟩ | hparams := pqcGetParams_cases algo
  swap
  · exact ⟨_, by rw [hparams], by simp [EncapsulateAccepts, hparams]⟩
  rw [EncapsulateAccepts, exists_params_iff hparams, hparams]
  dsimp only
  by_cases hpkSmall : publicKey.len < params.publicKeySize
  · exact ⟨_, if_pos hpkSmall, by simp [Buffer.not_holds hpkSmall]⟩
  rw [if_neg hpkSmall]
  by_cases hctSmall : ctLen < params.ciphertextSize
  · exact ⟨_, if_pos hctSmall, by simp [SizedBuffer.not_holds hlen hctSmall]⟩
  rw [if_neg hctSmall]
  by_cases hssSmall : sharedSecret.len < params.sharedSecretSize
  · exact ⟨_, if_pos hssSmall, by simp [Buffer.not_holds hssSmall]⟩
  rw [if_neg hssSmall]
  have hctFit := SizedBuffer.le_length hct hlen hctSmall
  have hssFit := Buffer.le_length hss hssSmall
  obtain ⟨-, -, hssSize, -⟩ := pqcParamsTable_sizes params hmem
  by_cases hfills : params.ciphertextSize ≠ 0 ∧ (rng 0).Fills
  swap
  · obtain ⟨ct₁, hctRun⟩ := randombytesSafe_fails hfills hctFit
    exact ⟨_, by rw [hctRun]; rfl, by simp [hfills]⟩
  obtain ⟨ct₁, hctRun, -⟩ := randombytesSafe_fills hfills.2 hfills.1 hctFit
  by_cases hfills' : (rng 1).Fills
  swap
  · obtain ⟨ss₁, hssRun⟩ := randombytesSafe_fails (fun h => hfills' h.2) hssFit
    exact ⟨_, by simp only [hctRun, hssRun, ok_bind, if_true]; rfl, by simp [hfills']⟩
  obtain ⟨ss₁, hssRun, hss₁⟩ := randombytesSafe_fills hfills' hssSize hssFit
  obtain ⟨ss₂, hmix, hss₂⟩ := mixIn_min random (hss₁.symm ▸ hssFit)
  have hssFit₂ : params.sharedSecretSize.toNat ≤ ss₂.length := by omega
  by_cases hfills'' : (rng 2).Fills
  swap
  · obtain ⟨ss₃, hssRun'⟩ := randombytesSafe_fails (fun h => hfills'' h.2) hssFit₂
    exact ⟨_, by simp only [hctRun, hssRun, hmix, hssRun',
      ok_bind, if_true]; rfl, by simp [hfills'']⟩
  obtain ⟨ss₃, hssRun', hss₃⟩ := randombytesSafe_fills hfills'' hssSize hssFit₂
  obtain ⟨ss₄, hmix', -⟩ := mixIn_min random (hss₃.symm ▸ hssFit₂)
  refine ⟨_, by simp only [hctRun, hssRun, hmix, hssRun', hmix', ok_bind, if_true]; rfl, ?_⟩
  simp [Buffer.holds hpk hpkSmall, SizedBuffer.holds hct hlen hctSmall, Buffer.holds hss hssSmall,
    hfills, hfills', hfills'']

/-- The loop of `pqc_decapsulate`, on a ciphertext and a key that are not empty. -/
theorem decapsulateLoop_total {ct sk ss : List UInt8} {ctLen skLen n : ℕ} (hct : ct.length = ctLen)
    (hsk : sk.length = skLen) (hctLen : ctLen ≠ 0) (hskLen : skLen ≠ 0) (hss : n ≤ ss.length) :
    ∃ out, loop n (fun i ss => do
      let ss ← xorAt ct ctLen i ss
      xorAt sk skLen i ss) ss = .ok out := by
  have hpass : ∀ i < n, ∀ ss : List UInt8, n ≤ ss.length →
      ∃ out, (do
        let ss ← xorAt ct ctLen i ss
        xorAt sk skLen i ss) = .ok out ∧ n ≤ out.length := fun i hi ss hss => by
    obtain ⟨ss₁, hxor, hlen₁⟩ := xorAt_total hct hctLen (show i < ss.length by omega)
    obtain ⟨ss₂, hxor', hlen₂⟩ := xorAt_total hsk hskLen (show i < ss₁.length by omega)
    exact ⟨ss₂, by rw [hxor, ok_bind, hxor'], by omega⟩
  obtain ⟨out, hrun, -⟩ := loop_total (a := ss) (fun ss => n ≤ ss.length) hss hpass
  exact ⟨out, hrun⟩

/-- The arguments with which `pqc_decapsulate` comes to its loop. -/
def DecapsulateAccepts (algo : Int32) (secretKey ciphertext sharedSecret : Buffer)
    (rng : ℕ → Outcome) : Prop :=
  ∃ params, pqcGetParams algo false = .ok params ∧ secretKey.Holds params.secretKeySize ∧
    ciphertext.Holds params.ciphertextSize ∧ sharedSecret.Holds params.sharedSecretSize ∧
    (rng 0).Fills

/-- The loop of `pqc_decapsulate` takes the remainder by the length of the ciphertext. -/
theorem pqcDecapsulate_spec (algo : Int32) (secretKey ciphertext sharedSecret : Buffer)
    (rng : ℕ → Outcome) :
    pqcDecapsulate algo secretKey ciphertext sharedSecret rng = .error .remainderByZero ∧
        DecapsulateAccepts algo secretKey ciphertext sharedSecret rng ∧ ciphertext.len = 0 ∨
      ∃ result out, pqcDecapsulate algo secretKey ciphertext sharedSecret rng = .ok (result, out) ∧
        (result = .success ↔ DecapsulateAccepts algo secretKey ciphertext sharedSecret rng) ∧
        ¬ (DecapsulateAccepts algo secretKey ciphertext sharedSecret rng ∧ ciphertext.len = 0) := by
  unfold pqcDecapsulate
  cases hsk : secretKey.data with
  | none => exact .inr ⟨_, _, rfl, by simp [DecapsulateAccepts, Buffer.not_holds_null hsk]⟩
  | some sk =>
  cases hct : ciphertext.data with
  | none => exact .inr ⟨_, _, rfl, by simp [DecapsulateAccepts, Buffer.not_holds_null hct]⟩
  | some ct =>
  cases hss : sharedSecret.data with
  | none => exact .inr ⟨_, _, rfl, by simp [DecapsulateAccepts, Buffer.not_holds_null hss]⟩
  | some ss =>
  obtain ⟨params, hmem, hparams⟩ | hparams := pqcGetParams_cases algo
  swap
  · exact .inr ⟨_, _, by rw [hparams], by simp [DecapsulateAccepts, hparams]⟩
  rw [DecapsulateAccepts, exists_params_iff hparams, hparams]
  dsimp only
  by_cases hsmall : secretKey.len < params.secretKeySize ∨ ciphertext.len < params.ciphertextSize
  · rw [if_pos hsmall]
    obtain hskSmall | hctSmall := hsmall
    · exact .inr ⟨_, _, rfl, by simp [Buffer.not_holds hskSmall]⟩
    · exact .inr ⟨_, _, rfl, by simp [Buffer.not_holds hctSmall]⟩
  rw [if_neg hsmall]
  obtain ⟨hskSmall, hctSmall⟩ := not_or.mp hsmall
  by_cases hssSmall : sharedSecret.len < params.sharedSecretSize
  · exact .inr ⟨_, _, if_pos hssSmall, by simp [Buffer.not_holds hssSmall]⟩
  rw [if_neg hssSmall]
  have hssFit := Buffer.le_length hss hssSmall
  obtain ⟨-, hskSize, hssSize, -⟩ := pqcParamsTable_sizes params hmem
  by_cases hfills : (rng 0).Fills
  swap
  · obtain ⟨ss₁, hrun⟩ := randombytesSafe_fails (fun h => hfills h.2) hssFit
    exact .inr ⟨_, _, by rw [hrun]; rfl, by simp [hfills]⟩
  obtain ⟨ss₁, hrun, hss₁⟩ := randombytesSafe_fills hfills hssSize hssFit
  simp only [hrun, ok_bind, if_true, Buffer.holds hsk hskSmall, Buffer.holds hct hctSmall,
    Buffer.holds hss hssSmall, hfills, true_and]
  have hcount : 0 < params.sharedSecretSize.toNat := UInt64.pos_iff_ne_zero.mpr hssSize
  by_cases hempty : ciphertext.len = 0
  · have hloop : loop params.sharedSecretSize.toNat (fun i ss => do
        let ss ← xorAt ct ciphertext.len.toNat i ss
        xorAt sk secretKey.len.toNat i ss) ss₁ = .error .remainderByZero :=
      loop_error hcount (by rw [hempty]; rfl)
    exact .inl ⟨by rw [hloop, error_bind], hempty⟩
  · have hctLen : ciphertext.len.toNat ≠ 0 := fun h => hempty (UInt64.toNat_inj.mp h)
    have hskLen : secretKey.len.toNat ≠ 0 := fun h => by
      have := UInt64.le_iff_toNat_le.mp (UInt64.not_lt.mp hskSmall)
      exact hskSize (UInt64.toNat_inj.mp (by simp; omega))
    obtain ⟨out, hloop⟩ :=
      decapsulateLoop_total (n := params.sharedSecretSize.toNat) (ciphertext.length_data ct hct)
      (secretKey.length_data sk hsk) hctLen hskLen (hss₁.symm ▸ hssFit)
    exact .inr ⟨_, _, by rw [hloop, ok_bind], by simp [hempty]⟩

/-- The arguments with which `pqc_sign` succeeds. -/
def SignAccepts (algo : Int32) (secretKey message : Buffer) (signature : SizedBuffer)
    (rng : ℕ → Outcome) : Prop :=
  ∃ params, pqcGetParams algo false = .ok params ∧ secretKey.Holds params.secretKeySize ∧
    message.data ≠ none ∧
    signature.Holds params.signatureSize ∧ params.signatureSize ≠ 0 ∧ (rng 0).Fills

/-- The same for signing. -/
theorem pqcSign_spec (algo : Int32) (secretKey message : Buffer) (signature : SizedBuffer)
    (random : Buffer) (rng : ℕ → Outcome) :
    ∃ out, pqcSign algo secretKey message signature random rng = .ok out ∧
      (out.result = .success ↔ SignAccepts algo secretKey message signature rng) := by
  unfold pqcSign
  cases hsk : secretKey.data with
  | none => exact ⟨_, rfl, by simp [SignAccepts, Buffer.not_holds_null hsk]⟩
  | some sk =>
  cases hmsg : message.data with
  | none => exact ⟨_, rfl, by simp [SignAccepts, hmsg]⟩
  | some msg =>
  cases hsig : signature.data with
  | none => exact ⟨_, rfl, by simp [SignAccepts, SizedBuffer.not_holds_null hsig]⟩
  | some sig =>
  cases hlen : signature.len with
  | none => exact ⟨_, rfl, by simp [SignAccepts, SizedBuffer.not_holds_of_len hlen]⟩
  | some sigLen =>
  obtain ⟨params, -, hparams⟩ | hparams := pqcGetParams_cases algo
  swap
  · exact ⟨_, by rw [hparams], by simp [SignAccepts, hparams]⟩
  rw [SignAccepts, exists_params_iff hparams, hparams]
  dsimp only
  by_cases hskSmall : secretKey.len < params.secretKeySize
  · exact ⟨_, if_pos hskSmall, by simp [Buffer.not_holds hskSmall]⟩
  rw [if_neg hskSmall]
  by_cases hsigSmall : sigLen < params.signatureSize
  · exact ⟨_, if_pos hsigSmall, by simp [SizedBuffer.not_holds hlen hsigSmall]⟩
  rw [if_neg hsigSmall]
  have hsigFit := SizedBuffer.le_length hsig hlen hsigSmall
  by_cases hfills : params.signatureSize ≠ 0 ∧ (rng 0).Fills
  swap
  · obtain ⟨sig₁, hrun⟩ := randombytesSafe_fails hfills hsigFit
    exact ⟨_, by rw [hrun]; rfl, by simp [hfills]⟩
  obtain ⟨sig₁, hrun, hsig₁⟩ := randombytesSafe_fills hfills.2 hfills.1 hsigFit
  obtain ⟨sig₂, hmix, hsig₂⟩ := mixIn_total message (hsig₁.symm ▸ hsigFit)
  obtain ⟨sig₃, hmix', -⟩ := mixIn_total random (hsig₂.symm ▸ hsig₁.symm ▸ hsigFit)
  refine ⟨_, by simp only [hrun, hmix, hmix', ok_bind, if_true]; rfl, ?_⟩
  simp [Buffer.holds hsk hskSmall, SizedBuffer.holds hsig hlen hsigSmall, hmsg, hfills]

/-- The arguments with which `pqc_hybrid_encapsulate` succeeds. -/
def HybridEncapsulateAccepts (pqcAlgo : Int32) (hybridPublicKey : Buffer)
    (hybridCiphertext : SizedBuffer) (hybridSharedSecret : Buffer) : Prop :=
  ∃ params, pqcGetParams pqcAlgo false = .ok params ∧
    hybridPublicKey.Holds (32 + params.publicKeySize) ∧
    hybridCiphertext.Holds (32 + params.ciphertextSize) ∧ hybridSharedSecret.Holds 32

/-- The same for hybrid encapsulation. -/
theorem pqcHybridEncapsulate_spec (pqcAlgo : Int32) (hybridPublicKey : Buffer)
    (hybridCiphertext : SizedBuffer) (hybridSharedSecret : Buffer) :
    ∃ out, pqcHybridEncapsulate pqcAlgo hybridPublicKey hybridCiphertext
      hybridSharedSecret = .ok out ∧
      (out.result = .success ↔
        HybridEncapsulateAccepts pqcAlgo hybridPublicKey hybridCiphertext hybridSharedSecret) := by
  unfold pqcHybridEncapsulate
  cases hpk : hybridPublicKey.data with
  | none => exact ⟨_, rfl, by simp [HybridEncapsulateAccepts, Buffer.not_holds_null hpk]⟩
  | some pk =>
  cases hct : hybridCiphertext.data with
  | none => exact ⟨_, rfl, by simp [HybridEncapsulateAccepts, SizedBuffer.not_holds_null hct]⟩
  | some ct =>
  cases hss : hybridSharedSecret.data with
  | none => exact ⟨_, rfl, by simp [HybridEncapsulateAccepts, Buffer.not_holds_null hss]⟩
  | some ss =>
  cases hlen : hybridCiphertext.len with
  | none => exact ⟨_, rfl, by simp [HybridEncapsulateAccepts, SizedBuffer.not_holds_of_len hlen]⟩
  | some ctLen =>
  obtain ⟨params, hmem, hparams⟩ | hparams := pqcGetParams_cases pqcAlgo
  swap
  · exact ⟨_, by rw [hparams], by simp [HybridEncapsulateAccepts, hparams]⟩
  rw [HybridEncapsulateAccepts, exists_params_iff hparams, hparams]
  obtain ⟨hpkSize, -, hctSize⟩ := pqcParamsTable_small params hmem
  dsimp only
  by_cases hshort : hybridPublicKey.len < 32
  · have hpkSmall : hybridPublicKey.len < 32 + params.publicKeySize := lt_add_size hshort hpkSize
    exact ⟨_, if_pos hshort, by simp [Buffer.not_holds hpkSmall]⟩
  rw [if_neg hshort]
  have hiff := sub_lt_iff hshort hpkSize
  by_cases hpkSmall : hybridPublicKey.len < 32 + params.publicKeySize
  · exact ⟨_, if_pos (hiff.mpr hpkSmall), by simp [Buffer.not_holds hpkSmall]⟩
  rw [if_neg (mt hiff.mp hpkSmall), if_neg (not_overflow hctSize)]
  by_cases hctSmall : ctLen < 32 + params.ciphertextSize
  · exact ⟨_, if_pos hctSmall, by simp [SizedBuffer.not_holds hlen hctSmall]⟩
  rw [if_neg hctSmall]
  by_cases hssSmall : hybridSharedSecret.len < 32
  · exact ⟨_, if_pos hssSmall, by simp [Buffer.not_holds hssSmall]⟩
  rw [if_neg hssSmall, secureZero_eq (SizedBuffer.le_length hct hlen hctSmall),
    secureZero_eq (Buffer.le_length hss hssSmall)]
  refine ⟨_, rfl, ?_⟩
  simp [Buffer.holds hpk hpkSmall, SizedBuffer.holds hct hlen hctSmall, Buffer.holds hss hssSmall]

/-- The arguments with which `pqc_hybrid_decapsulate` succeeds: the secret key holds its first 32
bytes. -/
def HybridDecapsulateAccepts (pqcAlgo : Int32)
    (hybridSecretKey hybridCiphertext hybridSharedSecret : Buffer)
    (rng : ℕ → Outcome) : Prop :=
  ∃ params, pqcGetParams pqcAlgo false = .ok params ∧ hybridSecretKey.Holds 32 ∧
    hybridCiphertext.Holds (32 + params.ciphertextSize) ∧ hybridSharedSecret.Holds 32 ∧
    (rng 0).Fills

/-- The same for hybrid decapsulation. -/
theorem pqcHybridDecapsulate_spec (pqcAlgo : Int32)
    (hybridSecretKey hybridCiphertext hybridSharedSecret : Buffer)
    (rng : ℕ → Outcome) :
    ∃ result out, pqcHybridDecapsulate pqcAlgo hybridSecretKey hybridCiphertext
        hybridSharedSecret rng = .ok (result, out) ∧
      (result = .success ↔
        HybridDecapsulateAccepts pqcAlgo hybridSecretKey hybridCiphertext
        hybridSharedSecret rng) := by
  unfold pqcHybridDecapsulate
  cases hsk : hybridSecretKey.data with
  | none => exact ⟨_, _, rfl, by simp [HybridDecapsulateAccepts, Buffer.not_holds_null hsk]⟩
  | some sk =>
  cases hct : hybridCiphertext.data with
  | none => exact ⟨_, _, rfl, by simp [HybridDecapsulateAccepts, Buffer.not_holds_null hct]⟩
  | some ct =>
  cases hss : hybridSharedSecret.data with
  | none => exact ⟨_, _, rfl, by simp [HybridDecapsulateAccepts, Buffer.not_holds_null hss]⟩
  | some ss =>
  obtain ⟨params, -, hparams⟩ | hparams := pqcGetParams_cases pqcAlgo
  swap
  · exact ⟨_, _, by rw [hparams], by simp [HybridDecapsulateAccepts, hparams]⟩
  rw [HybridDecapsulateAccepts, exists_params_iff hparams, hparams]
  dsimp only
  by_cases hskSmall : hybridSecretKey.len < 32
  · exact ⟨_, _, if_pos hskSmall, by simp [Buffer.not_holds hskSmall]⟩
  rw [if_neg hskSmall]
  by_cases hctSmall : hybridCiphertext.len < 32 + params.ciphertextSize
  · exact ⟨_, _, if_pos hctSmall, by simp [Buffer.not_holds hctSmall]⟩
  rw [if_neg hctSmall]
  by_cases hssSmall : hybridSharedSecret.len < 32
  · exact ⟨_, _, if_pos hssSmall, by simp [Buffer.not_holds hssSmall]⟩
  rw [if_neg hssSmall]
  have hssFit := Buffer.le_length hss hssSmall
  by_cases hfills : (rng 0).Fills
  swap
  · obtain ⟨ss₁, hrun⟩ := randombytesSafe_fails (fun h => hfills h.2) hssFit
    exact ⟨_, _, by rw [hrun]; rfl, by simp [hfills]⟩
  obtain ⟨ss₁, hrun, -⟩ := randombytesSafe_fills hfills (by decide) hssFit
  refine ⟨_, _, by rw [hrun]; rfl, ?_⟩
  simp [Buffer.holds hsk hskSmall, Buffer.holds hct hctSmall, Buffer.holds hss hssSmall, hfills]

end Operations

section Calls

/-- A call of the interface with an algorithm. -/
inductive Call where
  | keygen (publicKey secretKey seed : Buffer)
  | encapsulate (publicKey : Buffer) (ciphertext : SizedBuffer) (sharedSecret random : Buffer)
  | decapsulate (secretKey ciphertext sharedSecret : Buffer)
  | sign (secretKey message : Buffer) (signature : SizedBuffer) (random : Buffer)
  | hybridEncapsulate (hybridPublicKey : Buffer) (hybridCiphertext : SizedBuffer)
      (hybridSharedSecret : Buffer)
  | hybridDecapsulate (hybridSecretKey hybridCiphertext hybridSharedSecret : Buffer)

/-- What the call returns. -/
def Call.run (algo : Int32) (rng : ℕ → Outcome) : Call → Checked PqcResult
  | .keygen publicKey secretKey seed => Keys.result <$> pqcKeygen algo publicKey secretKey seed rng
  | .encapsulate publicKey ciphertext sharedSecret random =>
    Encapsulated.result <$> pqcEncapsulate algo publicKey ciphertext sharedSecret random rng
  | .decapsulate secretKey ciphertext sharedSecret =>
    Prod.fst <$> pqcDecapsulate algo secretKey ciphertext sharedSecret rng
  | .sign secretKey message signature random =>
    Signed.result <$> pqcSign algo secretKey message signature random rng
  | .hybridEncapsulate hybridPublicKey hybridCiphertext hybridSharedSecret =>
    Encapsulated.result <$> pqcHybridEncapsulate algo hybridPublicKey hybridCiphertext
      hybridSharedSecret
  | .hybridDecapsulate hybridSecretKey hybridCiphertext hybridSharedSecret =>
    Prod.fst <$> pqcHybridDecapsulate algo hybridSecretKey hybridCiphertext hybridSharedSecret rng

/-- The call comes to the loop of `pqc_decapsulate` with an empty ciphertext. -/
def Call.DividesByZero (algo : Int32) (rng : ℕ → Outcome) : Call → Prop
  | .decapsulate secretKey ciphertext sharedSecret =>
    DecapsulateAccepts algo secretKey ciphertext sharedSecret rng ∧ ciphertext.len = 0
  | _ => False

/-- The arguments with which the call succeeds. -/
def Call.Accepts (algo : Int32) (rng : ℕ → Outcome) : Call → Prop
  | .keygen publicKey secretKey _ => KeygenAccepts algo publicKey secretKey rng
  | .encapsulate publicKey ciphertext sharedSecret _ =>
    EncapsulateAccepts algo publicKey ciphertext sharedSecret rng
  | .decapsulate secretKey ciphertext sharedSecret =>
    DecapsulateAccepts algo secretKey ciphertext sharedSecret rng ∧ ciphertext.len ≠ 0
  | .sign secretKey message signature _ => SignAccepts algo secretKey message signature rng
  | .hybridEncapsulate hybridPublicKey hybridCiphertext hybridSharedSecret =>
    HybridEncapsulateAccepts algo hybridPublicKey hybridCiphertext hybridSharedSecret
  | .hybridDecapsulate hybridSecretKey hybridCiphertext hybridSharedSecret =>
    HybridDecapsulateAccepts algo hybridSecretKey hybridCiphertext hybridSharedSecret rng

variable {algo : Int32} {rng : ℕ → Outcome}

/-- A call divides by zero or returns, with success for the arguments it accepts. -/
theorem Call.run_spec (algo : Int32) (rng : ℕ → Outcome) (call : Call) :
    call.run algo rng = .error .remainderByZero ∧ call.DividesByZero algo rng ∨
      ∃ result, call.run algo rng = .ok result ∧ (result = .success ↔ call.Accepts algo rng) ∧
        ¬ call.DividesByZero algo rng := by
  cases call with
  | keygen publicKey secretKey seed =>
    obtain ⟨out, hrun, hiff⟩ := pqcKeygen_spec algo publicKey secretKey seed rng
    exact .inr ⟨out.result, by rw [Call.run, hrun]; rfl, hiff, id⟩
  | encapsulate publicKey ciphertext sharedSecret random =>
    obtain ⟨out, hrun, hiff⟩ :=
      pqcEncapsulate_spec algo publicKey ciphertext sharedSecret random rng
    exact .inr ⟨out.result, by rw [Call.run, hrun]; rfl, hiff, id⟩
  | decapsulate secretKey ciphertext sharedSecret =>
    obtain ⟨htrap, hzero⟩ | ⟨result, out, hrun, hiff, hzero⟩ :=
      pqcDecapsulate_spec algo secretKey ciphertext sharedSecret rng
    · exact .inl ⟨by rw [Call.run, htrap]; rfl, hzero⟩
    · refine .inr ⟨result, by rw [Call.run, hrun]; rfl, ?_, hzero⟩
      exact hiff.trans ⟨fun h => ⟨h, fun hlen => hzero ⟨h, hlen⟩⟩, And.left⟩
  | sign secretKey message signature random =>
    obtain ⟨out, hrun, hiff⟩ := pqcSign_spec algo secretKey message signature random rng
    exact .inr ⟨out.result, by rw [Call.run, hrun]; rfl, hiff, id⟩
  | hybridEncapsulate hybridPublicKey hybridCiphertext hybridSharedSecret =>
    obtain ⟨out, hrun, hiff⟩ :=
      pqcHybridEncapsulate_spec algo hybridPublicKey hybridCiphertext hybridSharedSecret
    exact .inr ⟨out.result, by rw [Call.run, hrun]; rfl, hiff, id⟩
  | hybridDecapsulate hybridSecretKey hybridCiphertext hybridSharedSecret =>
    obtain ⟨result, out, hrun, hiff⟩ :=
      pqcHybridDecapsulate_spec algo hybridSecretKey hybridCiphertext hybridSharedSecret rng
    exact .inr ⟨result, by rw [Call.run, hrun]; rfl, hiff, id⟩

/-- A call that does not divide by zero returns, with success for the arguments it accepts. -/
theorem Call.run_eq_success_iff (call : Call) :
    call.run algo rng = .ok .success ↔ call.Accepts algo rng := by
  obtain ⟨htrap, hzero⟩ | ⟨result, hrun, hiff, -⟩ := call.run_spec algo rng
  · rw [htrap]
    cases call with
    | decapsulate secretKey ciphertext sharedSecret => simp [Call.Accepts, hzero.2]
    | _ => exact hzero.elim
  · rw [hrun, ← hiff, Except.ok.injEq]

end Calls

section Totality

/-- An operation of the stub is total, unless it is decapsulation with an empty ciphertext that the
algorithm allows and with all other arguments accepted. -/
theorem call_total_iff (algo : Int32) (rng : ℕ → Outcome) (call : Call) :
    Total (call.run algo rng) ↔ ¬ call.DividesByZero algo rng := by
  obtain ⟨htrap, hzero⟩ | ⟨result, hrun, -, hzero⟩ := call.run_spec algo rng
  · simp [htrap, hzero, not_total_error]
  · simp [hrun, hzero, total_ok]

/-- Decapsulation with a signature algorithm, for which a ciphertext of no bytes is long enough. -/
theorem decapsulate_divides_by_zero : ¬ ∀ algo rng (call : Call), Total (call.run algo rng) := by
  intro h
  exact not_total_error .remainderByZero (h 8 (fun _ => .filled fun _ => 0)
    (.decapsulate (Buffer.zeros 16) (Buffer.zeros 0) (Buffer.zeros 16)))

end Totality

section Kinds

/-- The call asks for something the algorithm does not have: a ciphertext, or a signature. -/
def Call.WrongKind (params : PqcParams) : Call → Prop
  | .keygen _ _ _ => False
  | .sign _ _ _ _ => params.signatureSize = 0
  | _ => params.ciphertextSize = 0

/-- The arguments with which an operation on ciphertexts of no bytes succeeds. -/
def Call.Confused (params : PqcParams) (rng : ℕ → Outcome) : Call → Prop
  | .decapsulate secretKey ciphertext sharedSecret =>
    secretKey.Holds params.secretKeySize ∧ ciphertext.data ≠ none ∧ ciphertext.len ≠ 0 ∧
      sharedSecret.Holds params.sharedSecretSize ∧ (rng 0).Fills
  | .hybridEncapsulate hybridPublicKey hybridCiphertext hybridSharedSecret =>
    hybridPublicKey.Holds (32 + params.publicKeySize) ∧ hybridCiphertext.Holds 32 ∧
      hybridSharedSecret.Holds 32
  | .hybridDecapsulate hybridSecretKey hybridCiphertext hybridSharedSecret =>
    hybridSecretKey.Holds 32 ∧ hybridCiphertext.Holds 32 ∧ hybridSharedSecret.Holds 32 ∧
      (rng 0).Fills
  | _ => False

/-- With parameters of the wrong kind a call accepts exactly the arguments listed. -/
theorem Call.accepts_iff_confused {algo : Int32} {params : PqcParams}
    (hparams : pqcGetParams algo false = .ok params)
    (rng : ℕ → Outcome) {call : Call} (hkind : call.WrongKind params) :
    call.Accepts algo rng ↔ call.Confused params rng := by
  cases call with
  | keygen publicKey secretKey seed => exact hkind.elim
  | encapsulate publicKey ciphertext sharedSecret random =>
    rw [Call.Accepts, EncapsulateAccepts, exists_params_iff hparams]
    simp [Call.Confused, show params.ciphertextSize = 0 from hkind]
  | decapsulate secretKey ciphertext sharedSecret =>
    rw [Call.Accepts, DecapsulateAccepts, exists_params_iff hparams]
    simp [Call.Confused, Buffer.Holds, show params.ciphertextSize = 0 from hkind]
    tauto
  | sign secretKey message signature random =>
    rw [Call.Accepts, SignAccepts, exists_params_iff hparams]
    simp [Call.Confused, show params.signatureSize = 0 from hkind]
  | hybridEncapsulate hybridPublicKey hybridCiphertext hybridSharedSecret =>
    rw [Call.Accepts, HybridEncapsulateAccepts, exists_params_iff hparams, Call.Confused]
    simp [show params.ciphertextSize = 0 from hkind]
  | hybridDecapsulate hybridSecretKey hybridCiphertext hybridSharedSecret =>
    rw [Call.Accepts, HybridDecapsulateAccepts, exists_params_iff hparams, Call.Confused]
    simp [show params.ciphertextSize = 0 from hkind]

/-- No call for what the algorithm does not have succeeds. -/
def Call.KindKept (algo : Int32) (rng : ℕ → Outcome) (call : Call) : Prop :=
  ∀ params, pqcGetParams algo false = .ok params → call.WrongKind params →
    call.run algo rng ≠ .ok .success

/-- The kinds are kept apart, but for decapsulation and the hybrid operations with a signature
algorithm. -/
theorem kindKept_iff (algo : Int32) (rng : ℕ → Outcome) (call : Call) : call.KindKept algo rng ↔
    ∀ params, pqcGetParams algo false = .ok params → call.WrongKind params →
    ¬ call.Confused params rng := by
  refine forall_congr' fun params => forall_congr' fun hparams => forall_congr' fun hkind => ?_
  rw [Ne, Call.run_eq_success_iff, Call.accepts_iff_confused hparams rng hkind]

/-- A hybrid encapsulation for a signature algorithm. -/
theorem hybridEncapsulate_confused : ¬ ∀ algo rng (call : Call), call.KindKept algo rng := by
  intro h
  exact h 8 (fun _ => .failed [])
    (.hybridEncapsulate (Buffer.zeros 48) (SizedBuffer.zeros 32) (Buffer.zeros 32)) _ rfl rfl rfl

end Kinds

section Lengths

/-- The lengths that `pqc_encapsulate` accepts for the key and the ciphertext. -/
def EncapsulateLengths (params : PqcParams) (publicKeyLen ciphertextLen : UInt64) : Prop :=
  params.publicKeySize ≤ publicKeyLen ∧ params.ciphertextSize ≤ ciphertextLen

/-- The lengths that `pqc_decapsulate` accepts for the key and the ciphertext. -/
def DecapsulateLengths (params : PqcParams) (secretKeyLen ciphertextLen : UInt64) : Prop :=
  params.secretKeySize ≤ secretKeyLen ∧ params.ciphertextSize ≤ ciphertextLen

/-- The lengths of the call are those that the component operation accepts; the hybrid operations
have 32 bytes more before the key and before the ciphertext. -/
def Call.LengthsAgree (params : PqcParams) : Call → Prop
  | .encapsulate publicKey ciphertext _ _ =>
    ∃ ctLen, ciphertext.len = some ctLen ∧ EncapsulateLengths params publicKey.len ctLen
  | .decapsulate secretKey ciphertext _ => DecapsulateLengths params secretKey.len ciphertext.len
  | .hybridEncapsulate hybridPublicKey hybridCiphertext _ =>
    32 ≤ hybridPublicKey.len ∧ ∃ ctLen, hybridCiphertext.len = some ctLen ∧ 32 ≤ ctLen ∧
      EncapsulateLengths params (hybridPublicKey.len - 32) (ctLen - 32)
  | .hybridDecapsulate hybridSecretKey hybridCiphertext _ =>
    32 ≤ hybridSecretKey.len ∧ 32 ≤ hybridCiphertext.len ∧
      DecapsulateLengths params (hybridSecretKey.len - 32) (hybridCiphertext.len - 32)
  | _ => True

/-- A hybrid decapsulation with a secret key that is too short after its first 32 bytes, and with
all other arguments accepted. -/
def Call.TruncatedKey (params : PqcParams) (rng : ℕ → Outcome) : Call → Prop
  | .hybridDecapsulate hybridSecretKey hybridCiphertext hybridSharedSecret =>
    hybridSecretKey.Holds 32 ∧ hybridSecretKey.len - 32 < params.secretKeySize ∧
      hybridCiphertext.Holds (32 + params.ciphertextSize) ∧ hybridSharedSecret.Holds 32 ∧
      (rng 0).Fills
  | _ => False

/-- A length that has room for a part after the first 32 bytes. -/
theorem le_sub_of_add_le {len size : UInt64} (hsize : size ≤ 8192) (h : 32 + size ≤ len) :
    32 ≤ len ∧ size ≤ len - 32 := by
  have hlen : ¬ len < 32 := fun hlt => UInt64.not_lt.mpr h (lt_add_size hlt hsize)
  exact ⟨UInt64.not_lt.mp hlen, UInt64.not_lt.mp fun hlt =>
    UInt64.not_lt.mpr h ((sub_lt_iff hlen hsize).mp hlt)⟩

/-- An accepted call has the lengths of the component operation, unless its secret key is too
short. -/
theorem Call.lengthsAgree_iff_of_accepts {algo : Int32} {params : PqcParams} {rng : ℕ → Outcome}
    {call : Call} (hparams : pqcGetParams algo false = .ok params)
    (haccepts : call.Accepts algo rng) : call.LengthsAgree params ↔
      ¬ call.TruncatedKey params rng := by
  obtain ⟨hpkSize, hskSize, hctSize⟩ := pqcParamsTable_small params (pqcGetParams_mem hparams)
  cases call with
  | keygen publicKey secretKey seed => simp [Call.LengthsAgree, Call.TruncatedKey]
  | encapsulate publicKey ciphertext sharedSecret random =>
    rw [Call.Accepts, EncapsulateAccepts, exists_params_iff hparams] at haccepts
    obtain ⟨hpk, ⟨-, ctLen, hlen, hct⟩, -⟩ := haccepts
    simp [Call.LengthsAgree, Call.TruncatedKey, EncapsulateLengths, hlen, hpk.2, hct]
  | decapsulate secretKey ciphertext sharedSecret =>
    rw [Call.Accepts, DecapsulateAccepts, exists_params_iff hparams] at haccepts
    obtain ⟨⟨hsk, hct, -⟩, -⟩ := haccepts
    simp [Call.LengthsAgree, Call.TruncatedKey, DecapsulateLengths, hsk.2, hct.2]
  | sign secretKey message signature random => simp [Call.LengthsAgree, Call.TruncatedKey]
  | hybridEncapsulate hybridPublicKey hybridCiphertext hybridSharedSecret =>
    rw [Call.Accepts, HybridEncapsulateAccepts, exists_params_iff hparams] at haccepts
    obtain ⟨hpk, ⟨-, ctLen, hlen, hct⟩, -⟩ := haccepts
    simp [Call.LengthsAgree, Call.TruncatedKey, EncapsulateLengths, hlen,
      le_sub_of_add_le hpkSize hpk.2, le_sub_of_add_le hctSize hct]
  | hybridDecapsulate hybridSecretKey hybridCiphertext hybridSharedSecret =>
    rw [Call.Accepts, HybridDecapsulateAccepts, exists_params_iff hparams] at haccepts
    obtain ⟨hsk, hct, hss, hfills⟩ := haccepts
    simp [Call.LengthsAgree, Call.TruncatedKey, DecapsulateLengths, hsk, hsk.2, hct, hss, hfills,
      le_sub_of_add_le hctSize hct.2]

/-- The length of the secret key is not checked. -/
theorem Call.accepts_of_truncatedKey {algo : Int32} {params : PqcParams} {rng : ℕ → Outcome}
    {call : Call} (hparams : pqcGetParams algo false = .ok params)
    (h : call.TruncatedKey params rng) : call.Accepts algo rng := by
  cases call with
  | hybridDecapsulate hybridSecretKey hybridCiphertext hybridSharedSecret =>
    obtain ⟨hsk, -, hct, hss, hfills⟩ := h
    exact ⟨params, hparams, hsk, hct, hss, hfills⟩
  | _ => exact h.elim

/-- A call that succeeds has the lengths of the component operation. -/
def Call.LengthsChecked (algo : Int32) (rng : ℕ → Outcome) (call : Call) : Prop :=
  call.run algo rng = .ok .success → ∀ params, pqcGetParams algo false = .ok params →
    call.LengthsAgree params

/-- The hybrid operations check what the component operations check, but for the length of the
secret key. -/
theorem lengthsChecked_iff (algo : Int32) (rng : ℕ → Outcome) (call : Call) :
    call.LengthsChecked algo rng ↔
    ∀ params, pqcGetParams algo false = .ok params → ¬ call.TruncatedKey params rng := by
  constructor
  · intro h params hparams htruncated
    have haccepts := Call.accepts_of_truncatedKey hparams htruncated
    have hagree := h (Call.run_eq_success_iff call |>.mpr haccepts) params hparams
    exact (Call.lengthsAgree_iff_of_accepts hparams haccepts).mp hagree htruncated
  · intro h hrun params hparams
    have haccepts := (Call.run_eq_success_iff call).mp hrun
    exact (Call.lengthsAgree_iff_of_accepts hparams haccepts).mpr (h params hparams)

/-- A hybrid decapsulation whose secret key has no part for the algorithm. -/
theorem hybridDecapsulate_truncated : ¬ ∀ algo rng (call : Call), call.LengthsChecked algo rng := by
  intro h
  have hagree := h 0 (fun _ => .filled fun _ => 0)
    (.hybridDecapsulate (Buffer.zeros 32) (Buffer.zeros 800) (Buffer.zeros 32)) rfl _ rfl
  exact absurd hagree.2.2.1 (by decide)

end Lengths

end TweetNacl.Pqc
