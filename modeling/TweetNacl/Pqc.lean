import TweetNacl.Lib.Buffers

/-!
# The post-quantum interface

The stub implementation of the post-quantum operations, which the build uses unless it is linked
with liboqs. The outcomes of the calls of `randombytes_safe` are arguments, one for each call in its
order.

An algorithm is an identifier of any value; the enumeration has no negative one, and the functions
reject negative values whether its type is signed or not. The buffers of a call are distinct.
-/

namespace TweetNacl.Pqc

open Buffers

section Code

/-- `pqc_result_t`. -/
inductive PqcResult where
  | success
  | invalidParam
  | bufferTooSmall
  | algorithmNotSupported
  | keyGenerationFailed
  | encryptionFailed
  | decryptionFailed
  | signatureInvalid
  | verificationFailed
  | memoryAllocation
  | rngFailure
  | implementationNotAvailable
deriving DecidableEq, Repr

/-- `pqc_params_t`. -/
structure PqcParams where
  publicKeySize : UInt64
  secretKeySize : UInt64
  ciphertextSize : UInt64
  signatureSize : UInt64
  sharedSecretSize : UInt64
  name : String
  description : String
deriving DecidableEq, Repr

/-- `pqc_params_table`, in the order of the identifiers. -/
def pqcParamsTable : List PqcParams := [
  ⟨800, 1632, 768, 0, 16, "KYBER512", "NIST Level 1 KEM"⟩,
  ⟨1184, 2400, 1088, 0, 32, "KYBER768", "NIST Level 3 KEM"⟩,
  ⟨1568, 3168, 1568, 0, 32, "KYBER1024", "NIST Level 5 KEM"⟩,
  ⟨1312, 2560, 0, 2420, 32, "DILITHIUM2", "NIST Level 2 Signature"⟩,
  ⟨1952, 4032, 0, 4595, 32, "DILITHIUM3", "NIST Level 3 Signature"⟩,
  ⟨2592, 4896, 0, 4595, 32, "DILITHIUM5", "NIST Level 5 Signature"⟩,
  ⟨897, 1281, 0, 666, 32, "FALCON512", "Compact Signature Level 1"⟩,
  ⟨1793, 2305, 0, 1026, 32, "FALCON1024", "Compact Signature Level 5"⟩,
  ⟨16, 16, 0, 17088, 16, "SPHINCS-SHA2-128F", "Stateless Hash-based Sig Fast"⟩,
  ⟨16, 16, 0, 8008, 16, "SPHINCS-SHA2-128S", "Stateless Hash-based Sig Small"⟩,
  ⟨16, 16, 0, 17088, 16, "SPHINCS-SHAKE-128F", "Stateless Hash-based Sig Fast (SHAKE)"⟩,
  ⟨16, 16, 0, 8008, 16, "SPHINCS-SHAKE-128S", "Stateless Hash-based Sig Small (SHAKE)"⟩]

/-- `pqc_get_params`; `null` says that there is no record to fill. -/
def pqcGetParams (algo : Int32) (null : Bool) : Except PqcResult PqcParams :=
  if null then .error .invalidParam
  else if algo < 0 then .error .algorithmNotSupported
  else
    -- an identifier from `NUM_PQC_ALGORITHMS` on has no entry
    match pqcParamsTable[algo.toInt.toNat]? with
    | some params => .ok params
    | none => .error .algorithmNotSupported

/-- What the random number generator does in a call: it fills the buffer, or it fails after it has
written a string to it. -/
inductive Outcome where
  | filled (bytes : ℕ → UInt8)
  | failed (written : List UInt8)

/-- `randombytes_safe` for a buffer: whether it returns `NACL_SUCCESS`, and the buffer. -/
def randombytesSafe (outcome : Outcome) (buf : List UInt8) (len : UInt64) :
    Checked (Bool × List UInt8) :=
  if len = 0 then .ok (false, buf)
  else match outcome with
    | .filled bytes => do
      let buf ← overwrite buf ((List.range len.toNat).map bytes)
      .ok (true, buf)
    | .failed written => do
      let buf ← overwrite buf (written.take len.toNat)
      .ok (false, buf)

/-- `if (source != NULL && source_len > 0)`, the first `count` bytes are masked with the source,
repeated. -/
def mixIn (source : Buffer) (count : ℕ) (bytes : List UInt8) : Checked (List UInt8) :=
  match source.data with
  | some data =>
    if 0 < source.len then loop count (fun i bytes => xorAt data source.len.toNat i bytes) bytes
      else .ok bytes
  | none => .ok bytes

/-- `secure_zero`. -/
def secureZero (bytes : List UInt8) (len : UInt64) : Checked (List UInt8) :=
  overwrite bytes (List.replicate len.toNat 0)

/-- What `pqc_keygen` returns and leaves. -/
structure Keys where
  result : PqcResult
  publicKey : Option (List UInt8)
  secretKey : Option (List UInt8)
deriving DecidableEq, Repr

/-- The part of `pqc_keygen` after its checks: both keys are filled, and masked with the seed. -/
def fillKeys (params : PqcParams) (pk sk : List UInt8) (seed : Buffer) (rng : ℕ → Outcome) :
    Checked Keys := do
  let (filled, pk) ← randombytesSafe (rng 0) pk params.publicKeySize
  if filled then
    let (filled, sk) ← randombytesSafe (rng 1) sk params.secretKeySize
    if filled then
      let pk ← mixIn seed (min params.publicKeySize.toNat seed.len.toNat) pk
      let sk ← mixIn seed (min params.secretKeySize.toNat seed.len.toNat) sk
      .ok ⟨.success, some pk, some sk⟩
    else .ok ⟨.rngFailure, some pk, some sk⟩
  else .ok ⟨.rngFailure, some pk, some sk⟩

/-- `pqc_keygen`. -/
def pqcKeygen (algo : Int32) (publicKey secretKey seed : Buffer) (rng : ℕ → Outcome) :
    Checked Keys :=
  match pqcGetParams algo false with
  | .error result => .ok ⟨result, publicKey.data, secretKey.data⟩
  | .ok _ =>
    match publicKey.data, secretKey.data with
    | some pk, some sk =>
      -- the parameters are asked for a second time
      match pqcGetParams algo false with
      | .error result => .ok ⟨result, some pk, some sk⟩
      | .ok params =>
        if publicKey.len < params.publicKeySize ∨ secretKey.len < params.secretKeySize then
          .ok ⟨.bufferTooSmall, some pk, some sk⟩
        else fillKeys params pk sk seed rng
    | pk, sk => .ok ⟨.invalidParam, pk, sk⟩

/-- What `pqc_encapsulate` and `pqc_hybrid_encapsulate` return and leave. -/
structure Encapsulated where
  result : PqcResult
  ciphertext : Option (List UInt8)
  ciphertextLen : Option UInt64
  sharedSecret : Option (List UInt8)
deriving DecidableEq, Repr

/-- `pqc_encapsulate`. The shared secret is generated and masked twice. -/
def pqcEncapsulate (algo : Int32) (publicKey : Buffer) (ciphertext : SizedBuffer)
    (sharedSecret random : Buffer) (rng : ℕ → Outcome) : Checked Encapsulated :=
  match publicKey.data, ciphertext.data, sharedSecret.data, ciphertext.len with
  | some _, some ct, some ss, some ctLen =>
    match pqcGetParams algo false with
    | .error result => .ok ⟨result, some ct, some ctLen, some ss⟩
    | .ok params =>
      if publicKey.len < params.publicKeySize then .ok
        ⟨.bufferTooSmall, some ct, some ctLen, some ss⟩
      else if ctLen < params.ciphertextSize then
        .ok ⟨.bufferTooSmall, some ct, some params.ciphertextSize, some ss⟩
      else if sharedSecret.len < params.sharedSecretSize then .ok
        ⟨.bufferTooSmall, some ct, some ctLen, some ss⟩
      else do
        let count := min params.sharedSecretSize.toNat random.len.toNat
        let (filled, ct) ← randombytesSafe (rng 0) ct params.ciphertextSize
        if filled then
          let (filled, ss) ← randombytesSafe (rng 1) ss params.sharedSecretSize
          if filled then
            let ss ← mixIn random count ss
            let (filled, ss) ← randombytesSafe (rng 2) ss params.sharedSecretSize
            if filled then
              let ss ← mixIn random count ss
              .ok ⟨.success, some ct, some params.ciphertextSize, some ss⟩
            else .ok ⟨.rngFailure, some ct, some params.ciphertextSize, some ss⟩
          else .ok ⟨.rngFailure, some ct, some params.ciphertextSize, some ss⟩
        else .ok ⟨.rngFailure, some ct, some params.ciphertextSize, some ss⟩
  | _, ct, ss, ctLen => .ok ⟨.invalidParam, ct, ctLen, ss⟩

/-- `pqc_decapsulate`, and the shared secret it leaves. -/
def pqcDecapsulate (algo : Int32) (secretKey ciphertext sharedSecret : Buffer) (rng : ℕ → Outcome) :
    Checked (PqcResult × Option (List UInt8)) :=
  match secretKey.data, ciphertext.data, sharedSecret.data with
  | some sk, some ct, some ss =>
    match pqcGetParams algo false with
    | .error result => .ok (result, some ss)
    | .ok params =>
      if secretKey.len < params.secretKeySize ∨ ciphertext.len < params.ciphertextSize then
        .ok (.bufferTooSmall, some ss)
      else if sharedSecret.len < params.sharedSecretSize then .ok (.bufferTooSmall, some ss)
      else do
        let (filled, ss) ← randombytesSafe (rng 0) ss params.sharedSecretSize
        if filled then
          let ss ← loop params.sharedSecretSize.toNat (fun i ss => do
            let ss ← xorAt ct ciphertext.len.toNat i ss
            xorAt sk secretKey.len.toNat i ss) ss
          .ok (.success, some ss)
        else .ok (.rngFailure, some ss)
  | _, _, ss => .ok (.invalidParam, ss)

/-- What `pqc_sign` returns and leaves. -/
structure Signed where
  result : PqcResult
  signature : Option (List UInt8)
  signatureLen : Option UInt64
deriving DecidableEq, Repr

/-- `pqc_sign`. The loop over the message has `message_len > 0` in its condition. -/
def pqcSign (algo : Int32) (secretKey message : Buffer) (signature : SizedBuffer) (random : Buffer)
    (rng : ℕ → Outcome) : Checked Signed :=
  match secretKey.data, message.data, signature.data, signature.len with
  | some _, some _, some sig, some sigLen =>
    match pqcGetParams algo false with
    | .error result => .ok ⟨result, some sig, some sigLen⟩
    | .ok params =>
      if secretKey.len < params.secretKeySize then .ok ⟨.bufferTooSmall, some sig, some sigLen⟩
      else if sigLen < params.signatureSize then .ok
        ⟨.bufferTooSmall, some sig, some params.signatureSize⟩
      else do
        let (filled, sig) ← randombytesSafe (rng 0) sig params.signatureSize
        if filled then
          let sig ← mixIn message params.signatureSize.toNat sig
          let sig ← mixIn random params.signatureSize.toNat sig
          .ok ⟨.success, some sig, some params.signatureSize⟩
        else .ok ⟨.rngFailure, some sig, some params.signatureSize⟩
  | _, _, sig, sigLen => .ok ⟨.invalidParam, sig, sigLen⟩

/-- `pqc_hybrid_encapsulate`: 32 bytes of Curve25519 stand before the key and before the
ciphertext. -/
def pqcHybridEncapsulate (pqcAlgo : Int32) (hybridPublicKey : Buffer)
    (hybridCiphertext : SizedBuffer) (hybridSharedSecret : Buffer) : Checked Encapsulated :=
  match hybridPublicKey.data, hybridCiphertext.data, hybridSharedSecret.data,
    hybridCiphertext.len with
  | some _, some ct, some ss, some ctLen =>
    match pqcGetParams pqcAlgo false with
    | .error result => .ok ⟨result, some ct, some ctLen, some ss⟩
    | .ok params =>
      if hybridPublicKey.len < 32 then .ok ⟨.invalidParam, some ct, some ctLen, some ss⟩
      else if hybridPublicKey.len - 32 < params.publicKeySize then .ok
        ⟨.bufferTooSmall, some ct, some ctLen, some ss⟩
      -- `SIZE_MAX - pqc_ct_size`
      else if 32 > 0xffffffffffffffff - params.ciphertextSize then .ok
        ⟨.memoryAllocation, some ct, some ctLen, some ss⟩
      else
        let requiredCtSize := 32 + params.ciphertextSize
        if ctLen < requiredCtSize then .ok ⟨.bufferTooSmall, some ct, some requiredCtSize, some ss⟩
        else if hybridSharedSecret.len < 32 then .ok
          ⟨.bufferTooSmall, some ct, some requiredCtSize, some ss⟩
        else do
          let ct ← secureZero ct requiredCtSize
          let ss ← secureZero ss 32
          .ok ⟨.success, some ct, some requiredCtSize, some ss⟩
  | _, ct, ss, ctLen => .ok ⟨.invalidParam, ct, ctLen, ss⟩

/-- `pqc_hybrid_decapsulate`, and the shared secret it leaves. -/
def pqcHybridDecapsulate (pqcAlgo : Int32)
    (hybridSecretKey hybridCiphertext hybridSharedSecret : Buffer)
    (rng : ℕ → Outcome) : Checked (PqcResult × Option (List UInt8)) :=
  match hybridSecretKey.data, hybridCiphertext.data, hybridSharedSecret.data with
  | some _, some _, some ss =>
    match pqcGetParams pqcAlgo false with
    | .error result => .ok (result, some ss)
    | .ok params =>
      if hybridSecretKey.len < 32 then .ok (.invalidParam, some ss)
      else if hybridCiphertext.len < 32 + params.ciphertextSize then .ok (.invalidParam, some ss)
      else if hybridSharedSecret.len < 32 then .ok (.bufferTooSmall, some ss)
      else do
        let (filled, ss) ← randombytesSafe (rng 0) ss 32
        if filled then .ok (.success, some ss) else .ok (.rngFailure, some ss)
  | _, _, ss => .ok (.invalidParam, ss)

end Code

section Parts

/-- The generator fills the buffer. -/
def Outcome.Fills : Outcome → Prop
  | .filled _ => True
  | .failed _ => False

instance : DecidablePred Outcome.Fills
  | .filled _ => inferInstanceAs (Decidable True)
  | .failed _ => inferInstanceAs (Decidable False)

/-- The string that is written to a buffer in a call for `len` bytes. -/
def Outcome.written (outcome : Outcome) (len : UInt64) : List UInt8 :=
  match outcome with
  | .filled bytes => (List.range len.toNat).map bytes
  | .failed written => written.take len.toNat

variable {algo : Int32} {params : PqcParams}

/-- The entry of the algorithm, or the error of one without an entry. -/
theorem pqcGetParams_cases (algo : Int32) :
    (∃ params ∈ pqcParamsTable, pqcGetParams algo false = .ok params) ∨
      pqcGetParams algo false = .error .algorithmNotSupported := by
  unfold pqcGetParams
  rw [if_neg Bool.false_ne_true]
  by_cases hneg : algo < 0
  · exact .inr (if_pos hneg)
  · rw [if_neg hneg]
    cases hentry : pqcParamsTable[algo.toInt.toNat]? with
    | none => exact .inr rfl
    | some params => exact .inl ⟨params, List.mem_of_getElem? hentry, rfl⟩

/-- The parameters come from the table. -/
theorem pqcGetParams_mem (h : pqcGetParams algo false = .ok params) : params ∈ pqcParamsTable := by
  obtain ⟨entry, hmem, hentry⟩ | herror := pqcGetParams_cases algo
  · cases h.symm.trans hentry
    exact hmem
  · cases h.symm.trans herror

/-- Every algorithm has keys and a shared secret, and it has a ciphertext or a signature. -/
theorem pqcParamsTable_sizes : ∀ params ∈ pqcParamsTable,
    params.publicKeySize ≠ 0 ∧ params.secretKeySize ≠ 0 ∧ params.sharedSecretSize ≠ 0 ∧
      (params.ciphertextSize = 0 ↔ params.signatureSize ≠ 0) := by decide

/-- The sizes are far from the end of the range. -/
theorem pqcParamsTable_small : ∀ params ∈ pqcParamsTable,
    params.publicKeySize ≤ 8192 ∧ params.secretKeySize ≤ 8192 ∧
    params.ciphertextSize ≤ 8192 := by
  decide

/-- The hybrid functions compare a length without its first 32 bytes, or a size with 32 bytes
added. -/
theorem sub_lt_iff {len size : UInt64} (hlen : ¬ len < 32) (hsize : size ≤ 8192) :
    len - 32 < size ↔ len < 32 + size := by grind

/-- A length below 32 is below every combined size. -/
theorem lt_add_size {len size : UInt64} (hlen : len < 32) (hsize : size ≤ 8192) :
    len < 32 + size := by
  grind

/-- The combined sizes of the table do not overflow. -/
theorem not_overflow {size : UInt64} (hsize : size ≤ 8192) :
    ¬ 32 > 0xffffffffffffffff - size := by
  grind

/-- A condition on the parameters of a supported algorithm. -/
theorem exists_params_iff (h : pqcGetParams algo false = .ok params) {P : PqcParams → Prop} :
    (∃ params, pqcGetParams algo false = .ok params ∧ P params) ↔ P params := by
  simp [h]

variable {outcome : Outcome} {buf : List UInt8} {len : UInt64}

/-- At most the requested bytes are written. -/
theorem Outcome.length_written (outcome : Outcome) (len : UInt64) :
    (outcome.written len).length ≤ len.toNat := by
  cases outcome with
  | filled bytes => simp [Outcome.written]
  | failed written =>
    rw [Outcome.written, List.length_take]
    exact Nat.min_le_left _ _

/-- A call writes its string to the start of the buffer. -/
theorem randombytesSafe_eq (outcome : Outcome) (hzero : len ≠ 0) (hlen : len.toNat ≤ buf.length) :
    randombytesSafe outcome buf len =
      .ok (decide outcome.Fills, outcome.written len ++ buf.drop (outcome.written len).length) := by
  have hfit := Nat.le_trans (outcome.length_written len) hlen
  cases outcome with
  | filled bytes =>
    rw [Outcome.written] at hfit
    rw [randombytesSafe, if_neg hzero, overwrite_eq hfit]
    rfl
  | failed written =>
    rw [Outcome.written] at hfit
    rw [randombytesSafe, if_neg hzero, overwrite_eq hfit]
    rfl

/-- A call that fills succeeds within the buffer. -/
theorem randombytesSafe_fills (hfills : outcome.Fills) (hzero : len ≠ 0)
    (hlen : len.toNat ≤ buf.length) :
    ∃ out, randombytesSafe outcome buf len = .ok (true, out) ∧ out.length = buf.length := by
  refine ⟨_, ?_, length_overwritten (Nat.le_trans (outcome.length_written len) hlen)⟩
  rw [randombytesSafe_eq outcome hzero hlen, decide_eq_true hfills]

/-- A call fails if the generator does, or if the part of the buffer is empty. -/
theorem randombytesSafe_fails (hfails : ¬ (len ≠ 0 ∧ outcome.Fills))
    (hlen : len.toNat ≤ buf.length) :
    ∃ out, randombytesSafe outcome buf len = .ok (false, out) := by
  by_cases hzero : len = 0
  · exact ⟨buf, by rw [randombytesSafe.eq_def, if_pos hzero]⟩
  · exact ⟨_, by rw [randombytesSafe_eq outcome hzero hlen, decide_eq_false fun h =>
      hfails ⟨hzero, h⟩]⟩

/-- Masking reads the source in bounds, by its declared length. -/
theorem mixIn_total (source : Buffer) {count : ℕ} {bytes : List UInt8}
    (hcount : count ≤ bytes.length) :
    ∃ out, mixIn source count bytes = .ok out ∧ out.length = bytes.length := by
  rw [mixIn]
  cases hdata : source.data with
  | none => exact ⟨bytes, rfl, rfl⟩
  | some data =>
    by_cases hlen : 0 < source.len
    · dsimp only
      rw [if_pos hlen]
      refine loop_total (fun out : List UInt8 => out.length = bytes.length) rfl
        fun i hi out hout => ?_
      obtain ⟨out', hrun, hout'⟩ := xorAt_total (source.length_data data hdata)
        (by simpa [UInt64.lt_iff_toNat_lt, Nat.pos_iff_ne_zero] using hlen)
        (show i < out.length by omega)
      exact ⟨out', hrun, hout'.trans hout⟩
    · exact ⟨bytes, if_neg hlen, rfl⟩

/-- A source shorter than the part masks the bytes it has. -/
theorem mixIn_min (source : Buffer) {size : UInt64} {bytes : List UInt8}
    (hsize : size.toNat ≤ bytes.length) :
    ∃ out, mixIn source (min size.toNat source.len.toNat) bytes = .ok out ∧
      out.length = bytes.length :=
  mixIn_total source (by omega)

/-- Clearing a prefix of a buffer. -/
theorem secureZero_eq (hlen : len.toNat ≤ buf.length) :
    secureZero buf len = .ok (List.replicate len.toNat 0 ++ buf.drop len.toNat) := by
  rw [secureZero, overwrite_eq (by rwa [List.length_replicate]), List.length_replicate]


/-- The key buffers of a call that gets past the checks of `pqc_keygen`. -/
structure KeygenChecked (algo : Int32) (publicKey secretKey : Buffer) (params : PqcParams)
    (pk sk : List UInt8) :
    Prop where
  algo : pqcGetParams algo false = .ok params
  publicKey_data : publicKey.data = some pk
  secretKey_data : secretKey.data = some sk
  publicKey_len : ¬ publicKey.len < params.publicKeySize
  secretKey_len : ¬ secretKey.len < params.secretKeySize

/-- A call of `pqc_keygen` is rejected with the buffers as they were, or it comes to the
generator. -/
theorem pqcKeygen_cases (algo : Int32) (publicKey secretKey seed : Buffer) (rng : ℕ → Outcome) :
    (∃ result, result ≠ .success ∧ (∀ params pk sk,
      ¬ KeygenChecked algo publicKey secretKey params pk sk) ∧
      pqcKeygen algo publicKey secretKey seed rng = .ok ⟨result, publicKey.data, secretKey.data⟩) ∨
    ∃ params pk sk, KeygenChecked algo publicKey secretKey params pk sk ∧
      pqcKeygen algo publicKey secretKey seed rng = fillKeys params pk sk seed rng := by
  unfold pqcKeygen
  obtain ⟨params, -, hparams⟩ | hparams := pqcGetParams_cases algo
  · rw [hparams]
    cases hpk : publicKey.data with
    | none => exact .inl ⟨.invalidParam,
        by decide, fun _ _ _ h => (by cases hpk.symm.trans h.publicKey_data), rfl⟩
    | some pk =>
      cases hsk : secretKey.data with
      | none => exact .inl ⟨.invalidParam,
          by decide, fun _ _ _ h => (by cases hsk.symm.trans h.secretKey_data), rfl⟩
      | some sk =>
        by_cases hsmall : publicKey.len < params.publicKeySize ∨
          secretKey.len < params.secretKeySize
        · refine .inl ⟨.bufferTooSmall, by decide, fun _ _ _ h => ?_, if_pos hsmall⟩
          cases hparams.symm.trans h.algo
          exact hsmall.elim h.publicKey_len h.secretKey_len
        · obtain ⟨hpkLen, hskLen⟩ := not_or.mp hsmall
          exact .inr ⟨params, pk, sk, ⟨hparams, hpk, hsk, hpkLen, hskLen⟩, if_neg hsmall⟩
  · rw [hparams]
    exact .inl ⟨.algorithmNotSupported,
      by decide, fun _ _ _ h => (by cases hparams.symm.trans h.algo), rfl⟩

end Parts

end TweetNacl.Pqc
