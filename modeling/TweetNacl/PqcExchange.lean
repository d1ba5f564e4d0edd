import Mathlib.Data.List.GetD
import TweetNacl.PqcCalls

/-!
# Exchanges over the post-quantum stub

Key generation, encapsulation and decapsulation one after the other, with the buffers passed on. The
stub fills keys, ciphertexts and shared secrets from the random number generator, so whether the two
sides of an exchange have the same secret depends on what the generator answers in the last call.
Hybrid encapsulation gives zeros in every exchange, and no signature is verified.
-/

namespace TweetNacl.Pqc

open Buffers

section Code

/-- `pqc_verify`. -/
def pqcVerify (algo : Int32) (publicKey message signature : Buffer) : PqcResult :=
  match publicKey.data, message.data, signature.data with
  | some _, some _, some _ =>
    match pqcGetParams algo false with
    | .error result => result
    | .ok params =>
      if publicKey.len < params.publicKeySize ∨ signature.len < params.signatureSize then
        .bufferTooSmall
      else .verificationFailed
  | _, _, _ => .invalidParam

/-- A pointer into an object, with the length of the part from there that is passed on. -/
def part (bytes : List UInt8) (off : ℕ) (len : UInt64) : Checked Buffer :=
  if h : off + len.toNat ≤ bytes.length then
    .ok { data := some ((bytes.drop off).take len.toNat)
          len := len
          length_data := fun bytes' h' => by
            cases h'
            rw [List.length_take, List.length_drop]
            omega }
  else .error .outOfBounds

/-- What `pqc_hybrid_keygen` returns and leaves. -/
structure HybridKeys where
  result : PqcResult
  publicKey : Option (List UInt8)
  publicKeyLen : Option UInt64
  secretKey : Option (List UInt8)
  secretKeyLen : Option UInt64

/-- `pqc_hybrid_keygen`. The objects have any size, and the lengths are written without being
read. -/
def pqcHybridKeygen (pqcAlgo : Int32) (hybridPublicKey : Option (List UInt8))
    (hybridPublicKeyLen : Option UInt64) (hybridSecretKey : Option (List UInt8))
    (hybridSecretKeyLen : Option UInt64) (rng : ℕ → Outcome) :
    Checked HybridKeys :=
  match hybridPublicKey, hybridSecretKey, hybridPublicKeyLen, hybridSecretKeyLen with
  | some pk, some sk, some pkLen, some skLen =>
    match pqcGetParams pqcAlgo false with
    | .error result => .ok ⟨result, some pk, some pkLen, some sk, some skLen⟩
    | .ok params => do
      let pk ← secureZero pk (32 + params.publicKeySize)
      let sk ← secureZero sk (32 + params.secretKeySize)
      let pkPart ← part pk 32 params.publicKeySize
      let skPart ← part sk 32 params.secretKeySize
      let keys ← pqcKeygen pqcAlgo pkPart skPart Buffer.null rng
      .ok ⟨keys.result,
        some (pk.take 32 ++ keys.publicKey.getD [] ++ pk.drop (32 + params.publicKeySize).toNat),
        some (32 + params.publicKeySize),
        some (sk.take 32 ++ keys.secretKey.getD [] ++ sk.drop (32 + params.secretKeySize).toNat),
        some (32 + params.secretKeySize)⟩
  | pk, sk, pkLen, skLen => .ok ⟨.invalidParam, pk, pkLen, sk, skLen⟩

end Code

section Bytes

/-- The bytes that the generator writes in a call. -/
def Outcome.byte (outcome : Outcome) (i : ℕ) : UInt8 :=
  match outcome with
  | .filled bytes => bytes i
  | .failed written => written.getD i 0

/-- The bytes with which a buffer masks another one: its own, and zeros after its end. -/
def mask (source : Buffer) (i : ℕ) : UInt8 := (source.data.getD []).getD i 0

variable {outcome : Outcome} {buf : List UInt8} {len : UInt64}

/-- A fill writes the bytes of the answer in order. -/
theorem randombytesSafe_bytes (hfills : outcome.Fills) (hzero : len ≠ 0)
    (hlen : len.toNat ≤ buf.length) :
    ∃ out, randombytesSafe outcome buf len = .ok (true, out) ∧ out.length = buf.length ∧
      ∀ i < len.toNat, out[i]? = some (outcome.byte i) := by
  cases outcome with
  | failed written => exact hfills.elim
  | filled bytes =>
    have heq := randombytesSafe_eq (.filled bytes) hzero hlen
    rw [decide_eq_true hfills] at heq
    refine ⟨_, heq, length_overwritten (Nat.le_trans (Outcome.length_written _ len) hlen),
      fun i hi => ?_⟩
    have hlength : ((List.range len.toNat).map bytes).length = len.toNat := by
      rw [List.length_map, List.length_range]
    rw [Outcome.written, List.getElem?_append_left (hlength.symm ▸ hi), List.getElem?_map,
      List.getElem?_range hi, Option.map_some, Outcome.byte]

/-- A source masks the first bytes of a buffer. -/
theorem mixIn_bytes (source : Buffer) {size : UInt64} {bytes : List UInt8}
    (hsize : size.toNat ≤ bytes.length) :
    ∃ out, mixIn source (min size.toNat source.len.toNat) bytes = .ok out ∧
      out.length = bytes.length ∧
      ∀ i < size.toNat, out[i]? = bytes[i]?.map (· ^^^ mask source i) := by
  have hid : ∀ i, mask source i = 0 → bytes[i]? = bytes[i]?.map (· ^^^ mask source i) :=
      fun i h => by
    rw [h]
    simp only [UInt8.xor_zero, Option.map_id']
  rw [mixIn]
  cases hdata : source.data with
  | none => exact ⟨bytes, rfl, rfl, fun i _ => hid i (by rw [mask, hdata]; rfl)⟩
  | some data =>
    have hlength := source.length_data data hdata
    have hmask : ∀ i, mask source i = data.getD i 0 :=
      fun i => by rw [mask, hdata, Option.getD_some]
    by_cases hlen : 0 < source.len
    swap
    · have hempty : source.len.toNat = 0 := by simpa [UInt64.lt_iff_toNat_lt] using hlen
      exact ⟨bytes, if_neg hlen, rfl, fun i _ =>
        hid i (by rw [hmask, List.getD_eq_default _ _ (by omega)])⟩
    · dsimp only
      rw [if_pos hlen]
      have hpos : source.len.toNat ≠ 0 := by
        simpa [UInt64.lt_iff_toNat_lt, Nat.pos_iff_ne_zero] using hlen
      obtain ⟨out, hrun, hout, hbytes⟩ := loop_update
        (show min size.toNat source.len.toNat ≤ bytes.length from Nat.le_trans
        (Nat.min_le_left _ _) hsize) fun i _ out _ x hx => xorAt_eq hlength hpos hx
      refine ⟨out, hrun, hout, fun i hi => ?_⟩
      rw [hbytes i]
      by_cases hshort : i < source.len.toNat
      · rw [if_pos (by omega), hmask, Nat.mod_eq_of_lt hshort]
      · rw [if_neg (by omega)]
        exact hid i (by rw [hmask, List.getD_eq_default _ _ (by omega)])

end Bytes

section Calls

variable {algo : Int32} {params : PqcParams}
  {publicKey secretKey seed message sharedSecret random : Buffer}
  {ciphertext : SizedBuffer} {rng : ℕ → Outcome}

/-- A buffer that is there. -/
theorem holds_data {b : Buffer} {size : UInt64} (h : b.Holds size) :
    ∃ bytes, b.data = some bytes ∧ bytes.length = b.len.toNat ∧ size.toNat ≤ bytes.length := by
  obtain ⟨bytes, hbytes⟩ := Option.ne_none_iff_exists'.mp h.1
  have hlength := b.length_data bytes hbytes
  exact ⟨bytes, hbytes, hlength, hlength ▸ UInt64.le_iff_toNat_le.mp h.2⟩

/-- The secret key that `pqc_keygen` leaves: the second answer of the generator, masked with the
seed. -/
theorem pqcKeygen_bytes {keys : Keys}
    (hrun : pqcKeygen algo publicKey secretKey seed rng = .ok keys)
    (hkeys : keys.result = .success) (hparams : pqcGetParams algo false = .ok params) :
    ∃ sk, keys.secretKey = some sk ∧
      ∀ i < params.secretKeySize.toNat, sk[i]? = some ((rng 1).byte i ^^^ mask seed i) := by
  obtain ⟨result, hresult, -, hrun'⟩ | ⟨params', pk, sk, h, hrun'⟩ :=
    pqcKeygen_cases algo publicKey secretKey seed rng
  · cases hrun.symm.trans hrun'
    exact absurd hkeys hresult
  · cases hparams.symm.trans h.algo
    have hpkFit := Buffer.le_length h.publicKey_data h.publicKey_len
    have hskFit := Buffer.le_length h.secretKey_data h.secretKey_len
    obtain ⟨out, hfill, hiff⟩ := fillKeys_spec seed rng (pqcGetParams_mem hparams) hpkFit hskFit
    obtain rfl : keys = out := Except.ok.inj (hrun.symm.trans (hrun'.trans hfill))
    obtain ⟨hfills, hfills'⟩ := hiff.mp hkeys
    obtain ⟨hpkSize, hskSize, -, -⟩ := pqcParamsTable_sizes params (pqcGetParams_mem hparams)
    obtain ⟨pk₁, hpkRun, hpk₁, -⟩ := randombytesSafe_bytes hfills hpkSize hpkFit
    obtain ⟨sk₁, hskRun, hsk₁, hbytes⟩ := randombytesSafe_bytes hfills' hskSize hskFit
    obtain ⟨pk₂, hpkMix, -⟩ := mixIn_bytes seed (hpk₁.symm ▸ hpkFit)
    obtain ⟨sk₂, hskMix, -, hmixed⟩ := mixIn_bytes seed (hsk₁.symm ▸ hskFit)
    simp only [fillKeys, hpkRun, hskRun, hpkMix, hskMix, ok_bind, if_true] at hfill
    cases hfill
    exact ⟨sk₂, rfl, fun i hi => by rw [hmixed i hi, hbytes i hi, Option.map_some]⟩

/-- What `pqc_encapsulate` leaves: the first answer of the generator for the ciphertext, and the
third one, masked, for the shared secret. -/
theorem pqcEncapsulate_bytes {out : Encapsulated}
    (hrun : pqcEncapsulate algo publicKey ciphertext sharedSecret random rng = .ok out)
    (hsuccess : out.result = .success) (hparams : pqcGetParams algo false = .ok params) :
    params.ciphertextSize ≠ 0 ∧
      (∃ ct, out.ciphertext = some ct ∧
        ∀ i < params.ciphertextSize.toNat, ct[i]? = some ((rng 0).byte i)) ∧
      ∃ ss, out.sharedSecret = some ss ∧
        ∀ i < params.sharedSecretSize.toNat, ss[i]? = some ((rng 2).byte i ^^^ mask random i) := by
  obtain ⟨out', hrun', hiff⟩ :=
    pqcEncapsulate_spec algo publicKey ciphertext sharedSecret random rng
  obtain rfl : out = out' := Except.ok.inj (hrun.symm.trans hrun')
  obtain ⟨params', hparams', hpk, ⟨hct, ctLen, hlen, hctLen⟩, hss, ⟨hctSize, hfills⟩, hfills',
      hfills''⟩ :=
    hiff.mp hsuccess
  cases hparams.symm.trans hparams'
  obtain ⟨pk, hpkData, -, -⟩ := holds_data hpk
  obtain ⟨ct, hctData⟩ := Option.ne_none_iff_exists'.mp hct
  obtain ⟨ss, hssData, -, hssFit⟩ := holds_data hss
  have hctFit := SizedBuffer.le_length hctData hlen (UInt64.not_lt.mpr hctLen)
  obtain ⟨-, -, hssSize, -⟩ := pqcParamsTable_sizes params (pqcGetParams_mem hparams)
  obtain ⟨ct₁, hctRun, -, hctBytes⟩ := randombytesSafe_bytes hfills hctSize hctFit
  obtain ⟨ss₁, hssRun, hss₁, -⟩ := randombytesSafe_bytes hfills' hssSize hssFit
  obtain ⟨ss₂, hmix, hss₂, -⟩ := mixIn_bytes random (hss₁.symm ▸ hssFit)
  have hssFit₂ : params.sharedSecretSize.toNat ≤ ss₂.length := by omega
  obtain ⟨ss₃, hssRun', hss₃, hbytes⟩ := randombytesSafe_bytes hfills'' hssSize hssFit₂
  obtain ⟨ss₄, hmix', -, hmixed⟩ := mixIn_bytes random (hss₃.symm ▸ hssFit₂)
  simp only [pqcEncapsulate, hpkData, hctData, hssData, hlen, hparams,
    if_neg (UInt64.not_lt.mpr hpk.2), if_neg (UInt64.not_lt.mpr hctLen),
    if_neg (UInt64.not_lt.mpr hss.2), hctRun, hssRun, hmix, hssRun', hmix', ok_bind,
    if_true] at hrun
  cases hrun
  exact ⟨hctSize, ⟨ct₁, rfl, hctBytes⟩, ss₄, rfl,
    fun i hi => by rw [hmixed i hi, hbytes i hi, Option.map_some]⟩

/-- The shared secret that `pqc_decapsulate` leaves: the answer of the generator, masked with the
ciphertext and with the secret key. -/
theorem pqcDecapsulate_bytes {received : Buffer} {out : Option (List UInt8)}
    (hrun : pqcDecapsulate algo secretKey received sharedSecret rng = .ok (.success, out))
    (hparams : pqcGetParams algo false = .ok params) :
    ∃ sk ct ss, secretKey.data = some sk ∧ received.data = some ct ∧ out = some ss ∧
      ∀ i < params.sharedSecretSize.toNat,
        ss[i]? = some ((rng 0).byte i ^^^ ct.getD (i % ct.length) 0 ^^^ sk.getD
          (i % sk.length) 0) := by
  obtain ⟨herror, -⟩ | ⟨result, out', hrun', hiff, hzero⟩ :=
    pqcDecapsulate_spec algo secretKey received sharedSecret rng
  · cases hrun.symm.trans herror
  cases hrun.symm.trans hrun'
  have haccepts := hiff.mp rfl
  have hctLen : received.len.toNat ≠ 0 := fun h => hzero ⟨haccepts, UInt64.toNat_inj.mp h⟩
  obtain ⟨params', hparams', hsk, hct, hss, hfills⟩ := haccepts
  cases hparams.symm.trans hparams'
  obtain ⟨sk, hskData, hskLen, hskFit⟩ := holds_data hsk
  obtain ⟨ct, hctData, hctLength, -⟩ := holds_data hct
  obtain ⟨ss, hssData, -, hssFit⟩ := holds_data hss
  obtain ⟨-, hskSize, hssSize, -⟩ := pqcParamsTable_sizes params (pqcGetParams_mem hparams)
  have hskLen' : secretKey.len.toNat ≠ 0 := fun h => hskSize (UInt64.toNat_inj.mp (by simp; omega))
  obtain ⟨ss₁, hssRun, hss₁, hbytes⟩ := randombytesSafe_bytes hfills hssSize hssFit
  obtain ⟨ss₂, hloop, -, hupdated⟩ : ∃ out, loop params.sharedSecretSize.toNat (fun i ss => do
        let ss ← xorAt ct received.len.toNat i ss
        xorAt sk secretKey.len.toNat i ss) ss₁ = .ok out ∧ out.length = ss₁.length ∧
      ∀ i, out[i]? = if i < params.sharedSecretSize.toNat then
        ss₁[i]?.map fun x => x ^^^ ct.getD (i % ct.length) 0 ^^^ sk.getD (i % sk.length) 0
            else ss₁[i]? := by
    refine loop_update (by omega) fun i hi out hout x hx => ?_
    have hset : (out.set i (x ^^^ ct.getD (i % ct.length) 0))[i]? =
        some (x ^^^ ct.getD (i % ct.length) 0) :=
      List.getElem?_set_self (by omega)
    rw [xorAt_eq hctLength hctLen hx, ok_bind, ← hctLength, xorAt_eq hskLen hskLen' hset,
      List.set_set, ← hskLen]
  simp only [pqcDecapsulate, hskData, hctData, hssData, hparams, hssRun, hloop, ok_bind, if_true,
    if_neg (not_or.mpr ⟨UInt64.not_lt.mpr hsk.2, UInt64.not_lt.mpr hct.2⟩),
    if_neg (UInt64.not_lt.mpr hss.2)] at hrun
  cases hrun
  exact ⟨sk, ct, ss₂, hskData, hctData, rfl, fun i hi => by
    rw [hupdated i, if_pos hi, hbytes i hi, Option.map_some]⟩

end Calls

section Exchange

/-- A mask moves to the other side of an equation. -/
theorem xor_eq_iff (a b c : UInt8) : a ^^^ b = c ↔ a = c ^^^ b := by
  constructor
  · rintro rfl
    rw [UInt8.xor_assoc, UInt8.xor_self, UInt8.xor_zero]
  · rintro rfl
    rw [UInt8.xor_assoc, UInt8.xor_self, UInt8.xor_zero]

/-- The first bytes of a buffer are those that an earlier call has left. -/
def Passed (left : Option (List UInt8)) (size : UInt64) (b : Buffer) : Prop :=
  ∃ bytes bytes', left = some bytes ∧ b.data = some bytes' ∧
    bytes'.take size.toNat = bytes.take size.toNat

/-- The sizes of an algorithm with ciphertexts: the shared secret is the shortest. -/
theorem pqcParamsTable_secret : ∀ params ∈ pqcParamsTable, params.ciphertextSize ≠ 0 →
    params.sharedSecretSize ≤ params.ciphertextSize ∧
    params.sharedSecretSize ≤ params.secretKeySize := by
  decide

variable {algo : Int32} {params : PqcParams}
  {publicKey secretKey seed peerKey sharedSecret random ownKey received ownSecret : Buffer}
  {ciphertext : SizedBuffer} {keyRng encRng decRng : ℕ → Outcome} {keys : Keys}
  {enc : Encapsulated} {out : Option (List UInt8)}

/-- In an exchange in which all three calls succeed, the two sides have the same shared secret
exactly if the generator answers, in the call of `pqc_decapsulate`, with the one string that undoes
the masks: the encapsulated secret masked with the ciphertext and with the secret key. The public
key does not count. -/
theorem kem_exchange_agrees_iff
    (hkeygen : pqcKeygen algo publicKey secretKey seed keyRng = .ok keys)
    (hkeys : keys.result = .success)
    (hencapsulate : pqcEncapsulate algo peerKey ciphertext sharedSecret random encRng = .ok enc)
    (henc : enc.result = .success)
    (hdecapsulate : pqcDecapsulate algo ownKey received ownSecret decRng = .ok (.success, out))
    (hparams : pqcGetParams algo false = .ok params)
    (hown : Passed keys.secretKey params.secretKeySize ownKey)
    (hreceived : Passed enc.ciphertext params.ciphertextSize received) :
    (∀ i < params.sharedSecretSize.toNat, (out.getD [])[i]? = (enc.sharedSecret.getD [])[i]?) ↔
      ∀ i < params.sharedSecretSize.toNat, (decRng 0).byte i = (encRng 2).byte i ^^^
        mask random i ^^^ (encRng 0).byte i ^^^ (keyRng 1).byte i ^^^ mask seed i := by
  obtain ⟨sk, hsk, hskBytes⟩ := pqcKeygen_bytes hkeygen hkeys hparams
  obtain ⟨hctSize, ⟨ct, hct, hctBytes⟩, ss, hss, hssBytes⟩ :=
    pqcEncapsulate_bytes hencapsulate henc hparams
  obtain ⟨sk', ct', ss', hsk', hct', hss', hbytes⟩ := pqcDecapsulate_bytes hdecapsulate hparams
  obtain ⟨hssCt, hssSk⟩ := pqcParamsTable_secret params (pqcGetParams_mem hparams) hctSize
  have hpassed :
    ∀ {left : Option (List UInt8)} {bytes bytes' : List UInt8} {size : UInt64} {b : Buffer} {i : ℕ}
      {x : UInt8}, left = some bytes → b.data = some bytes' → Passed left size b → i < size.toNat →
      bytes[i]? = some x →
        bytes'.getD (i % bytes'.length) 0 = x := by
    rintro left bytes bytes' size b i x rfl hb ⟨_, _, hleft, hdata, htake⟩ hi hx
    cases hleft
    cases hdata.symm.trans hb
    have hx' : bytes'[i]? = some x := by
      rw [← List.getElem?_take_of_lt hi, htake, List.getElem?_take_of_lt hi, hx]
    obtain ⟨hi', -⟩ := List.getElem?_eq_some_iff.mp hx'
    rw [Nat.mod_eq_of_lt hi', List.getD_eq_getElem?_getD, hx', Option.getD_some]
  refine forall₂_congr fun i hi => ?_
  rw [hss, hss', Option.getD_some, Option.getD_some, hbytes i hi, hssBytes i hi,
    hpassed hct hct' hreceived (Nat.lt_of_lt_of_le hi (UInt64.le_iff_toNat_le.mp hssCt))
      (hctBytes i (Nat.lt_of_lt_of_le hi (UInt64.le_iff_toNat_le.mp hssCt))),
    hpassed hsk hsk' hown (Nat.lt_of_lt_of_le hi (UInt64.le_iff_toNat_le.mp hssSk))
      (hskBytes i (Nat.lt_of_lt_of_le hi (UInt64.le_iff_toNat_le.mp hssSk))), Option.some.injEq,
    xor_eq_iff, xor_eq_iff]
  exact Eq.congr_right (by ac_rfl)

/-- A generator that answers with one byte. -/
def constantRng (b : UInt8) (_ : ℕ) : Outcome := .filled fun _ => b

/-- All answers are zeros but the last one, and the secrets that the second and the third function
give are different. -/
theorem kem_exchange_agrees_iff_constant :
    ∃ keys enc out,
      pqcKeygen 0 (Buffer.zeros 800) (Buffer.zeros 1632) Buffer.null (constantRng 0) = .ok keys ∧
      pqcEncapsulate 0 (Buffer.zeros 800) (SizedBuffer.zeros 768) (Buffer.zeros 16) Buffer.null
        (constantRng 0) = .ok enc ∧
      pqcDecapsulate 0 (Buffer.zeros 1632) (Buffer.zeros 768) (Buffer.zeros 16) (constantRng 1) =
        .ok (.success, out) ∧
      ¬ ∀ i < (16 : UInt64).toNat, (out.getD [])[i]? = (enc.sharedSecret.getD [])[i]? := by
  have hkeygen : pqcKeygen 0 (Buffer.zeros 800) (Buffer.zeros 1632) Buffer.null (constantRng 0) =
      .ok ⟨.success, some (List.replicate 800 0), some (List.replicate 1632 0)⟩ := by decide +kernel
  have hencapsulate : pqcEncapsulate 0 (Buffer.zeros 800) (SizedBuffer.zeros 768)
      (Buffer.zeros 16) Buffer.null (constantRng 0) = .ok
      ⟨.success, some (List.replicate 768 0), some 768, some (List.replicate 16 0)⟩ := by
    decide +kernel
  have hdecapsulate : pqcDecapsulate 0 (Buffer.zeros 1632) (Buffer.zeros 768) (Buffer.zeros 16)
      (constantRng 1) = .ok (.success, some (List.replicate 16 1)) := by decide +kernel
  refine ⟨_, _, _, hkeygen, hencapsulate, hdecapsulate, fun hagree => ?_⟩
  have hbyte := (kem_exchange_agrees_iff hkeygen rfl hencapsulate rfl hdecapsulate rfl
    ⟨_, _, rfl, rfl, rfl⟩ ⟨_, _, rfl, rfl, rfl⟩).mp hagree 0 (by decide)
  exact absurd hbyte (by decide)

end Exchange

section Hybrid

variable {pqcAlgo : Int32} {params : PqcParams} {rng : ℕ → Outcome}

/-- Whatever the generator does, a buffer keeps its length. -/
theorem randombytesSafe_length (outcome : Outcome) {buf : List UInt8} {len : UInt64}
    (hzero : len ≠ 0) (hlen : len.toNat ≤ buf.length) :
    ∃ out, randombytesSafe outcome buf len = .ok (decide outcome.Fills, out) ∧
      out.length = buf.length :=
  ⟨_, randombytesSafe_eq outcome hzero hlen,
    length_overwritten (Nat.le_trans (outcome.length_written len) hlen)⟩

/-- Key generation leaves both buffers their length. -/
theorem fillKeys_length {pk sk : List UInt8} (seed : Buffer) (rng : ℕ → Outcome)
    (hmem : params ∈ pqcParamsTable) (hpkFit : params.publicKeySize.toNat ≤ pk.length)
    (hskFit : params.secretKeySize.toNat ≤ sk.length) :
    ∃ keys pk' sk', fillKeys params pk sk seed rng = .ok keys ∧
      (keys.result = .success ↔ (rng 0).Fills ∧ (rng 1).Fills) ∧ keys.publicKey = some pk' ∧
        keys.secretKey = some sk' ∧ pk'.length = pk.length ∧ sk'.length = sk.length := by
  obtain ⟨hpkSize, hskSize, -, -⟩ := pqcParamsTable_sizes params hmem
  obtain ⟨keys, hkeys, hiff⟩ := fillKeys_spec seed rng hmem hpkFit hskFit
  obtain ⟨pk₁, hpkRun, hpk₁⟩ := randombytesSafe_length (rng 0) hpkSize hpkFit
  obtain ⟨sk₁, hskRun, hsk₁⟩ := randombytesSafe_length (rng 1) hskSize hskFit
  obtain ⟨pk₂, hpkMix, hpk₂, -⟩ := mixIn_bytes seed (hpk₁.symm ▸ hpkFit)
  obtain ⟨sk₂, hskMix, hsk₂, -⟩ := mixIn_bytes seed (hsk₁.symm ▸ hskFit)
  have hrun := hkeys
  simp only [fillKeys, hpkRun, hskRun, hpkMix, hskMix, ok_bind] at hrun
  split_ifs at hrun <;> cases hrun
  · exact ⟨_, _, _, hkeys, hiff, rfl, rfl, hpk₂.trans hpk₁, hsk₂.trans hsk₁⟩
  · exact ⟨_, _, _, hkeys, hiff, rfl, rfl, hpk₁, hsk₁⟩
  · exact ⟨_, _, _, hkeys, hiff, rfl, rfl, hpk₁, rfl⟩

/-- A hybrid key whose first 32 bytes, the Curve25519 key, are zeros, in an object that is as before
after the key. -/
def WithoutCurveKey (size : UInt64) (before : List UInt8) (after : Option (List UInt8)) : Prop :=
  ∃ bytes, after = some bytes ∧ bytes.length = before.length ∧ bytes.take 32 = List.replicate 32 0 ∧
    bytes.drop (32 + size.toNat) = before.drop (32 + size.toNat)

/-- The first part of `pqc_hybrid_keygen` for one of the keys, and what is put together from it. -/
theorem hybridKey_part {size : UInt64} (hsize : size ≤ 8192) {bytes : List UInt8}
    (hfit : 32 + size.toNat ≤ bytes.length) :
    ∃ zeroed b key, secureZero bytes (32 + size) = .ok zeroed ∧ part zeroed 32 size = .ok b ∧
      b.data = some key ∧
      b.len = size ∧ key.length = size.toNat ∧ ∀ key' : List UInt8, key'.length = size.toNat →
        WithoutCurveKey size bytes
        (some (zeroed.take 32 ++ key' ++ zeroed.drop (32 + size).toNat)) := by
  have hadd : (32 + size).toNat = 32 + size.toNat := by
    have hle : size.toNat ≤ 8192 := UInt64.le_iff_toNat_le.mp hsize
    rw [UInt64.toNat_add]
    exact Nat.mod_eq_of_lt (show 32 + size.toNat < 2 ^ 64 by omega)
  have hzero : secureZero bytes (32 + size) = _ := secureZero_eq (hadd.symm ▸ hfit)
  rw [hadd] at hzero
  have hlength :
      (List.replicate (32 + size.toNat) (0 : UInt8) ++ bytes.drop (32 + size.toNat)).length =
      bytes.length := by
    rw [List.length_append, List.length_replicate, List.length_drop]
    omega
  have htake :
    (List.replicate (32 + size.toNat) (0 : UInt8) ++ bytes.drop (32 + size.toNat)).take 32 =
      List.replicate 32 0 := by
    rw [List.take_append_of_le_length (by rw [List.length_replicate]; omega), List.take_replicate,
      Nat.min_eq_left (by omega)]
  refine ⟨_, _, _, hzero, dif_pos (hlength.symm ▸ hfit), rfl, rfl, ?_, fun key' hkey' =>
    ⟨_, rfl, ?_, ?_, ?_⟩⟩
  · rw [List.length_take, List.length_drop, hlength]
    omega
  · rw [List.length_append, List.length_append, hkey', htake, List.length_replicate, hadd,
      List.length_drop, hlength]
    omega
  · rw [htake, List.append_assoc, List.take_left' List.length_replicate]
  · have hhead : (List.replicate 32 (0 : UInt8) ++ key').length = 32 + size.toNat := by
      rw [List.length_append, List.length_replicate, hkey']
    rw [htake, hadd, List.drop_left' hhead, List.drop_left' List.length_replicate]

/-- The clearing of an object that is too small for the key is out of its bounds. -/
theorem secureZero_error {size : UInt64} (hsize : size ≤ 8192) {bytes : List UInt8}
    (hfit : ¬ 32 + size.toNat ≤ bytes.length) :
    secureZero bytes (32 + size) = .error .outOfBounds := by
  have hadd : (32 + size).toNat = 32 + size.toNat := by
    have hle : size.toNat ≤ 8192 := UInt64.le_iff_toNat_le.mp hsize
    rw [UInt64.toNat_add]
    exact Nat.mod_eq_of_lt (show 32 + size.toNat < 2 ^ 64 by omega)
  exact if_neg (by rwa [List.length_replicate, hadd])

/-- Hybrid key generation stays within its objects exactly if they have room for 32 bytes and the
key of the algorithm, whatever lengths the caller declares. Then the Curve25519 parts of both keys
are zeros in every outcome, also of a success. -/
theorem pqcHybridKeygen_spec (hparams : pqcGetParams pqcAlgo false = .ok params)
    (pk sk : List UInt8) (pkLen skLen : UInt64) (rng : ℕ → Outcome) :
    (Total (pqcHybridKeygen pqcAlgo (some pk) (some pkLen) (some sk) (some skLen) rng) ↔
        32 + params.publicKeySize.toNat ≤ pk.length ∧ 32 + params.secretKeySize.toNat ≤ sk.length) ∧
      ∀ out, pqcHybridKeygen pqcAlgo (some pk) (some pkLen) (some sk) (some skLen) rng = .ok out →
        (out.result = .success ↔ (rng 0).Fills ∧ (rng 1).Fills) ∧
        out.publicKeyLen = some (32 + params.publicKeySize) ∧
        out.secretKeyLen = some (32 + params.secretKeySize) ∧
        WithoutCurveKey params.publicKeySize pk out.publicKey ∧
        WithoutCurveKey params.secretKeySize sk out.secretKey := by
  have hmem := pqcGetParams_mem hparams
  obtain ⟨hpkSize, hskSize, -⟩ := pqcParamsTable_small params hmem
  simp only [pqcHybridKeygen, hparams]
  by_cases hpkFit : 32 + params.publicKeySize.toNat ≤ pk.length
  swap
  · rw [secureZero_error hpkSize hpkFit, error_bind]
    exact ⟨iff_of_false (not_total_error _) fun h => hpkFit h.1, fun out hout => by cases hout⟩
  obtain ⟨pk₁, pkPart, pk₂, hpkZero, hpkPart, hpkData, hpkLen, hpk₂, hpkKey⟩ :=
    hybridKey_part hpkSize hpkFit
  rw [hpkZero, ok_bind]
  by_cases hskFit : 32 + params.secretKeySize.toNat ≤ sk.length
  swap
  · rw [secureZero_error hskSize hskFit, error_bind]
    exact ⟨iff_of_false (not_total_error _) fun h => hskFit h.2, fun out hout => by cases hout⟩
  obtain ⟨sk₁, skPart, sk₂, hskZero, hskPart, hskData, hskLen, hsk₂, hskKey⟩ :=
    hybridKey_part hskSize hskFit
  obtain ⟨keys, pk₃, sk₃, hfill, hiff, hpkEq, hskEq, hpk₃, hsk₃⟩ :=
    fillKeys_length Buffer.null rng hmem (Nat.le_of_eq hpk₂.symm) (Nat.le_of_eq hsk₂.symm)
  have hkeygen : pqcKeygen pqcAlgo pkPart skPart Buffer.null rng = .ok keys := by
    rw [← hfill]
    simp only [pqcKeygen, hparams, hpkData, hskData, hpkLen, hskLen, UInt64.lt_irrefl,
      or_self, if_false]
  rw [hskZero, ok_bind, hpkPart, ok_bind, hskPart, ok_bind, hkeygen, ok_bind, hpkEq, hskEq,
    Option.getD_some, Option.getD_some]
  refine ⟨iff_of_true (total_ok _) ⟨hpkFit, hskFit⟩, fun out hout => ?_⟩
  cases hout
  exact ⟨hiff, rfl, rfl, hpkKey pk₃ (hpk₃.trans hpk₂), hskKey sk₃ (hsk₃.trans hsk₂)⟩

/-- With the smallest objects for the first algorithm. -/
theorem pqcHybridKeygen_spec_first :
    Total (pqcHybridKeygen 0 (some (List.replicate 832 7)) (some 0)
      (some (List.replicate 1664 7)) (some 0) (constantRng 0)) ∧
      ¬ Total (pqcHybridKeygen 0 (some (List.replicate 831 7)) (some 832)
        (some (List.replicate 1664 7)) (some 1664) (constantRng 0)) := by
  refine ⟨(pqcHybridKeygen_spec rfl _ _ _ _ _).1.mpr ⟨?_, ?_⟩, fun h => ?_⟩
  · rw [List.length_replicate]
    decide
  · rw [List.length_replicate]
    decide
  · have hfit := ((pqcHybridKeygen_spec rfl _ _ _ _ _).1.mp h).1
    rw [List.length_replicate] at hfit
    exact absurd hfit (by decide)

end Hybrid

section Signatures

variable {algo : Int32} {params : PqcParams} {publicKey secretKey message random made : Buffer}
  {signature : SizedBuffer} {rng : ℕ → Outcome} {signed : Signed}

/-- A message that `pqc_sign` has signed is refused by `pqc_verify`, with a public key and a
signature of the sizes of the algorithm. -/
theorem pqcVerify_signed (hsign : pqcSign algo secretKey message signature random rng = .ok signed)
    (hsigned : signed.result = .success) (hparams : pqcGetParams algo false = .ok params)
    (hpk : publicKey.Holds params.publicKeySize) (hmade : made.Holds params.signatureSize) :
    pqcVerify algo publicKey message made = .verificationFailed := by
  obtain ⟨signed', hsign', hiff⟩ := pqcSign_spec algo secretKey message signature random rng
  obtain rfl : signed = signed' := Except.ok.inj (hsign.symm.trans hsign')
  obtain ⟨-, -, -, hmsg, -⟩ := hiff.mp hsigned
  obtain ⟨pk, hpkData, -, -⟩ := holds_data hpk
  obtain ⟨msg, hmsgData⟩ := Option.ne_none_iff_exists'.mp hmsg
  obtain ⟨sig, hsigData, -, -⟩ := holds_data hmade
  simp only [pqcVerify, hpkData, hmsgData, hsigData, hparams,
    if_neg (not_or.mpr ⟨UInt64.not_lt.mpr hpk.2, UInt64.not_lt.mpr hmade.2⟩)]

end Signatures

end TweetNacl.Pqc
