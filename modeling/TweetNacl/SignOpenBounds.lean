import TweetNacl.CoreSelftest
import TweetNacl.Fips1865
import TweetNacl.Malleability

/-!
# Where `crypto_sign_open` writes

`crypto_sign_open` copies the whole signed message to its output buffer before it looks at the
signature. Its callers in the library give it a buffer for the message alone. Local arrays that are
passed on are objects of the memory; the results of the random number generator are parameters.
-/

namespace TweetNacl

open Memory Limbs Ed25519

/-- No access of the program leaves its object. -/
def InBounds {α : Type} (x : Exec α) (mem : Mem) : Prop := ∀ fault, ¬ Faults x mem fault

section Code

variable (hash : List UInt8 → Vector UInt8 64)

/-- `secure_zero`, `fips_zeroize` or `secure_zeroize` of some buffers in turn. -/
def zeroizeAll : List (Addr × ℕ) → Exec Unit
  | [] => pure ()
  | (p, n) :: buffers => do
    secureZero p n
    zeroizeAll buffers

/-- `fips_kat_ed25519` between the clearing of its buffers, with the message `FIPS KAT` in `msg`. -/
def katEd25519Body (rng : RngAnswer 32) (pk sk sm m smlen mlen msg : Addr) : Exec Int32 := do
  if (← cryptoSignKeypair hash rng (some pk) (some sk)) ≠ 0 then return -1
  if (← cryptoSign hash (some sm) (some smlen) (some msg) 8 (some sk)) ≠ 0 then return -1
  let n ← loadU64 smlen
  if (← cryptoSignOpen hash (some m) (some mlen) (some sm) n (some pk)) ≠ 0 then return -1
  let len ← loadU64 mlen
  if len ≠ 8 then return -1
  let recovered ← loadVec m len.toNat
  let expected ← loadVec msg len.toNat
  if secureMemcmp recovered expected ≠ 0 then return -1
  return 0

/-- `fips_kat_ed25519`. -/
def fipsKatEd25519 (rng : RngAnswer 32) : Exec Int32 :=
  withLocal 32 fun pk => withLocal 64 fun sk => withLocal 96 fun sm => withLocal 32 fun m =>
  withLocal 8 fun smlen => withLocal 8 fun mlen => withLocal 9 fun msg => do
    storeBytes msg [70, 73, 80, 83, 32, 75, 65, 84, 0]
    zeroizeAll [(pk, 32), (sk, 64), (sm, 96), (m, 32)]
    let ret ← katEd25519Body hash rng pk sk sm m smlen mlen msg
    zeroizeAll [(pk, 32), (sk, 64), (sm, 96), (m, 32)]
    pure ret

/-- `fips_pct_keygen_ed25519` between the clearing of its buffers. The message is opened into its
own buffer. -/
def pctEd25519Body (rngMsg rng : RngAnswer 32) (pk sk sig msg smlen mlen : Addr) : Exec Int32 := do
  if (← randombytesSafe rngMsg msg) ≠ 0 then return -1
  if (← cryptoSignKeypair hash rng (some pk) (some sk)) ≠ 0 then return -1
  if (← cryptoSign hash (some sig) (some smlen) (some msg) 32 (some sk)) ≠ 0 then return -1
  let n ← loadU64 smlen
  if (← cryptoSignOpen hash (some msg) (some mlen) (some sig) n (some pk)) ≠ 0 then return -1
  return 0

/-- `fips_pct_keygen_ed25519`. -/
def fipsPctKeygenEd25519 (rngMsg rng : RngAnswer 32) : Exec Int32 :=
  withLocal 32 fun pk => withLocal 64 fun sk => withLocal 96 fun sig => withLocal 32 fun msg =>
  withLocal 8 fun smlen => withLocal 8 fun mlen => do
    zeroizeAll [(pk, 32), (sk, 64), (sig, 96), (msg, 32)]
    let ret ← pctEd25519Body hash rngMsg rng pk sk sig msg smlen mlen
    zeroizeAll [(pk, 32), (sk, 64), (sig, 96), (msg, 32)]
    pure ret

/-- The signing and opening of a message of 16 bytes with a new key pair, as the core self-tests do
it. -/
def signatureSelftest (rng : RngAnswer 32) (message : List UInt8) : Exec Bool :=
  withLocal 32 fun pk => withLocal 64 fun sk => withLocal 16 fun msg =>
  withLocal 80 fun signedMsg =>
  withLocal 8 fun signedLen => withLocal 16 fun verifiedMsg => withLocal 8 fun verifiedLen => do
    storeBytes msg message
    if (← cryptoSignKeypair hash rng (some pk) (some sk)) ≠ 0 then return false
    if (← cryptoSign hash (some signedMsg) (some signedLen) (some msg) 16 (some sk)) ≠ 0 then
      zeroizeAll [(pk, 32), (sk, 64)]
      return false
    let _ ← loadVec signedMsg 64
    let n ← loadU64 signedLen
    if (← cryptoSignOpen hash (some verifiedMsg) (some verifiedLen) (some signedMsg) n
        (some pk)) ≠ 0 then
      zeroizeAll [(pk, 32), (sk, 64)]
      return false
    zeroizeAll [(pk, 32), (sk, 64)]
    return true

/-- `Test message` in an array of 16 bytes. -/
def testMessage : List UInt8 :=
  [84, 101, 115, 116, 32, 109, 101, 115, 115, 97, 103, 101, 0, 0, 0, 0]

/-- `Consistency test`. -/
def consistencyTest : List UInt8 :=
  [67, 111, 110, 115, 105, 115, 116, 101, 110, 99, 121, 32, 116, 101, 115, 116]

/-- `fips_selftest_ed25519`. -/
def fipsSelftestEd25519 (rng : RngAnswer 32) : Exec Int32 := do
  if ← signatureSelftest hash rng testMessage then return Core.naclSuccess
  return Core.naclErrorSelfTestFailed

/-- `fips_conditional_selftest_keygen` with its test. -/
def fipsConditionalSelftestKeygen (rng : RngAnswer 32) (s : Core.Status) :
    Exec (Int32 × Core.Status) :=
  Core.fipsConditionalSelftestKeygen (signatureSelftest hash rng consistencyTest) s

end Code

section Programs

variable {α β : Type} {mem mem' : Mem} {fault : Fault}

/-- A program that runs is in bounds. -/
theorem InBounds.of_runs {x : Exec α} {a : α} (h : Runs x mem a mem') : InBounds x mem :=
  fun _ => h.not_faults

/-- A program goes on after a call that returns zero. -/
theorem Faults.guard {x : Exec Int32} {a b : Exec β} (hx : Runs x mem 0 mem')
    (hb : Faults b mem' fault) :
    Faults (x >>= fun ret => if ret ≠ 0 then a else b) mem fault :=
  Faults.bind_right hx (by rwa [if_neg (not_not.mpr rfl)])

/-- A program takes its failure exit after a call that returns something else. -/
theorem Runs.guard {x : Exec Int32} {a b : Exec β} {ret : Int32} {v : β} {mem'' : Mem}
    (hx : Runs x mem ret mem') (hret : ret ≠ 0) (ha : Runs a mem' v mem'') :
    Runs (x >>= fun ret => if ret ≠ 0 then a else b) mem v mem'' :=
  Runs.bind hx (by rwa [if_pos hret])

/-- Clearing valid buffers runs to its end. -/
theorem zeroizeAll_runs {buffers : List (Addr × ℕ)} (h : ∀ b ∈ buffers, mem.Valid b.1 b.2) :
    ∃ mem', Runs (zeroizeAll buffers) mem () mem' ∧ mem'.size = mem.size := by
  induction buffers generalizing mem with
  | nil => exact ⟨mem, Runs.pure _ _, rfl⟩
  | cons b buffers ih =>
    have hzero := secureZero_runs (h b List.mem_cons_self)
    have hvalid : ∀ b' ∈ buffers, (mem.write b.1 b.2 fun _ => 0).Valid b'.1 b'.2 := fun b' hb' =>
      h b' (List.mem_cons_of_mem b hb')
    obtain ⟨mem', hrun, hsize⟩ := ih hvalid
    exact ⟨mem', hzero.bind hrun, hsize⟩

end Programs

section Selftests

variable (hash : List UInt8 → Vector UInt8 64) {mem : Mem} {pk sk sm smlen msg m mlen : Addr}
  {n : UInt64} {rng : RngAnswer 32} {c : ℕ}

/-- The buffers of a self-test that signs `n` bytes and opens the result into `c` bytes. -/
structure SelftestBuffers (mem : Mem) (pk sk sm smlen msg m : Addr) (n c : ℕ) : Prop where
  signing : SignBuffers mem sm smlen msg sk n
  valid_pk : mem.Valid pk 32
  pk_sk : Disjoint pk 32 sk 64
  pk_sm : Disjoint pk 32 sm (n + 64)
  pk_smlen : Disjoint pk 32 smlen 8
  sm_m : Disjoint sm (n + 64) m (n + 64)
  size_m : mem.size m.obj = m.off + c
  short : c < n + 64

/-- A new key pair signs a message; opening the signed message then writes past the end of `m`. -/
theorem selftest_overflows (mlen : Addr) (hrng : rng.status = 0)
    (h : SelftestBuffers mem pk sk sm smlen msg m n.toNat c) (hn : n ≤ sizeMax - 128) :
    ∃ mem₁ mem₂, Runs (cryptoSignKeypair hash rng (some pk) (some sk)) mem 0 mem₁ ∧
      Runs (cryptoSign hash (some sm) (some smlen) (some msg) n (some sk)) mem₁ 0 mem₂ ∧
      Runs (loadU64 smlen) mem₂ (n + 64) mem₂ ∧ mem₂.Valid sm (n.toNat + 64) ∧
      Faults (cryptoSignOpen hash (some m) (some mlen) (some sm) (n + 64) (some pk)) mem₂
        (.store (m + c)) := by
  have hn' : n ≤ sizeMax - 64 := UInt64.le_trans hn (by decide)
  have hlen : (n + 64).toNat = n.toNat + 64 := toNat_add_of_le hn' le_rfl
  have hs := h.signing
  obtain ⟨mem₁, hkeys, hkey, hsize₁, -⟩ :=
    cryptoSignKeypair_runs hash hrng h.valid_pk hs.valid_sk h.pk_sk
  have hvalid₁ : ∀ {p k}, mem.Valid p k → mem₁.Valid p k := fun hp i hi => hsize₁ ▸ hp i hi
  obtain ⟨mem₂, hsign, hsmlen, -, hpk, hsize₂, -⟩ :=
    hkey.sign ⟨hvalid₁ hs.valid_sm, hvalid₁ hs.valid_mlen, hvalid₁ hs.valid_m, hvalid₁ hs.valid_sk,
      hs.m_sm, hs.sk_sm, hs.mlen_sm, hs.m_mlen, hs.sk_mlen⟩ h.pk_sm
    h.pk_smlen hn'
  have hvalid₂ : ∀ {p k}, mem.Valid p k → mem₂.Valid p k := fun hp i hi => hsize₂ ▸ hvalid₁ hp i hi
  have hload := Runs.loadU64 (hvalid₂ hs.valid_mlen)
  rw [hsmlen] at hload
  obtain ⟨q, hq, -⟩ := unpackneg_encode (leNat_publicKey hash rng.bytes.toList)
  refine ⟨mem₁, mem₂, hkeys, hsign, hload, hvalid₂ hs.valid_sm, ?_⟩
  have hmax : n.toNat ≤ 0xffffffffffffffff - 128 := hn
  refine cryptoSignOpen_overflows hash
    (UInt64.le_iff_toNat_le.mpr (by rw [hlen]; exact Nat.le_add_left _ _))
    (UInt64.le_iff_toNat_le.mpr (by rw [hlen]; change _ ≤ 0xffffffffffffffff - 64; omega))
    (hlen ▸ hvalid₂ hs.valid_sm) (hvalid₂ h.valid_pk) (hlen ▸ h.sm_m) (hpk ▸ hq) (hlen ▸ h.short) ?_
  rw [hsize₂, hsize₁, h.size_m]

/-- Without random bytes there is no key pair. -/
theorem cryptoSignKeypair_fails (pk : Addr) (hrng : rng.status ≠ 0) (hsk : mem.Valid sk 64) :
    ∃ mem', Runs (cryptoSignKeypair hash rng (some pk) (some sk)) mem (-1) mem' ∧
      mem'.size = mem.size := by
  have hrandom : Runs (randombytesSafe rng sk) mem rng.status (mem.writeVec sk rng.bytes) :=
    (Runs.storeVec (hsk.mono (by norm_num)) _).bind (Runs.pure _ _)
  exact ⟨_, Runs.guard hrandom hrng (Runs.pure _ _), rfl⟩

/-- The local objects of a program that started in `mem` are all there in `mem'`. -/
def Locals (mem : Mem) (sizes : List ℕ) (mem' : Mem) : Prop := mem'.size = (mem.allocs sizes).size

variable {sizes : List ℕ} {mem' : Mem}

/-- A local object is valid in its size. -/
theorem Locals.valid (h : Locals mem sizes mem') (i : ℕ) {k : ℕ} (hi : sizes[i]? = some k) :
    mem'.Valid ⟨mem.fresh + i, 0⟩ k := fun j hj => by
  have hsize := Mem.valid_allocs (m := mem) hi j hj
  rwa [← h] at hsize

/-- Clearing local objects keeps them all. -/
theorem Locals.zeroizeAll (h : Locals mem sizes mem') (buffers : List (ℕ × ℕ))
    (hall : ∀ b ∈ buffers, sizes[b.1]? = some b.2) :
    ∃ mem'', Runs (TweetNacl.zeroizeAll (buffers.map fun b => (⟨mem.fresh + b.1, 0⟩, b.2)))
      mem' () mem'' ∧
      Locals mem sizes mem'' := by
  have hvalid : ∀ b ∈ buffers.map fun b => ((⟨mem.fresh + b.1, 0⟩ : Addr), b.2),
      mem'.Valid b.1 b.2 := fun b hb => by
    obtain ⟨b', hb', rfl⟩ := List.mem_map.mp hb
    exact h.valid b'.1 (hall b' hb')
  obtain ⟨mem'', hrun, hsize⟩ := zeroizeAll_runs hvalid
  exact ⟨mem'', hrun, hsize.trans h⟩

/-- The buffers of a self-test among its local objects. -/
theorem Locals.selftestBuffers (h : Locals mem sizes mem') (a b s l t d : ℕ) {n j k c : ℕ}
    (hpk : sizes[a]? = some 32) (hsk : sizes[b]? = some 64) (hsm : sizes[s]? = some k)
    (hk : n + 64 ≤ k) (hlen : sizes[l]? = some 8) (hmsg : sizes[t]? = some j) (hj : n ≤ j)
    (hm : sizes[d]? = some c) (hc : c < n + 64) (hnodup : [a, b, s, l, t].Nodup) (hsd : s ≠ d) :
    SelftestBuffers mem' ⟨mem.fresh + a, 0⟩ ⟨mem.fresh + b, 0⟩ ⟨mem.fresh + s, 0⟩ ⟨mem.fresh + l, 0⟩
      ⟨mem.fresh + t, 0⟩ ⟨mem.fresh + d, 0⟩ n c := by
  have hdisjoint : ∀ {i j n k : ℕ}, i ≠ j →
      Disjoint ⟨mem.fresh + i, 0⟩ n ⟨mem.fresh + j, 0⟩ k := fun hij =>
    Disjoint.of_obj_ne (fun heq => hij (Nat.add_left_cancel heq)) _ _
  simp only [List.nodup_cons, List.mem_cons, List.not_mem_nil, or_false, not_or] at hnodup
  obtain ⟨⟨hab, has, hal, -⟩, ⟨hbs, hbl, -⟩, ⟨hsl, hst⟩, hlt, -⟩ := hnodup
  refine ⟨⟨(h.valid s hsm).mono hk, h.valid l hlen, (h.valid t hmsg).mono hj, h.valid b hsk,
    hdisjoint (Ne.symm hst), hdisjoint hbs, hdisjoint (Ne.symm hsl), hdisjoint (Ne.symm hlt),
    hdisjoint hbl⟩, h.valid a hpk, hdisjoint hab,
    hdisjoint has, hdisjoint hal, hdisjoint hsd, ?_, hc⟩
  rw [h, Mem.size_allocs hm, Nat.zero_add]

/-- The known-answer test opens 72 bytes into 32, if there is a key pair. -/
theorem fipsKatEd25519_inBounds_iff : InBounds (fipsKatEd25519 hash rng) mem ↔ rng.status ≠ 0 := by
  have h₀ : Locals mem [32, 64, 96, 32, 8, 8, 9] (mem.allocs [32, 64, 96, 32, 8, 8, 9]) := rfl
  obtain ⟨mem₁, hmem₁⟩ : ∃ mem₁, mem₁ = (mem.allocs [32, 64, 96, 32, 8, 8, 9]).writeBytes
    ⟨mem.fresh + 6, 0⟩ [70, 73, 80, 83, 32, 75, 65, 84, 0] := ⟨_, rfl⟩
  have h₁ : Locals mem [32, 64, 96, 32, 8, 8, 9] mem₁ := hmem₁ ▸ h₀
  have hstore := Runs.storeBytes (l := [70, 73, 80, 83, 32, 75, 65, 84, 0]) (h₀.valid 6 rfl)
  obtain ⟨mem₂, hzero, h₂⟩ := h₁.zeroizeAll [(0, 32), (1, 64), (2, 96), (3, 32)] (by decide)
  rw [← hmem₁] at hstore
  refine ⟨fun h hrng => ?_, fun hrng => ?_⟩
  · obtain ⟨mem₃, mem₄, hkeys, hsign, hload, -, hopen⟩ :=
      selftest_overflows hash ⟨mem.fresh + 5, 0⟩ hrng (show SelftestBuffers mem₂ _ _ _ _ _ _
        (8 : UInt64).toNat 32 from h₂.selftestBuffers 0 1 2 4 6 3 rfl rfl rfl
        (by decide) rfl rfl (by decide) rfl (by decide) (by decide) (by decide)) (by decide)
    have hbody : Faults (katEd25519Body hash rng ⟨mem.fresh + 0, 0⟩ ⟨mem.fresh + 1, 0⟩
        ⟨mem.fresh + 2, 0⟩ ⟨mem.fresh + 3, 0⟩ ⟨mem.fresh + 4, 0⟩ ⟨mem.fresh + 5, 0⟩
        ⟨mem.fresh + 6, 0⟩) mem₂ _ :=
      Faults.guard hkeys (Faults.guard hsign (Faults.bind_right hload (Faults.bind_left hopen)))
    exact h _ (Faults.withLocal (Faults.withLocal (Faults.withLocal (Faults.withLocal
      (Faults.withLocal (Faults.withLocal (Faults.withLocal (Faults.bind_right hstore
        (Faults.bind_right hzero (Faults.bind_left hbody))))))))))
  · obtain ⟨mem₃, hkeys, hsize₃⟩ :=
      cryptoSignKeypair_fails hash ⟨mem.fresh + 0, 0⟩ hrng (h₂.valid 1 rfl)
    obtain ⟨mem₄, hzero₄, -⟩ :=
      Locals.zeroizeAll (hsize₃.trans h₂) [(0, 32), (1, 64), (2, 96), (3, 32)] (by decide)
    have hbody : Runs (katEd25519Body hash rng ⟨mem.fresh + 0, 0⟩ ⟨mem.fresh + 1, 0⟩
        ⟨mem.fresh + 2, 0⟩ ⟨mem.fresh + 3, 0⟩ ⟨mem.fresh + 4, 0⟩ ⟨mem.fresh + 5, 0⟩
        ⟨mem.fresh + 6, 0⟩) mem₂ (-1) mem₃ :=
      Runs.guard hkeys (by decide) (Runs.pure _ _)
    exact InBounds.of_runs (Runs.withLocal (Runs.withLocal (Runs.withLocal (Runs.withLocal
      (Runs.withLocal (Runs.withLocal (Runs.withLocal (hstore.bind (hzero.bind (hbody.bind
        (hzero₄.bind (Runs.pure _ _))))))))))))

/-- The pairwise test opens 96 bytes into 32, if there are a message and a key pair. -/
theorem fipsPctKeygenEd25519_inBounds_iff {rngMsg : RngAnswer 32} :
    InBounds (fipsPctKeygenEd25519 hash rngMsg rng) mem ↔ rngMsg.status ≠ 0 ∨ rng.status ≠ 0 := by
  have h₀ : Locals mem [32, 64, 96, 32, 8, 8] (mem.allocs [32, 64, 96, 32, 8, 8]) := rfl
  obtain ⟨mem₁, hzero, h₁⟩ := h₀.zeroizeAll [(0, 32), (1, 64), (2, 96), (3, 32)] (by decide)
  obtain ⟨mem₂, hmem₂⟩ : ∃ mem₂, mem₂ = mem₁.writeVec ⟨mem.fresh + 3, 0⟩ rngMsg.bytes := ⟨_, rfl⟩
  have h₂ : Locals mem [32, 64, 96, 32, 8, 8] mem₂ := hmem₂ ▸ h₁
  have hrandom : Runs (randombytesSafe rngMsg ⟨mem.fresh + 3, 0⟩) mem₁ rngMsg.status mem₂ :=
    hmem₂ ▸ (Runs.storeVec (h₁.valid 3 rfl) _).bind (Runs.pure _ _)
  have hinBounds : ∀ {mem₃}, Runs (pctEd25519Body hash rngMsg rng ⟨mem.fresh + 0, 0⟩
      ⟨mem.fresh + 1, 0⟩ ⟨mem.fresh + 2, 0⟩ ⟨mem.fresh + 3, 0⟩ ⟨mem.fresh + 4, 0⟩
      ⟨mem.fresh + 5, 0⟩) mem₁ (-1) mem₃ →
      Locals mem [32, 64, 96, 32, 8, 8] mem₃ →
      InBounds (fipsPctKeygenEd25519 hash rngMsg rng) mem :=
    fun hbody h₃ => by
      obtain ⟨mem₄, hzero₄, -⟩ := h₃.zeroizeAll [(0, 32), (1, 64), (2, 96), (3, 32)] (by decide)
      exact InBounds.of_runs (Runs.withLocal (Runs.withLocal (Runs.withLocal (Runs.withLocal
        (Runs.withLocal (Runs.withLocal (hzero.bind (hbody.bind (hzero₄.bind
          (Runs.pure _ _))))))))))
  by_cases hmsg : rngMsg.status = 0
  · rw [hmsg] at hrandom
    refine ⟨fun h => Or.inr fun hrng => ?_, fun h => ?_⟩
    · obtain ⟨mem₃, mem₄, hkeys, hsign, hload, -, hopen⟩ :=
        selftest_overflows hash ⟨mem.fresh + 5, 0⟩ hrng (show SelftestBuffers mem₂ _ _ _ _ _ _
          (32 : UInt64).toNat 32 from h₂.selftestBuffers 0 1 2 4 3 3 rfl
          rfl rfl (by decide) rfl rfl (by decide) rfl (by decide) (by decide) (by decide))
          (by decide)
      have hbody : Faults (pctEd25519Body hash rngMsg rng ⟨mem.fresh + 0, 0⟩ ⟨mem.fresh + 1, 0⟩
          ⟨mem.fresh + 2, 0⟩ ⟨mem.fresh + 3, 0⟩ ⟨mem.fresh + 4, 0⟩ ⟨mem.fresh + 5, 0⟩) mem₁ _ :=
        Faults.guard hrandom (Faults.guard hkeys (Faults.guard hsign (Faults.bind_right hload
          (Faults.bind_left hopen))))
      exact h _ (Faults.withLocal (Faults.withLocal (Faults.withLocal (Faults.withLocal
        (Faults.withLocal (Faults.withLocal (Faults.bind_right hzero (Faults.bind_left hbody))))))))
    · have hrng := h.resolve_left (not_not.mpr hmsg)
      obtain ⟨mem₃, hkeys, hsize₃⟩ :=
        cryptoSignKeypair_fails hash ⟨mem.fresh + 0, 0⟩ hrng (h₂.valid 1 rfl)
      exact hinBounds (hrandom.bind (Runs.guard hkeys (by decide) (Runs.pure _ _)))
        (hsize₃.trans h₂)
  · exact ⟨fun _ => Or.inl hmsg, fun _ => hinBounds (Runs.guard hrandom hmsg (Runs.pure _ _)) h₂⟩

/-- The core self-tests open 80 bytes into 16, if there is a key pair. -/
theorem signatureSelftest_overflows (hrng : rng.status = 0) {message : List UInt8}
    (hmessage : message.length = 16) :
    Faults (signatureSelftest hash rng message) mem
      (.store ((⟨mem.fresh + 5, 0⟩ : Addr) + 16)) := by
  have h₀ : Locals mem [32, 64, 16, 80, 8, 16, 8] (mem.allocs [32, 64, 16, 80, 8, 16, 8]) := rfl
  have hstore :=
    Runs.storeBytes (show (mem.allocs [32, 64, 16, 80, 8, 16, 8]).Valid
    ⟨mem.fresh + 2, 0⟩ message.length by rw [hmessage]; exact h₀.valid 2 rfl)
  obtain ⟨mem₁, hmem₁⟩ : ∃ mem₁, mem₁ = (mem.allocs [32, 64, 16, 80, 8, 16, 8]).writeBytes
    ⟨mem.fresh + 2, 0⟩ message := ⟨_, rfl⟩
  have h₁ : Locals mem [32, 64, 16, 80, 8, 16, 8] mem₁ := hmem₁ ▸ h₀
  rw [← hmem₁] at hstore
  obtain ⟨mem₂, mem₃, hkeys, hsign, hload, hsigned, hopen⟩ :=
    selftest_overflows hash ⟨mem.fresh + 6, 0⟩ hrng (show SelftestBuffers mem₁ _ _ _ _ _ _
      (16 : UInt64).toNat 16 from h₁.selftestBuffers 0 1 3 4 2 5 rfl rfl rfl
      (by decide) rfl rfl (by decide) rfl (by decide) (by decide) (by decide)) (by decide)
  have hsig := Runs.loadVec (hsigned.mono (by decide : 64 ≤ _))
  exact Faults.withLocal (Faults.withLocal (Faults.withLocal (Faults.withLocal (Faults.withLocal
    (Faults.withLocal (Faults.withLocal (Faults.bind_right hstore (Faults.guard hkeys
      (Faults.guard hsign (Faults.bind_right hsig
      (Faults.bind_right hload (Faults.bind_left hopen))))))))))))

/-- Without random bytes the signature test fails and stays in bounds. -/
theorem signatureSelftest_fails (mem : Mem) (hrng : rng.status ≠ 0) {message : List UInt8}
    (hmessage : message.length = 16) :
    ∃ mem', Runs (signatureSelftest hash rng message) mem false mem' := by
  have h₀ : Locals mem [32, 64, 16, 80, 8, 16, 8] (mem.allocs [32, 64, 16, 80, 8, 16, 8]) := rfl
  have hstore :=
    Runs.storeBytes (show (mem.allocs [32, 64, 16, 80, 8, 16, 8]).Valid
    ⟨mem.fresh + 2, 0⟩ message.length by rw [hmessage]; exact h₀.valid 2 rfl)
  obtain ⟨mem₁, hmem₁⟩ : ∃ mem₁, mem₁ = (mem.allocs [32, 64, 16, 80, 8, 16, 8]).writeBytes
    ⟨mem.fresh + 2, 0⟩ message := ⟨_, rfl⟩
  have h₁ : Locals mem [32, 64, 16, 80, 8, 16, 8] mem₁ := hmem₁ ▸ h₀
  rw [← hmem₁] at hstore
  obtain ⟨mem₂, hkeys, -⟩ := cryptoSignKeypair_fails hash ⟨mem.fresh + 0, 0⟩ hrng (h₁.valid 1 rfl)
  exact ⟨_, Runs.withLocal (Runs.withLocal (Runs.withLocal (Runs.withLocal (Runs.withLocal
    (Runs.withLocal (Runs.withLocal (hstore.bind (Runs.guard hkeys (by decide)
      (Runs.pure _ _)))))))))⟩

/-- The self-test is in bounds exactly if it gets no seed. -/
theorem fipsSelftestEd25519_inBounds_iff : InBounds (fipsSelftestEd25519 hash rng) mem ↔
    rng.status ≠ 0 := by
  refine ⟨fun h hrng => h _ (Faults.bind_left (signatureSelftest_overflows hash hrng rfl)),
    fun hrng => ?_⟩
  obtain ⟨mem', hrun⟩ := signatureSelftest_fails hash mem hrng (rfl : testMessage.length = 16)
  exact InBounds.of_runs (hrun.bind (Runs.pure _ _))

/-- The conditional self-test is in bounds exactly if it is not due or gets no seed. -/
theorem fipsConditionalSelftestKeygen_inBounds_iff {status : Core.Status} :
    InBounds (fipsConditionalSelftestKeygen hash rng status) mem ↔ Core.Due status →
      rng.status ≠ 0 := by
  obtain ⟨counter, heq⟩ :=
    Core.fipsConditionalSelftestKeygen_eq (signatureSelftest hash rng consistencyTest) status
  rw [fipsConditionalSelftestKeygen, heq]
  by_cases hdue : Core.Due status
  · rw [if_pos hdue]
    refine ⟨fun h _ hrng => h _ (Faults.bind_left (signatureSelftest_overflows hash hrng rfl)),
      fun h => ?_⟩
    obtain ⟨mem', hrun⟩ :=
      signatureSelftest_fails hash mem (h hdue) (rfl : consistencyTest.length = 16)
    exact InBounds.of_runs (hrun.bind (Runs.pure _ _))
  · rw [if_neg hdue]
    exact ⟨fun _ h => absurd h hdue, fun _ => InBounds.of_runs (Runs.pure _ _)⟩

end Selftests

section Callers

variable (hash : List UInt8 → Vector UInt8 64) {mem : Mem} {m mlen sm pk : Addr}
  {smlen ctxLen : UInt64} {ctx : Ptr}

/-- `crypto_sign_open` refuses the length or the key. -/
def OpenRefuses (mem : Mem) (pk : Addr) (n : UInt64) : Prop :=
  sizeMax - 64 < n ∨ n < 64 ∨ unpackneg (mem.vec pk 32) = none

/-- The refusal depends on the bytes of the public key. -/
theorem openRefuses_congr {mem' : Mem} {n : UInt64} (h : mem'.vec pk 32 = mem.vec pk 32) :
    OpenRefuses mem' pk n ↔ OpenRefuses mem pk n := by rw [OpenRefuses, OpenRefuses, h]

/-- Opening into a short object writes past its end, unless the length or the key is refused. -/
theorem open_overflows {mem' : Mem} (hsm : mem.Valid sm smlen.toNat) (hpk : mem.Valid pk 32)
    (hopen : ¬ OpenRefuses mem pk smlen) {c : ℕ} (hc : c < smlen.toNat) (hm : mem.fresh ≤ m.obj)
    (hoff : m.off = 0) (hsize : mem'.size m.obj = c)
    (hvalid : ∀ {p l}, mem.Valid p l → mem'.Valid p l) (hbyte : mem'.byte = mem.byte) :
    Faults (cryptoSignOpen hash (some m) (some mlen) (some sm) smlen (some pk)) mem'
      (.store (m + c)) := by
  simp only [OpenRefuses, not_or] at hopen
  obtain ⟨hmax, hmin, hkey⟩ := hopen
  obtain ⟨q, hq⟩ := Option.ne_none_iff_exists'.mp hkey
  have hvec : mem'.vec pk 32 = mem.vec pk 32 := by rw [Mem.vec, Mem.vec, hbyte]
  exact cryptoSignOpen_overflows hash (UInt64.not_lt.mp hmin) (UInt64.not_lt.mp hmax) (hvalid hsm)
    (hvalid hpk) (hsm.disjoint_fresh hm _) (by rw [hvec]; exact hq) hc
    (by rw [hsize, hoff, Nat.zero_add])

/-- The two checks of the length of a signed message with a tag are one. -/
theorem sub_lt_iff (hmin : ¬ smlen < 64) : smlen - 64 < 64 ↔ smlen < 128 := by
  have hle : 64 ≤ smlen.toNat := UInt64.le_iff_toNat_le.mp (UInt64.not_lt.mp hmin)
  rw [UInt64.lt_iff_toNat_lt, UInt64.lt_iff_toNat_lt,
    UInt64.toNat_sub_of_le _ _ (UInt64.not_lt.mp hmin)]
  change smlen.toNat - 64 < 64 ↔ smlen.toNat < 128
  omega

/-- `crypto_sign_ed25519ctx_open` opens a signed message into a buffer that is 64 bytes shorter. -/
theorem ctxOpen_inBounds_iff {malloc : Bool} (hsm : mem.Valid sm smlen.toNat)
    (hpk : mem.Valid pk 32) (hctx : ContextValid mem ctx ctxLen) :
    InBounds (cryptoSignEd25519ctxOpen hash malloc (some m) (some mlen) (some sm) smlen
      (some pk) ctx ctxLen) mem ↔
      (ctx ≠ none ∧ 255 < ctxLen) ∨ smlen < 128 ∨ malloc = false ∨ OpenRefuses mem pk smlen := by
  by_cases hlong : ctx ≠ none ∧ ctxLen > 255
  · simp only [cryptoSignEd25519ctxOpen, if_pos hlong]
    exact ⟨fun _ => Or.inl hlong, fun _ => InBounds.of_runs (Runs.pure _ _)⟩
  have hhash := ed25519ctxHash_runs hash hctx hlong
  by_cases hmin : smlen < 64
  · simp only [cryptoSignEd25519ctxOpen, if_neg hlong, if_pos hmin]
    have hlt : smlen < 128 := UInt64.lt_trans hmin (by decide)
    exact ⟨fun _ => Or.inr (Or.inl hlt), fun _ => InBounds.of_runs (hhash.bind (Runs.pure _ _))⟩
  have hsub : (smlen - 64).toNat = smlen.toNat - 64 :=
    UInt64.toNat_sub_of_le _ _ (UInt64.not_lt.mp hmin)
  have hle : 64 ≤ smlen.toNat := UInt64.le_iff_toNat_le.mp (UInt64.not_lt.mp hmin)
  by_cases hpart : smlen - 64 < 64
  · simp only [cryptoSignEd25519ctxOpen, if_neg hlong, if_neg hmin, if_pos hpart]
    have hlt := (sub_lt_iff hmin).mp hpart
    exact ⟨fun _ => Or.inr (Or.inl hlt), fun _ => InBounds.of_runs (hhash.bind (Runs.pure _ _))⟩
  have hmin' : ¬ smlen < 128 := mt (sub_lt_iff hmin).mpr hpart
  cases malloc with
  | false =>
    simp only [cryptoSignEd25519ctxOpen, if_neg hlong, if_neg hmin, if_neg hpart, if_true]
    exact ⟨fun _ => Or.inr (Or.inr (Or.inl trivial)), fun _ =>
      InBounds.of_runs (hhash.bind (Runs.pure _ _))⟩
  | true =>
    simp only [cryptoSignEd25519ctxOpen, if_neg hlong, if_neg hmin, if_neg hpart,
      Bool.true_eq_false, if_false]
    obtain ⟨l, hl⟩ : ∃ l, l = (smlen - 64).toNat := ⟨_, rfl⟩
    rw [← hl] at hsub ⊢
    by_cases hopen : OpenRefuses mem pk smlen
    · refine ⟨fun _ => Or.inr (Or.inr (Or.inr hopen)), fun _ => ?_⟩
      have hrefuse : Runs (cryptoSignOpen hash (some ⟨(mem.alloc 8).fresh, 0⟩) (some ⟨mem.fresh, 0⟩)
          (some sm) smlen (some pk)) ((mem.alloc 8).alloc l) (-1) ((mem.alloc 8).alloc l) :=
        cryptoSignOpen_refuses hash ((hpk.alloc 8).alloc l)
        ((openRefuses_congr (rfl : ((mem.alloc 8).alloc l).vec pk 32 = _)).mpr hopen)
      have hzero := secureZero_runs ((mem.alloc 8).valid_alloc l)
      exact InBounds.of_runs (hhash.bind (Runs.withLocal (Runs.withLocal (hrefuse.bind
        (Runs.bind (Runs.pure _ _) (hzero.bind (Runs.pure _ _)))))))
    · refine ⟨fun h => ?_, fun h => ?_⟩
      · have hfault : Faults (cryptoSignOpen hash (some ⟨(mem.alloc 8).fresh, 0⟩)
            (some ⟨mem.fresh, 0⟩) (some sm) smlen (some pk)) ((mem.alloc 8).alloc l)
            (.store ((⟨(mem.alloc 8).fresh, 0⟩ : Addr) + l)) :=
          open_overflows hash hsm hpk hopen (by omega) (Nat.le_succ _) rfl
          (Mem.alloc_size_fresh _ _)
            (fun hp => (hp.alloc 8).alloc l) rfl
        exact absurd (Faults.bind_right hhash
          (Faults.withLocal (Faults.withLocal (Faults.bind_left hfault)))) (h _)
      · rcases h with hctx' | hlt | hmalloc | hrefuses
        · exact absurd hctx' hlong
        · exact absurd hlt hmin'
        · cases hmalloc
        · exact absurd hrefuses hopen

/-- `crypto_sign_ed25519ph_open` opens a signed message into 64 bytes. -/
theorem phOpen_inBounds_iff (hsm : mem.Valid sm smlen.toNat) (hpk : mem.Valid pk 32) :
    InBounds (cryptoSignEd25519phOpen hash (some m) (some mlen) (some sm) smlen (some pk)) mem ↔
      smlen = 64 ∨ OpenRefuses mem pk smlen := by
  obtain ⟨mem₁, hmem₁⟩ : ∃ mem₁, mem₁ = (mem.alloc 8).alloc 64 := ⟨_, rfl⟩
  have hvalid : ∀ {p l}, mem.Valid p l → mem₁.Valid p l := fun hp => hmem₁ ▸ (hp.alloc 8).alloc 64
  have htmp : mem₁.Valid ⟨(mem.alloc 8).fresh, 0⟩ 64 := hmem₁ ▸ (mem.alloc 8).valid_alloc 64
  have htmpLen : mem₁.Valid ⟨mem.fresh, 0⟩ 8 := hmem₁ ▸ (mem.valid_alloc 8).alloc 64
  have hbyte : mem₁.byte = mem.byte := by rw [hmem₁]; rfl
  have hvec : mem₁.vec pk 32 = mem.vec pk 32 := by rw [Mem.vec, Mem.vec, hbyte]
  have hfails : ∀ {mem₂}, Runs (cryptoSignOpen hash (some ⟨(mem.alloc 8).fresh, 0⟩)
      (some ⟨mem.fresh, 0⟩) (some sm) smlen (some pk)) mem₁ (-1) mem₂ →
      InBounds (cryptoSignEd25519phOpen hash (some m) (some mlen) (some sm) smlen (some pk)) mem :=
      fun hrun => by
    rw [hmem₁] at hrun
    simp only [cryptoSignEd25519phOpen]
    exact InBounds.of_runs
      (Runs.withLocal (Runs.withLocal (Runs.guard hrun (by decide) (Runs.pure _ _))))
  by_cases hopen : OpenRefuses mem pk smlen
  · exact ⟨fun _ => Or.inr hopen, fun _ => hfails (cryptoSignOpen_refuses hash (hvalid hpk)
      ((openRefuses_congr hvec).mpr hopen))⟩
  have hrefuses := hopen
  simp only [OpenRefuses, not_or] at hrefuses
  obtain ⟨hmax, hmin, hkey⟩ := hrefuses
  by_cases hlen : smlen = 64
  · refine ⟨fun _ => Or.inl hlen, fun _ => ?_⟩
    subst hlen
    obtain ⟨q, hq⟩ := Option.ne_none_iff_exists'.mp hkey
    have hbuffers : OpenBuffers mem₁ ⟨(mem.alloc 8).fresh, 0⟩ ⟨mem.fresh, 0⟩ sm pk
        (64 : UInt64).toNat :=
      ⟨htmp, htmpLen, hvalid hsm, hvalid hpk, hsm.disjoint_fresh (Nat.le_succ _) _,
        hpk.disjoint_fresh (Nat.le_succ _) _, Disjoint.of_obj_ne (Nat.succ_ne_self _) _ _⟩
    obtain ⟨mem₂, hrun, hsize₂, -, hu64, -⟩ :=
      cryptoSignOpen_runs hash hbuffers (by decide) (by decide) (by rw [hvec]; exact hq) rfl
    split_ifs at hrun hu64 with haccepted
    · -- an accepted message of no bytes has not the length of a hash
      have hload :=
        Runs.loadU64 (show mem₂.Valid ⟨mem.fresh, 0⟩ 8 from fun i hi => hsize₂ ▸ htmpLen i hi)
      rw [hu64] at hload
      rw [hmem₁] at hrun
      simp only [cryptoSignEd25519phOpen]
      exact InBounds.of_runs
        (Runs.withLocal (Runs.withLocal (hrun.bind (hload.bind (Runs.pure _ _)))))
    · exact hfails hrun
  · have hlt : 64 < smlen.toNat :=
      lt_of_le_of_ne (UInt64.le_iff_toNat_le.mp (UInt64.not_lt.mp hmin))
      fun heq => hlen (UInt64.toNat_inj.mp heq.symm)
    refine ⟨fun h => absurd ?_ (h (.store ((⟨(mem.alloc 8).fresh, 0⟩ : Addr) + 64))),
      fun h => absurd (h.resolve_left hlen) hopen⟩
    have hfault : Faults (cryptoSignOpen hash (some ⟨(mem.alloc 8).fresh, 0⟩) (some ⟨mem.fresh, 0⟩)
        (some sm) smlen (some pk)) ((mem.alloc 8).alloc 64)
        (.store ((⟨(mem.alloc 8).fresh, 0⟩ : Addr) + 64)) :=
      open_overflows hash hsm hpk hopen hlt (Nat.le_succ _) rfl (Mem.alloc_size_fresh _ _)
        (fun hp => (hp.alloc 8).alloc 64) rfl
    simp only [cryptoSignEd25519phOpen]
    exact Faults.withLocal (Faults.withLocal (Faults.bind_left hfault))

/-- The callers of `crypto_sign_open` stay inside their buffers exactly if it refuses the length or
the key, or they do not come to call it; the buffer of 64 bytes also holds a signed message of
64. -/
theorem callers_inBounds_iff {malloc : Bool} {rngMsg rng : RngAnswer 32} {status : Core.Status}
    (hsm : mem.Valid sm smlen.toNat) (hpk : mem.Valid pk 32) (hctx : ContextValid mem ctx ctxLen) :
    (InBounds (cryptoSignEd25519ctxOpen hash malloc (some m) (some mlen) (some sm) smlen
      (some pk) ctx ctxLen) mem ↔
        (ctx ≠ none ∧ 255 < ctxLen) ∨ smlen < 128 ∨ malloc = false ∨ OpenRefuses mem pk smlen) ∧
      (InBounds (cryptoSignEd25519phOpen hash (some m) (some mlen) (some sm) smlen (some pk)) mem ↔
        smlen = 64 ∨ OpenRefuses mem pk smlen) ∧
      (InBounds (fipsKatEd25519 hash rng) mem ↔ rng.status ≠ 0) ∧
      (InBounds (fipsPctKeygenEd25519 hash rngMsg rng) mem ↔ rngMsg.status ≠ 0 ∨ rng.status ≠ 0) ∧
      (InBounds (fipsSelftestEd25519 hash rng) mem ↔ rng.status ≠ 0) ∧
      (InBounds (fipsConditionalSelftestKeygen hash rng status) mem ↔ Core.Due status →
        rng.status ≠ 0) :=
  ⟨ctxOpen_inBounds_iff hash hsm hpk hctx, phOpen_inBounds_iff hash hsm hpk,
    fipsKatEd25519_inBounds_iff hash,
    fipsPctKeygenEd25519_inBounds_iff hash, fipsSelftestEd25519_inBounds_iff hash,
    fipsConditionalSelftestKeygen_inBounds_iff hash⟩

/-- With a signed message of 64 bytes the prehashed variant stays inside its buffer, and with a key
pair the known-answer test does not. -/
theorem callers_inBounds_malleableMemory :
    InBounds (cryptoSignEd25519phOpen Sha512.hash (some ⟨2, 0⟩) (some ⟨3, 0⟩) (some ⟨1, 0⟩) 64
        (some ⟨0, 0⟩)) malleableMemory ∧
      ¬ InBounds (fipsKatEd25519 Sha512.hash ⟨0, Vector.replicate 32 0⟩) malleableMemory := by
  have h := @callers_inBounds_iff Sha512.hash _ ⟨2, 0⟩ ⟨3, 0⟩ _ _ _ 0 none true
    ⟨0, Vector.replicate 32 0⟩ ⟨0, Vector.replicate 32 0⟩ Core.Status.initial
    malleableMemory_buffers.valid_sm malleableMemory_buffers.valid_pk
    (fun _ h => nomatch h)
  exact ⟨h.2.1.mpr (Or.inl rfl), fun hkat => h.2.2.1.mp hkat rfl⟩

/-- The pairwise test of a new key pair writes past the end of its message. -/
theorem fipsPctKeygenEd25519_not_inBounds_zero :
    ¬ InBounds (fipsPctKeygenEd25519 Sha512.hash ⟨0, Vector.replicate 32 0⟩
      ⟨0, Vector.replicate 32 0⟩) (Mem.ofSizes []) := fun h =>
  ((fipsPctKeygenEd25519_inBounds_iff Sha512.hash).mp h).elim
    (fun hmsg => hmsg rfl) fun hrng => hrng rfl

end Callers

end TweetNacl
