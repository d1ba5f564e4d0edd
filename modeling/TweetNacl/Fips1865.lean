import TweetNacl.Box
import TweetNacl.SignCorrect

/-!
# The Ed25519ctx and Ed25519ph interfaces

Both variants call the plain `crypto_sign` and `crypto_sign_open`, on the hash of the context
followed by the message, and on the hash of the message. Whether an allocation succeeds is a
parameter; an allocated buffer lives until the function that allocated it returns.
-/

namespace TweetNacl

open Memory Limbs Ed25519

section Code

variable (hash : List UInt8 → Vector UInt8 64)

/-- `secure_memcmp` on arrays. -/
def secureMemcmp {n : ℕ} (x y : Vector UInt8 n) : Int32 :=
  let result := Nat.fold n (fun i _ (result : UInt8) => result ||| (x[i] ^^^ y[i])) 0
  if result ≠ 0 then -1 else 0

/-- `ed25519ctx_hash`. -/
def ed25519ctxHash (ctx : Ptr) (ctxLen : UInt64) : Exec (Vector UInt8 64) :=
  match ctx with
  | none => pure (Vector.replicate 64 0)
  | some ctx =>
    if ctxLen = 0 then pure (Vector.replicate 64 0)
    else hashOf hash ctx (if ctxLen > 255 then 255 else ctxLen).toNat

/-- `crypto_sign_ed25519ctx`. -/
def cryptoSignEd25519ctx (malloc : Bool) (sm smlen m : Ptr) (mlen : UInt64) (sk ctx : Ptr)
    (ctxLen : UInt64) : Exec Int32 :=
  match sm, smlen, m, sk with
  | some sm, some smlen, some m, some sk =>
    if ctx ≠ none ∧ ctxLen > 255 then pure (-1)
    else do
      let ctxHash ← ed25519ctxHash hash ctx ctxLen
      if mlen > sizeMax - 64 then pure (-1)
      else if malloc = false then pure (-1)
      else withLocal 8 fun outSigLen => withLocal (64 + mlen).toNat fun combined => do
        storeVec combined ctxHash
        copy (combined + 64) m mlen.toNat
        let ret ← cryptoSign hash (some sm) (some outSigLen) (some combined) (64 + mlen) (some sk)
        let _ ← if ret = 0 then loadU64 outSigLen >>= storeU64 smlen else pure ()
        secureZero combined (64 + mlen).toNat
        pure ret
  | _, _, _, _ => pure (-1)

/-- What `crypto_sign_ed25519ctx_open` does with an accepted message in `combined`. -/
def ctxOpenRecovered (m mlen combined recoveredLen : Addr) (msgPartLen : UInt64)
    (ctxHash : Vector UInt8 64) (ret : Int32) : Exec Int32 := do
  let len ← loadU64 recoveredLen
  if len ≠ msgPartLen then pure ret
  else do
    let tag ← loadVec combined 64
    if secureMemcmp tag ctxHash ≠ 0 then pure (-1)
    else do
      copy m (combined + 64) (len - 64).toNat
      storeU64 mlen (len - 64)
      pure ret

/-- `crypto_sign_ed25519ctx_open`. -/
def cryptoSignEd25519ctxOpen (malloc : Bool) (m mlen sm : Ptr) (smlen : UInt64) (pk ctx : Ptr)
    (ctxLen : UInt64) : Exec Int32 :=
  match m, mlen, sm, pk with
  | some m, some mlen, some sm, some pk =>
    if ctx ≠ none ∧ ctxLen > 255 then pure (-1)
    else do
      let ctxHash ← ed25519ctxHash hash ctx ctxLen
      if smlen < 64 then pure (-1)
      else if smlen - 64 < 64 then pure (-1)
      else if malloc = false then pure (-1)
      else withLocal 8 fun recoveredLen => withLocal (smlen - 64).toNat fun combined => do
        let ret ← cryptoSignOpen hash (some combined) (some recoveredLen) (some sm) smlen (some pk)
        let ret ← if ret ≠ 0 then pure ret
          else ctxOpenRecovered m mlen combined recoveredLen (smlen - 64) ctxHash ret
        secureZero combined (smlen - 64).toNat
        pure ret
  | _, _, _, _ => pure (-1)

/-- `crypto_sign_ed25519ph`. -/
def cryptoSignEd25519ph (sm smlen m : Ptr) (mlen : UInt64) (sk : Ptr) : Exec Int32 :=
  match sm, smlen, m, sk with
  | some sm, some smlen, some m, some sk => withLocal 64 fun ph => do
    let h ← hashOf hash m mlen.toNat
    storeVec ph h
    let ret ← cryptoSign hash (some sm) (some smlen) (some ph) 64 (some sk)
    secureZero ph 64
    pure ret
  | _, _, _, _ => pure (-1)

/-- `crypto_sign_ed25519ph_open`. -/
def cryptoSignEd25519phOpen (m mlen sm : Ptr) (smlen : UInt64) (pk : Ptr) : Exec Int32 :=
  match m, mlen, sm, pk with
  | some m, some mlen, some sm, some pk => withLocal 8 fun tmpLen => withLocal 64 fun tmp => do
    let ret ← cryptoSignOpen hash (some tmp) (some tmpLen) (some sm) smlen (some pk)
    if ret ≠ 0 then pure (-1)
    else do
      let len ← loadU64 tmpLen
      if len ≠ 64 then pure (-1)
      else do
        copy m tmp 64
        storeU64 mlen 64
        secureZero tmp 64
        pure 0
  | _, _, _, _ => pure (-1)

end Code

/-- `secure_memcmp` is exact. -/
theorem secureMemcmp_eq_zero {n : ℕ} (x y : Vector UInt8 n) : secureMemcmp x y = 0 ↔ x = y := by
  simp only [secureMemcmp, ← differences_eq_zero x y]
  split
  next h => exact iff_of_false (by decide) h
  next h => exact iff_of_true rfl (not_not.mp h)

section Signing

variable (hash : List UInt8 → Vector UInt8 64) {mem : Mem} {pk sk sm smlen m ctx : Addr}
  {mlen ctxLen : UInt64} {seed : List UInt8}

/-- The buffers of a signing call, with a message of `l` bytes and a signed message of `k`. -/
structure VariantBuffers (mem : Mem) (pk sk sm smlen m : Addr) (l k : ℕ) : Prop where
  valid_sm : mem.Valid sm k
  valid_smlen : mem.Valid smlen 8
  valid_m : mem.Valid m l
  valid_sk : mem.Valid sk 64
  valid_pk : mem.Valid pk 32
  sk_sm : Disjoint sk 64 sm k
  pk_sm : Disjoint pk 32 sm k
  smlen_sm : Disjoint smlen 8 sm k
  sk_smlen : Disjoint sk 64 smlen 8
  pk_smlen : Disjoint pk 32 smlen 8

/-- The bytes of a context. -/
def contextBytes (mem : Mem) (ctx : Ptr) (ctxLen : UInt64) : List UInt8 :=
  match ctx with
  | none => []
  | some ctx => mem.bytes ctx ctxLen.toNat

/-- The context buffer, if there is one. -/
def ContextValid (mem : Mem) (ctx : Ptr) (ctxLen : UInt64) : Prop :=
  ∀ p, ctx = some p → mem.Valid p ctxLen.toNat

/-- What is signed in front of a message: zeros for an empty context, the hash of another one. -/
def contextTag (context : List UInt8) : Vector UInt8 64 :=
  if context = [] then Vector.replicate 64 0 else hash context

/-- The tag of a context is computed in the local array alone. -/
theorem ed25519ctxHash_runs {ctx : Ptr} (hctx : ContextValid mem ctx ctxLen)
    (hlen : ¬ (ctx ≠ none ∧ ctxLen > 255)) :
    Runs (ed25519ctxHash hash ctx ctxLen) mem
      (contextTag hash (contextBytes mem ctx ctxLen)) mem := by
  cases ctx with
  | none => exact Runs.pure _ _
  | some p =>
    have hle : ¬ ctxLen > 255 := fun h => hlen ⟨by simp, h⟩
    by_cases hzero : ctxLen = 0
    · subst hzero
      exact Runs.pure _ _
    · have hne : mem.bytes p ctxLen.toNat ≠ [] := fun h => by
        have hlength := congrArg List.length h
        rw [Mem.length_bytes] at hlength
        exact hzero (UInt64.toNat_inj.mp hlength)
      have htag : contextTag hash (contextBytes mem (some p) ctxLen) = hash
        (mem.bytes p ctxLen.toNat) := if_neg hne
      simp only [ed25519ctxHash, if_neg hzero, if_neg hle, htag]
      exact hashOf_runs hash (hctx p rfl)

/-- What `crypto_sign_ed25519ph` signs, and with which result. -/
theorem cryptoSignEd25519ph_runs (hkey : KeyPair hash mem pk sk seed)
    (h : VariantBuffers mem pk sk sm smlen m mlen.toNat 128) :
    ∃ mem', Runs (cryptoSignEd25519ph hash (some sm) (some smlen) (some m) mlen (some sk))
      mem 0 mem' ∧
      mem'.u64 smlen = 128 ∧
      mem'.bytes sm 128 =
        signedMessage hash seed (publicKey hash seed).toList
        (hash (mem.bytes m mlen.toNat)).toList ∧
      mem'.vec pk 32 = publicKey hash seed ∧ mem'.size = mem.size := by
  obtain ⟨ph, hph⟩ : ∃ ph : Addr, ph = ⟨mem.fresh, 0⟩ := ⟨_, rfl⟩
  obtain ⟨mem₁, hmem₁⟩ :
    ∃ mem₁, mem₁ = (mem.alloc 64).writeVec ph (hash (mem.bytes m mlen.toNat)) := ⟨_, rfl⟩
  have hlocal : (mem.alloc 64).Valid ph 64 := hph ▸ mem.valid_alloc 64
  have hframe : (mem.alloc 64).Frame mem₁ ph 64 := hmem₁ ▸ Mem.frame_writeVec _ _ _
  have hfresh : ∀ {p : Addr} {l : ℕ}, mem.Valid p l → Disjoint p l ph 64 := fun hp =>
    hp.disjoint_fresh (by rw [hph]) 64
  have hkey₁ : KeyPair hash mem₁ pk sk seed :=
    hkey.congr (hframe.vec_of_disjoint (hfresh h.valid_pk))
      (hframe.vec_of_disjoint (hfresh h.valid_sk))
  have hbuf : SignBuffers mem₁ sm smlen ph sk 64 :=
    ⟨hframe.valid (h.valid_sm.alloc 64), hframe.valid (h.valid_smlen.alloc 64), hframe.valid hlocal,
      hframe.valid (h.valid_sk.alloc 64), (hfresh h.valid_sm).symm, h.sk_sm, h.smlen_sm,
      (hfresh h.valid_smlen).symm, h.sk_smlen⟩
  obtain ⟨mem₂, hsign, hlen, hbytes, hpk, hsize, -⟩ :=
    hkey₁.sign (n := 64) hbuf h.pk_sm h.pk_smlen (by decide)
  have hrelease : (mem₂.write ph 64 fun _ => 0).release mem = mem₂.release mem :=
    Mem.release_write_of_le (by rw [hph])
  refine ⟨mem₂.release mem, ?_, ?_, ?_, ?_, ?_⟩
  · have hhash := hashOf_runs hash (h.valid_m.alloc 64)
    have hstore := Runs.storeVec hlocal (hash (mem.bytes m mlen.toNat))
    have hzero := secureZero_runs (hlocal.of_size (hsize.trans hframe.size))
    rw [← hmem₁] at hstore
    rw [hph] at hstore hsign hzero hrelease
    rw [← hrelease]
    simp only [cryptoSignEd25519ph]
    refine Runs.withLocal ?_
    exact hhash.bind (hstore.bind (hsign.bind (hzero.bind (Runs.pure _ _))))
  · rw [Mem.u64_release h.valid_smlen, hlen]
    rfl
  · rw [Mem.bytes_release h.valid_sm]
    refine hbytes.trans ?_
    rw [hmem₁]
    exact congrArg _ (Mem.bytes_writeVec _ _ _)
  · rw [Mem.vec_release h.valid_pk, hpk]
  · exact Mem.size_release (hsize.trans hframe.size)

/-- Adding a tag length does not wrap for a message that can be signed. -/
theorem toNat_combinedLen (hmax : mlen ≤ sizeMax - 128) :
    (64 + mlen).toNat = 64 + mlen.toNat ∧ 64 + mlen ≤ sizeMax - 64 := by
  have hmax' : mlen.toNat ≤ 0xffffffffffffffff - 128 := hmax
  have hsum : (64 + mlen).toNat = 64 + mlen.toNat := by
    rw [UInt64.toNat_add]
    exact Nat.mod_eq_of_lt (by change 64 + _ < _; omega)
  exact ⟨hsum, UInt64.le_iff_toNat_le.mpr (by rw [hsum]; change _ ≤ 0xffffffffffffffff - 64; omega)⟩

/-- A tag in a buffer, and a message copied behind it. -/
theorem bytes_tagged {mem₁ mem₂ : Mem} {b : Addr} {l : ℕ} (tag : Vector UInt8 64)
    (h₁ : mem₁ = mem.writeVec b tag)
    (h₂ : mem₂ = mem₁.write (b + 64) l fun i => mem₁.byte (m + i)) (hm : Disjoint m l b (64 + l)) :
    mem.Frame mem₁ b (64 + l) ∧ mem.Frame mem₂ b (64 + l) ∧
      mem₂.bytes b (64 + l) = tag.toList ++ mem.bytes m l := by
  have hframe₁ : mem.Frame mem₁ b (64 + l) := by
    rw [h₁]
    exact (Mem.Frame.refl mem b _).write (Nat.le_add_right _ _)
  refine ⟨hframe₁, h₂ ▸ hframe₁.write_add le_rfl, ?_⟩
  have hmsg := hframe₁.bytes_of_disjoint hm
  rw [Mem.bytes_append, h₂, Mem.bytes_write_of_disjoint (Disjoint.of_le_self le_rfl),
    Mem.bytes_write_copy, hmsg, h₁, Mem.bytes_writeVec]

/-- The objects of a call of `crypto_sign_ed25519ctx`, `a` for the length and `b` for what is
signed, apart from the buffers of its caller. -/
structure CtxObjects (mem : Mem) (pk sk sm m a b : Addr) (l : ℕ) : Prop where
  valid_a : mem.Valid a 8
  valid_b : mem.Valid b (64 + l)
  b_a : Disjoint b (64 + l) a 8
  m_b : Disjoint m l b (64 + l)
  sm_a : Disjoint sm (64 + l + 64) a 8
  sm_b : Disjoint sm (64 + l + 64) b (64 + l)
  sk_a : Disjoint sk 64 a 8
  sk_b : Disjoint sk 64 b (64 + l)
  pk_a : Disjoint pk 32 a 8
  pk_b : Disjoint pk 32 b (64 + l)

/-- `crypto_sign_ed25519ctx` while its objects exist: it signs the tag and the message, and clears
them. -/
theorem ctxSign_runs {a b : Addr} (hkey : KeyPair hash mem pk sk seed)
    (h : VariantBuffers mem pk sk sm smlen m mlen.toNat (64 + mlen.toNat + 64))
    (hobjects : CtxObjects mem pk sk sm m a b mlen.toNat) (hmax : mlen ≤ sizeMax - 128)
    (tag : Vector UInt8 64) :
    ∃ mem' : Mem, Runs (do
        storeVec b tag
        copy (b + 64) m mlen.toNat
        let ret ← cryptoSign hash (some sm) (some a) (some b) (64 + mlen) (some sk)
        let _ ← if ret = 0 then loadU64 a >>= storeU64 smlen else pure ()
        secureZero b (64 + mlen.toNat)
        pure ret) mem 0 (mem'.write b (64 + mlen.toNat) fun _ => 0) ∧
      mem'.u64 smlen = 64 + mlen + 64 ∧
      mem'.bytes sm (64 + mlen.toNat + 64) =
        signedMessage hash seed (publicKey hash seed).toList
        (tag.toList ++ mem.bytes m mlen.toNat) ∧
      mem'.vec pk 32 = publicKey hash seed ∧ mem'.size = mem.size ∧
      ∀ {p k}, Disjoint p k a 8 → Disjoint p k b (64 + mlen.toNat) →
        Disjoint p k sm (64 + mlen.toNat + 64) → Disjoint p k smlen 8 →
        mem'.bytes p k = mem.bytes p k := by
  obtain ⟨hsum, hfits⟩ := toNat_combinedLen hmax
  obtain ⟨mem₁, hmem₁⟩ : ∃ mem₁, mem₁ = mem.writeVec b tag := ⟨_, rfl⟩
  obtain ⟨mem₂, hmem₂⟩ : ∃ mem₂, mem₂ = mem₁.write (b + 64) mlen.toNat fun i =>
    mem₁.byte (m + i) := ⟨_, rfl⟩
  obtain ⟨hframe₁, hframe₂, hbytes₂⟩ := bytes_tagged tag hmem₁ hmem₂ hobjects.m_b
  have hbuf : SignBuffers mem₂ sm a b sk (64 + mlen).toNat := by
    rw [hsum]
    exact ⟨hframe₂.valid h.valid_sm, hframe₂.valid hobjects.valid_a, hframe₂.valid hobjects.valid_b,
      hframe₂.valid h.valid_sk, hobjects.sm_b.symm, h.sk_sm, hobjects.sm_a.symm, hobjects.b_a,
      hobjects.sk_a⟩
  have hkey₂ :=
    hkey.congr (hframe₂.vec_of_disjoint hobjects.pk_b) (hframe₂.vec_of_disjoint hobjects.sk_b)
  obtain ⟨mem₃, hsign, hlen, hbytes, hpk, hsize, -, hkeeps⟩ :=
    hkey₂.sign hbuf (hsum ▸ h.pk_sm) hobjects.pk_a hfits
  rw [hsum, hbytes₂] at hbytes
  rw [hsum] at hkeeps
  have hvalid : ∀ {p : Addr} {l : ℕ}, mem.Valid p l → mem₃.Valid p l := fun hp =>
    hp.of_size (hsize.trans hframe₂.size)
  obtain ⟨mem₄, hmem₄⟩ : ∃ mem₄, mem₄ = mem₃.writeU64 smlen (64 + mlen + 64) := ⟨_, rfl⟩
  have hframe₄ : mem₃.Frame mem₄ smlen 8 := hmem₄ ▸ mem₃.frame_writeU64 _ _
  refine ⟨mem₄, ?_, ?_, ?_, ?_, ?_, fun ha hb hsm hsmlen => ?_⟩
  · have hstore := Runs.storeVec (hobjects.valid_b.mono (Nat.le_add_right 64 _)) tag
    have hcopy := Runs.copy (hframe₁.valid (hobjects.valid_b.add le_rfl)) (hframe₁.valid h.valid_m)
      (hobjects.m_b.add_right le_rfl)
    have hload := Runs.loadU64 (hvalid hobjects.valid_a)
    have hwrite := Runs.storeU64 (hvalid h.valid_smlen) (64 + mlen + 64)
    have hzero := secureZero_runs (hframe₄.valid (hvalid hobjects.valid_b))
    rw [hlen] at hload
    rw [← hmem₁] at hstore
    rw [← hmem₂] at hcopy
    rw [← hmem₄] at hwrite
    exact hstore.bind
      (hcopy.bind (hsign.bind ((hload.bind hwrite).bind (hzero.bind (Runs.pure _ _)))))
  · rw [hmem₄, Mem.u64_writeU64]
  · rw [hframe₄.bytes_of_disjoint h.smlen_sm.symm, hbytes]
  · rw [hframe₄.vec_of_disjoint h.pk_smlen, hpk]
  · rw [hframe₄.size, hsize, hframe₂.size]
  · rw [hframe₄.bytes_of_disjoint hsmlen, hkeeps ha hsm, hframe₂.bytes_of_disjoint hb]

/-- What `crypto_sign_ed25519ctx` signs, and with which result. -/
theorem cryptoSignEd25519ctx_runs {ctx : Ptr} (hkey : KeyPair hash mem pk sk seed)
    (h : VariantBuffers mem pk sk sm smlen m mlen.toNat (64 + mlen.toNat + 64))
    (hctx : ContextValid mem ctx ctxLen)
    (hlen : ¬ (ctx ≠ none ∧ ctxLen > 255)) (hmax : mlen ≤ sizeMax - 128) :
    ∃ mem', Runs
      (cryptoSignEd25519ctx hash true (some sm) (some smlen) (some m) mlen
        (some sk) ctx ctxLen) mem 0 mem' ∧
      mem'.u64 smlen = 64 + mlen + 64 ∧
      mem'.bytes sm (64 + mlen.toNat + 64) = signedMessage hash seed (publicKey hash seed).toList
        ((contextTag hash (contextBytes mem ctx ctxLen)).toList ++ mem.bytes m mlen.toNat) ∧
      mem'.vec pk 32 = publicKey hash seed ∧ mem'.size = mem.size ∧
      ∀ {p k}, mem.Valid p k → Disjoint p k sm (64 + mlen.toNat + 64) → Disjoint p k smlen 8 →
        mem'.bytes p k = mem.bytes p k := by
  obtain ⟨hsum, -⟩ := toNat_combinedLen hmax
  obtain ⟨a, ha⟩ : ∃ a : Addr, a = ⟨mem.fresh, 0⟩ := ⟨_, rfl⟩
  obtain ⟨b, hb⟩ : ∃ b : Addr, b = ⟨(mem.alloc 8).fresh, 0⟩ := ⟨_, rfl⟩
  obtain ⟨mem₁, hmem₁⟩ : ∃ mem₁, mem₁ = (mem.alloc 8).alloc (64 + mlen.toNat) := ⟨_, rfl⟩
  have hvalid : ∀ {p : Addr} {l : ℕ}, mem.Valid p l → mem₁.Valid p l := fun hp => by
    rw [hmem₁]
    exact (hp.alloc 8).alloc _
  have ha_fresh : ∀ {p : Addr} {l k : ℕ}, mem.Valid p l → Disjoint p l a k := fun hp =>
    hp.disjoint_fresh (by rw [ha]) _
  have hb_fresh : ∀ {p : Addr} {l k : ℕ}, mem.Valid p l → Disjoint p l b k := fun hp =>
    hp.disjoint_fresh (by rw [hb]; exact Nat.le_succ _) _
  have hobjects : CtxObjects mem₁ pk sk sm m a b mlen.toNat := by
    refine ⟨?_, ?_, Disjoint.of_obj_ne (by rw [ha, hb]; simp) _ _, hb_fresh h.valid_m,
      ha_fresh h.valid_sm, hb_fresh h.valid_sm, ha_fresh h.valid_sk, hb_fresh h.valid_sk,
      ha_fresh h.valid_pk, hb_fresh h.valid_pk⟩
    · rw [hmem₁, ha]
      exact (mem.valid_alloc 8).alloc _
    · rw [hmem₁, hb]
      exact (mem.alloc 8).valid_alloc _
  have hbuf : VariantBuffers mem₁ pk sk sm smlen m mlen.toNat (64 + mlen.toNat + 64) :=
    { h with
      valid_sm := hvalid h.valid_sm
      valid_smlen := hvalid h.valid_smlen
      valid_m := hvalid h.valid_m
      valid_sk := hvalid h.valid_sk
      valid_pk := hvalid h.valid_pk }
  have hkey₁ : KeyPair hash mem₁ pk sk seed := hmem₁ ▸ hkey.congr rfl rfl
  have hmsg : mem₁.bytes m mlen.toNat = mem.bytes m mlen.toNat := hmem₁ ▸ rfl
  obtain ⟨mem₂, hrun, hlen₂, hbytes₂, hpk₂, hsize₂, hkeeps⟩ :=
    ctxSign_runs hash hkey₁ hbuf hobjects hmax (contextTag hash (contextBytes mem ctx ctxLen))
  have hrelease : (mem₂.write b (64 + mlen.toNat) fun _ => 0).release (mem.alloc 8) = mem₂.release
      (mem.alloc 8) :=
    Mem.release_write_of_le (by rw [hb])
  refine ⟨(mem₂.release (mem.alloc 8)).release mem, ?_, ?_, ?_, ?_, ?_, fun hp hsm hsmlen => ?_⟩
  · have hhash := ed25519ctxHash_runs hash hctx hlen
    have hmax' : ¬ mlen > sizeMax - 64 := UInt64.not_lt.mpr (UInt64.le_trans hmax (by decide))
    simp only [cryptoSignEd25519ctx, if_neg hlen, if_neg hmax', Bool.true_eq_false, if_false, hsum]
    refine hhash.bind (Runs.withLocal ?_)
    rw [← hrelease]
    refine Runs.withLocal ?_
    rw [← hmem₁, ← ha, ← hb]
    exact hrun
  · rw [Mem.u64_release h.valid_smlen, Mem.u64_release (h.valid_smlen.alloc 8), hlen₂]
  · rw [Mem.bytes_release h.valid_sm, Mem.bytes_release (h.valid_sm.alloc 8), hbytes₂, hmsg]
  · rw [Mem.vec_release h.valid_pk, Mem.vec_release (h.valid_pk.alloc 8), hpk₂]
  · exact Mem.size_release (Mem.size_release (hsize₂.trans (congrArg Mem.size hmem₁)))
  · rw [Mem.bytes_release hp, Mem.bytes_release (hp.alloc 8),
      hkeeps (ha_fresh hp) (hb_fresh hp) hsm hsmlen, hmem₁]
    rfl

end Signing

section DomainSeparation

variable (hash : List UInt8 → Vector UInt8 64) {mem mem' : Mem} {pk sk sm smlen m out outlen : Addr}
  {mlen ctxLen : UInt64} {seed : List UInt8} {ctx : Ptr}

/-- The three variants accept each other's signed messages nowhere, and no signed message belongs to
two of them. -/
structure DomainSeparated (mem : Mem) (pk sk sm smlen m out outlen : Addr)
    (mlen : UInt64) (ctx : Ptr) (ctxLen : UInt64) : Prop where
  ctx_not_opened : ∀ malloc mem' mem'',
    Runs (cryptoSignEd25519ctx hash malloc (some sm) (some smlen) (some m) mlen
      (some sk) ctx ctxLen) mem 0 mem' →
      ¬ Runs (cryptoSignOpen hash (some out) (some outlen) (some sm) (mem'.u64 smlen) (some pk))
      mem' 0 mem''
  ctx_not_ph_opened : ∀ malloc mem' mem'',
    Runs (cryptoSignEd25519ctx hash malloc (some sm) (some smlen) (some m) mlen
      (some sk) ctx ctxLen) mem 0 mem' →
      ¬ Runs (cryptoSignEd25519phOpen hash (some out) (some outlen) (some sm) (mem'.u64 smlen)
        (some pk)) mem' 0 mem''
  ph_not_opened : ∀ mem' mem'',
    Runs (cryptoSignEd25519ph hash (some sm) (some smlen) (some m) mlen (some sk)) mem 0 mem' →
      ¬ Runs (cryptoSignOpen hash (some out) (some outlen) (some sm) (mem'.u64 smlen) (some pk))
      mem' 0 mem''
  ph_not_ctx_opened : ∀ malloc mem' mem'',
    Runs (cryptoSignEd25519ph hash (some sm) (some smlen) (some m) mlen (some sk)) mem 0 mem' →
      ¬ Runs (cryptoSignEd25519ctxOpen hash malloc (some out) (some outlen) (some sm)
        (mem'.u64 smlen) (some pk) ctx ctxLen) mem' 0 mem''
  distinct : ∀ malloc m' mlen' mem' mem'',
    Runs (cryptoSignEd25519ctx hash malloc (some sm) (some smlen) (some m) mlen
      (some sk) ctx ctxLen) mem 0 mem' →
      Runs (cryptoSignEd25519ph hash (some sm) (some smlen) (some m') mlen' (some sk)) mem 0 mem'' →
      mem'.bytes sm (mem'.u64 smlen).toNat ≠ mem''.bytes sm (mem''.u64 smlen).toNat

/-- The layout is a fact about object sizes. -/
theorem OpenBuffers.congr {l : ℕ} (h : OpenBuffers mem out outlen sm pk l)
    (hsize : mem'.size = mem.size) :
    OpenBuffers mem' out outlen sm pk l := by
  exact ⟨h.valid_m.of_size hsize, h.valid_mlen.of_size hsize, h.valid_sm.of_size hsize,
    h.valid_pk.of_size hsize, h.sm_m, h.pk_m, h.m_mlen⟩

/-- `crypto_sign_open` accepts what `crypto_sign_ed25519ph` has signed, and gives the hash of the
message. -/
theorem ph_signed_opened (hkey : KeyPair hash mem pk sk seed)
    (h : VariantBuffers mem pk sk sm smlen m mlen.toNat 128)
    (hout : OpenBuffers mem out outlen sm pk 128) :
    ∃ mem' mem'', Runs (cryptoSignEd25519ph hash (some sm) (some smlen) (some m) mlen (some sk))
      mem 0 mem' ∧
      mem'.u64 smlen = 128 ∧
      Runs (cryptoSignOpen hash (some out) (some outlen) (some sm) 128 (some pk)) mem' 0 mem'' ∧
      mem''.bytes out 64 = (hash (mem.bytes m mlen.toNat)).toList := by
  obtain ⟨mem', hsign, hlen, hbytes, hpk, hsize⟩ := cryptoSignEd25519ph_runs hash hkey h
  obtain ⟨mem'', hopen, -, hrecovered, -⟩ :=
    open_signedMessage (n := 128) (hout.congr hsize) (by decide) (by decide)
    (show _ + 64 = 128 by rw [Vector.length_toList]) hpk hbytes
  exact ⟨mem', mem'', hsign, hlen, hopen, hrecovered⟩

/-- `crypto_sign_open` accepts what `crypto_sign_ed25519ctx` has signed, whatever the context. -/
theorem ctx_signed_opened (hkey : KeyPair hash mem pk sk seed)
    (h : VariantBuffers mem pk sk sm smlen m mlen.toNat (64 + mlen.toNat + 64))
    (hctx : ContextValid mem ctx ctxLen)
    (hlen : ¬ (ctx ≠ none ∧ ctxLen > 255)) (hmax : mlen ≤ sizeMax - 192)
    (hout : OpenBuffers mem out outlen sm pk (64 + mlen.toNat + 64)) :
    ∃ mem' mem'',
      Runs (cryptoSignEd25519ctx hash true (some sm) (some smlen) (some m) mlen
        (some sk) ctx ctxLen) mem 0 mem' ∧
      mem'.u64 smlen = 64 + mlen + 64 ∧
      Runs (cryptoSignOpen hash (some out) (some outlen) (some sm) (64 + mlen + 64) (some pk)) mem'
        0 mem'' := by
  have hmax' : mlen.toNat ≤ 0xffffffffffffffff - 192 := hmax
  obtain ⟨hsum, hfits⟩ := toNat_combinedLen (UInt64.le_trans hmax (by decide))
  have hsum' : (64 + mlen + 64).toNat = 64 + mlen.toNat + 64 := by
    rw [← hsum]
    exact toNat_add_of_le hfits le_rfl
  obtain ⟨mem', hsign, hlen', hbytes, hpk, hsize, -⟩ :=
    cryptoSignEd25519ctx_runs hash hkey h hctx hlen (UInt64.le_trans hmax (by decide))
  obtain ⟨mem'', hopen, -⟩ := open_signedMessage (n := 64 + mlen + 64) (hsum' ▸ hout.congr hsize)
    (UInt64.le_iff_toNat_le.mpr (by rw [hsum']; exact Nat.le_add_left _ _))
    (UInt64.le_iff_toNat_le.mpr (by rw [hsum']; change _ ≤ 0xffffffffffffffff - 64; omega))
    (by rw [hsum', List.length_append, Vector.length_toList, Mem.length_bytes]) hpk (hsum' ▸ hbytes)
  exact ⟨mem', mem'', hsign, hlen', hopen⟩

/-- The hash of a context in front of an empty message is the hash of the context as a message: the
two variants sign the same bytes. -/
theorem ctx_ph_same_signature {p : Addr} (hkey : KeyPair hash mem pk sk seed)
    (h : VariantBuffers mem pk sk sm smlen m 0 128) (hctx : mem.Valid p ctxLen.toNat)
    (hpos : ctxLen ≠ 0) (hlen : ctxLen ≤ 255) :
    ∃ mem' mem'',
      Runs (cryptoSignEd25519ctx hash true (some sm) (some smlen) (some m) 0 (some sk)
        (some p) ctxLen) mem 0 mem' ∧
      Runs (cryptoSignEd25519ph hash (some sm) (some smlen) (some p) ctxLen (some sk)) mem 0 mem'' ∧
      mem'.u64 smlen = 128 ∧ mem''.u64 smlen = 128 ∧ mem'.bytes sm 128 = mem''.bytes sm 128 := by
  have hctx' : ContextValid mem (some p) ctxLen := fun q hq => by
    cases hq
    exact hctx
  obtain ⟨mem', hrun', hlen', hbytes', -, -⟩ := cryptoSignEd25519ctx_runs hash hkey
    (show VariantBuffers mem pk sk sm smlen m (0 : UInt64).toNat _ from h) hctx'
    (fun hlong => absurd hlong.2 (UInt64.not_lt.mpr hlen)) (by decide)
  obtain ⟨mem'', hrun'', hlen'', hbytes'', -, -⟩ := cryptoSignEd25519ph_runs hash hkey
    (show VariantBuffers mem pk sk sm smlen p ctxLen.toNat 128 from ⟨h.valid_sm, h.valid_smlen,
      hctx, h.valid_sk, h.valid_pk, h.sk_sm, h.pk_sm, h.smlen_sm, h.sk_smlen, h.pk_smlen⟩)
  refine ⟨mem', mem'', hrun', hrun'', hlen', hlen'', hbytes'.trans (Eq.trans ?_ hbytes''.symm)⟩
  have hne : mem.bytes p ctxLen.toNat ≠ [] := fun hnil => by
    have hlength := congrArg List.length hnil
    rw [Mem.length_bytes] at hlength
    exact hpos (UInt64.toNat_inj.mp hlength)
  rw [contextBytes, contextTag, if_neg hne]
  exact congrArg _ (List.append_nil _)

/-- The variants are separated for no key pair, message and context. -/
theorem not_domainSeparated (hkey : KeyPair hash mem pk sk seed)
    (h : VariantBuffers mem pk sk sm smlen m mlen.toNat 128)
    (hout : OpenBuffers mem out outlen sm pk 128) :
    ¬ DomainSeparated hash mem pk sk sm smlen m out outlen mlen ctx ctxLen := fun hsep => by
  obtain ⟨mem', mem'', hsign, hlen, hopen, -⟩ := ph_signed_opened hash hkey h hout
  exact hsep.ph_not_opened mem' mem'' hsign (hlen ▸ hopen)

end DomainSeparation

section Examples

/-- The buffers of a round trip include those of the signing call. -/
theorem RoundTripBuffers.variant {mem : Mem} {pk sk sm smlen m out outlen : Addr}
    (h : RoundTripBuffers mem pk sk sm smlen m out outlen 64) :
    VariantBuffers mem pk sk sm smlen m 64 128 :=
  ⟨h.signing.valid_sm, h.signing.valid_mlen, h.signing.valid_m, h.signing.valid_sk, h.valid_pk,
    h.signing.sk_sm,
    h.pk_sm, h.signing.mlen_sm, h.signing.sk_mlen, h.pk_smlen⟩

/-- The key pair of the zero seed, next to a message of 64 bytes. -/
theorem zeroSeed_keyPair :
    ∃ mem₁, Runs (cryptoSignKeypair Sha512.hash ⟨0, Vector.replicate 32 0⟩ (some ⟨0, 0⟩)
        (some ⟨1, 0⟩)) (roundTripMemory 64) 0 mem₁ ∧
      KeyPair Sha512.hash mem₁ ⟨0, 0⟩ ⟨1, 0⟩ (Vector.replicate 32 (0 : UInt8)).toList ∧
      RoundTripBuffers mem₁ ⟨0, 0⟩ ⟨1, 0⟩ ⟨3, 0⟩ ⟨4, 0⟩ ⟨2, 0⟩ ⟨5, 0⟩ ⟨6, 0⟩ 64 := by
  have hbuf := roundTripMemory_buffers 64
  obtain ⟨mem₁, hrun, hkey, hsize, -⟩ := cryptoSignKeypair_runs Sha512.hash
    (rfl : (⟨0, Vector.replicate 32 0⟩ : RngAnswer 32).status = 0) hbuf.valid_pk
    hbuf.signing.valid_sk (Disjoint.of_obj_ne (by decide) _ _)
  exact ⟨mem₁, hrun, hkey, hbuf.congr hsize⟩

/-- The key pair of the zero seed signs 64 zero bytes in the prehashed variant, and
`crypto_sign_open` accepts the result. -/
theorem ph_signed_opened_zero :
    ∃ mem₁ mem₂ mem₃,
      Runs (cryptoSignKeypair Sha512.hash ⟨0, Vector.replicate 32 0⟩ (some ⟨0, 0⟩) (some ⟨1, 0⟩))
        (roundTripMemory 64) 0 mem₁ ∧
      Runs (cryptoSignEd25519ph Sha512.hash (some ⟨3, 0⟩) (some ⟨4, 0⟩) (some ⟨2, 0⟩) 64
        (some ⟨1, 0⟩)) mem₁ 0 mem₂ ∧
      mem₂.u64 ⟨4, 0⟩ = 128 ∧
      Runs (cryptoSignOpen Sha512.hash (some ⟨5, 0⟩) (some ⟨6, 0⟩) (some ⟨3, 0⟩) 128 (some ⟨0, 0⟩))
        mem₂ 0 mem₃ := by
  obtain ⟨mem₁, hrun, hkey, hbuf⟩ := zeroSeed_keyPair
  obtain ⟨mem₂, mem₃, hsign, hlen, hopen, -⟩ := ph_signed_opened Sha512.hash hkey
    (show VariantBuffers _ _ _ _ _ _ (64 : UInt64).toNat _ from hbuf.variant) hbuf.opening
  exact ⟨mem₁, mem₂, mem₃, hrun, hsign, hlen, hopen⟩

/-- For this key pair and message the variants are not separated, here with no context. -/
theorem zeroSeed_not_domainSeparated :
    ∃ mem₁, Runs (cryptoSignKeypair Sha512.hash ⟨0, Vector.replicate 32 0⟩ (some ⟨0, 0⟩)
        (some ⟨1, 0⟩)) (roundTripMemory 64) 0 mem₁ ∧
      ¬ DomainSeparated Sha512.hash mem₁ ⟨0, 0⟩ ⟨1, 0⟩ ⟨3, 0⟩ ⟨4, 0⟩ ⟨2, 0⟩ ⟨5, 0⟩
        ⟨6, 0⟩ 64 none 0 := by
  obtain ⟨mem₁, hrun, hkey, hbuf⟩ := zeroSeed_keyPair
  exact ⟨mem₁, hrun, not_domainSeparated Sha512.hash hkey
    (show VariantBuffers _ _ _ _ _ _ (64 : UInt64).toNat _ from hbuf.variant) hbuf.opening⟩

end Examples

end TweetNacl
