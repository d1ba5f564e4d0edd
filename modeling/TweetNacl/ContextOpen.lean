import TweetNacl.SignOpenBounds

/-!
# Opening in a block with room for the signed message

`crypto_sign_ed25519ctx_open` asks for the size of the message with its tag, and `crypto_sign_open`
writes 64 bytes more. What was signed under one context is opened exactly under those with the same
tag if the block has these 64 bytes, and otherwise the call leaves the block. A call that fails
leaves the memory as it was.
-/

namespace TweetNacl

open Memory Limbs Ed25519

section Code

variable (hash : List UInt8 → Vector UInt8 64)

/-- `crypto_sign_ed25519ctx_open`, with the capacity of the block that `malloc` gives for a size. -/
def cryptoSignEd25519ctxOpenWith (malloc : ℕ → Option ℕ) (m mlen sm : Ptr) (smlen : UInt64)
    (pk ctx : Ptr) (ctxLen : UInt64) : Exec Int32 :=
  match m, mlen, sm, pk with
  | some m, some mlen, some sm, some pk =>
    if ctx ≠ none ∧ ctxLen > 255 then pure (-1)
    else do
      let ctxHash ← ed25519ctxHash hash ctx ctxLen
      if smlen < 64 then pure (-1)
      else if smlen - 64 < 64 then pure (-1)
      else match malloc (smlen - 64).toNat with
        | none => pure (-1)
        | some capacity => withLocal 8 fun recoveredLen => withLocal capacity fun combined => do
          let ret ← cryptoSignOpen hash (some combined) (some recoveredLen)
            (some sm) smlen (some pk)
          let ret ← if ret ≠ 0 then pure ret
            else ctxOpenRecovered m mlen combined recoveredLen (smlen - 64) ctxHash ret
          secureZero combined (smlen - 64).toNat
          pure ret
  | _, _, _, _ => pure (-1)

/-- With blocks of exactly the size asked for it is the function above. -/
theorem cryptoSignEd25519ctxOpenWith_exact (malloc : Bool) :
    cryptoSignEd25519ctxOpenWith hash (fun size => if malloc then some size else none) =
      cryptoSignEd25519ctxOpen hash malloc := by
  funext m mlen sm smlen pk ctx ctxLen
  cases malloc <;> rfl

end Code

section Opening

variable (hash : List UInt8 → Vector UInt8 64) {malloc : ℕ → Option ℕ} {mem : Mem}
  {m mlen sm pk : Addr} {ctx : Ptr} {smlen ctxLen : UInt64} {capacity : ℕ} {tag : Vector UInt8 64}

/-- The buffers of a call that opens. -/
structure CtxOpenBuffers (mem : Mem) (m mlen sm pk : Addr) (n : ℕ) : Prop where
  valid_m : mem.Valid m (n - 128)
  valid_mlen : mem.Valid mlen 8
  valid_sm : mem.Valid sm n
  valid_pk : mem.Valid pk 32
  m_mlen : Disjoint m (n - 128) mlen 8

/-- The layout is a fact about object sizes, which an opening does not change. -/
theorem CtxOpenBuffers.congr {mem' : Mem} {n : ℕ} (h : CtxOpenBuffers mem m mlen sm pk n)
    (hsize : mem'.size = mem.size) : CtxOpenBuffers mem' m mlen sm pk n := by
  exact ⟨h.valid_m.of_size hsize, h.valid_mlen.of_size hsize, h.valid_sm.of_size hsize,
    h.valid_pk.of_size hsize, h.m_mlen⟩

/-- The signed message is one that the call takes: long enough for a tag, with a signature that fits
and the tag of the context. -/
structure CtxAccepts (mem : Mem) (sm pk : Addr) (smlen : UInt64)
    (tag : Vector UInt8 64) : Prop where
  min : 128 ≤ smlen
  max : smlen ≤ sizeMax - 64
  fits : Fits hash mem sm pk (smlen.toNat - 64) (leNat (mem.vec (sm + 32) 32))
  tag_eq : mem.vec (sm + 64) 64 = tag

/-- The memory with the two local objects of the call. -/
def ctxOpenLocals (mem : Mem) (capacity : ℕ) : Mem := (mem.alloc 8).alloc capacity

/-- The local length and the heap block leave every object of the caller as it was. -/
theorem keeps_ctxOpenLocals (mem : Mem) (capacity : ℕ) : mem.Keeps (ctxOpenLocals mem capacity) :=
  (Mem.keeps_alloc mem 8).alloc (Nat.le_succ _) capacity

/-- `crypto_sign_open` into the local objects. -/
theorem CtxOpenBuffers.opening (h : CtxOpenBuffers mem m mlen sm pk smlen.toNat)
    (hcapacity : smlen.toNat ≤ capacity) :
    OpenBuffers (ctxOpenLocals mem capacity) ⟨(mem.alloc 8).fresh, 0⟩
      ⟨mem.fresh, 0⟩ sm pk smlen.toNat :=
  ⟨((mem.alloc 8).valid_alloc capacity).mono hcapacity, (mem.valid_alloc 8).alloc capacity,
    (h.valid_sm.alloc 8).alloc capacity, (h.valid_pk.alloc 8).alloc capacity,
    h.valid_sm.disjoint_fresh (Nat.le_succ _) _, h.valid_pk.disjoint_fresh (Nat.le_succ _) _,
    Disjoint.of_obj_ne (Nat.succ_ne_self _) _ _⟩

/-- The two subtractions of a tag length do not wrap above 128 bytes. -/
theorem sub_sub_tag (hmin : 128 ≤ smlen) :
    (smlen - 64).toNat = smlen.toNat - 64 ∧ (smlen - 64 - 64).toNat = smlen.toNat - 128 ∧
      smlen - 64 - 64 = smlen - 128 := by
  have hmin' : 128 ≤ smlen.toNat := hmin
  have hpart : (smlen - 64).toNat = smlen.toNat - 64 :=
    UInt64.toNat_sub_of_le _ _ (UInt64.le_trans (by decide) hmin)
  have hmessage : (smlen - 64 - 64).toNat = smlen.toNat - 128 := by
    rw [UInt64.toNat_sub_of_le _ _
      (UInt64.le_iff_toNat_le.mpr (by rw [hpart]; change 64 ≤ _; omega)), hpart]
    exact Nat.sub_sub _ 64 64
  refine ⟨hpart, hmessage, UInt64.toNat_inj.mp ?_⟩
  rw [hmessage, UInt64.toNat_sub_of_le _ _ hmin]
  rfl

/-- A signed message of 128 bytes passes both length checks. -/
theorem passes_lengths (hmin : 128 ≤ smlen) : ¬ smlen < 64 ∧ ¬ smlen - 64 < 64 := by
  have hlow : ¬ smlen < 64 := UInt64.not_lt.mpr (UInt64.le_trans (by decide) hmin)
  exact ⟨hlow, mt (sub_lt_iff hlow).mp (UInt64.not_lt.mpr hmin)⟩

/-- The checks in front of `crypto_sign_open` and the clearing after it leave no trace. -/
theorem ctxOpenWith_of_open {ret₁ ret : Int32} {mem₁ mem₂ : Mem}
    (hctx : ContextValid mem ctx ctxLen) (hlong : ¬ (ctx ≠ none ∧ ctxLen > 255))
    (hmin : 128 ≤ smlen) (hmalloc : malloc (smlen - 64).toNat = some capacity)
    (hcapacity : (smlen - 64).toNat ≤ capacity)
    (hopen : Runs (cryptoSignOpen hash (some ⟨(mem.alloc 8).fresh, 0⟩) (some ⟨mem.fresh, 0⟩)
      (some sm) smlen (some pk)) (ctxOpenLocals mem capacity) ret₁ mem₁)
    (hrest : Runs (if ret₁ ≠ 0 then pure ret₁
      else ctxOpenRecovered m mlen ⟨(mem.alloc 8).fresh, 0⟩ ⟨mem.fresh, 0⟩ (smlen - 64)
        (contextTag hash (contextBytes mem ctx ctxLen)) ret₁) mem₁ ret mem₂)
    (hsize : mem₂.size = (ctxOpenLocals mem capacity).size) :
    Runs (cryptoSignEd25519ctxOpenWith hash malloc (some m) (some mlen) (some sm) smlen
      (some pk) ctx ctxLen) mem ret (mem₂.release mem) := by
  obtain ⟨hlow, hlow'⟩ := passes_lengths hmin
  have hvalid : mem₂.Valid ⟨(mem.alloc 8).fresh, 0⟩ (smlen - 64).toNat :=
    (((mem.alloc 8).valid_alloc capacity).mono hcapacity).of_size hsize
  obtain ⟨mem₃, hmem₃⟩ : ∃ mem₃, mem₃ =
      (mem₂.write ⟨(mem.alloc 8).fresh, 0⟩ (smlen - 64).toNat fun _ => 0).release (mem.alloc 8) :=
      ⟨_, rfl⟩
  have hrelease : mem₃.release mem = mem₂.release mem := by
    rw [hmem₃, Mem.release_write_of_le le_rfl, Mem.release_release (Nat.le_succ _)]
  simp only [cryptoSignEd25519ctxOpenWith, if_neg hlong, if_neg hlow, if_neg hlow',
    hmalloc, ← hrelease]
  refine (ed25519ctxHash_runs hash hctx hlong).bind (Runs.withLocal ?_)
  rw [hmem₃]
  refine Runs.withLocal (hopen.bind ?_)
  have hzero := secureZero_runs hvalid
  by_cases hret : ret₁ ≠ 0
  · rw [if_pos hret] at hrest ⊢
    exact hrest.bind (hzero.bind (Runs.pure _ _))
  · rw [if_neg hret] at hrest ⊢
    exact hrest.bind (hzero.bind (Runs.pure _ _))

/-- The signed message passes the checks of `crypto_sign_open`: the body is in the block, its length
in the other local object, and nothing else has changed. -/
theorem ctxOpen_accepted (h : CtxOpenBuffers mem m mlen sm pk smlen.toNat)
    (hcapacity : smlen.toNat ≤ capacity) (hmin : 64 ≤ smlen) (hmax : smlen ≤ sizeMax - 64)
    (hfits : Fits hash mem sm pk (smlen.toNat - 64) (leNat (mem.vec (sm + 32) 32))) :
    ∃ mem₁, Runs (cryptoSignOpen hash (some ⟨(mem.alloc 8).fresh, 0⟩) (some ⟨mem.fresh, 0⟩)
        (some sm) smlen (some pk)) (ctxOpenLocals mem capacity) 0 mem₁ ∧ mem.Keeps mem₁ ∧
        mem₁.size = (ctxOpenLocals mem capacity).size ∧
      mem₁.u64 ⟨mem.fresh, 0⟩ = smlen - 64 ∧
      mem₁.bytes ⟨(mem.alloc 8).fresh, 0⟩ (smlen.toNat - 64) = mem.bytes (sm + 64)
        (smlen.toNat - 64) := by
  obtain ⟨A, hA, heq⟩ := hfits
  obtain ⟨q, hq, hdenotes⟩ := hA.unpackneg
  obtain ⟨mem', hrun, hframe, hbytes, -⟩ :=
    cryptoSignOpen_writes hash (h.opening hcapacity) hmin hmax hq rfl
  have hacc := (eq_recovered_iff_fits hash hA hdenotes).mpr ⟨A, hA, heq⟩
  split_ifs at hrun hbytes with hcase
  swap
  · exact absurd hacc hcase
  have hlen := mem'.frame_writeU64 ⟨mem.fresh, 0⟩ (smlen - 64)
  refine ⟨_, hrun, ?_, hlen.size.trans hframe.size, Mem.u64_writeU64 _ _ _, ?_⟩
  · exact ((keeps_ctxOpenLocals mem capacity).frame hframe (Nat.le_succ _)).frame hlen le_rfl
  · rw [hlen.bytes_of_disjoint (Disjoint.of_obj_ne (Nat.succ_ne_self _) _ _), hbytes]
    rfl

/-- What `crypto_sign_open` does not take leaves only the local objects changed. -/
theorem ctxOpen_rejected (h : CtxOpenBuffers mem m mlen sm pk smlen.toNat)
    (hcapacity : smlen.toNat ≤ capacity) (hrejects : ¬ (64 ≤ smlen ∧ smlen ≤ sizeMax - 64 ∧
      Fits hash mem sm pk (smlen.toNat - 64) (leNat (mem.vec (sm + 32) 32)))) :
    ∃ mem₁, Runs (cryptoSignOpen hash (some ⟨(mem.alloc 8).fresh, 0⟩) (some ⟨mem.fresh, 0⟩)
        (some sm) smlen (some pk)) (ctxOpenLocals mem capacity) (-1) mem₁ ∧ mem.Keeps mem₁ ∧
        mem₁.size = (ctxOpenLocals mem capacity).size := by
  have hkeeps := keeps_ctxOpenLocals mem capacity
  have hrefuse : sizeMax - 64 < smlen ∨ smlen < 64 ∨ unpackneg (mem.vec pk 32) = none →
      Runs (cryptoSignOpen hash (some ⟨(mem.alloc 8).fresh, 0⟩) (some ⟨mem.fresh, 0⟩)
        (some sm) smlen (some pk)) (ctxOpenLocals mem capacity) (-1) (ctxOpenLocals mem capacity) :=
    cryptoSignOpen_refuses hash (h.opening hcapacity).valid_pk
  by_cases hmax : sizeMax - 64 < smlen
  · exact ⟨_, hrefuse (Or.inl hmax), hkeeps, rfl⟩
  by_cases hmin : smlen < 64
  · exact ⟨_, hrefuse (Or.inr (Or.inl hmin)), hkeeps, rfl⟩
  cases hq : unpackneg (mem.vec pk 32) with
  | none => exact ⟨_, hrefuse (Or.inr (Or.inr hq)), hkeeps, rfl⟩
  | some q =>
    obtain ⟨A, hA, hdenotes⟩ := unpackneg_some hq
    obtain ⟨mem', hrun, hframe, -⟩ :=
      cryptoSignOpen_writes hash (h.opening hcapacity) (UInt64.not_lt.mp hmin)
      (UInt64.not_lt.mp hmax) hq rfl
    split_ifs at hrun with hcase
    · exact absurd ⟨UInt64.not_lt.mp hmin, UInt64.not_lt.mp hmax,
        (eq_recovered_iff_fits hash hA hdenotes).mp hcase⟩ hrejects
    have hlen := mem'.frame_writeU64 ⟨mem.fresh, 0⟩ 0
    exact ⟨_, hrun, (hkeeps.frame hframe (Nat.le_succ _)).frame hlen le_rfl,
      hlen.size.trans hframe.size⟩

section Recovered

variable {mem₁ : Mem} (hsize : mem₁.size = (ctxOpenLocals mem capacity).size)
  (hlen : mem₁.u64 ⟨mem.fresh, 0⟩ = smlen - 64)
  (hbody : mem₁.bytes ⟨(mem.alloc 8).fresh, 0⟩ (smlen.toNat - 64) = mem.bytes (sm + 64)
  (smlen.toNat - 64)) (hmin : 128 ≤ smlen) (hcapacity : smlen.toNat ≤ capacity)

include hbody hmin in
/-- The tag in front of the recovered message. -/
theorem recovered_tag : mem₁.vec ⟨(mem.alloc 8).fresh, 0⟩ 64 = mem.vec (sm + 64) 64 := by
  have hmin' : 128 ≤ smlen.toNat := hmin
  refine Vector.ext fun i hi => ?_
  rw [Mem.getElem_vec, Mem.getElem_vec]
  exact byte_of_bytes_eq hbody (by omega)

include hsize hlen hbody hmin hcapacity

/-- A tag that differs is refused before anything is copied out. -/
theorem ctxOpenRecovered_mismatch (htag : mem.vec (sm + 64) 64 ≠ tag) :
    Runs (ctxOpenRecovered m mlen ⟨(mem.alloc 8).fresh, 0⟩ ⟨mem.fresh, 0⟩ (smlen - 64) tag 0) mem₁
      (-1) mem₁ := by
  have hmin' : 128 ≤ smlen.toNat := hmin
  have hlocal : (ctxOpenLocals mem capacity).Valid ⟨(mem.alloc 8).fresh, 0⟩ capacity :=
    (mem.alloc 8).valid_alloc capacity
  have hload := Runs.loadU64 (((mem.valid_alloc 8).alloc capacity).of_size hsize)
  have hload' := Runs.loadVec ((hlocal.mono (by omega : 64 ≤ capacity)).of_size hsize)
  rw [hlen] at hload
  rw [recovered_tag hbody hmin] at hload'
  refine hload.bind ?_
  rw [if_neg (not_not.mpr rfl)]
  refine hload'.bind ?_
  rw [if_pos (mt (secureMemcmp_eq_zero _ _).mp htag)]
  exact Runs.pure _ _

/-- A tag that agrees lets the message and its length through. -/
theorem ctxOpenRecovered_match (h : CtxOpenBuffers mem m mlen sm pk smlen.toNat)
    (htag : mem.vec (sm + 64) 64 = tag) :
    Runs (ctxOpenRecovered m mlen ⟨(mem.alloc 8).fresh, 0⟩ ⟨mem.fresh, 0⟩ (smlen - 64) tag 0) mem₁ 0
      ((mem₁.write m (smlen.toNat - 128) fun i => mem.byte (sm + 128 + i)).writeU64 mlen
        (smlen - 128)) := by
  have hmin' : 128 ≤ smlen.toNat := hmin
  obtain ⟨-, hmessage, hsub⟩ := sub_sub_tag hmin
  have hlocal : (ctxOpenLocals mem capacity).Valid ⟨(mem.alloc 8).fresh, 0⟩ capacity :=
    (mem.alloc 8).valid_alloc capacity
  have hvalid : ∀ {p k}, mem.Valid p k → mem₁.Valid p k := fun hp =>
    ((hp.alloc 8).alloc capacity).of_size hsize
  have hload := Runs.loadU64 (((mem.valid_alloc 8).alloc capacity).of_size hsize)
  have hload' := Runs.loadVec ((hlocal.mono (by omega : 64 ≤ capacity)).of_size hsize)
  have hcopy := Runs.copy (hvalid h.valid_m)
    ((hlocal.add (by omega : 64 + (smlen.toNat - 128) ≤ capacity)).of_size hsize)
    ((h.valid_m.disjoint_fresh (q := (⟨(mem.alloc 8).fresh, 0⟩ : Addr) + 64)
      (Nat.le_succ _) _).symm)
  have hstore :=
    Runs.storeU64 (m := mem₁.write m (smlen.toNat - 128) fun i => mem.byte (sm + 128 + i))
    (hvalid h.valid_mlen) (smlen - 128)
  have hwrite :
    (mem₁.write m (smlen.toNat - 128) fun i =>
      mem₁.byte ((⟨(mem.alloc 8).fresh, 0⟩ : Addr) + 64 + i)) = mem₁.write m
        (smlen.toNat - 128) fun i => mem.byte (sm + 128 + i) := Mem.write_congr fun i hi => by
    rw [Addr.add_add, byte_of_bytes_eq hbody (by omega), Addr.add_add, Addr.add_add,
      ← Nat.add_assoc]
  rw [hlen] at hload
  rw [recovered_tag hbody hmin, htag] at hload'
  rw [hwrite] at hcopy
  refine hload.bind ?_
  rw [if_neg (not_not.mpr rfl)]
  refine hload'.bind ?_
  rw [if_neg (not_not.mpr ((secureMemcmp_eq_zero _ _).mpr rfl)), hmessage, hsub]
  exact hcopy.bind (hstore.bind (Runs.pure _ _))

end Recovered

/-- Nothing is opened for a long context or a short message, or without a block. -/
theorem ctxOpenWith_refuses (hctx : ContextValid mem ctx ctxLen)
    (h : (ctx ≠ none ∧ ctxLen > 255) ∨ smlen < 128 ∨ malloc (smlen - 64).toNat = none) :
    Runs (cryptoSignEd25519ctxOpenWith hash malloc (some m) (some mlen) (some sm) smlen
      (some pk) ctx ctxLen) mem (-1) mem := by
  by_cases hlong : ctx ≠ none ∧ ctxLen > 255
  · simp only [cryptoSignEd25519ctxOpenWith, if_pos hlong]
    exact Runs.pure _ _
  simp only [cryptoSignEd25519ctxOpenWith, if_neg hlong]
  refine (ed25519ctxHash_runs hash hctx hlong).bind ?_
  rcases h.resolve_left hlong with hshort | hnone
  · by_cases hlow : smlen < 64
    · rw [if_pos hlow]
      exact Runs.pure _ _
    · have hpart := UInt64.toNat_sub_of_le _ _ (UInt64.not_lt.mp hlow)
      have hlow' : smlen - 64 < 64 := UInt64.lt_iff_toNat_lt.mpr (by
        have hlt := UInt64.lt_iff_toNat_lt.mp hshort
        rw [hpart]
        change smlen.toNat < 128 at hlt
        change smlen.toNat - 64 < 64
        omega)
      rw [if_neg hlow, if_pos hlow']
      exact Runs.pure _ _
  · rw [hnone]
    split_ifs <;> exact Runs.pure _ _

/-- What is not accepted leaves the memory alone. -/
theorem ctxOpenWith_rejects (h : CtxOpenBuffers mem m mlen sm pk smlen.toNat)
    (hctx : ContextValid mem ctx ctxLen) (hlong : ¬ (ctx ≠ none ∧ ctxLen > 255))
    (hmin : 128 ≤ smlen) (hmalloc : malloc (smlen - 64).toNat = some capacity)
    (hcapacity : smlen.toNat ≤ capacity)
    (hrejects : ¬ CtxAccepts hash mem sm pk smlen (contextTag hash (contextBytes mem ctx ctxLen))) :
    Runs (cryptoSignEd25519ctxOpenWith hash malloc (some m) (some mlen) (some sm) smlen
      (some pk) ctx ctxLen) mem (-1) mem := by
  have hroom : (smlen - 64).toNat ≤ capacity := by
    rw [(sub_sub_tag hmin).1]
    omega
  by_cases hopen : 64 ≤ smlen ∧ smlen ≤ sizeMax - 64 ∧
      Fits hash mem sm pk (smlen.toNat - 64) (leNat (mem.vec (sm + 32) 32))
  · obtain ⟨mem₁, hrun, hkeeps, hsize, hlen, hbody⟩ :=
      ctxOpen_accepted hash h hcapacity hopen.1 hopen.2.1 hopen.2.2
    have htag : mem.vec (sm + 64) 64 ≠ contextTag hash (contextBytes mem ctx ctxLen) := fun htag =>
      hrejects ⟨hmin, hopen.2.1, hopen.2.2, htag⟩
    refine (congrArg (Runs _ mem _) hkeeps.release).mp ?_
    exact ctxOpenWith_of_open hash hctx hlong hmin hmalloc hroom hrun
      (ctxOpenRecovered_mismatch hsize hlen hbody hmin hcapacity htag) hsize
  · obtain ⟨mem₁, hrun, hkeeps, hsize⟩ := ctxOpen_rejected hash h hcapacity hopen
    refine (congrArg (Runs _ mem _) hkeeps.release).mp ?_
    exact ctxOpenWith_of_open hash hctx hlong hmin hmalloc hroom hrun (Runs.pure _ _) hsize

/-- Where `crypto_sign_open` refuses the length or the key, nothing is opened in any block. -/
theorem ctxOpenWith_openRefuses (h : CtxOpenBuffers mem m mlen sm pk smlen.toNat)
    (hctx : ContextValid mem ctx ctxLen) (hlong : ¬ (ctx ≠ none ∧ ctxLen > 255))
    (hmin : 128 ≤ smlen) (hmalloc : malloc (smlen - 64).toNat = some capacity)
    (hroom : (smlen - 64).toNat ≤ capacity) (hopen : OpenRefuses mem pk smlen) :
    Runs (cryptoSignEd25519ctxOpenWith hash malloc (some m) (some mlen) (some sm) smlen (some pk)
      ctx ctxLen) mem (-1) mem := by
  have hrefuse : Runs (cryptoSignOpen hash (some ⟨(mem.alloc 8).fresh, 0⟩) (some ⟨mem.fresh, 0⟩)
      (some sm) smlen (some pk)) (ctxOpenLocals mem capacity) (-1) (ctxOpenLocals mem capacity) :=
    cryptoSignOpen_refuses hash ((h.valid_pk.alloc 8).alloc capacity) hopen
  refine (congrArg (Runs _ mem _) (keeps_ctxOpenLocals mem capacity).release).mp ?_
  exact ctxOpenWith_of_open hash hctx hlong hmin hmalloc hroom hrefuse (Runs.pure _ _) rfl

/-- Otherwise the signed message is copied to the block first, and leaves one that is too short. -/
theorem ctxOpenWith_overflows (h : CtxOpenBuffers mem m mlen sm pk smlen.toNat)
    (hctx : ContextValid mem ctx ctxLen) (hlong : ¬ (ctx ≠ none ∧ ctxLen > 255))
    (hmin : 128 ≤ smlen) (hmalloc : malloc (smlen - 64).toNat = some capacity)
    (hshort : capacity < smlen.toNat) (hopen : ¬ OpenRefuses mem pk smlen) :
    Faults (cryptoSignEd25519ctxOpenWith hash malloc (some m) (some mlen) (some sm) smlen (some pk)
      ctx ctxLen) mem (.store ((⟨(mem.alloc 8).fresh, 0⟩ : Addr) + capacity)) := by
  have hfault : Faults (cryptoSignOpen hash (some ⟨(mem.alloc 8).fresh, 0⟩) (some ⟨mem.fresh, 0⟩)
      (some sm) smlen (some pk)) (ctxOpenLocals mem capacity)
      (.store ((⟨(mem.alloc 8).fresh, 0⟩ : Addr) + capacity)) :=
    open_overflows hash h.valid_sm h.valid_pk hopen hshort (Nat.le_succ _) rfl
      (Mem.alloc_size_fresh _ _) (fun hp => (hp.alloc 8).alloc capacity) rfl
  obtain ⟨hlow, hlow'⟩ := passes_lengths hmin
  simp only [cryptoSignEd25519ctxOpenWith, if_neg hlong, if_neg hlow, if_neg hlow', hmalloc]
  exact Faults.bind_right (ed25519ctxHash_runs hash hctx hlong)
    (Faults.withLocal (Faults.withLocal (Faults.bind_left hfault)))

/-- In a block that is too short the call ends without a fault only if nothing is opened. -/
theorem ctxOpenWith_short {ret : Int32} {mem' : Mem}
    (h : CtxOpenBuffers mem m mlen sm pk smlen.toNat) (hctx : ContextValid mem ctx ctxLen)
    (hlong : ¬ (ctx ≠ none ∧ ctxLen > 255)) (hmin : 128 ≤ smlen)
    (hmalloc : malloc (smlen - 64).toNat = some capacity) (hroom : (smlen - 64).toNat ≤ capacity)
    (hshort : capacity < smlen.toNat)
    (hrun : Runs (cryptoSignEd25519ctxOpenWith hash malloc (some m) (some mlen) (some sm) smlen
      (some pk) ctx ctxLen) mem ret mem') : mem' = mem := by
  by_cases hopen : OpenRefuses mem pk smlen
  · exact (hrun.unique (ctxOpenWith_openRefuses hash h hctx hlong hmin hmalloc hroom hopen)).2
  · exact absurd (ctxOpenWith_overflows hash h hctx hlong hmin hmalloc hshort hopen) hrun.not_faults

/-- What is accepted is delivered without its tag. -/
theorem ctxOpenWith_accepts (h : CtxOpenBuffers mem m mlen sm pk smlen.toNat)
    (hctx : ContextValid mem ctx ctxLen)
    (hlong : ¬ (ctx ≠ none ∧ ctxLen > 255)) (hmalloc : malloc (smlen - 64).toNat = some capacity)
    (hcapacity : smlen.toNat ≤ capacity)
    (haccepts : CtxAccepts hash mem sm pk smlen (contextTag hash (contextBytes mem ctx ctxLen))) :
    Runs (cryptoSignEd25519ctxOpenWith hash malloc (some m) (some mlen) (some sm) smlen
      (some pk) ctx ctxLen) mem 0
      ((mem.write m (smlen.toNat - 128) fun i => mem.byte (sm + 128 + i)).writeU64 mlen
        (smlen - 128)) := by
  obtain ⟨mem₁, hrun, hkeeps, hsize, hlen, hbody⟩ := ctxOpen_accepted hash h hcapacity
    (UInt64.le_trans (by decide) haccepts.min) haccepts.max haccepts.fits
  have htag := ctxOpenRecovered_match hsize hlen hbody haccepts.min hcapacity h haccepts.tag_eq
  have hroom : (smlen - 64).toNat ≤ capacity := by
    rw [(sub_sub_tag haccepts.min).1]
    omega
  have hwhole := ctxOpenWith_of_open hash hctx hlong haccepts.min hmalloc hroom hrun htag hsize
  rwa [Mem.writeU64, Mem.release_write_of_valid h.valid_mlen, Mem.release_write_of_valid h.valid_m,
    hkeeps.release] at hwhole

end Opening

section Binding

variable (hash : List UInt8 → Vector UInt8 64) {malloc : ℕ → Option ℕ} {mem : Mem}
  {pk sk sm smlen m out outlen : Addr} {mlen : UInt64} {seed : List UInt8}

/-- A signature made with the secret key fits. -/
theorem fits_signedMessage {msg : List UInt8} {l : ℕ} (hl : msg.length = l)
    (hpk : mem.vec pk 32 = publicKey hash seed)
    (hsm : mem.bytes sm (l + 64) = signedMessage hash seed (publicKey hash seed).toList msg) :
    Fits hash mem sm pk l (leNat (mem.vec (sm + 32) 32)) := by
  obtain ⟨q, hq, hdenotes⟩ := unpackneg_encode (leNat_publicKey hash seed)
  obtain ⟨hr, hs, hbody⟩ := bytes_eq_signedMessage hl hsm
  have hA : DecodesTo (mem.vec pk 32) _ := hpk ▸ decodesTo_neg (leNat_publicKey hash seed)
  rw [← eq_recovered_iff_fits hash hA hdenotes, hr, hs, hbody, ← Mem.toList_vec, hpk]
  exact (recovered_response seed msg hdenotes).symm

/-- A signed message with a tag is taken for the contexts with this tag. -/
theorem ctxAccepts_signed_iff {msg : List UInt8} {n : UInt64} {tag : Vector UInt8 64}
    (tag' : Vector UInt8 64) (hn : n.toNat = 64 + msg.length + 64) (hmax : n ≤ sizeMax - 64)
    (hpk : mem.vec pk 32 = publicKey hash seed) (hsm : mem.bytes sm (64 + msg.length + 64) =
      signedMessage hash seed (publicKey hash seed).toList (tag.toList ++ msg)) :
    (CtxAccepts hash mem sm pk n tag' ↔ tag = tag') ∧ mem.bytes (sm + 128) msg.length = msg := by
  have hlength : (tag.toList ++ msg).length = 64 + msg.length := by
    rw [List.length_append, Vector.length_toList]
  have hfits := fits_signedMessage hash hlength hpk hsm
  obtain ⟨-, -, hbody⟩ := bytes_eq_signedMessage hlength hsm
  rw [Mem.bytes_append, Addr.add_add] at hbody
  obtain ⟨htag, hmsg⟩ := List.append_inj hbody (by simp)
  rw [← Mem.toList_vec, Vector.toList_inj] at htag
  refine ⟨⟨fun haccepts => htag.symm.trans haccepts.tag_eq, fun heq =>
    ⟨?_, hmax, ?_, htag.trans heq⟩⟩, hmsg⟩
  · exact UInt64.le_iff_toNat_le.mpr (by rw [hn]; change 128 ≤ _; omega)
  · rwa [hn, Nat.add_sub_cancel]

/-- A call that does not return 0 leaves the memory alone. -/
theorem ctxOpenWith_failure {mem' : Mem} {m mlen sm pk ctx : Ptr} {smlen ctxLen : UInt64}
    {ret : Int32} (hmalloc : ∀ size capacity, malloc size = some capacity → size ≤ capacity)
    (hbuf : ∀ m' mlen' sm' pk', m = some m' → mlen = some mlen' → sm = some sm' → pk = some pk' →
      CtxOpenBuffers mem m' mlen' sm' pk' smlen.toNat) (hctx : ContextValid mem ctx ctxLen)
    (hrun : Runs (cryptoSignEd25519ctxOpenWith hash malloc m mlen sm smlen pk ctx ctxLen)
    mem ret mem') (hret : ret ≠ 0) : mem' = mem := by
  rcases m with - | m
  · exact (hrun.unique (Runs.pure (-1) mem)).2
  rcases mlen with - | mlen
  · exact (hrun.unique (Runs.pure (-1) mem)).2
  rcases sm with - | sm
  · exact (hrun.unique (Runs.pure (-1) mem)).2
  rcases pk with - | pk
  · exact (hrun.unique (Runs.pure (-1) mem)).2
  have h := hbuf m mlen sm pk rfl rfl rfl rfl
  by_cases hrefuses : (ctx ≠ none ∧ ctxLen > 255) ∨ smlen < 128 ∨ malloc (smlen - 64).toNat = none
  · exact (hrun.unique (ctxOpenWith_refuses hash hctx hrefuses)).2
  simp only [not_or, UInt64.not_lt] at hrefuses
  obtain ⟨hlong, hmin, hsome⟩ := hrefuses
  obtain ⟨capacity, hcapacity⟩ := Option.ne_none_iff_exists'.mp hsome
  by_cases hshort : capacity < smlen.toNat
  · exact ctxOpenWith_short hash h hctx hlong hmin hcapacity (hmalloc _ _ hcapacity) hshort hrun
  by_cases haccepts : CtxAccepts hash mem sm pk smlen
    (contextTag hash (contextBytes mem ctx ctxLen))
  · exact absurd (hrun.unique
      (ctxOpenWith_accepts hash h hctx hlong hcapacity (Nat.not_lt.mp hshort) haccepts)).1 hret
  · exact (hrun.unique
      (ctxOpenWith_rejects hash h hctx hlong hmin hcapacity (Nat.not_lt.mp hshort) haccepts)).2

/-- A call of `crypto_sign_ed25519ctx` for one context and one of `crypto_sign_ed25519ctx_open` for
another: the key pair, the buffers of both, contexts of at most 255 bytes, and a length for which
`crypto_sign` and `crypto_sign_open` are inverse. -/
structure ContextCalls (mem : Mem) (pk sk sm smlen m out outlen : Addr) (mlen : UInt64) (ctx₁ : Ptr)
    (len₁ : UInt64) (ctx₂ : Ptr) (len₂ : UInt64) (seed : List UInt8) : Prop where
  key : KeyPair hash mem pk sk seed
  signing : VariantBuffers mem pk sk sm smlen m mlen.toNat (64 + mlen.toNat + 64)
  opening : CtxOpenBuffers mem out outlen sm pk (64 + mlen.toNat + 64)
  valid₁ : ContextValid mem ctx₁ len₁
  short₁ : ¬ (ctx₁ ≠ none ∧ len₁ > 255)
  valid₂ : ContextValid mem ctx₂ len₂
  short₂ : ¬ (ctx₂ ≠ none ∧ len₂ > 255)
  max : mlen ≤ sizeMax - 192

/-- What is signed under one context is opened under the other exactly if their tags are equal, and
delivered as it was; where it is not opened the memory stays as it is. -/
def ContextRoundTrip (malloc : ℕ → Option ℕ) (mem : Mem) (pk sk sm smlen m out outlen : Addr)
    (mlen : UInt64) (ctx₁ : Ptr) (len₁ : UInt64) (ctx₂ : Ptr) (len₂ : UInt64) : Prop :=
  ∃ mem' mem'' ret,
    Runs (cryptoSignEd25519ctx hash true (some sm) (some smlen) (some m) mlen (some sk) ctx₁ len₁)
      mem 0 mem' ∧
    Runs (cryptoSignEd25519ctxOpenWith hash malloc (some out) (some outlen) (some sm)
      (mem'.u64 smlen) (some pk) ctx₂ len₂) mem' ret mem'' ∧
    (ret = 0 ↔ contextTag hash (contextBytes mem ctx₁ len₁) =
      contextTag hash (contextBytes mem' ctx₂ len₂)) ∧
    (ret = 0 → mem''.u64 outlen = mlen ∧ mem''.bytes out mlen.toNat = mem.bytes m mlen.toNat) ∧
    (ret ≠ 0 → mem'' = mem')

/-- A call of `crypto_sign_ed25519ctx_open` that does not return 0 leaves the memory as it was,
whatever it was given. -/
def FailureQuiet (malloc : ℕ → Option ℕ) : Prop :=
  ∀ {mem mem' : Mem} {m mlen sm pk ctx : Ptr} {smlen ctxLen : UInt64} {ret : Int32},
    (∀ m' mlen' sm' pk', m = some m' → mlen = some mlen' → sm = some sm' → pk = some pk' →
      CtxOpenBuffers mem m' mlen' sm' pk' smlen.toNat) →
    ContextValid mem ctx ctxLen →
    Runs (cryptoSignEd25519ctxOpenWith hash malloc m mlen sm smlen pk ctx ctxLen) mem ret mem' →
    ret ≠ 0 → mem' = mem

section Calls

variable {ctx₁ ctx₂ : Ptr} {len₁ len₂ : UInt64} {capacity : ℕ}
  (h : ContextCalls hash mem pk sk sm smlen m out outlen mlen ctx₁ len₁ ctx₂ len₂ seed)

include h

/-- The memory between the two calls. -/
theorem ContextCalls.signed :
    ∃ mem', Runs (cryptoSignEd25519ctx hash true (some sm) (some smlen) (some m) mlen (some sk) ctx₁
        len₁) mem 0 mem' ∧
      (mem'.u64 smlen).toNat = 64 + mlen.toNat + 64 ∧ mem'.size = mem.size ∧
      (∀ tag, CtxAccepts hash mem' sm pk (mem'.u64 smlen) tag ↔
        contextTag hash (contextBytes mem ctx₁ len₁) = tag) ∧
      mem'.bytes (sm + 128) mlen.toNat = mem.bytes m mlen.toNat ∧
      ∀ {p k}, mem.Valid p k → Disjoint p k sm (64 + mlen.toNat + 64) → Disjoint p k smlen 8 →
        mem'.bytes p k = mem.bytes p k := by
  have hmax : mlen ≤ sizeMax - 128 := UInt64.le_trans h.max (by decide)
  obtain ⟨hsum, hfits⟩ := toNat_combinedLen hmax
  obtain ⟨mem', hsign, hsmlen, hsm, hpk, hsize, hkeeps⟩ :=
    cryptoSignEd25519ctx_runs hash h.key h.signing h.valid₁ h.short₁ hmax
  have hn : (mem'.u64 smlen).toNat = 64 + mlen.toNat + 64 := by
    rw [hsmlen, ← hsum]
    exact toNat_add_of_le hfits le_rfl
  have hnmax : mem'.u64 smlen ≤ sizeMax - 64 := UInt64.le_iff_toNat_le.mpr (by
    have hmlen : mlen.toNat ≤ 0xffffffffffffffff - 192 := h.max
    rw [hn]
    change _ ≤ 0xffffffffffffffff - 64
    omega)
  have hlength := Mem.length_bytes mem m mlen.toNat
  have haccepts := fun tag => ctxAccepts_signed_iff hash tag
    (show (mem'.u64 smlen).toNat = 64 + (mem.bytes m mlen.toNat).length + 64 by rw [hlength, hn])
    hnmax hpk (by rw [hlength]; exact hsm)
  refine ⟨mem', hsign, hn, hsize, fun tag => (haccepts tag).1, ?_, hkeeps⟩
  have hbody := (haccepts (contextTag hash (contextBytes mem ctx₁ len₁))).2
  rwa [hlength] at hbody

/-- With room for the signed message the round trip goes through. -/
theorem ContextCalls.roundTrip_of_room (hmalloc : malloc (64 + mlen.toNat) = some capacity)
    (hcapacity : 64 + mlen.toNat + 64 ≤ capacity) :
    ContextRoundTrip hash malloc mem pk sk sm smlen m out outlen mlen ctx₁ len₁ ctx₂ len₂ := by
  obtain ⟨mem', hsign, hn, hsize, haccepts, hbody, -⟩ := h.signed
  obtain ⟨n, hn'⟩ : ∃ n, n = mem'.u64 smlen := ⟨_, rfl⟩
  rw [← hn'] at hn haccepts
  have hmin : 128 ≤ n := UInt64.le_iff_toNat_le.mpr (by rw [hn]; change 128 ≤ _; omega)
  obtain ⟨hpart, hmessage, hsub⟩ := sub_sub_tag hmin
  have hblock : malloc (n - 64).toNat = some capacity := by
    rw [hpart, hn, Nat.add_sub_cancel, hmalloc]
  have hctx₂ : ContextValid mem' ctx₂ len₂ := fun p hp => (h.valid₂ p hp).of_size hsize
  have hout : CtxOpenBuffers mem' out outlen sm pk n.toNat := hn ▸ h.opening.congr hsize
  refine ⟨mem', ?_⟩
  rw [← hn']
  by_cases htag : contextTag hash (contextBytes mem ctx₁ len₁) =
      contextTag hash (contextBytes mem' ctx₂ len₂)
  · have hopen := ctxOpenWith_accepts hash hout hctx₂ h.short₂ hblock (hn ▸ hcapacity)
      ((haccepts _).mpr htag)
    rw [show n.toNat - 128 = mlen.toNat by omega] at hopen
    refine ⟨_, 0, hsign, hopen, iff_of_true rfl htag, fun _ => ⟨?_, ?_⟩, fun hret =>
      absurd rfl hret⟩
    · rw [Mem.u64_writeU64, ← hsub]
      exact UInt64.toNat_inj.mp (by rw [hmessage]; omega)
    · have hdisjoint : Disjoint out mlen.toNat outlen 8 := h.opening.m_mlen.mono (by omega) le_rfl
      rw [(Mem.frame_writeU64 _ _ _).bytes_of_disjoint hdisjoint, Mem.bytes_write le_rfl, ← hbody]
      rfl
  · have hopen := ctxOpenWith_rejects hash hout hctx₂ h.short₂ hmin hblock (hn ▸ hcapacity)
      (mt (haccepts _).mp htag)
    exact ⟨mem', -1, hsign, hopen, iff_of_false (by decide) htag,
      fun hret => absurd hret (by decide), fun _ => rfl⟩

/-- Without that room the second call leaves its block, whatever the tags are. -/
theorem ContextCalls.not_roundTrip_of_short (hmalloc : malloc (64 + mlen.toNat) = some capacity)
    (hshort : capacity < 64 + mlen.toNat + 64) :
    ¬ ContextRoundTrip hash malloc mem pk sk sm smlen m out outlen mlen ctx₁ len₁ ctx₂ len₂ := by
  obtain ⟨mem', hsign, hn, hsize, haccepts, -⟩ := h.signed
  rintro ⟨mem₁, mem₂, ret, hsign', hopen, -⟩
  obtain ⟨-, rfl⟩ := hsign'.unique hsign
  obtain ⟨n, hn'⟩ : ∃ n, n = mem₁.u64 smlen := ⟨_, rfl⟩
  rw [← hn'] at hn haccepts hopen
  have hsigned := (haccepts _).mpr rfl
  have hblock : malloc (n - 64).toNat = some capacity := by
    rw [(sub_sub_tag hsigned.min).1, hn, Nat.add_sub_cancel, hmalloc]
  have hpasses : ¬ OpenRefuses mem₁ pk n := by
    obtain ⟨A, hA, -⟩ := hsigned.fits
    obtain ⟨q, hq, -⟩ := hA.unpackneg
    rintro (hmax | hmin | hkey)
    · exact absurd hsigned.max (UInt64.not_le.mpr hmax)
    · exact absurd (UInt64.le_trans (by decide) hsigned.min) (UInt64.not_le.mpr hmin)
    · exact Option.some_ne_none q (hq.symm.trans hkey)
  exact hopen.not_faults (ctxOpenWith_overflows hash (hn ▸ h.opening.congr hsize)
    (fun p hp => (h.valid₂ p hp).of_size hsize) h.short₂ hsigned.min hblock (hn ▸ hshort) hpasses)

end Calls

/-- Contexts are bound to signatures by their tags exactly if the block for the recovered message
has room for the whole signed message, 64 bytes more than the code asks for. A failure changes
nothing. -/
theorem context_bound_iff {ctx₁ ctx₂ : Ptr} {len₁ len₂ : UInt64} {capacity : ℕ}
    (hmalloc : ∀ size capacity, malloc size = some capacity → size ≤ capacity)
    (h : ContextCalls hash mem pk sk sm smlen m out outlen mlen ctx₁ len₁ ctx₂ len₂ seed)
    (hsome : malloc (64 + mlen.toNat) = some capacity) :
    (ContextRoundTrip hash malloc mem pk sk sm smlen m out outlen mlen ctx₁ len₁ ctx₂ len₂ ↔
      64 + mlen.toNat + 64 ≤ capacity) ∧ FailureQuiet hash malloc := by
  refine ⟨⟨fun hroundtrip => ?_, h.roundTrip_of_room hash hsome⟩, ctxOpenWith_failure hash hmalloc⟩
  by_contra hshort
  exact h.not_roundTrip_of_short hash hsome (Nat.not_le.mp hshort) hroundtrip

end Binding

section Examples

/-- The keys, four bytes of message, the buffers for them and three contexts of three bytes. -/
def contextObjects : Mem := Mem.ofSizes [32, 64, 4, 132, 8, 4, 8, 3, 3, 3]

/-- A message, the context "abc" twice and the context "abd". -/
def withContexts (mem : Mem) : Mem :=
  (((mem.writeBytes ⟨2, 0⟩ [1, 2, 3, 4]).writeBytes ⟨7, 0⟩ [97, 98, 99]).writeBytes ⟨8, 0⟩
    [97, 98, 99]).writeBytes ⟨9, 0⟩ [97, 98, 100]

/-- An allocator whose blocks have 64 bytes more than asked for. -/
def roomyMalloc (size : ℕ) : Option ℕ := some (size + 64)

/-- The random bytes of the key pair. -/
def contextSeed : RngAnswer 32 := ⟨0, Vector.replicate 32 7⟩

/-- What lies in the buffers of the message and the contexts. -/
theorem withContexts_bytes (mem : Mem) :
    (withContexts mem).bytes ⟨2, 0⟩ 4 = [1, 2, 3, 4] ∧
      contextBytes (withContexts mem) (some ⟨7, 0⟩) 3 = [97, 98, 99] ∧
      contextBytes (withContexts mem) (some ⟨8, 0⟩) 3 = [97, 98, 99] ∧
      contextBytes (withContexts mem) (some ⟨9, 0⟩) 3 = [97, 98, 100] := by
  have hne : ∀ o o' n k, o ≠ o' → Disjoint ⟨o, 0⟩ n ⟨o', 0⟩ k := fun _ _ n k h =>
    Disjoint.of_obj_ne h n k
  have hlast : ∀ o k, o ≠ 9 → (withContexts mem).bytes ⟨o, 0⟩ k = _ := fun o k h =>
    Mem.bytes_writeBytes_of_disjoint (hne o 9 k _ h)
  refine ⟨?_, ?_, ?_, ?_⟩
  · rw [hlast 2 4 (by decide), Mem.bytes_writeBytes_of_disjoint (hne 2 8 4 _ (by decide)),
      Mem.bytes_writeBytes_of_disjoint (hne 2 7 4 _ (by decide))]
    exact Mem.bytes_writeBytes mem ⟨2, 0⟩ [1, 2, 3, 4]
  · refine (hlast 7 3 (by decide)).trans ?_
    rw [Mem.bytes_writeBytes_of_disjoint (hne 7 8 3 _ (by decide))]
    exact Mem.bytes_writeBytes _ ⟨7, 0⟩ [97, 98, 99]
  · exact (hlast 8 3 (by decide)).trans (Mem.bytes_writeBytes _ ⟨8, 0⟩ [97, 98, 99])
  · exact Mem.bytes_writeBytes _ ⟨9, 0⟩ [97, 98, 100]

/-- The key pair of the seed signs the message under the first context, and opens it under the one
at `ctx₂`. -/
theorem withContexts_calls :
    ∃ mem₁, Runs (cryptoSignKeypair Sha512.hash contextSeed (some ⟨0, 0⟩) (some ⟨1, 0⟩))
        contextObjects 0 mem₁ ∧
      ∀ o, o = 8 ∨ o = 9 → ContextCalls Sha512.hash (withContexts mem₁) ⟨0, 0⟩ ⟨1, 0⟩ ⟨3, 0⟩ ⟨4, 0⟩
        ⟨2, 0⟩ ⟨5, 0⟩ ⟨6, 0⟩ 4 (some ⟨7, 0⟩) 3 (some ⟨o, 0⟩) 3 contextSeed.bytes.toList := by
  have hne : ∀ {o o' n k}, o ≠ o' → Disjoint ⟨o, 0⟩ n ⟨o', 0⟩ k := fun h => Disjoint.of_obj_ne h _ _
  have hobject : ∀ o k, contextObjects.size o = k → contextObjects.Valid ⟨o, 0⟩ k :=
    fun o k hk i hi => by
      rw [hk, Nat.zero_add]
      exact hi
  obtain ⟨mem₁, hrun, hkey, hsize, -⟩ := cryptoSignKeypair_runs Sha512.hash
    (rfl : contextSeed.status = 0) (hobject 0 32 rfl) (hobject 1 64 rfl) (hne (by decide))
  have hvalid : ∀ {o k}, contextObjects.size o = k → (withContexts mem₁).Valid ⟨o, 0⟩ k :=
    fun hk => (hobject _ _ hk).of_size hsize
  have hvec : ∀ {o k}, o ≠ 2 → o ≠ 7 → o ≠ 8 → o ≠ 9 →
      (withContexts mem₁).vec ⟨o, 0⟩ k = mem₁.vec ⟨o, 0⟩ k := fun h2 h7 h8 h9 => by
    rw [withContexts, Mem.writeBytes, Mem.vec_write_of_disjoint (hne h9), Mem.writeBytes,
      Mem.vec_write_of_disjoint (hne h8), Mem.writeBytes, Mem.vec_write_of_disjoint (hne h7),
      Mem.writeBytes, Mem.vec_write_of_disjoint (hne h2)]
  have hctx : ∀ {o}, contextObjects.size o = 3 →
      ContextValid (withContexts mem₁) (some ⟨o, 0⟩) 3 := fun ho p hp => by
    cases hp
    exact hvalid ho
  have hshort : ∀ {p : Ptr}, ¬ (p ≠ none ∧ (3 : UInt64) > 255) := fun h => absurd h.2 (by decide)
  refine ⟨mem₁, hrun, fun o ho => ⟨?_, ?_, ?_, hctx rfl, hshort, hctx ?_, hshort, by decide⟩⟩
  · exact hkey.congr (hvec (by decide) (by decide) (by decide) (by decide))
      (hvec (by decide) (by decide) (by decide) (by decide))
  · exact ⟨hvalid rfl, hvalid rfl, hvalid rfl, hvalid rfl, hvalid rfl, hne (by decide),
      hne (by decide), hne (by decide), hne (by decide), hne (by decide)⟩
  · exact ⟨hvalid rfl, hvalid rfl, hvalid rfl, hvalid rfl, hne (by decide)⟩
  · rcases ho with rfl | rfl <;> rfl

/-- The two contexts have different tags. -/
theorem contextTag_abc_ne_abd :
    contextTag Sha512.hash [97, 98, 99] ≠ contextTag Sha512.hash [97, 98, 100] := fun h => by
  have hbyte := congrArg (fun tag : Vector UInt8 64 => tag.get 0) h
  revert hbyte
  decide +kernel

/-- With blocks that have 64 bytes more than asked for, what is signed under "abc" is opened under a
second copy of "abc" and not under "abd". With blocks of the size asked for it is not opened. -/
theorem context_bound_abc :
    ∃ mem₁, Runs (cryptoSignKeypair Sha512.hash contextSeed (some ⟨0, 0⟩) (some ⟨1, 0⟩))
        contextObjects 0 mem₁ ∧
      (∃ mem₂ mem₃,
        Runs (cryptoSignEd25519ctx Sha512.hash true (some ⟨3, 0⟩) (some ⟨4, 0⟩) (some ⟨2, 0⟩) 4
          (some ⟨1, 0⟩) (some ⟨7, 0⟩) 3) (withContexts mem₁) 0 mem₂ ∧
        Runs (cryptoSignEd25519ctxOpenWith Sha512.hash roomyMalloc (some ⟨5, 0⟩) (some ⟨6, 0⟩)
          (some ⟨3, 0⟩) (mem₂.u64 ⟨4, 0⟩) (some ⟨0, 0⟩) (some ⟨8, 0⟩) 3) mem₂ 0 mem₃ ∧
        mem₃.u64 ⟨6, 0⟩ = 4 ∧ mem₃.bytes ⟨5, 0⟩ 4 = [1, 2, 3, 4]) ∧
      (∃ mem₂ ret,
        Runs (cryptoSignEd25519ctx Sha512.hash true (some ⟨3, 0⟩) (some ⟨4, 0⟩) (some ⟨2, 0⟩) 4
          (some ⟨1, 0⟩) (some ⟨7, 0⟩) 3) (withContexts mem₁) 0 mem₂ ∧ ret ≠ 0 ∧
        Runs (cryptoSignEd25519ctxOpenWith Sha512.hash roomyMalloc (some ⟨5, 0⟩) (some ⟨6, 0⟩)
          (some ⟨3, 0⟩) (mem₂.u64 ⟨4, 0⟩) (some ⟨0, 0⟩) (some ⟨9, 0⟩) 3) mem₂ ret mem₂) ∧
      ¬ ContextRoundTrip Sha512.hash some (withContexts mem₁) ⟨0, 0⟩ ⟨1, 0⟩ ⟨3, 0⟩ ⟨4, 0⟩ ⟨2, 0⟩
        ⟨5, 0⟩ ⟨6, 0⟩ 4 (some ⟨7, 0⟩) 3 (some ⟨8, 0⟩) 3 := by
  obtain ⟨mem₁, hkeypair, hcalls⟩ := withContexts_calls
  obtain ⟨hmessage, habc, habc', habd⟩ := withContexts_bytes mem₁
  have hroomy : ∀ size capacity, roomyMalloc size = some capacity → size ≤ capacity :=
    fun size capacity h => by
      cases h
      exact Nat.le_add_right _ _
  have hsome : ∀ size capacity : ℕ, some size = some capacity → size ≤ capacity :=
    fun size capacity h => (Option.some.inj h).le
  have hroom : ∀ o, o = 8 ∨ o = 9 → ContextRoundTrip Sha512.hash roomyMalloc (withContexts mem₁)
      ⟨0, 0⟩ ⟨1, 0⟩ ⟨3, 0⟩ ⟨4, 0⟩ ⟨2, 0⟩ ⟨5, 0⟩ ⟨6, 0⟩ 4 (some ⟨7, 0⟩) 3 (some ⟨o, 0⟩) 3 :=
    fun o ho => by
      have hiff := context_bound_iff Sha512.hash hroomy (hcalls o ho) rfl
      exact hiff.1.mpr le_rfl
  have hexact : ¬ ContextRoundTrip Sha512.hash some (withContexts mem₁) ⟨0, 0⟩ ⟨1, 0⟩ ⟨3, 0⟩ ⟨4, 0⟩
      ⟨2, 0⟩ ⟨5, 0⟩ ⟨6, 0⟩ 4 (some ⟨7, 0⟩) 3 (some ⟨8, 0⟩) 3 := fun hroundtrip => by
    have hiff := context_bound_iff Sha512.hash hsome (hcalls 8 (Or.inl rfl)) rfl
    exact absurd (hiff.1.mp hroundtrip) (by decide)
  -- The contexts lie where nothing is signed, and are read unchanged by the second call.
  have hread : ∀ o mem₂, o = 8 ∨ o = 9 →
      Runs (cryptoSignEd25519ctx Sha512.hash true (some ⟨3, 0⟩) (some ⟨4, 0⟩) (some ⟨2, 0⟩) 4
        (some ⟨1, 0⟩) (some ⟨7, 0⟩) 3) (withContexts mem₁) 0 mem₂ →
      contextBytes mem₂ (some ⟨o, 0⟩) 3 = contextBytes (withContexts mem₁) (some ⟨o, 0⟩) 3 := by
    intro o mem₂ ho hsign
    obtain ⟨mem₂', hsign', -, -, -, -, hkeeps⟩ := (hcalls o ho).signed
    obtain ⟨-, rfl⟩ := hsign.unique hsign'
    have hne : o ≠ 3 ∧ o ≠ 4 := by omega
    exact hkeeps ((hcalls o ho).valid₂ _ rfl) (Disjoint.of_obj_ne hne.1 _ _)
      (Disjoint.of_obj_ne hne.2 _ _)
  refine ⟨mem₁, hkeypair, ?_, ?_, hexact⟩
  · obtain ⟨mem₂, mem₃, ret, hsign, hopen, hret, hdelivered, -⟩ := hroom 8 (Or.inl rfl)
    have hzero : ret = 0 := hret.mpr (by rw [hread 8 mem₂ (Or.inl rfl) hsign, habc, habc'])
    rw [hzero] at hopen
    obtain ⟨hlen, hbytes⟩ := hdelivered hzero
    exact ⟨mem₂, mem₃, hsign, hopen, hlen, hbytes.trans hmessage⟩
  · obtain ⟨mem₂, mem₃, ret, hsign, hopen, hret, -, hfailed⟩ := hroom 9 (Or.inr rfl)
    have hne : ret ≠ 0 := fun hzero => contextTag_abc_ne_abd (by
      have htags := hret.mp hzero
      rw [hread 9 mem₂ (Or.inr rfl) hsign, habc, habd] at htags
      exact htags)
    obtain rfl := hfailed hne
    exact ⟨mem₃, ret, hsign, hne, hopen⟩

/-- With a block of the size that the code asks for, what was signed under "abc" is not opened under
"abc". -/
theorem contextRoundTrip_exact_abc :
    ∃ mem₁, Runs (cryptoSignKeypair Sha512.hash contextSeed (some ⟨0, 0⟩) (some ⟨1, 0⟩))
        contextObjects 0 mem₁ ∧
      ¬ ContextRoundTrip Sha512.hash some (withContexts mem₁) ⟨0, 0⟩ ⟨1, 0⟩ ⟨3, 0⟩ ⟨4, 0⟩ ⟨2, 0⟩
        ⟨5, 0⟩ ⟨6, 0⟩ 4 (some ⟨7, 0⟩) 3 (some ⟨8, 0⟩) 3 := by
  obtain ⟨mem₁, hkeypair, hcalls⟩ := withContexts_calls
  exact ⟨mem₁, hkeypair,
    (hcalls 8 (Or.inl rfl)).not_roundTrip_of_short Sha512.hash rfl (by decide)⟩

end Examples

end TweetNacl
