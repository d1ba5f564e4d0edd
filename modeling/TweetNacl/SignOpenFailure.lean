import TweetNacl.Malleability

/-!
# What a failed `crypto_sign_open` leaves behind

`crypto_sign_open` copies the whole signed message to the buffer of the message before it knows the
verdict. After a mismatch it clears the part that the message takes, and the last 64 bytes keep the
copy. The exits before the copy leave the length as it was.
-/

namespace TweetNacl

open Memory Limbs Ed25519

section Failure

variable (hash : List UInt8 → Vector UInt8 64) {mem : Mem} {m mlen sm pk : Addr} {n : UInt64}

/-- When `crypto_sign_open` returns −1, the length is zero and every byte of the buffer is zero or
as before. -/
def ReleasesNothing (mem : Mem) (m mlen sm pk : Addr) (n : UInt64) : Prop :=
  ∀ mem', Runs (cryptoSignOpen hash (some m) (some mlen) (some sm) n (some pk)) mem (-1) mem' →
    mem'.u64 mlen = 0 ∧ ∀ i < n.toNat, mem'.byte (m + i) = mem.byte (m + i) ∨ mem'.byte (m + i) = 0

/-- The lengths or the key are refused, before anything is written. -/
def Refused (mem : Mem) (pk : Addr) (n : UInt64) : Prop :=
  sizeMax - 64 < n ∨ n < 64 ∨ ∀ A, ¬ DecodesTo (mem.vec pk 32) A

/-- The last 64 bytes of the scratch copy are zero, or what the buffer holds already. -/
def ScratchHarmless (mem : Mem) (m sm pk : Addr) (n : UInt64) : Prop :=
  ∀ i < n.toNat, n.toNat - 64 ≤ i → openScratch mem sm pk i = mem.byte (m + i) ∨
    openScratch mem sm pk i = 0

/-- A refused call changes nothing. -/
theorem Refused.runs (h : Refused mem pk n) (hpk : mem.Valid pk 32) :
    Runs (cryptoSignOpen hash (some m) (some mlen) (some sm) n (some pk)) mem (-1) mem := by
  refine cryptoSignOpen_refuses hash hpk (h.imp_right (Or.imp_right fun hkey => ?_))
  cases hq : unpackneg (mem.vec pk 32) with
  | none => rfl
  | some q =>
    obtain ⟨A, hA, -⟩ := unpackneg_some hq
    exact absurd hA (hkey A)

/-- After a refused call the length is what it was. -/
theorem Refused.releasesNothing_iff (h : Refused mem pk n) (hpk : mem.Valid pk 32) :
    ReleasesNothing hash mem m mlen sm pk n ↔ mem.u64 mlen = 0 := by
  have hrun : Runs (cryptoSignOpen hash (some m) (some mlen) (some sm) n (some pk)) mem (-1) mem :=
    h.runs hash hpk
  refine ⟨fun hnothing => (hnothing mem hrun).1, fun hzero mem' hrun' => ?_⟩
  obtain ⟨-, rfl⟩ := hrun'.unique hrun
  exact ⟨hzero, fun i _ => Or.inl rfl⟩

/-- After a mismatch the message is cleared, but not the rest of the scratch copy. -/
theorem releasesNothing_iff_of_not_refused (h : OpenBuffers mem m mlen sm pk n.toNat)
    (hpass : ¬ Refused mem pk n) :
    ReleasesNothing hash mem m mlen sm pk n ↔
      Fits hash mem sm pk (n.toNat - 64) (leNat (mem.vec (sm + 32) 32)) ∨
      ScratchHarmless mem m sm pk n := by
  simp only [Refused, not_or, UInt64.not_lt, not_forall, not_not] at hpass
  obtain ⟨hn', hn, A, hA⟩ := hpass
  obtain ⟨q, hq, hdenotes⟩ := hA.unpackneg
  obtain ⟨mem', hrun, hframe, hbytes, hrest⟩ := cryptoSignOpen_writes hash h hn hn' hq rfl
  rw [← eq_recovered_iff_fits hash hA hdenotes]
  by_cases hacc : mem.vec sm 32 = recovered hash q (mem.vec sm 32) (mem.vec (sm + 32) 32)
      (mem.bytes pk 32) (mem.bytes (sm + 64) (n.toNat - 64))
  · rw [if_pos hacc] at hrun
    refine iff_of_true (fun mem'' hrun' => ?_) (Or.inl hacc)
    exact absurd (hrun.unique hrun').1 (by decide)
  · rw [if_neg hacc] at hrun hbytes
    rw [if_neg hacc] at hrun
    have hbyte : ∀ i < n.toNat, (mem'.writeU64 mlen 0).byte (m + i) = mem'.byte (m + i) :=
        fun i hi =>
      (mem'.frame_writeU64 mlen 0).byte_of_disjoint h.m_mlen hi
    refine ⟨fun hnothing => Or.inr fun i hi hlast => ?_, fun hharmless mem'' hrun' => ?_⟩
    · have hrelease := (hnothing _ hrun).2 i hi
      rwa [hbyte i hi, hrest i hi hlast] at hrelease
    · obtain ⟨-, rfl⟩ := hrun'.unique hrun
      refine ⟨Mem.u64_writeU64 _ _ _, fun i hi => ?_⟩
      rw [hbyte i hi]
      by_cases hlast : n.toNat - 64 ≤ i
      · rw [hrest i hi hlast]
        exact hharmless.resolve_left hacc i hi hlast
      · right
        have hzero := congrArg (·[i]?) hbytes
        simpa [Mem.bytes, Nat.not_le.mp hlast] using hzero

/-- A failed `crypto_sign_open` releases nothing exactly if the call is refused and the length was
zero, or it is not refused and the signature fits or the scratch copy is harmless. -/
theorem releases_nothing_iff (hpk : mem.Valid pk 32)
    (h : 64 ≤ n → n ≤ sizeMax - 64 → OpenBuffers mem m mlen sm pk n.toNat) :
    ReleasesNothing hash mem m mlen sm pk n ↔
      Refused mem pk n ∧ mem.u64 mlen = 0 ∨
        ¬ Refused mem pk n ∧ (Fits hash mem sm pk (n.toNat - 64) (leNat (mem.vec (sm + 32) 32)) ∨
          ScratchHarmless mem m sm pk n) := by
  by_cases hrefused : Refused mem pk n
  · rw [hrefused.releasesNothing_iff hash hpk]
    exact ⟨fun hzero => Or.inl ⟨hrefused, hzero⟩, fun hcond => hcond.elim And.right fun hpass =>
      absurd hrefused hpass.1⟩
  · have hlengths := hrefused
    simp only [Refused, not_or, UInt64.not_lt] at hlengths
    rw [releasesNothing_iff_of_not_refused hash (h hlengths.2.1 hlengths.1) hrefused]
    exact ⟨fun hcond => Or.inr ⟨hrefused, hcond⟩, fun hcond =>
      hcond.elim (fun hfail => absurd hfail.1 hrefused) And.right⟩

/-- A signature that does not fit is rejected after the checks. -/
theorem cryptoSignOpen_mismatch (h : OpenBuffers mem m mlen sm pk n.toNat)
    (hpass : ¬ Refused mem pk n)
    (hfits : ¬ Fits hash mem sm pk (n.toNat - 64) (leNat (mem.vec (sm + 32) 32))) :
    ∃ mem', Runs (cryptoSignOpen hash (some m) (some mlen) (some sm) n (some pk)) mem
      (-1) mem' := by
  simp only [Refused, not_or, UInt64.not_lt, not_forall, not_not] at hpass
  obtain ⟨hn', hn, A, hA⟩ := hpass
  obtain ⟨q, hq, hdenotes⟩ := hA.unpackneg
  obtain ⟨mem', hrun, -⟩ := cryptoSignOpen_writes hash h hn hn' hq rfl
  rw [← eq_recovered_iff_fits hash hA hdenotes] at hfits
  rw [if_neg hfits, if_neg hfits] at hrun
  exact ⟨_, hrun⟩

end Failure

section Example

/-- The key encodes the neutral element, the signature is zero, and of the 128 bytes of the message
the one at 63 is 7. The buffer is zero, and the length 5. -/
def leakingMemory : Mem :=
  (((Mem.ofSizes [32, 192, 192, 8]).writeVec ⟨0, 0⟩ neutralBytes).write ((⟨1, 0⟩ : Addr) + 127) 1
    fun _ => 7).writeU64 ⟨3, 0⟩ 5

/-- Its buffers hold signed messages of up to 192 bytes. -/
theorem leakingMemory_buffers {l : ℕ} (hl : l ≤ 192) :
    OpenBuffers leakingMemory ⟨2, 0⟩ ⟨3, 0⟩ ⟨1, 0⟩ ⟨0, 0⟩ l := by
  have hvalid : ∀ o k, leakingMemory.size o = k → leakingMemory.Valid ⟨o, 0⟩ k :=
    fun o k hk i hi => by
      rw [hk, Nat.zero_add]
      exact hi
  exact ⟨(hvalid 2 192 rfl).mono hl, hvalid 3 8 rfl, (hvalid 1 192 rfl).mono hl, hvalid 0 32 rfl,
    Disjoint.of_obj_ne (by decide) _ _, Disjoint.of_obj_ne (by decide) _ _,
    Disjoint.of_obj_ne (by decide) _ _⟩

/-- The key of this memory. -/
theorem leakingMemory_key : leakingMemory.vec ⟨0, 0⟩ 32 = neutralBytes := by
  rw [leakingMemory, (Mem.frame_writeU64 _ _ _).vec_of_disjoint
    (Disjoint.of_obj_ne (by decide) _ _),
    Mem.vec_write_of_disjoint (Disjoint.of_obj_ne (by decide) _ _), Mem.vec_writeVec]

/-- The other bytes are zero. -/
theorem leakingMemory_byte {o i : ℕ} (ho : o = 1 ∨ o = 2) (hi : ¬ (o = 1 ∧ i = 127)) :
    leakingMemory.byte ((⟨o, 0⟩ : Addr) + i) = 0 := by
  have hlen : (⟨o, 0⟩ : Addr).obj ≠ (⟨3, 0⟩ : Addr).obj := by
    change o ≠ 3
    omega
  have hkey : ((⟨o, 0⟩ : Addr) + i).obj ≠ (⟨0, 0⟩ : Addr).obj := by
    change o ≠ 0
    omega
  have hlast : ∀ j < 1, (⟨o, 0⟩ : Addr) + i ≠ (⟨1, 0⟩ : Addr) + 127 + j := fun j hj heq => by
    have hobj : o = 1 := congrArg Addr.obj heq
    have hoff : 0 + i = 0 + 127 + j := congrArg Addr.off heq
    omega
  have hframe := Mem.frame_writeU64 (((Mem.ofSizes [32, 192, 192, 8]).writeVec ⟨0, 0⟩
    neutralBytes).write ((⟨1, 0⟩ : Addr) + 127) 1 fun _ => 7) ⟨3, 0⟩ 5
  rw [leakingMemory,
    hframe.byte_of_disjoint (Disjoint.of_obj_ne hlen (i + 1) 8) (Nat.lt_succ_self i),
    Mem.write_byte_of_ne hlast, Mem.writeVec, Mem.write_byte_of_obj_ne hkey]
  rfl

/-- Its key decodes. -/
theorem leakingMemory_decodes : DecodesTo (leakingMemory.vec ⟨0, 0⟩ 32) 0 :=
  leakingMemory_key ▸ decodesTo_neutralBytes

/-- So no length from 64 on is refused. -/
theorem leakingMemory_not_refused {n : UInt64} (hmin : ¬ n < 64) (hmax : ¬ sizeMax - 64 < n) :
    ¬ Refused leakingMemory ⟨0, 0⟩ n := by
  rintro (h | h | hkey)
  · exact hmax h
  · exact hmin h
  · exact hkey 0 leakingMemory_decodes

/-- The zero signature fits no message: the commitment would have to be that of the neutral
element. -/
theorem leakingMemory_not_fits (l : ℕ) : ¬ Fits Sha512.hash leakingMemory ⟨1, 0⟩ ⟨0, 0⟩ l
    (leNat (leakingMemory.vec ((⟨1, 0⟩ : Addr) + 32) 32)) := by
  have hzero : ∀ k ≤ 64, leNat (leakingMemory.vec ((⟨1, 0⟩ : Addr) + k) 32) = 0 := fun k hk => by
    have hvec : leakingMemory.vec ((⟨1, 0⟩ : Addr) + k) 32 = Vector.replicate 32 0 :=
      Vector.ext fun i hi => by
        rw [Mem.getElem_vec, Addr.add_add, leakingMemory_byte (Or.inl rfl) (by omega),
          Vector.getElem_replicate]
    rw [hvec]
    decide
  rintro ⟨A, hA, heq⟩
  rw [hzero 32 (by norm_num), hA.unique leakingMemory_decodes, nsmul_zero, zero_nsmul, add_zero,
    ← leNat_neutralBytes] at heq
  have hcommitment := hzero 0 (by norm_num)
  rw [Addr.add_zero] at hcommitment
  rw [hcommitment] at heq
  exact absurd heq (by rw [neutralBytes, leNat_ofNatLE (by norm_num)]; norm_num)

/-- The signed message of 192 bytes fails, and releases nothing: the last 64 bytes of the message
are zero. -/
theorem leakingMemory_releases_nothing :
    (∃ mem', Runs (cryptoSignOpen Sha512.hash (some ⟨2, 0⟩) (some ⟨3, 0⟩) (some ⟨1, 0⟩) 192
      (some ⟨0, 0⟩)) leakingMemory (-1) mem') ∧
      ReleasesNothing Sha512.hash leakingMemory ⟨2, 0⟩ ⟨3, 0⟩ ⟨1, 0⟩ ⟨0, 0⟩ 192 := by
  have hbuf : OpenBuffers leakingMemory ⟨2, 0⟩ ⟨3, 0⟩ ⟨1, 0⟩ ⟨0, 0⟩ (192 : UInt64).toNat :=
    leakingMemory_buffers (by decide)
  have hpass : ¬ Refused leakingMemory ⟨0, 0⟩ 192 :=
    leakingMemory_not_refused (by decide) (by decide)
  have hharmless : ScratchHarmless leakingMemory ⟨2, 0⟩ ⟨1, 0⟩ ⟨0, 0⟩ 192 := fun i hi hlast => by
    have hi' : i < 192 := hi
    have hlast' : 192 - 64 ≤ i := hlast
    rw [openScratch, if_neg (by omega), leakingMemory_byte (Or.inl rfl) (by omega)]
    exact Or.inr rfl
  exact ⟨cryptoSignOpen_mismatch Sha512.hash hbuf hpass (leakingMemory_not_fits _),
    (releases_nothing_iff Sha512.hash hbuf.valid_pk fun _ _ => hbuf).mpr
      (Or.inr ⟨hpass, Or.inr hharmless⟩)⟩

/-- The signed message of 128 bytes fails, and its last byte stays in the buffer. A message that is
too short leaves the length. -/
theorem leakingMemory_releases :
    ¬ ReleasesNothing Sha512.hash leakingMemory ⟨2, 0⟩ ⟨3, 0⟩ ⟨1, 0⟩ ⟨0, 0⟩ 128 ∧
      ¬ ReleasesNothing Sha512.hash leakingMemory ⟨2, 0⟩ ⟨3, 0⟩ ⟨1, 0⟩ ⟨0, 0⟩ 63 := by
  constructor
  · have hpass : ¬ Refused leakingMemory ⟨0, 0⟩ 128 :=
      leakingMemory_not_refused (by decide) (by decide)
    rw [releasesNothing_iff_of_not_refused Sha512.hash
      (show OpenBuffers _ _ _ _ _ (128 : UInt64).toNat from leakingMemory_buffers
        (by decide)) hpass]
    rintro (hfits | hharmless)
    · exact leakingMemory_not_fits _ hfits
    · have hlast := hharmless 127 (by decide) (by decide)
      have hseven : leakingMemory.byte ((⟨1, 0⟩ : Addr) + 127) = 7 := by
        rw [leakingMemory, (Mem.frame_writeU64 _ _ _).byte_of_disjoint
          (Disjoint.of_obj_ne (p := ⟨1, 0⟩) (by decide) 128 8) (by norm_num)]
        exact Mem.write_byte (i := 0) (by norm_num)
      rw [leakingMemory_byte (Or.inr rfl) (by decide), or_self, openScratch, if_neg (by decide),
        hseven] at hlast
      exact absurd hlast (by decide)
  · have hshort : Refused leakingMemory ⟨0, 0⟩ 63 := Or.inr (Or.inl (by decide))
    rw [hshort.releasesNothing_iff Sha512.hash (leakingMemory_buffers le_rfl).valid_pk,
      leakingMemory, Mem.u64_writeU64]
    decide

end Example

end TweetNacl
