import TweetNacl.KeyExchange
import TweetNacl.KeypairValidate
import TweetNacl.SignOpenBounds

/-!
# The X25519 self-tests

The self-tests of the key exchange generate key pairs and compare shared secrets. They are correct
statements about X25519, so that no random bytes make one of them fail: it fails exactly if there
are no random bytes.
-/

namespace TweetNacl

open Memory

section Code

/-- `fips_kat_x25519` between the clearing of its buffers. -/
def katX25519Body (rng : RngAnswer 32) (pk sk ss zeroCheck : Addr) : Exec Int32 := do
  if (← cryptoBoxKeypair rng (some pk) (some sk)) ≠ 0 then return -1
  if (← cryptoScalarmult (some ss) (some sk) (some pk)) ≠ 0 then return -1
  secureZero zeroCheck 32
  let secret ← loadVec ss 32
  let zero ← loadVec zeroCheck 32
  if secureMemcmp secret zero = 0 then return -1
  return 0

/-- `fips_kat_x25519`. -/
def fipsKatX25519 (rng : RngAnswer 32) : Exec Int32 :=
  withLocal 32 fun pk => withLocal 32 fun sk => withLocal 32 fun ss =>
  withLocal 32 fun zeroCheck => do
    zeroizeAll [(pk, 32), (sk, 32), (ss, 32)]
    let ret ← katX25519Body rng pk sk ss zeroCheck
    zeroizeAll [(pk, 32), (sk, 32), (ss, 32)]
    pure ret

/-- `fips_pct_keygen_x25519` between the clearing of its buffers. -/
def pctX25519Body (rng1 rng2 : RngAnswer 32) (pk1 sk1 pk2 sk2 ss1 ss2 : Addr) : Exec Int32 := do
  if (← cryptoBoxKeypair rng1 (some pk1) (some sk1)) ≠ 0 then return -1
  if (← cryptoBoxKeypair rng2 (some pk2) (some sk2)) ≠ 0 then return -1
  if (← cryptoScalarmult (some ss1) (some sk1) (some pk2)) ≠ 0 then return -1
  if (← cryptoScalarmult (some ss2) (some sk2) (some pk1)) ≠ 0 then return -1
  let secret1 ← loadVec ss1 32
  let secret2 ← loadVec ss2 32
  if secureMemcmp secret1 secret2 ≠ 0 then return -1
  return 0

/-- `fips_pct_keygen_x25519`. -/
def fipsPctKeygenX25519 (rng1 rng2 : RngAnswer 32) : Exec Int32 :=
  withLocal 32 fun pk1 => withLocal 32 fun sk1 => withLocal 32 fun pk2 => withLocal 32 fun sk2 =>
  withLocal 32 fun ss1 => withLocal 32 fun ss2 => do
    zeroizeAll [(pk1, 32), (sk1, 32), (pk2, 32), (sk2, 32), (ss1, 32), (ss2, 32)]
    let ret ← pctX25519Body rng1 rng2 pk1 sk1 pk2 sk2 ss1 ss2
    zeroizeAll [(pk1, 32), (sk1, 32), (pk2, 32), (sk2, 32), (ss1, 32), (ss2, 32)]
    pure ret

/-- `constant_time_compare` of the core self-tests, which returns the differences it has
collected. -/
def constantTimeCompare {n : ℕ} (a b : Vector UInt8 n) : Int32 :=
  let result := Nat.fold n (fun i _ (result : UInt8) => result ||| (a[i] ^^^ b[i])) 0
  Int32.ofNat result.toNat

/-- `fips_selftest_x25519`, which clears on each exit what it has filled. -/
def fipsSelftestX25519 (rng1 rng2 : RngAnswer 32) : Exec Int32 :=
  withLocal 32 fun pk1 => withLocal 32 fun sk1 => withLocal 32 fun pk2 => withLocal 32 fun sk2 =>
  withLocal 32 fun ss1 => withLocal 32 fun ss2 => do
    if (← cryptoBoxKeypair rng1 (some pk1) (some sk1)) ≠ 0 then return Core.naclErrorSelfTestFailed
    if (← cryptoBoxKeypair rng2 (some pk2) (some sk2)) ≠ 0 then
      zeroizeAll [(pk1, 32), (sk1, 32)]
      return Core.naclErrorSelfTestFailed
    if (← cryptoScalarmult (some ss1) (some sk1) (some pk2)) ≠ 0 then
      zeroizeAll [(pk1, 32), (sk1, 32), (pk2, 32), (sk2, 32)]
      return Core.naclErrorSelfTestFailed
    if (← cryptoScalarmult (some ss2) (some sk2) (some pk1)) ≠ 0 then
      zeroizeAll [(pk1, 32), (sk1, 32), (pk2, 32), (sk2, 32), (ss1, 32)]
      return Core.naclErrorSelfTestFailed
    let secret1 ← loadVec ss1 32
    let secret2 ← loadVec ss2 32
    if constantTimeCompare secret1 secret2 ≠ 0 then
      zeroizeAll [(pk1, 32), (sk1, 32), (pk2, 32), (sk2, 32), (ss1, 32), (ss2, 32)]
      return Core.naclErrorSelfTestFailed
    zeroizeAll [(pk1, 32), (sk1, 32), (pk2, 32), (sk2, 32), (ss1, 32), (ss2, 32)]
    return Core.naclSuccess

end Code

section KeyPairs

variable {mem : Mem} {pk sk : Addr} {rng : RngAnswer 32}

/-- What a generated key pair leaves in memory: both keys, and everything outside them as before. -/
structure HoldsPair (mem mem' : Mem) (pk sk : Addr) (seed : Vector UInt8 32) : Prop where
  sk_eq : mem'.vec sk 32 = seed
  pk_eq : mem'.vec pk 32 = scalarmultBytes seed basePoint9
  size : mem'.size = mem.size
  other : ∀ {q n}, Disjoint q n pk 32 → Disjoint q n sk 32 → mem'.vec q n = mem.vec q n

/-- `crypto_box_keypair` leaves a key pair if it gets random bytes. -/
theorem boxKeypair_runs (hpk : mem.Valid pk 32) (hsk : mem.Valid sk 32)
    (hdisjoint : Disjoint pk 32 sk 32)
    (hrng : rng.status = 0) : ∃ mem', Runs (cryptoBoxKeypair rng (some pk) (some sk)) mem 0 mem' ∧
      HoldsPair mem mem' pk sk rng.bytes := by
  obtain ⟨mem₁, hmem₁⟩ : ∃ mem₁, mem₁ = mem.writeVec sk rng.bytes := ⟨_, rfl⟩
  have hrandom : Runs (randombytesSafe rng sk) mem rng.status mem₁ :=
    hmem₁ ▸ (Runs.storeVec hsk _).bind (Runs.pure _ _)
  have hframe : mem.Frame mem₁ sk 32 := hmem₁ ▸ Mem.frame_writeVec _ _ _
  have hsecret : mem₁.vec sk 32 = rng.bytes := hmem₁ ▸ Mem.vec_writeVec _ _ _
  have hbase := cryptoScalarmultBase_runs (hframe.valid hpk) (hframe.valid hsk)
  have hframe' := Mem.frame_writeVec mem₁ pk (scalarmultBytes (mem₁.vec sk 32) basePoint9)
  have hpublic := Mem.vec_writeVec mem₁ pk (scalarmultBytes (mem₁.vec sk 32) basePoint9)
  rw [hrng] at hrandom
  refine ⟨_, hrandom.bind ?_,
    ⟨?_, by rw [hpublic, hsecret], hframe'.size.trans hframe.size, fun hq hq' => ?_⟩⟩
  · rw [if_neg (not_not.mpr rfl)]
    exact hbase
  · rw [hframe'.vec_of_disjoint hdisjoint.symm, hsecret]
  · rw [hframe'.vec_of_disjoint hq, hframe.vec_of_disjoint hq']

/-- Without random bytes it fails. -/
theorem boxKeypair_fails (pk : Addr) (hsk : mem.Valid sk 32) (hrng : rng.status ≠ 0) :
    ∃ mem', Runs (cryptoBoxKeypair rng (some pk) (some sk)) mem (-1) mem' ∧
      mem'.size = mem.size := by
  have hrandom : Runs (randombytesSafe rng sk) mem rng.status (mem.writeVec sk rng.bytes) :=
    (Runs.storeVec hsk _).bind (Runs.pure _ _)
  exact ⟨_, Runs.guard hrandom hrng (Runs.pure _ _), rfl⟩

/-- A program goes on after a call that returns zero. -/
theorem Runs.guardZero {β : Type} {mem' mem'' : Mem} {x : Exec Int32} {a b : Exec β} {v : β}
    (hx : Runs x mem 0 mem') (hb : Runs b mem' v mem'') :
    Runs (x >>= fun ret => if ret ≠ 0 then a else b) mem v mem'' :=
  Runs.bind hx (by rwa [if_neg (not_not.mpr rfl)])

/-- A program goes on after the comparison of equal bytes. -/
theorem Runs.guardSame {β : Type} {mem' : Mem} {ret : Int32} {a b : Exec β} {v : β} (hret : ret = 0)
    (hb : Runs b mem v mem') : Runs (if ret ≠ 0 then a else b) mem v mem' := by
  rwa [if_neg (not_not.mpr hret)]

/-- The comparison returns 0 exactly for equal bytes. -/
theorem constantTimeCompare_eq_zero {n : ℕ} (a b : Vector UInt8 n) :
    constantTimeCompare a b = 0 ↔ a = b := by
  rw [← differences_eq_zero a b, constantTimeCompare]
  refine ⟨fun h => ?_, fun h => by rw [h]; rfl⟩
  generalize Nat.fold n _ _ = result at h ⊢
  have hlt := result.toNat_lt
  have hzero := congrArg Int32.toInt h
  rw [Int32.toInt_ofNat_of_lt (by omega)] at hzero
  exact UInt8.toNat_inj.mp (Int.ofNat_inj.mp hzero)

end KeyPairs

section Selftests

variable (mem : Mem) (rng rng1 rng2 : RngAnswer 32)

/-- Two local objects lie apart. -/
theorem fresh_disjoint {i j n k : ℕ} (hij : i ≠ j) :
    Disjoint ⟨mem.fresh + i, 0⟩ n ⟨mem.fresh + j, 0⟩ k :=
  Disjoint.of_obj_ne (fun heq => hij (Nat.add_left_cancel heq)) _ _

/-- The secret of a key pair with itself is not zero. -/
theorem secret_with_itself (seed : Vector UInt8 32) :
    scalarmultBytes seed (scalarmultBytes seed basePoint9) ≠ Vector.replicate 32 0 := by
  rw [Ne, scalarmultBytes_eq_zero_iff, lowOrder_scalarmultBytes_iff]
  exact basePoint9_not_lowOrder

/-- The known-answer test fails exactly if there are no random bytes. -/
theorem fipsKatX25519_runs :
    ∃ mem', Runs (fipsKatX25519 rng) mem (if rng.status = 0 then 0 else -1) mem' := by
  have h₀ : Locals mem [32, 32, 32, 32] (mem.allocs [32, 32, 32, 32]) := rfl
  obtain ⟨mem₁, hzero, h₁⟩ := h₀.zeroizeAll [(0, 32), (1, 32), (2, 32)] (by decide)
  -- the body runs with locals in place, whatever its result
  suffices hbody : ∃ ret mem₂, Runs (katX25519Body rng ⟨mem.fresh + 0, 0⟩ ⟨mem.fresh + 1, 0⟩
      ⟨mem.fresh + 2, 0⟩ ⟨mem.fresh + 3, 0⟩) mem₁ ret mem₂ ∧ mem₂.size = mem₁.size ∧
      ret = if rng.status = 0 then 0 else -1 by
    obtain ⟨ret, mem₂, hrun, hsize, rfl⟩ := hbody
    obtain ⟨mem₃, hzero₃, -⟩ :=
      Locals.zeroizeAll (hsize.trans h₁) [(0, 32), (1, 32), (2, 32)] (by decide)
    exact ⟨_, Runs.withLocal (Runs.withLocal (Runs.withLocal (Runs.withLocal (hzero.bind (hrun.bind
      (hzero₃.bind (Runs.pure _ _)))))))⟩
  by_cases hrng : rng.status = 0
  · obtain ⟨mem₂, hkeys, hpair⟩ :=
      boxKeypair_runs (h₁.valid 0 rfl) (h₁.valid 1 rfl) (fresh_disjoint mem (by decide)) hrng
    have h₂ : Locals mem [32, 32, 32, 32] mem₂ := hpair.size.trans h₁
    have hshared := cryptoScalarmult_runs (h₂.valid 2 rfl) (h₂.valid 1 rfl) (h₂.valid 0 rfl)
    rw [hpair.sk_eq, hpair.pk_eq] at hshared
    obtain ⟨mem₃, hmem₃⟩ : ∃ mem₃, mem₃ = mem₂.writeVec ⟨mem.fresh + 2, 0⟩
        (scalarmultBytes rng.bytes (scalarmultBytes rng.bytes basePoint9)) := ⟨_, rfl⟩
    have hsecret : mem₃.vec ⟨mem.fresh + 2, 0⟩ 32 = _ := hmem₃ ▸ Mem.vec_writeVec _ _ _
    have h₃ : Locals mem [32, 32, 32, 32] mem₃ := hmem₃ ▸ h₂
    rw [← hmem₃] at hshared
    obtain ⟨mem₄, hmem₄⟩ : ∃ mem₄, mem₄ = mem₃.write ⟨mem.fresh + 3, 0⟩ 32 fun _ => 0 := ⟨_, rfl⟩
    have hclear := secureZero_runs (h₃.valid 3 rfl)
    rw [← hmem₄] at hclear
    have h₄ : Locals mem [32, 32, 32, 32] mem₄ := hmem₄ ▸ h₃
    have hkept : mem₄.vec ⟨mem.fresh + 2, 0⟩ 32 = mem₃.vec ⟨mem.fresh + 2, 0⟩ 32 :=
      hmem₄ ▸ Mem.vec_write_of_disjoint (fresh_disjoint mem (by decide))
    have hzeros : mem₄.vec ⟨mem.fresh + 3, 0⟩ 32 = Vector.replicate 32 0 := by
      refine Vector.ext fun i hi => ?_
      rw [hmem₄, Mem.getElem_vec, Mem.write_byte hi, Vector.getElem_replicate]
    have hload := Runs.loadVec (h₄.valid 2 rfl)
    have hload' := Runs.loadVec (h₄.valid 3 rfl)
    refine ⟨0, mem₄, Runs.guardZero hkeys
      (Runs.guardZero hshared (hclear.bind (hload.bind (hload'.bind ?_)))), ?_,
      (if_pos hrng).symm⟩
    · rw [hkept, hsecret, hzeros, if_neg]
      · exact Runs.pure _ _
      · exact fun h => secret_with_itself _ ((secureMemcmp_eq_zero _ _).mp h)
    · exact h₄.trans h₁.symm
  · obtain ⟨mem₂, hkeys, hsize⟩ := boxKeypair_fails ⟨mem.fresh + 0, 0⟩ (h₁.valid 1 rfl) hrng
    exact ⟨-1, mem₂, Runs.guard hkeys (by decide) (Runs.pure _ _), hsize, (if_neg hrng).symm⟩

/-- The sizes of the local objects of the two tests with two parties. -/
def partySizes : List ℕ := [32, 32, 32, 32, 32, 32]

variable {mem rng1 rng2}

/-- With random bytes both parties of a test come to the same secret. -/
theorem parties_agree {mem₁ : Mem} (h₁ : Locals mem partySizes mem₁) (hrng1 : rng1.status = 0)
    (hrng2 : rng2.status = 0) :
    ∃ mem₂ mem₃ mem₄ mem₅ secret,
      Runs (cryptoBoxKeypair rng1 (some ⟨mem.fresh + 0, 0⟩) (some ⟨mem.fresh + 1, 0⟩)) mem₁ 0 mem₂ ∧
      Runs (cryptoBoxKeypair rng2 (some ⟨mem.fresh + 2, 0⟩) (some ⟨mem.fresh + 3, 0⟩)) mem₂ 0 mem₃ ∧
      Runs (cryptoScalarmult (some ⟨mem.fresh + 4, 0⟩) (some ⟨mem.fresh + 1, 0⟩)
        (some ⟨mem.fresh + 2, 0⟩)) mem₃ 0 mem₄ ∧
      Runs (cryptoScalarmult (some ⟨mem.fresh + 5, 0⟩) (some ⟨mem.fresh + 3, 0⟩)
        (some ⟨mem.fresh + 0, 0⟩)) mem₄ 0 mem₅ ∧
      Runs (loadVec ⟨mem.fresh + 4, 0⟩ 32) mem₅ secret mem₅ ∧
        Runs (loadVec ⟨mem.fresh + 5, 0⟩ 32) mem₅ secret mem₅ ∧
      Locals mem partySizes mem₅ := by
  obtain ⟨mem₂, hkeys, hpair⟩ :=
    boxKeypair_runs (h₁.valid 0 rfl) (h₁.valid 1 rfl) (fresh_disjoint mem (by decide)) hrng1
  have h₂ : Locals mem partySizes mem₂ := hpair.size.trans h₁
  obtain ⟨mem₃, hkeys', hpair'⟩ :=
    boxKeypair_runs (h₂.valid 2 rfl) (h₂.valid 3 rfl) (fresh_disjoint mem (by decide)) hrng2
  have h₃ : Locals mem partySizes mem₃ := hpair'.size.trans h₂
  have hsk1 : mem₃.vec ⟨mem.fresh + 1, 0⟩ 32 = rng1.bytes :=
    (hpair'.other (fresh_disjoint mem (by decide)) (fresh_disjoint mem (by decide))).trans
      hpair.sk_eq
  have hpk1 : mem₃.vec ⟨mem.fresh + 0, 0⟩ 32 = scalarmultBytes rng1.bytes basePoint9 :=
    (hpair'.other (fresh_disjoint mem (by decide)) (fresh_disjoint mem (by decide))).trans
      hpair.pk_eq
  have hshared := cryptoScalarmult_runs (h₃.valid 4 rfl) (h₃.valid 1 rfl) (h₃.valid 2 rfl)
  rw [hsk1, hpair'.pk_eq] at hshared
  obtain ⟨mem₄, hmem₄⟩ : ∃ mem₄, mem₄ = mem₃.writeVec ⟨mem.fresh + 4, 0⟩
      (scalarmultBytes rng1.bytes (scalarmultBytes rng2.bytes basePoint9)) := ⟨_, rfl⟩
  have hframe₄ : mem₃.Frame mem₄ ⟨mem.fresh + 4, 0⟩ 32 := hmem₄ ▸ Mem.frame_writeVec _ _ _
  have h₄ : Locals mem partySizes mem₄ := hframe₄.size.trans h₃
  rw [← hmem₄] at hshared
  have hshared' := cryptoScalarmult_runs (h₄.valid 5 rfl) (h₄.valid 3 rfl) (h₄.valid 0 rfl)
  rw [hframe₄.vec_of_disjoint (fresh_disjoint mem (by decide)),
    hframe₄.vec_of_disjoint (fresh_disjoint mem (by decide)), hpair'.sk_eq, hpk1,
    scalarmultBytes_comm] at hshared'
  obtain ⟨mem₅, hmem₅⟩ : ∃ mem₅, mem₅ = mem₄.writeVec ⟨mem.fresh + 5, 0⟩
      (scalarmultBytes rng1.bytes (scalarmultBytes rng2.bytes basePoint9)) := ⟨_, rfl⟩
  have hframe₅ : mem₄.Frame mem₅ ⟨mem.fresh + 5, 0⟩ 32 := hmem₅ ▸ Mem.frame_writeVec _ _ _
  have h₅ : Locals mem partySizes mem₅ := hframe₅.size.trans h₄
  rw [← hmem₅] at hshared'
  have hload := Runs.loadVec (h₅.valid 4 rfl)
  have hload' := Runs.loadVec (h₅.valid 5 rfl)
  rw [hframe₅.vec_of_disjoint (fresh_disjoint mem (by decide)), hmem₄, Mem.vec_writeVec] at hload
  rw [hmem₅, Mem.vec_writeVec, ← hmem₅] at hload'
  exact ⟨mem₂, mem₃, mem₄, mem₅, _, hkeys, hkeys', hshared, hshared', hload, hload', h₅⟩

/-- Without random bytes one of the key pairs is missing. -/
theorem parties_fail {mem₁ : Mem} (h₁ : Locals mem partySizes mem₁)
    (hrng : ¬(rng1.status = 0 ∧ rng2.status = 0)) :
    (∃ mem₂, Runs (cryptoBoxKeypair rng1 (some ⟨mem.fresh + 0, 0⟩) (some ⟨mem.fresh + 1, 0⟩))
      mem₁ (-1) mem₂ ∧
      Locals mem partySizes mem₂) ∨
    ∃ mem₂ mem₃, Runs (cryptoBoxKeypair rng1 (some ⟨mem.fresh + 0, 0⟩) (some ⟨mem.fresh + 1, 0⟩))
      mem₁ 0 mem₂ ∧
      Runs (cryptoBoxKeypair rng2 (some ⟨mem.fresh + 2, 0⟩) (some ⟨mem.fresh + 3, 0⟩))
        mem₂ (-1) mem₃ ∧
      Locals mem partySizes mem₃ := by
  by_cases hrng1 : rng1.status = 0
  · obtain ⟨mem₂, hkeys, hpair⟩ :=
      boxKeypair_runs (h₁.valid 0 rfl) (h₁.valid 1 rfl) (fresh_disjoint mem (by decide)) hrng1
    have h₂ : Locals mem partySizes mem₂ := hpair.size.trans h₁
    obtain ⟨mem₃, hkeys', hsize⟩ := boxKeypair_fails ⟨mem.fresh + 2, 0⟩ (h₂.valid 3 rfl) fun h =>
      hrng ⟨hrng1, h⟩
    exact .inr ⟨mem₂, mem₃, hkeys, hkeys', hsize.trans h₂⟩
  · obtain ⟨mem₂, hkeys, hsize⟩ := boxKeypair_fails ⟨mem.fresh + 0, 0⟩ (h₁.valid 1 rfl) hrng1
    exact .inl ⟨mem₂, hkeys, hsize.trans h₁⟩

variable (mem rng1 rng2)

/-- The pairwise test passes exactly if both key pairs get random bytes. -/
theorem fipsPctKeygenX25519_runs : ∃ mem', Runs (fipsPctKeygenX25519 rng1 rng2) mem
    (if rng1.status = 0 ∧ rng2.status = 0 then 0 else -1) mem' := by
  have h₀ : Locals mem partySizes (mem.allocs partySizes) := rfl
  obtain ⟨mem₁, hzero, h₁⟩ :=
    h₀.zeroizeAll [(0, 32), (1, 32), (2, 32), (3, 32), (4, 32), (5, 32)] (by decide)
  suffices hbody : ∃ mem₂, Runs (pctX25519Body rng1 rng2 ⟨mem.fresh + 0, 0⟩ ⟨mem.fresh + 1, 0⟩
      ⟨mem.fresh + 2, 0⟩ ⟨mem.fresh + 3, 0⟩ ⟨mem.fresh + 4, 0⟩ ⟨mem.fresh + 5, 0⟩) mem₁
      (if rng1.status = 0 ∧ rng2.status = 0 then 0 else -1) mem₂ ∧ Locals mem partySizes mem₂ by
    obtain ⟨mem₂, hrun, h₂⟩ := hbody
    obtain ⟨mem₃, hzero₃, -⟩ :=
      h₂.zeroizeAll [(0, 32), (1, 32), (2, 32), (3, 32), (4, 32), (5, 32)] (by decide)
    exact ⟨_, Runs.withLocal (Runs.withLocal (Runs.withLocal (Runs.withLocal (Runs.withLocal
      (Runs.withLocal (hzero.bind (hrun.bind (hzero₃.bind (Runs.pure _ _)))))))))⟩
  by_cases hrng : rng1.status = 0 ∧ rng2.status = 0
  · obtain ⟨_, _, _, mem₅, _, hkeys, hkeys', hshared, hshared', hload, hload', h₅⟩ :=
      parties_agree h₁ hrng.1 hrng.2
    rw [if_pos hrng]
    exact ⟨mem₅, Runs.guardZero hkeys (Runs.guardZero hkeys' (Runs.guardZero hshared
      (Runs.guardZero hshared' (hload.bind (hload'.bind (Runs.guardSame
        ((secureMemcmp_eq_zero _ _).mpr rfl) (Runs.pure _ _))))))), h₅⟩
  · rw [if_neg hrng]
    rcases parties_fail h₁ hrng with ⟨mem₂, hkeys, h₂⟩ | ⟨_, mem₃, hkeys, hkeys', h₃⟩
    · exact ⟨mem₂, Runs.guard hkeys (by decide) (Runs.pure _ _), h₂⟩
    · exact ⟨mem₃, Runs.guardZero hkeys (Runs.guard hkeys' (by decide) (Runs.pure _ _)), h₃⟩

/-- The self-test passes exactly if both key pairs get random bytes. -/
theorem fipsSelftestX25519_runs : ∃ mem', Runs (fipsSelftestX25519 rng1 rng2) mem
    (if rng1.status = 0 ∧
      rng2.status = 0 then Core.naclSuccess else Core.naclErrorSelfTestFailed) mem' := by
  have h₁ : Locals mem partySizes (mem.allocs partySizes) := rfl
  by_cases hrng : rng1.status = 0 ∧ rng2.status = 0
  · obtain ⟨_, _, _, mem₅, _, hkeys, hkeys', hshared, hshared', hload, hload', h₅⟩ :=
      parties_agree h₁ hrng.1 hrng.2
    obtain ⟨mem₆, hzero, -⟩ :=
      h₅.zeroizeAll [(0, 32), (1, 32), (2, 32), (3, 32), (4, 32), (5, 32)] (by decide)
    rw [if_pos hrng]
    exact ⟨_, Runs.withLocal (Runs.withLocal (Runs.withLocal (Runs.withLocal (Runs.withLocal
      (Runs.withLocal (Runs.guardZero hkeys (Runs.guardZero hkeys' (Runs.guardZero hshared
        (Runs.guardZero hshared' (hload.bind (hload'.bind (Runs.guardSame
          ((constantTimeCompare_eq_zero _ _).mpr rfl) (hzero.bind (Runs.pure _ _))))))))))))))⟩
  · rw [if_neg hrng]
    rcases parties_fail h₁ hrng with ⟨mem₂, hkeys, h₂⟩ | ⟨_, mem₃, hkeys, hkeys', h₃⟩
    · exact ⟨_, Runs.withLocal (Runs.withLocal (Runs.withLocal (Runs.withLocal (Runs.withLocal
        (Runs.withLocal (Runs.guard hkeys (by decide) (Runs.pure _ _)))))))⟩
    · obtain ⟨mem₄, hzero, -⟩ := h₃.zeroizeAll [(0, 32), (1, 32)] (by decide)
      exact ⟨_, Runs.withLocal (Runs.withLocal (Runs.withLocal (Runs.withLocal (Runs.withLocal
        (Runs.withLocal (Runs.guardZero hkeys (Runs.guard hkeys' (by decide) (hzero.bind
          (Runs.pure _ _)))))))))⟩

/-- The three self-tests of the key exchange run within their buffers for all random bytes, and each
of them fails exactly if random bytes for one of its key pairs are missing. -/
theorem x25519Selftests_exact :
    (∃ mem', Runs (fipsKatX25519 rng) mem (if rng.status = 0 then 0 else -1) mem') ∧
    (∃ mem', Runs (fipsPctKeygenX25519 rng1 rng2) mem
      (if rng1.status = 0 ∧ rng2.status = 0 then 0 else -1) mem') ∧
    ∃ mem', Runs (fipsSelftestX25519 rng1 rng2) mem
      (if rng1.status = 0 ∧
        rng2.status = 0 then Core.naclSuccess else Core.naclErrorSelfTestFailed) mem' :=
  ⟨fipsKatX25519_runs mem rng, fipsPctKeygenX25519_runs mem rng1 rng2,
    fipsSelftestX25519_runs mem rng1 rng2⟩

end Selftests

end TweetNacl
