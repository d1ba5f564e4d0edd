import TweetNacl.FipsSelftest
import TweetNacl.Lib.MemoryRuns
import TweetNacl.Sha512
import TweetNacl.X25519Selftests

/-!
# The self-tests of the drivers in memory

The two entry points of the drivers' self-tests with the programs they run, and any sequence of
calls of them. The static variables of the continuous random number test are two objects of the
memory; the answers of the random number generator are parameters. The Ed25519 tests open a signed
message into a buffer for the message alone, so no sequence of calls within the buffers gets past
them.
-/

namespace TweetNacl.PowerOn

open Machine Memory

section Code

/-- The digest in `fips_kat_sha512`. -/
def abcDigest : Vector UInt8 64 :=
  #v[0xdd, 0xaf, 0x35, 0xa1, 0x93, 0x61, 0x7a, 0xba, 0xcc, 0x41, 0x73, 0x49, 0xae, 0x20, 0x41, 0x31,
    0x12, 0xe6, 0xfa, 0x4e, 0x89, 0xa9, 0x7e, 0xa2, 0x0a, 0x9e, 0xee, 0xe6, 0x4b, 0x55, 0xd3, 0x9a,
    0x21, 0x92, 0x99, 0x2a, 0x27, 0x4f, 0xc1, 0xa8, 0x36, 0xba, 0x3c, 0x23, 0xa3, 0xfe, 0xeb, 0xbd,
    0x45, 0x4d, 0x44, 0x23, 0x64, 0x3c, 0xe8, 0x0e, 0x2a, 0x9a, 0xc9, 0x4f, 0xa5, 0x4c, 0xa4, 0x9f]

/-- `fips_kat_sha512`. -/
def fipsKatSha512 : Exec Int32 :=
  withLocal 4 fun abc => withLocal 64 fun hash => do
    storeBytes abc [97, 98, 99, 0]
    secureZero hash 64
    if (← cryptoHash (some hash) (some abc) 3) ≠ 0 then
      secureZero hash 64
      return -1
    let digest ← loadVec hash 64
    secureZero hash 64
    return if secureMemcmp digest abcDigest = 0 then 0 else -1

/-- The static variables of `fips_crngt`: `prev`, and the four bytes of `initialized`. -/
structure CrngtStatics where
  prev : Addr
  initialized : Addr

/-- The bytes of the number 1. -/
def intOne : Vector UInt8 4 := Vector.ofFn fun i => if i.val = 0 then 1 else 0

/-- `fips_crngt` from the comparison on. -/
def crngtCompare (statics : CrngtStatics) (current : Addr) : Exec Int32 := do
  let initialized ← loadVec statics.initialized 4
  if initialized = Vector.replicate 4 0 then
    let block ← loadVec current 16
    storeVec statics.prev block
    storeVec statics.initialized intOne
    secureZero current 16
    return 0
  let block ← loadVec current 16
  let last ← loadVec statics.prev 16
  if secureMemcmp block last = 0 then
    secureZero current 16
    return -1
  storeVec statics.prev block
  secureZero current 16
  return 0

/-- `fips_crngt`. -/
def fipsCrngt (statics : CrngtStatics) (rng : RngAnswer 16) : Exec Int32 :=
  withLocal 16 fun current => do
    secureZero current 16
    if (← randombytesSafe rng current) ≠ 0 then
      secureZero current 16
      return -1
    crngtCompare statics current

/-- The answers of the random number generator that a call of an entry point may ask for. -/
structure Randomness where
  katEd25519 : RngAnswer 32
  katX25519 : RngAnswer 32
  pctMessage : RngAnswer 32
  pctEd25519 : RngAnswer 32
  pctX25519First : RngAnswer 32
  pctX25519Second : RngAnswer 32
  crngt : RngAnswer 16

/-- The self-tests. The addresses that `fips_software_load_test` compares with `NULL` are those of
functions. -/
def selftests (statics : CrngtStatics) (r : Randomness) : Fips.Selftests (Exec Int32) where
  softwareLoadTest := pure 0
  katSha512 := fipsKatSha512
  katEd25519 := fipsKatEd25519 Sha512.hash r.katEd25519
  katX25519 := fipsKatX25519 r.katX25519
  pctKeygenEd25519 := fipsPctKeygenEd25519 Sha512.hash r.pctMessage r.pctEd25519
  pctKeygenX25519 := fipsPctKeygenX25519 r.pctX25519First r.pctX25519Second
  crngt := fipsCrngt statics r.crngt

/-- A call of one of the two entry points. -/
inductive Call where
  | powerOn (r : Randomness)
  | conditional (r : Randomness)

/-- What a call does. -/
def call (statics : CrngtStatics) (s : Fips.Module) : Call → Exec (Int32 × Fips.Module)
  | .powerOn r => Fips.fipsPowerOnSelftest (selftests statics r) s
  | .conditional r => Fips.fipsConditionalSelftest (selftests statics r) s

end Code

section Crngt

/-- The continuous test as a statement about the blocks: a call fails if there are no random bytes,
or if they are those of the last call that had any. -/
def adjacentTest (last : Option (Vector UInt8 16)) : List (RngAnswer 16) → List Int32
  | [] => []
  | a :: answers =>
    if a.status ≠ 0 then -1 :: adjacentTest last answers
    else (if last = some a.bytes then -1 else 0) :: adjacentTest (some a.bytes) answers

/-- The results of some calls of `fips_crngt`. -/
def crngtAll (statics : CrngtStatics) : List (RngAnswer 16) → Exec (List Int32)
  | [] => pure []
  | a :: answers => do
    let ret ← fipsCrngt statics a
    let rest ← crngtAll statics answers
    pure (ret :: rest)

/-- The static variables hold the last block. -/
structure HoldsLast (statics : CrngtStatics) (mem : Mem) (last : Option (Vector UInt8 16)) :
    Prop where
  valid_prev : mem.Valid statics.prev 16
  valid_initialized : mem.Valid statics.initialized 4
  disjoint : Disjoint statics.prev 16 statics.initialized 4
  initialized : mem.vec statics.initialized 4 = Vector.replicate 4 0 ↔ last = none
  prev : ∀ block, last = some block → mem.vec statics.prev 16 = block

variable {statics : CrngtStatics} {mem : Mem} {last : Option (Vector UInt8 16)}

/-- The local block of a call with random bytes, before the static variables are looked at. -/
def blockRead (mem : Mem) (block : Vector UInt8 16) : Mem :=
  ((mem.alloc 16).write ⟨mem.fresh, 0⟩ 16 fun _ => 0).writeVec ⟨mem.fresh, 0⟩ block

/-- The local block of a call leaves the caller's objects as they were. -/
theorem keeps_blockRead (mem : Mem) (block : Vector UInt8 16) : mem.Keeps (blockRead mem block) :=
  ((mem.keeps_alloc 16).frame (Mem.frame_write _ _ _ _) le_rfl).frame
    (Mem.frame_writeVec _ _ _) le_rfl

/-- The local block holds the bytes of the answer. -/
theorem vec_blockRead (mem : Mem) (block : Vector UInt8 16) :
    (blockRead mem block).vec ⟨mem.fresh, 0⟩ 16 = block :=
  Mem.vec_writeVec _ _ _

/-- Reading the block changes no object's size. -/
theorem valid_blockRead_iff {p : Addr} {n : ℕ} {block : Vector UInt8 16} :
    (blockRead mem block).Valid p n ↔ (mem.alloc 16).Valid p n := by
  rw [blockRead, Mem.writeVec, Mem.valid_write, Mem.valid_write]

/-- A valid object stays valid. -/
theorem valid_blockRead {p : Addr} {n : ℕ} (hp : mem.Valid p n) (block : Vector UInt8 16) :
    (blockRead mem block).Valid p n := valid_blockRead_iff.mpr (hp.alloc 16)

/-- An object that was valid before the call is read as before. -/
theorem vec_blockRead_of_valid {p : Addr} {n : ℕ} (hp : mem.Valid p n) (block : Vector UInt8 16) :
    (blockRead mem block).vec p n = mem.vec p n := by
  rw [← Mem.vec_release hp, (keeps_blockRead mem block).release]

/-- The block is cleared first and then filled with the generator's answer. -/
theorem randombytes_blockRead (mem : Mem) (a : RngAnswer 16) :
    Runs (secureZero ⟨mem.fresh, 0⟩ 16) (mem.alloc 16) ()
      ((mem.alloc 16).write ⟨mem.fresh, 0⟩ 16 fun _ => 0) ∧
      Runs (randombytesSafe a ⟨mem.fresh, 0⟩)
        ((mem.alloc 16).write ⟨mem.fresh, 0⟩ 16 fun _ => 0) a.status
        (blockRead mem a.bytes) := by
  have hvalid : ((mem.alloc 16).write ⟨mem.fresh, 0⟩ 16 fun _ => 0).Valid ⟨mem.fresh, 0⟩ 16 :=
    Mem.valid_write.mpr (mem.valid_alloc 16)
  exact ⟨secureZero_runs (mem.valid_alloc 16), (Runs.storeVec hvalid a.bytes).bind (Runs.pure _ _)⟩

/-- Clearing the local block, and the end of the call. -/
theorem clear_blockRead {m : Mem} (hm : m.Valid ⟨mem.fresh, 0⟩ 16) (ret : Int32) : ∃ m', Runs (do
    secureZero ⟨mem.fresh, 0⟩ 16
    pure ret) m ret m' ∧ m'.release mem = m.release mem :=
  ⟨_, (secureZero_runs hm).bind (Runs.pure ret _), Mem.release_write_of_le le_rfl⟩

/-- The static variables after the first block. -/
theorem HoldsLast.first (h : HoldsLast statics mem last) (block : Vector UInt8 16) :
    HoldsLast statics ((mem.writeVec statics.prev block).writeVec statics.initialized intOne)
      (some block) := by
  refine ⟨h.valid_prev, h.valid_initialized, h.disjoint, ?_, fun b hb => ?_⟩
  · rw [Mem.vec_writeVec]
    exact iff_of_false (by decide) (Option.some_ne_none block)
  · rw [(Mem.frame_writeVec _ _ _).vec_of_disjoint h.disjoint, Mem.vec_writeVec]
    exact Option.some.inj hb

/-- The static variables after a further block. -/
theorem HoldsLast.next {last : Vector UInt8 16} (h : HoldsLast statics mem (some last))
    (block : Vector UInt8 16) :
    HoldsLast statics (mem.writeVec statics.prev block) (some block) := by
  refine ⟨h.valid_prev, h.valid_initialized, h.disjoint, ?_, fun b hb => ?_⟩
  · rw [(Mem.frame_writeVec _ _ _).vec_of_disjoint h.disjoint.symm]
    exact h.initialized.trans (iff_of_false (Option.some_ne_none last) (Option.some_ne_none block))
  · rw [Mem.vec_writeVec]
    exact Option.some.inj hb

/-- The comparison fails exactly on a repeated block and stores the new one. -/
theorem crngtCompare_runs (h : HoldsLast statics mem last) (block : Vector UInt8 16) :
    ∃ m', Runs (crngtCompare statics ⟨mem.fresh, 0⟩) (blockRead mem block)
      (if last = some block then -1 else 0) m' ∧
      HoldsLast statics (m'.release mem) (some block) := by
  have hkeeps := (keeps_blockRead mem block).release
  have hlocal : (blockRead mem block).Valid ⟨mem.fresh, 0⟩ 16 :=
    valid_blockRead_iff.mpr (mem.valid_alloc 16)
  have hflag := Runs.loadVec (valid_blockRead h.valid_initialized block)
  have hblock := Runs.loadVec hlocal
  have hlast := Runs.loadVec (valid_blockRead h.valid_prev block)
  have hprev := Runs.storeVec (valid_blockRead h.valid_prev block) block
  rw [vec_blockRead_of_valid h.valid_initialized] at hflag
  rw [vec_blockRead] at hblock
  rw [vec_blockRead_of_valid h.valid_prev] at hlast
  cases last with
  | none =>
    have hset := Runs.storeVec ((Mem.frame_writeVec _ statics.prev block).valid
      (valid_blockRead h.valid_initialized block)) intOne
    obtain ⟨m', hend, hrelease⟩ :=
      clear_blockRead ((Mem.frame_writeVec _ statics.initialized intOne).valid
      ((Mem.frame_writeVec _ statics.prev block).valid hlocal)) 0
    rw [Mem.writeVec, Mem.release_write_of_valid h.valid_initialized, Mem.writeVec,
      Mem.release_write_of_valid h.valid_prev, hkeeps] at hrelease
    refine ⟨m', hflag.bind ?_, hrelease ▸ h.first block⟩
    rw [if_pos (h.initialized.mpr rfl), if_neg (Option.some_ne_none block).symm]
    exact hblock.bind (hprev.bind (hset.bind hend))
  | some last =>
    have hne : mem.vec statics.initialized 4 ≠ Vector.replicate 4 0 := fun heq =>
      Option.some_ne_none last (h.initialized.mp heq)
    rw [h.prev last rfl] at hlast
    by_cases hsame : last = block
    · obtain ⟨m', hend, hrelease⟩ := clear_blockRead hlocal (-1)
      refine ⟨m', hflag.bind ?_, ?_⟩
      · rw [if_neg hne, if_pos (congrArg some hsame)]
        refine hblock.bind (hlast.bind ?_)
        rw [if_pos ((secureMemcmp_eq_zero _ _).mpr hsame.symm)]
        exact hend
      · rw [hrelease, hkeeps, ← hsame]
        exact h
    · obtain ⟨m', hend, hrelease⟩ :=
        clear_blockRead ((Mem.frame_writeVec _ statics.prev block).valid hlocal) 0
      rw [Mem.writeVec, Mem.release_write_of_valid h.valid_prev, hkeeps] at hrelease
      refine ⟨m', hflag.bind ?_, hrelease ▸ h.next block⟩
      rw [if_neg hne, if_neg fun heq => hsame (Option.some.inj heq)]
      refine hblock.bind (hlast.bind ?_)
      rw [if_neg fun heq => hsame ((secureMemcmp_eq_zero _ _).mp heq).symm]
      exact hprev.bind hend

/-- A call fails without random bytes and for the block of the last call that had any. -/
theorem fipsCrngt_runs (h : HoldsLast statics mem last) (a : RngAnswer 16) :
    ∃ mem', Runs (fipsCrngt statics a) mem
      (if a.status ≠ 0 then -1 else if last = some a.bytes then -1 else 0) mem' ∧
      HoldsLast statics mem' (if a.status ≠ 0 then last else some a.bytes) := by
  obtain ⟨hclear, hrandom⟩ := randombytes_blockRead mem a
  by_cases hrng : a.status = 0
  · obtain ⟨m', hcompare, hholds⟩ := crngtCompare_runs h a.bytes
    rw [hrng] at hrandom
    rw [if_neg (not_not.mpr hrng), if_neg (not_not.mpr hrng)]
    exact ⟨_, Runs.withLocal (hclear.bind (Runs.guardZero hrandom hcompare)), hholds⟩
  · obtain ⟨m', hend, hrelease⟩ :=
      clear_blockRead (valid_blockRead_iff.mpr (mem.valid_alloc 16)) (-1)
    rw [if_pos hrng, if_pos hrng]
    refine ⟨_, Runs.withLocal (hclear.bind (Runs.guard hrandom hrng hend)), ?_⟩
    rw [hrelease, (keeps_blockRead mem a.bytes).release]
    exact h

/-- Over any sequence of calls `fips_crngt` is the test for adjacent equal blocks. -/
theorem crngtAll_runs (h : HoldsLast statics mem last) (answers : List (RngAnswer 16)) :
    ∃ mem', Runs (crngtAll statics answers) mem (adjacentTest last answers) mem' := by
  induction answers generalizing mem last with
  | nil => exact ⟨mem, Runs.pure _ _⟩
  | cons a answers ih =>
    obtain ⟨mem₁, hrun, hholds⟩ := fipsCrngt_runs h a
    obtain ⟨mem', hrest⟩ := ih hholds
    refine ⟨mem', ?_⟩
    rw [adjacentTest]
    split_ifs at hrun hrest ⊢ with hrng hsame <;> exact hrun.bind (hrest.bind (Runs.pure _ _))

/-- The continuous test on three answers, of which one fails, from the initial variables. -/
theorem crngtAll_runs_initial :
    let statics : CrngtStatics := ⟨⟨0, 0⟩, ⟨1, 0⟩⟩
    let answers :=
      [⟨0, Vector.replicate 16 7⟩, ⟨1, Vector.replicate 16 3⟩, ⟨0, Vector.replicate 16 7⟩]
    HoldsLast statics (Mem.ofSizes [16, 4]) none ∧
      ∃ mem', Runs (crngtAll statics answers) (Mem.ofSizes [16, 4])
      (adjacentTest none answers) mem' := by
  have h : HoldsLast ⟨⟨0, 0⟩, ⟨1, 0⟩⟩ (Mem.ofSizes [16, 4]) none :=
    ⟨by decide, by decide, Disjoint.of_obj_ne (by decide) _ _, iff_of_true (by decide) rfl,
      fun _ h => nomatch h⟩
  exact ⟨h, crngtAll_runs h _⟩

end Crngt

section PowerOn

variable {statics : CrngtStatics} {mem : Mem} {s : Fips.Module} {r : Randomness}
  {rng rngMsg : RngAnswer 32}

/-- The digest of `abc` is the one that `fips_kat_sha512` expects. -/
theorem hash_abc : Sha512.hash [97, 98, 99] = abcDigest := by decide +kernel

/-- The SHA-512 known-answer test passes in every memory. -/
theorem fipsKatSha512_runs (mem : Mem) : ∃ mem', Runs fipsKatSha512 mem 0 mem' := by
  have h₀ : Locals mem [4, 64] (mem.allocs [4, 64]) := rfl
  have hstore := Runs.storeBytes (l := [97, 98, 99, 0]) (h₀.valid 0 rfl)
  obtain ⟨mem₁, hmem₁⟩ : ∃ mem₁, mem₁ = (mem.allocs [4, 64]).writeBytes ⟨mem.fresh + 0, 0⟩
    [97, 98, 99, 0] := ⟨_, rfl⟩
  have h₁ : Locals mem [4, 64] mem₁ := hmem₁ ▸ h₀
  rw [← hmem₁] at hstore
  have hclear := secureZero_runs (h₁.valid 1 rfl)
  obtain ⟨mem₂, hmem₂⟩ : ∃ mem₂, mem₂ = mem₁.write ⟨mem.fresh + 1, 0⟩ 64 fun _ => 0 := ⟨_, rfl⟩
  have h₂ : Locals mem [4, 64] mem₂ := hmem₂ ▸ h₁
  rw [← hmem₂] at hclear
  have hmessage : mem₂.bytes ⟨mem.fresh + 0, 0⟩ 3 = [97, 98, 99] := by
    rw [hmem₂, Mem.bytes_write_of_disjoint (fresh_disjoint mem (by decide)), hmem₁, Mem.writeBytes,
      Mem.bytes_write (by decide)]
    rfl
  have hhash := cryptoHash_runs (n := 3) (h₂.valid 1 rfl) ((h₂.valid 0 rfl).mono (by decide))
  rw [show (3 : UInt64).toNat = 3 from rfl, hmessage, hash_abc] at hhash
  obtain ⟨mem₃, hmem₃⟩ : ∃ mem₃, mem₃ = mem₂.writeVec ⟨mem.fresh + 1, 0⟩ abcDigest := ⟨_, rfl⟩
  have h₃ : Locals mem [4, 64] mem₃ := hmem₃ ▸ h₂
  rw [← hmem₃] at hhash
  have hload := Runs.loadVec (h₃.valid 1 rfl)
  rw [hmem₃, Mem.vec_writeVec, ← hmem₃] at hload
  have hclear' := secureZero_runs (h₃.valid 1 rfl)
  have hend : ∀ m, Runs (pure (if secureMemcmp abcDigest abcDigest = 0 then 0 else -1)) m
      (0 : Int32) m := fun m => by
    rw [if_pos ((secureMemcmp_eq_zero abcDigest abcDigest).mpr rfl)]
    exact Runs.pure _ _
  exact ⟨_, Runs.withLocal (Runs.withLocal (hstore.bind (hclear.bind
    (Runs.guardZero hhash (hload.bind (hclear'.bind (hend _)))))))⟩

/-- Without a key pair the known-answer test fails. -/
theorem fipsKatEd25519_fails (mem : Mem) (hrng : rng.status ≠ 0) :
    ∃ mem', Runs (fipsKatEd25519 Sha512.hash rng) mem (-1) mem' := by
  have h₀ : Locals mem [32, 64, 96, 32, 8, 8, 9] (mem.allocs [32, 64, 96, 32, 8, 8, 9]) := rfl
  have hstore := Runs.storeBytes (l := [70, 73, 80, 83, 32, 75, 65, 84, 0]) (h₀.valid 6 rfl)
  obtain ⟨mem₁, hmem₁⟩ : ∃ mem₁, mem₁ = (mem.allocs [32, 64, 96, 32, 8, 8, 9]).writeBytes
    ⟨mem.fresh + 6, 0⟩ [70, 73, 80, 83, 32, 75, 65, 84, 0] := ⟨_, rfl⟩
  have h₁ : Locals mem [32, 64, 96, 32, 8, 8, 9] mem₁ := hmem₁ ▸ h₀
  obtain ⟨mem₂, hzero, h₂⟩ := h₁.zeroizeAll [(0, 32), (1, 64), (2, 96), (3, 32)] (by decide)
  rw [← hmem₁] at hstore
  obtain ⟨mem₃, hkeys, hsize⟩ :=
    cryptoSignKeypair_fails Sha512.hash ⟨mem.fresh + 0, 0⟩ hrng (h₂.valid 1 rfl)
  obtain ⟨mem₄, hzero₄, -⟩ :=
    Locals.zeroizeAll (hsize.trans h₂) [(0, 32), (1, 64), (2, 96), (3, 32)] (by decide)
  exact ⟨_, Runs.withLocal (Runs.withLocal (Runs.withLocal (Runs.withLocal (Runs.withLocal
    (Runs.withLocal (Runs.withLocal (hstore.bind (hzero.bind
      ((Runs.guard hkeys (by decide) (Runs.pure _ _)).bind (hzero₄.bind (Runs.pure _ _)))))))))))⟩

/-- Without a message or a key pair the pairwise test fails. -/
theorem fipsPctKeygenEd25519_fails (mem : Mem) (hrng : rngMsg.status ≠ 0 ∨ rng.status ≠ 0) :
    ∃ mem', Runs (fipsPctKeygenEd25519 Sha512.hash rngMsg rng) mem (-1) mem' := by
  have h₀ : Locals mem [32, 64, 96, 32, 8, 8] (mem.allocs [32, 64, 96, 32, 8, 8]) := rfl
  obtain ⟨mem₁, hzero, h₁⟩ := h₀.zeroizeAll [(0, 32), (1, 64), (2, 96), (3, 32)] (by decide)
  suffices hbody : ∃ mem₂, Runs (pctEd25519Body Sha512.hash rngMsg rng ⟨mem.fresh + 0, 0⟩
      ⟨mem.fresh + 1, 0⟩ ⟨mem.fresh + 2, 0⟩ ⟨mem.fresh + 3, 0⟩ ⟨mem.fresh + 4, 0⟩
      ⟨mem.fresh + 5, 0⟩) mem₁ (-1) mem₂ ∧
      Locals mem [32, 64, 96, 32, 8, 8] mem₂ by
    obtain ⟨mem₂, hrun, h₂⟩ := hbody
    obtain ⟨mem₃, hzero₃, -⟩ := h₂.zeroizeAll [(0, 32), (1, 64), (2, 96), (3, 32)] (by decide)
    exact ⟨_, Runs.withLocal (Runs.withLocal (Runs.withLocal (Runs.withLocal (Runs.withLocal
      (Runs.withLocal (hzero.bind (hrun.bind (hzero₃.bind (Runs.pure _ _)))))))))⟩
  have hrandom : Runs (randombytesSafe rngMsg ⟨mem.fresh + 3, 0⟩) mem₁ rngMsg.status
      (mem₁.writeVec ⟨mem.fresh + 3, 0⟩ rngMsg.bytes) :=
      (Runs.storeVec (h₁.valid 3 rfl) _).bind (Runs.pure _ _)
  by_cases hmsg : rngMsg.status = 0
  · rw [hmsg] at hrandom
    have h₂ : Locals mem [32, 64, 96, 32, 8, 8] (mem₁.writeVec ⟨mem.fresh + 3, 0⟩ rngMsg.bytes) :=
      h₁
    obtain ⟨mem₃, hkeys, hsize⟩ := cryptoSignKeypair_fails Sha512.hash ⟨mem.fresh + 0, 0⟩
      (hrng.resolve_left (not_not.mpr hmsg)) (h₂.valid 1 rfl)
    exact ⟨mem₃, Runs.guardZero hrandom (Runs.guard hkeys (by decide) (Runs.pure _ _)),
      hsize.trans h₂⟩
  · exact ⟨_, Runs.guard hrandom hmsg (Runs.pure _ _), h₁⟩

/-- A program that does not stay within its objects faults. -/
theorem exists_faults {α : Type} {x : Exec α} (h : ¬ InBounds x mem) :
    ∃ fault, Faults x mem fault := by
  simpa only [InBounds, not_forall, not_not] using h

/-- The power-on sequence gets no further than its second known-answer test, which fails without a
key pair. -/
theorem powerOn_runs (mem : Mem) (hrng : r.katEd25519.status ≠ 0) :
    ∃ mem', Runs (call statics s (.powerOn r)) mem (-1, { s with fipsState := .error }) mem' := by
  obtain ⟨mem₁, hsha⟩ := fipsKatSha512_runs mem
  obtain ⟨mem₂, hkat⟩ := fipsKatEd25519_fails mem₁ hrng
  exact ⟨mem₂, Runs.guardZero (Runs.pure 0 mem)
    (Runs.guardZero hsha (Runs.guard hkat (by decide) (Runs.pure _ _)))⟩

/-- A power-on test that gets a key pair for its signature test leaves an object. -/
theorem powerOn_faults (mem : Mem) (hrng : r.katEd25519.status = 0) :
    ∃ fault, Faults (call statics s (.powerOn r)) mem fault := by
  obtain ⟨mem₁, hsha⟩ := fipsKatSha512_runs mem
  obtain ⟨fault, hkat⟩ := exists_faults fun hin =>
    ((fipsKatEd25519_inBounds_iff Sha512.hash).mp hin : r.katEd25519.status ≠ 0) hrng
  exact ⟨fault, Faults.guard (Runs.pure 0 mem) (Faults.guard hsha (Faults.bind_left hkat))⟩

/-- A call keeps within its objects exactly under this condition: the tests that sign a message do
not get a key pair. -/
def KeepsWithin (s : Fips.Module) : Call → Prop
  | .powerOn r => r.katEd25519.status ≠ 0
  | .conditional r => Fips.Due s → r.pctMessage.status ≠ 0 ∨ r.pctEd25519.status ≠ 0

/-- What a call that keeps within its objects returns, and the variables after it. -/
def answer (s : Fips.Module) : Call → Int32 × Fips.Module
  | .powerOn _ => (-1, { s with fipsState := .error })
  | .conditional _ =>
    if Fips.Due s then (-1, ⟨.error, s.keygenCounter + 1⟩) else
      (0, { s with keygenCounter := s.keygenCounter + 1 })

/-- A conditional test that gets nothing to sign with runs to its end, with the modelled answer. -/
theorem conditional_runs (mem : Mem) (hr : KeepsWithin s (.conditional r)) :
    ∃ mem', Runs (call statics s (.conditional r)) mem (answer s (.conditional r)) mem' := by
  rw [answer, call, Fips.fipsConditionalSelftest]
  by_cases hdue : Fips.Due s
  · obtain ⟨mem', hpct⟩ := fipsPctKeygenEd25519_fails mem (hr hdue)
    rw [if_pos hdue, if_neg (show
      ¬ (s.keygenCounter + 1) % Fips.fipsConditionalInterval ≠ 0 from not_not.mpr hdue)]
    exact ⟨mem', Runs.guard hpct (by decide) (Runs.pure _ _)⟩
  · rw [if_neg hdue,
      if_pos (show (s.keygenCounter + 1) % Fips.fipsConditionalInterval ≠ 0 from hdue)]
    exact ⟨mem, Runs.pure _ _⟩

/-- A conditional test that signs leaves an object. -/
theorem conditional_faults (mem : Mem) (hr : ¬ KeepsWithin s (.conditional r)) :
    ∃ fault, Faults (call statics s (.conditional r)) mem fault := by
  obtain ⟨hdue, hrng⟩ := Classical.not_imp.mp hr
  obtain ⟨fault, hpct⟩ := exists_faults fun (hin : InBounds _ mem) =>
    hrng ((fipsPctKeygenEd25519_inBounds_iff Sha512.hash).mp hin)
  rw [call, Fips.fipsConditionalSelftest,
    if_neg (show ¬ (s.keygenCounter + 1) % Fips.fipsConditionalInterval ≠ 0 from not_not.mpr hdue)]
  exact ⟨fault, Faults.bind_left hpct⟩

/-- The calls in memory follow the module's state machine while they stay in bounds. -/
theorem follows (statics : CrngtStatics) : Follows (call statics) answer KeepsWithin where
  runs s e mem he := by
    cases e with
    | powerOn r => exact powerOn_runs mem he
    | conditional r => exact conditional_runs mem he
  faults s e mem he := by
    cases e with
    | powerOn r => exact powerOn_faults mem (not_not.mp he)
    | conditional r => exact conditional_faults mem he

/-- The approved state is not entered. -/
theorem answer_ne_approved (hs : s.fipsState ≠ .approved) (e : Call) :
    (answer s e).2.fipsState ≠ .approved := by
  cases e with
  | powerOn r => exact fun h => nomatch h
  | conditional r =>
    rw [answer]
    split_ifs
    · exact fun h => nomatch h
    · exact hs

/-- Whatever is called in whatever order, either some call leaves an object, as each call that signs
a message does (what happens then is not defined in C), or no state on the way is the approved one:
the tests that sign a message have failed for want of random bytes. -/
theorem never_approved (statics : CrngtStatics) (calls : List Call) (mem : Mem) (s : Fips.Module) :
    (∃ mem', Runs (runAll (call statics) .initial calls) mem s mem') ↔
      EachStep answer KeepsWithin .initial calls ∧
        EachState answer (fun s => s.fipsState ≠ .approved) .initial calls ∧
        s = run answer .initial calls := by
  rw [(follows statics).runAll_iff]
  refine and_congr_right fun h => (and_iff_right ?_).symm
  exact h.eachState (by decide) fun s e hs _ => answer_ne_approved hs e

end PowerOn

end TweetNacl.PowerOn
