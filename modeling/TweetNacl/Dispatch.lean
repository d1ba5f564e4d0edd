import TweetNacl.Lib.Machine
import TweetNacl.Lib.Selection
import TweetNacl.SalsaVector

/-!
# The implementation dispatch

A table of Salsa20 implementations, and a pointer to the one in use. The pointer is set at the first
call that needs it, to the best entry the processor supports, or by name, and every later call of a
core goes through it. The build is one that defines `NACL_RUNTIME_DISPATCH` and not
`NACL_STATIC_IMPL`: without the first there are no wrappers of the cores, and with the second no
table. The software cores of the table are declared in the repository and not defined; they are
parameters.
-/

namespace TweetNacl.Dispatch

open Machine Memory Salsa20 Selection

section Code

/-- The features of `dispatch.h`. -/
def cpuFeatureSse2 : UInt32 := (1 : UInt32) <<< 0

def cpuFeatureAvx2 : UInt32 := (1 : UInt32) <<< 1

def cpuFeatureShani : UInt32 := (1 : UInt32) <<< 2

def cpuFeatureAvx512 : UInt32 := (1 : UInt32) <<< 3

def cpuFeatureSsse3 : UInt32 := (1 : UInt32) <<< 4

def cpuFeatureNeon : UInt32 := (1 : UInt32) <<< 5

def cpuFeatureSha2 : UInt32 := (1 : UInt32) <<< 6

def cpuFeatureSha512 : UInt32 := (1 : UInt32) <<< 7

def cpuFeatureAes : UInt32 := (1 : UInt32) <<< 8

def cpuFeatureSve : UInt32 := (1 : UInt32) <<< 9

/-- A core: the output, the input, the key and the constant. -/
abbrev CoreFunction := Addr → Addr → Addr → Addr → Exec Int32

/-- `nacl_impl_t`. -/
structure NaclImpl where
  name : String
  salsa20 : CoreFunction
  hsalsa20 : CoreFunction
  priority : ℤ
  cpuFeaturesRequired : UInt32

/-- A build that dispatches at run time (`NACL_RUNTIME_DISPATCH` is defined, `NACL_STATIC_IMPL` is
not), by the vector implementations that are compiled in: `HAVE_SSE2_IMPL`, `HAVE_AVX2_IMPL` and
`HAVE_NEON_IMPL`. -/
structure Build where
  haveSse2Impl : Bool
  haveAvx2Impl : Bool
  haveNeonImpl : Bool

/-- The software cores, `salsa20_soft` and `hsalsa20_soft`. -/
structure SoftwareCores where
  salsa20Soft : CoreFunction
  hsalsa20Soft : CoreFunction

variable (soft : SoftwareCores) (build : Build) (features : UInt32)

def software : NaclImpl := ⟨"software", soft.salsa20Soft, soft.hsalsa20Soft, 0, 0⟩

def sse2 : NaclImpl := ⟨"sse2", vectorCore salsa20Sse2, hsalsa20Sse2, 10, cpuFeatureSse2⟩

def avx2 : NaclImpl := ⟨"avx2", vectorCore salsa20Avx2, hsalsa20Avx2, 20, cpuFeatureAvx2⟩

def neon : NaclImpl := ⟨"neon", vectorCore salsa20Neon, hsalsa20Neon, 15, cpuFeatureNeon⟩

/-- `implementations`, without the sentinel. -/
def implementations : List NaclImpl :=
  software soft :: ((if build.haveSse2Impl then [sse2] else []) ++
    (if build.haveAvx2Impl then [avx2] else []) ++
    if build.haveNeonImpl then [neon] else [])

/-- The processor has the features that an entry requires. -/
def supports (impl : NaclImpl) : Bool :=
  features &&& impl.cpuFeaturesRequired == impl.cpuFeaturesRequired

/-- `nacl_select_implementation`, from the pointer `current_impl`. -/
def naclSelectImplementation (current : Option NaclImpl) : Int32 × Option NaclImpl :=
  match current with
  | some impl => (0, some impl)
  | none =>
    (0, some (best (supports features) NaclImpl.priority (software soft)
      (implementations soft build)))

/-- `nacl_get_implementation_name`. -/
def naclGetImplementationName (current : Option NaclImpl) : String × Option NaclImpl :=
  let (_, current) := naclSelectImplementation soft build features current
  ((current.map NaclImpl.name).getD "software", current)

/-- `nacl_set_implementation`. -/
def naclSetImplementation (name : String) (current : Option NaclImpl) : Int32 × Option NaclImpl :=
  match (implementations soft build).find? fun impl => impl.name == name with
  | some impl => (0, some impl)
  | none => (-1, current)

/-- `nacl_list_implementations`. -/
def naclListImplementations : List String := (implementations soft build).map NaclImpl.name

/-- What the pointer of the dispatch wrappers is when they call through it. -/
def naclDispatch (current : Option NaclImpl) : Option NaclImpl :=
  (naclSelectImplementation soft build features current).2

/-- A call of the dispatch layer. The two wrappers `crypto_core_salsa20` and `crypto_core_hsalsa20`
are `core`. -/
inductive Call where
  | select
  | getName
  | set (name : String)
  | list
  | core

/-- The answer: a return value, a name, the names, or the entry whose function is called. -/
inductive Answer where
  | code (ret : Int32)
  | name (name : String)
  | names (names : List String)
  | calls (impl : Option NaclImpl)

/-- One call. -/
def answer (current : Option NaclImpl) : Call → Answer × Option NaclImpl
  | .select => (naclSelectImplementation soft build features current).map .code id
  | .getName => (naclGetImplementationName soft build features current).map .name id
  | .set name => (naclSetImplementation soft build name current).map .code id
  | .list => (.names (naclListImplementations soft build), current)
  | .core => (.calls (naclDispatch soft build features current),
      naclDispatch soft build features current)

/-- Record a feature. -/
def addFeature (present : Bool) (feature features : UInt32) : UInt32 :=
  if present then features ||| feature else features

/-- Bit `i` of a register. -/
def hasBit (r i : UInt32) : Bool := r &&& ((1 : UInt32) <<< i) != 0

/-- The four-bit field at `i` of a register. -/
def hasField (r i : UInt64) : Bool := (r >>> i) &&& 0xf != 0

/-- The registers that `cpuid` leaves: `ecx` and `edx` for leaf 1, `ebx` for leaf 7. -/
structure Cpuid where
  ecx1 : UInt32
  edx1 : UInt32
  ebx7 : UInt32

/-- `detect_cpu_features` on x86-64. -/
def detectCpuFeaturesX86 (r : Cpuid) : UInt32 :=
  let features := 0
  let features := addFeature (hasBit r.edx1 26) cpuFeatureSse2 features
  let features := addFeature (hasBit r.ecx1 0) cpuFeatureSsse3 features
  let features := addFeature (hasBit r.ebx7 5) cpuFeatureAvx2 features
  let features := addFeature (hasBit r.ebx7 29) cpuFeatureShani features
  addFeature (hasBit r.ebx7 16) cpuFeatureAvx512 features

/-- `detect_cpu_features` on AArch64, from two identification registers. -/
def detectCpuFeaturesArm64 (isar0 pfr0 : UInt64) : UInt32 :=
  let features := 0 ||| cpuFeatureNeon
  let features := addFeature (hasField isar0 8) cpuFeatureSha2 features
  let features := addFeature (hasField isar0 12) cpuFeatureSha512 features
  let features := addFeature (hasField isar0 4) cpuFeatureAes features
  addFeature (hasField pfr0 32) cpuFeatureSve features

end Code

section Selected

variable (soft : SoftwareCores) (build : Build) (features : UInt32)

/-- The entry that is selected for a processor. -/
def selected : NaclImpl :=
  best (supports features) NaclImpl.priority (software soft) (implementations soft build)

/-- The software entry is in every table. -/
theorem software_mem : software soft ∈ implementations soft build := List.mem_cons_self

/-- The software entry asks for no feature, so every CPU supports it. -/
theorem supports_software : supports features (software soft) = true := by
  change (features &&& 0 == 0) = true
  rw [UInt32.and_zero]
  rfl

/-- The default is an entry of the table that the CPU supports. -/
theorem selected_mem : selected soft build features ∈ implementations soft build ∧
    supports features (selected soft build features) = true := by
  rcases best_eq_or_mem (supports features) NaclImpl.priority (software soft)
    (implementations soft build) with h | h
  · rw [selected, h]
    exact ⟨software_mem soft build, supports_software soft features⟩
  · exact h

/-- No entry that the processor supports has a higher priority. -/
theorem priority_le_selected {impl : NaclImpl} (h : impl ∈ implementations soft build)
    (hok : supports features impl = true) :
    impl.priority ≤ (selected soft build features).priority :=
  (rank_le_best _ _ _ _).2 impl h hok

/-- The entries of the table. -/
theorem mem_implementations {impl : NaclImpl} : impl ∈ implementations soft build ↔
    impl = software soft ∨ (build.haveSse2Impl = true ∧ impl = sse2) ∨
      (build.haveAvx2Impl = true ∧ impl = avx2) ∨ build.haveNeonImpl = true ∧ impl = neon := by
  simp only [implementations, List.mem_cons, List.mem_append, List.mem_ite_nil_right,
    List.not_mem_nil, or_false, or_assoc]

/-- The priorities order the entries: AVX2, NEON, SSE2, software. -/
theorem selected_eq : selected soft build features =
    if build.haveAvx2Impl && supports features avx2 then avx2
    else if build.haveNeonImpl && supports features neon then neon
    else if build.haveSse2Impl && supports features sse2 then sse2
    else software soft := by
  rw [selected]
  have hsoft : ∀ p : ℤ, 0 < p → (software soft).priority < p := fun _ hp => hp
  -- An entry with at least the priority of the one claimed is not in the table or not supported.
  split_ifs with havx2 hneon hsse2 <;> rw [Bool.and_eq_true] at *
  · refine best_eq_of_forall_lt ((mem_implementations soft build).mpr ?_) havx2.2
      (hsoft _ (by decide)) ?_
    · exact Or.inr (Or.inr (Or.inl ⟨havx2.1, rfl⟩))
    · intro other hmem hok hle
      rcases (mem_implementations soft build).mp hmem with rfl | ⟨-, rfl⟩ | ⟨-, rfl⟩ | ⟨-, rfl⟩
      · exact absurd hle (hsoft _ (by decide)).not_ge
      · exact absurd hle (by decide)
      · rfl
      · exact absurd hle (by decide)
  · refine best_eq_of_forall_lt ((mem_implementations soft build).mpr ?_) hneon.2
      (hsoft _ (by decide)) ?_
    · exact Or.inr (Or.inr (Or.inr ⟨hneon.1, rfl⟩))
    · intro other hmem hok hle
      rcases (mem_implementations soft build).mp hmem with rfl | ⟨-, rfl⟩ | ⟨h, rfl⟩ | ⟨-, rfl⟩
      · exact absurd hle (hsoft _ (by decide)).not_ge
      · exact absurd hle (by decide)
      · exact absurd ⟨h, hok⟩ havx2
      · rfl
  · refine best_eq_of_forall_lt ((mem_implementations soft build).mpr ?_) hsse2.2
      (hsoft _ (by decide)) ?_
    · exact Or.inr (Or.inl ⟨hsse2.1, rfl⟩)
    · intro other hmem hok hle
      rcases (mem_implementations soft build).mp hmem with rfl | ⟨-, rfl⟩ | ⟨h, rfl⟩ | ⟨h, rfl⟩
      · exact absurd hle (hsoft _ (by decide)).not_ge
      · rfl
      · exact absurd ⟨h, hok⟩ havx2
      · exact absurd ⟨h, hok⟩ hneon
  · refine best_eq_init fun other hmem hok => ?_
    rcases (mem_implementations soft build).mp hmem with rfl | ⟨h, rfl⟩ | ⟨h, rfl⟩ | ⟨h, rfl⟩
    · exact le_rfl
    · exact absurd ⟨h, hok⟩ hsse2
    · exact absurd ⟨h, hok⟩ havx2
    · exact absurd ⟨h, hok⟩ hneon

/-- On x86 the features are the two bits of `CPUID`, and NEON is never one of them. -/
theorem supports_x86 (r : Cpuid) : supports (detectCpuFeaturesX86 r) sse2 = hasBit r.edx1 26 ∧
    supports (detectCpuFeaturesX86 r) avx2 = hasBit r.ebx7 5 ∧
    supports (detectCpuFeaturesX86 r) neon = false := by
  rw [detectCpuFeaturesX86]
  generalize hasBit r.edx1 26 = a
  generalize hasBit r.ecx1 0 = b
  generalize hasBit r.ebx7 5 = c
  generalize hasBit r.ebx7 29 = d
  generalize hasBit r.ebx7 16 = e
  simp only [supports, sse2, avx2, neon]
  revert a b c d e
  decide

/-- On ARM64 only NEON is supported, whatever the feature registers hold. -/
theorem supports_arm64 (isar0 pfr0 : UInt64) :
    supports (detectCpuFeaturesArm64 isar0 pfr0) sse2 = false ∧
    supports (detectCpuFeaturesArm64 isar0 pfr0) avx2 = false ∧
    supports (detectCpuFeaturesArm64 isar0 pfr0) neon = true := by
  rw [detectCpuFeaturesArm64]
  generalize hasField isar0 8 = a
  generalize hasField isar0 12 = b
  generalize hasField isar0 4 = c
  generalize hasField pfr0 32 = d
  simp only [supports, sse2, avx2, neon]
  revert a b c d
  decide

end Selected

section Runs

variable (soft : SoftwareCores) (build : Build) (features : UInt32)

/-- The entry that a call sets by its name. -/
def Call.sets : Call → Option NaclImpl
  | .set name => (implementations soft build).find? fun impl => impl.name == name
  | _ => none

/-- The entry of the last call that set one by its name. -/
def lastSet (calls : List Call) : Option NaclImpl := calls.reverse.findSome? (Call.sets soft build)

/-- The entry that a core goes through after some calls. -/
def dispatched (calls : List Call) : NaclImpl :=
  (lastSet soft build calls).getD (selected soft build features)

/-- Dispatching a second time changes nothing. -/
theorem naclDispatch_idem (current : Option NaclImpl) :
    naclDispatch soft build features (naclDispatch soft build features current) =
      naclDispatch soft build features current := by
  cases current <;> rfl

/-- A call changes the entry in use exactly if it sets one by its name. -/
theorem naclDispatch_answer (current : Option NaclImpl) (call : Call) :
    naclDispatch soft build features (answer soft build features current call).2 =
      (call.sets soft build).or (naclDispatch soft build features current) := by
  cases call with
  | select => exact naclDispatch_idem soft build features current
  | getName => exact naclDispatch_idem soft build features current
  | set name =>
    simp only [answer, naclSetImplementation, Prod.map_snd, id, Call.sets]
    cases (implementations soft build).find? fun impl => impl.name == name <;> rfl
  | list => rfl
  | core => exact naclDispatch_idem soft build features current

/-- A further call is the last that sets something, or leaves the earlier one standing. -/
theorem lastSet_concat (calls : List Call) (call : Call) :
    lastSet soft build (calls ++ [call]) = (call.sets soft build).or
      (lastSet soft build calls) := by
  rw [lastSet, List.reverse_append, List.reverse_singleton, List.singleton_append,
    List.findSome?_cons]
  cases call.sets soft build <;> rfl

/-- After any calls the cores go through the entry that was set last, or else the selected one. -/
theorem naclDispatch_run (calls : List Call) :
    naclDispatch soft build features (run (answer soft build features) none calls) =
      some (dispatched soft build features calls) := by
  induction calls using List.reverseRecOn with
  | nil => rfl
  | append_singleton calls call ih =>
    rw [run_append]
    refine (naclDispatch_answer soft build features _ call).trans ?_
    rw [ih, dispatched, dispatched, lastSet_concat]
    cases call.sets soft build <;> rfl

/-- What was last set is an entry of the table. -/
theorem lastSet_mem {calls : List Call} {impl : NaclImpl}
    (h : lastSet soft build calls = some impl) :
    impl ∈ implementations soft build := by
  obtain ⟨call, -, hcall⟩ := List.exists_of_findSome?_eq_some h
  cases call with
  | set name =>
    rw [Call.sets] at hcall
    exact List.mem_of_find?_eq_some hcall
  | _ => cases hcall

/-- Whatever calls came before, a core and the reported name belong to one entry of the table: the
one that was last set by its name, or, as long as none was, the best one that the processor
supports. -/
theorem dispatch_run (calls : List Call) :
    let current := run (answer soft build features) none calls
    let impl := dispatched soft build features calls
    (answer soft build features current .core).1 = .calls (some impl) ∧
      (answer soft build features current .getName).1 = .name impl.name ∧
      impl ∈ implementations soft build ∧
      (lastSet soft build calls = none → supports features impl = true ∧
        ∀ other ∈ implementations soft build, supports features other = true →
        other.priority ≤ impl.priority) := by
  intro current impl
  have hrun : naclDispatch soft build features current = some impl :=
    naclDispatch_run soft build features calls
  refine ⟨congrArg Answer.calls hrun, ?_, ?_, fun hnone => ?_⟩
  · change Answer.name
      (((naclDispatch soft build features current).map NaclImpl.name).getD "software") = _
    rw [hrun]
    rfl
  · change (lastSet soft build calls).getD _ ∈ _
    cases h : lastSet soft build calls with
    | none => exact (selected_mem soft build features).1
    | some set => exact lastSet_mem soft build h
  · have hselected : impl = selected soft build features := by
      change (lastSet soft build calls).getD _ = _
      rw [hnone]
      rfl
    rw [hselected]
    exact ⟨(selected_mem soft build features).2, fun other h hok =>
      priority_le_selected soft build features h hok⟩

end Runs

section Subkey

variable {soft : SoftwareCores} {build : Build} {mem : Mem} {out input k c : Addr}

/-- The entries other than the software one run over the buffer of a subkey. -/
theorem hsalsaAgrees_iff_software {impl : NaclImpl} (himpl : impl ∈ implementations soft build)
    (hsoft : HsalsaAgrees soft.hsalsa20Soft mem out input k c)
    (hout : mem.size out.obj = out.off + 32)
    (hinput : mem.Valid input 16) (hk : mem.Valid k 32) (hc : mem.Valid c 16) :
    HsalsaAgrees impl.hsalsa20 mem out input k c ↔ impl.name = "software" := by
  have hvector : ∀ f, ¬ HsalsaAgrees (vectorCore f) mem out input k c := fun f =>
    vectorCore_not_agrees hout hinput hk hc
  rcases (mem_implementations soft build).mp himpl with rfl | ⟨-, rfl⟩ | ⟨-, rfl⟩ | ⟨-, rfl⟩
  · exact ⟨fun _ => rfl, fun _ => hsoft⟩
  · exact ⟨fun h => absurd h (hvector _), fun h => absurd h (by decide)⟩
  · exact ⟨fun h => absurd h (hvector _), fun h => absurd h (by decide)⟩
  · exact ⟨fun h => absurd h (hvector _), fun h => absurd h (by decide)⟩

/-- No accelerated entry carries the software entry's name. -/
theorem name_ne_software :
    sse2.name ≠ "software" ∧ avx2.name ≠ "software" ∧ neon.name ≠ "software" := by
  decide

/-- The entry that x86-64 selects is the software one exactly if the processor has neither vector
extension that is compiled in. -/
theorem selected_x86_software_iff (r : Cpuid) :
    (selected soft build (detectCpuFeaturesX86 r)).name = "software" ↔
      (build.haveAvx2Impl && hasBit r.ebx7 5) = false ∧
      (build.haveSse2Impl && hasBit r.edx1 26) = false := by
  obtain ⟨hsse2, havx2, hneon⟩ := supports_x86 r
  rw [selected_eq, hsse2, havx2, hneon, Bool.and_false]
  cases build.haveAvx2Impl && hasBit r.ebx7 5 <;> cases build.haveSse2Impl && hasBit r.edx1 26 <;>
    simp [name_ne_software, software]

/-- On ARM64 the default is the software entry exactly in builds without the NEON source. -/
theorem selected_arm64_software_iff (isar0 pfr0 : UInt64) :
    (selected soft build (detectCpuFeaturesArm64 isar0 pfr0)).name = "software" ↔
      build.haveNeonImpl = false := by
  obtain ⟨hsse2, havx2, hneon⟩ := supports_arm64 isar0 pfr0
  rw [selected_eq, hsse2, havx2, hneon, Bool.and_false, Bool.and_false, Bool.and_true]
  cases build.haveNeonImpl <;> simp [name_ne_software, software]

variable (soft build)

/-- After any calls the implementation in force is an entry of the table. -/
theorem dispatched_mem (features : UInt32) (calls : List Call) :
    dispatched soft build features calls ∈ implementations soft build := by
  rw [dispatched]
  cases h : lastSet soft build calls with
  | none => exact (selected_mem soft build features).1
  | some impl => exact lastSet_mem soft build h

/-- After any calls, `crypto_core_hsalsa20` computes the subkey within its buffer exactly if the
software entry was the last one set by its name, or none was and the processor has no vector
extension that is compiled in. On AArch64 the extension is always there. -/
theorem dispatched_hsalsa20_iff (calls : List Call) (r : Cpuid) (isar0 pfr0 : UInt64)
    (hsoft : HsalsaAgrees soft.hsalsa20Soft mem out input k c)
    (hout : mem.size out.obj = out.off + 32)
    (hinput : mem.Valid input 16) (hk : mem.Valid k 32) (hc : mem.Valid c 16) :
    (HsalsaAgrees (dispatched soft build (detectCpuFeaturesX86 r) calls).hsalsa20 mem
      out input k c ↔
      match lastSet soft build calls with
      | some impl => impl.name = "software"
      | none => (build.haveAvx2Impl && hasBit r.ebx7 5) = false ∧
          (build.haveSse2Impl && hasBit r.edx1 26) = false) ∧
    (HsalsaAgrees (dispatched soft build (detectCpuFeaturesArm64 isar0 pfr0) calls).hsalsa20 mem
      out input k c ↔
      match lastSet soft build calls with
      | some impl => impl.name = "software"
      | none => build.haveNeonImpl = false) := by
  rw [hsalsaAgrees_iff_software (dispatched_mem soft build _ calls) hsoft hout hinput hk hc,
    hsalsaAgrees_iff_software (dispatched_mem soft build _ calls) hsoft hout hinput hk hc,
    dispatched, dispatched]
  cases lastSet soft build calls with
  | some impl => exact ⟨Iff.rfl, Iff.rfl⟩
  | none => exact ⟨selected_x86_software_iff r, selected_arm64_software_iff isar0 pfr0⟩

/-- The cores of `tweetnacl.c` in the place of the software ones. -/
def tweetnaclCores : SoftwareCores where
  salsa20Soft := vectorCore coreSalsa20
  hsalsa20Soft out input k c := do
    let input ← loadVec input 16
    let k ← loadVec k 32
    let c ← loadVec c 16
    storeVec out (coreHsalsa20 input k c)
    pure 0

/-- The portable core of `tweetnacl.c` is a software core that agrees with `HSalsa20`. -/
theorem tweetnaclCores_agree (hout : mem.Valid out 32) (hinput : mem.Valid input 16)
    (hk : mem.Valid k 32) (hc : mem.Valid c 16) :
    HsalsaAgrees tweetnaclCores.hsalsa20Soft mem out input k c :=
  ⟨_, Runs.bind (Runs.loadVec hinput) (Runs.bind (Runs.loadVec hk) (Runs.bind (Runs.loadVec hc)
    (Runs.bind (Runs.storeVec hout _) (Runs.pure 0 _)))), mem.vec_writeVec _ _,
    mem.frame_writeVec _ _⟩

/-- The condition on an x86 and an ARM64 CPU, after a core call and a setting by name. -/
theorem dispatched_hsalsa20_iff_set :
    let mem := Mem.ofSizes [32, 16, 32, 16]
    let build := ⟨true, true, true⟩
    let calls := [.core, .set "software"]
    (HsalsaAgrees (dispatched tweetnaclCores build (detectCpuFeaturesX86 ⟨0, 0, 0⟩) calls).hsalsa20
        mem ⟨0, 0⟩ ⟨1, 0⟩ ⟨2, 0⟩ ⟨3, 0⟩ ↔
      match lastSet tweetnaclCores build calls with
      | some impl => impl.name = "software"
      | none => (build.haveAvx2Impl && hasBit 0 5) = false ∧
          (build.haveSse2Impl && hasBit 0 26) = false) ∧
    (HsalsaAgrees (dispatched tweetnaclCores build (detectCpuFeaturesArm64 0 0) calls).hsalsa20 mem
        ⟨0, 0⟩ ⟨1, 0⟩ ⟨2, 0⟩ ⟨3, 0⟩ ↔
      match lastSet tweetnaclCores build calls with
      | some impl => impl.name = "software"
      | none => build.haveNeonImpl = false) :=
  dispatched_hsalsa20_iff _ _ _ _ _ _
    (tweetnaclCores_agree (by decide) (by decide) (by decide) (by decide)) rfl
    (by decide) (by decide) (by decide)

end Subkey

end TweetNacl.Dispatch
