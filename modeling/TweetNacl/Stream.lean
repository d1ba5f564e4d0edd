import TweetNacl.Lib.Loops
import TweetNacl.Lib.Memory
import TweetNacl.Salsa20
import Mathlib.Tactic.Linarith
import Mathlib.Tactic.NormNum
import Mathlib.Tactic.Ring

/-!
# The stream functions

`crypto_stream_salsa20_xor` adds the Salsa20 key stream to a message, block by block, with
the block counter kept as bytes 8 to 15 of the core's input. It refuses more than 256 MiB
and, unlike its ancestor, an output buffer that is also the message. `crypto_stream_xor`
is the same under the HSalsa20 subkey.
-/

namespace TweetNacl

open Memory Salsa20

/-- The input of the core for block `j`: the nonce and `j` as a 64-bit little-endian counter. -/
def counterBlock (n : Vector UInt8 8) (j : ℕ) : Vector UInt8 16 :=
  Vector.ofFn fun i => if h : i.val < 8 then n[i.val] else UInt8.ofNat (j / 256 ^ (i.val - 8))

/-- Byte `i` of the Salsa20 key stream. -/
def keystreamByte (n : Vector UInt8 8) (k : Vector UInt8 32) (i : ℕ) : UInt8 :=
  have : i % 64 < 64 := Nat.mod_lt _ (Nat.succ_pos 63)
  (coreSalsa20 (counterBlock n (i / 64)) k sigma)[i % 64]

/-- Byte `i` of the XSalsa20 key stream: the Salsa20 key stream of the last eight bytes of the nonce
under the HSalsa20 key of the first sixteen. -/
def xsalsaByte (n : Vector UInt8 24) (k : Vector UInt8 32) (i : ℕ) : UInt8 :=
  keystreamByte (Vector.ofFn fun j => n[16 + j.val])
    (coreHsalsa20 (Vector.ofFn fun j => n[j.val]) k sigma) i

section Code

/-- The counter increment of the block loop, with its carry in a 32-bit word. -/
def nextCounter (z : Vector UInt8 16) : Vector UInt8 16 :=
  (Nat.fold 8 (fun i _ (z, u) =>
    let u : UInt32 := u + z[8 + i].toUInt32
    (z.set (8 + i) u.toUInt8, u >>> 8)) (z, (1 : UInt32))).1

/-- Write `count` bytes of the message xor the block `x`; a null message counts as zeros. -/
def xorBlock (x : Vector UInt8 64) (c : Addr) (m : Ptr) (count : ℕ) : Exec Unit :=
  match m with
  | some m => forN count fun i => do
    let b ← load (m + i)
    store (c + i) (b ^^^ x.getD i 0)
  | none => forN count fun i => store (c + i) (0 ^^^ x.getD i 0)

/-- The loop over the full blocks; the result is the counter block for the rest. -/
def streamBlocks (q : ℕ) (z : Vector UInt8 16) (c : Addr) (m : Ptr) (k : Addr) :
    Exec (Vector UInt8 16) :=
  match q with
  | 0 => pure z
  | q + 1 => do
    let key ← loadVec k 32
    xorBlock (coreSalsa20 z key sigma) c m 64
    streamBlocks q (nextCounter z) (c + 64) (m.add 64) k

/-- The body of `crypto_stream_salsa20_xor` after its checks. -/
def streamBody (c : Addr) (m : Ptr) (b : ℕ) (n k : Addr) : Exec Int32 := do
  let nonce ← loadVec n 8
  let z : Vector UInt8 16 := Vector.ofFn fun i => if h : i.val < 8 then nonce[i.val] else 0
  let z ← streamBlocks (b / 64) z c m k
  if b % 64 ≠ 0 then
    let key ← loadVec k 32
    xorBlock (coreSalsa20 z key sigma) (c + 64 * (b / 64)) (m.add (64 * (b / 64))) (b % 64)
  pure 0

/-- `crypto_stream_salsa20_xor`. -/
def cryptoStreamSalsa20Xor (c m : Ptr) (b : UInt64) (n k : Ptr) : Exec Int32 :=
  if b = 0 then pure 0
  else if 256 * 1024 * 1024 < b then pure (-1)
  else
    match c, n, k with
    | some c, some n, some k =>
      if m ≠ none ∧ m = some c then pure (-1) else streamBody c m b.toNat n k
    | _, _, _ => pure (-1)

/-- `crypto_stream_xor`; nonce and key are read without a check. -/
def cryptoStreamXor (c m : Ptr) (d : UInt64) (n k : Addr) : Exec Int32 :=
  withLocal 32 fun s => do
    let input ← loadVec n 16
    let key ← loadVec k 32
    storeVec s (coreHsalsa20 input key sigma)
    cryptoStreamSalsa20Xor c m d (some (n + 16)) (some s)

/-- `crypto_stream`. -/
def cryptoStream (c : Ptr) (d : UInt64) (n k : Addr) : Exec Int32 :=
  withLocal 32 fun s => do
    let input ← loadVec n 16
    let key ← loadVec k 32
    storeVec s (coreHsalsa20 input key sigma)
    cryptoStreamSalsa20Xor c none d (some (n + 16)) (some s)

end Code

/-- What the increment has reached after `t` bytes: the low bytes are those of `j + 1`, and the
carry is what is left to add to the high ones. -/
def CounterInv (n : Vector UInt8 8) (j t : ℕ) (s : Vector UInt8 16 × UInt32) : Prop :=
  (j + 1) / 256 ^ t = j / 256 ^ t + s.2.toNat ∧ s.2.toNat ≤ 1 ∧
    ∀ i (hi : i < 16), s.1[i] = (counterBlock n (if i < 8 + t then j + 1 else j))[i]

/-- The nonce is the same in every counter block. -/
theorem counterBlock_low (n : Vector UInt8 8) (j j' : ℕ) {i : ℕ} (hi : i < 8) :
    (counterBlock n j)[i] = (counterBlock n j')[i] := by
  simp [counterBlock, hi]

/-- The upper half of a counter block is the number, lowest byte first. -/
theorem counterBlock_high (n : Vector UInt8 8) (j : ℕ) {t : ℕ} (ht : t < 8) :
    (counterBlock n j)[8 + t] = UInt8.ofNat (j / 256 ^ t) := by
  simp [counterBlock]

/-- One byte of the increment. -/
theorem CounterInv.step {n : Vector UInt8 8} {j t : ℕ} {s : Vector UInt8 16 × UInt32} (ht : t < 8)
    (h : CounterInv n j t s) :
    CounterInv n j (t + 1) (s.1.set (8 + t) (s.2 + s.1[8 + t].toUInt32).toUInt8,
      (s.2 + s.1[8 + t].toUInt32) >>> 8) := by
  obtain ⟨hcarry, hle, hbytes⟩ := h
  have hbyte : s.1[8 + t] = UInt8.ofNat (j / 256 ^ t) := by
    rw [hbytes (8 + t) (by omega), if_neg (by omega), counterBlock_high n j ht]
  have hsum : (s.2 + s.1[8 + t].toUInt32).toNat = j / 256 ^ t % 256 + s.2.toNat := by
    rw [UInt32.toNat_add, UInt8.toNat_toUInt32, hbyte, UInt8.toNat_ofNat']
    omega
  have hdiv : ∀ a, a / 256 ^ (t + 1) = a / 256 ^ t / 256 := fun a => by
    rw [pow_succ, Nat.div_div_eq_div_mul]
  have hcarry' : ((s.2 + s.1[8 + t].toUInt32) >>> 8).toNat =
      (j / 256 ^ t % 256 + s.2.toNat) / 256 := by
    rw [UInt32.toNat_shiftRight, hsum, Nat.shiftRight_eq_div_pow]
    rfl
  refine ⟨?_, ?_, fun i hi => ?_⟩
  · rw [hcarry', hdiv, hdiv, hcarry]
    omega
  · rw [hcarry']
    omega
  · rw [Vector.getElem_set]
    split
    next heq =>
      subst heq
      rw [if_pos (by omega), counterBlock_high n _ ht]
      apply UInt8.toNat_inj.mp
      rw [UInt32.toNat_toUInt8, hsum, UInt8.toNat_ofNat', hcarry]
      omega
    next hne =>
      rw [hbytes i hi]
      by_cases hlow : i < 8 + t
      · rw [if_pos hlow, if_pos (by omega)]
      · rw [if_neg hlow, if_neg (by omega)]

/-- The increment steps the counter. -/
theorem nextCounter_counterBlock (n : Vector UInt8 8) (j : ℕ) :
    nextCounter (counterBlock n j) = counterBlock n (j + 1) := by
  have h : CounterInv n j 8 (Nat.fold 8 (fun i _ (s : Vector UInt8 16 × UInt32) =>
      (s.1.set (8 + i) (s.2 + s.1[8 + i].toUInt32).toUInt8, (s.2 + s.1[8 + i].toUInt32) >>> 8))
      (counterBlock n j, (1 : UInt32))) := by
    refine Loops.fold_invariant (CounterInv n j) ⟨by simp, le_rfl, fun i hi => ?_⟩
      fun t ht s hs => hs.step ht
    split
    next hlow => exact counterBlock_low n _ _ (by omega)
    next => rfl
  refine Vector.ext fun i hi => ?_
  rw [nextCounter, h.2.2 i hi, if_pos (by omega)]

/-- What the message pointer denotes while the output at `c` is written: zeros, or a buffer apart
from the output. -/
def Source (mem : Mem) (m : Ptr) (c : Addr) (d : ℕ) (msg : ℕ → UInt8) : Prop :=
  match m with
  | none => ∀ i < d, msg i = 0
  | some p => mem.Valid p d ∧ Disjoint p d c d ∧ ∀ i < d, mem.byte (p + i) = msg i

/-- The part of the source that is left after the first bytes of the output have been written. -/
theorem Source.step {mem : Mem} {m : Ptr} {c : Addr} {a d : ℕ} {msg : ℕ → UInt8}
    (h : Source mem m c (a + d) msg) (f : ℕ → UInt8) :
    Source (mem.write c a f) (m.add a) (c + a) d fun i => msg (a + i) := by
  cases m with
  | none => exact fun i hi => h (a + i) (by omega)
  | some p =>
    obtain ⟨hvalid, hdisjoint, hbytes⟩ := h
    refine ⟨hvalid.add (by omega), fun i hi j hj => ?_, fun i hi => ?_⟩
    · rw [Addr.add_add, Addr.add_add]
      exact hdisjoint (a + i) (by omega) (a + j) (by omega)
    · rw [Addr.add_add, Mem.write_byte_of_ne fun j hj => hdisjoint (a + i) (by omega) j (by omega)]
      exact hbytes (a + i) (by omega)

/-- A part of the source is a source. -/
theorem Source.mono {mem : Mem} {m : Ptr} {c : Addr} {a d : ℕ} {msg : ℕ → UInt8}
    (h : Source mem m c d msg) (had : a ≤ d) : Source mem m c a msg := by
  cases m with
  | none => exact fun i hi => h i (by omega)
  | some p =>
    obtain ⟨hvalid, hdisjoint, hbytes⟩ := h
    exact ⟨hvalid.mono had, hdisjoint.mono had had, fun i hi => hbytes i (by omega)⟩

/-- A block is added to the source byte by byte. -/
theorem xorBlock_runs {mem : Mem} {c : Addr} {m : Ptr} {d : ℕ} {msg : ℕ → UInt8}
    (hc : mem.Valid c d) (hm : Source mem m c d msg) (x : Vector UInt8 64) :
    Runs (xorBlock x c m d) mem () (mem.write c d fun i => msg i ^^^ x.getD i 0) := by
  cases m with
  | none =>
    have hmsg : (mem.write c d fun i => 0 ^^^ x.getD i 0) = mem.write c d fun i =>
        msg i ^^^ x.getD i 0 :=
      Mem.write_congr fun i hi => by rw [hm i hi]
    rw [← hmsg]
    exact Runs.fill hc _
  | some p =>
    obtain ⟨hvalid, hdisjoint, hbytes⟩ := hm
    have h := Runs.transform hc hvalid (fun i b => b ^^^ x.getD i 0) fun j hj i hi =>
      hdisjoint j hj i (by omega)
    rwa [Mem.write_congr fun i hi => by rw [hbytes i hi]] at h

/-- The block for counter `j` is that part of the key stream. -/
theorem coreSalsa20_getD (n : Vector UInt8 8) (k : Vector UInt8 32) (j : ℕ) {i : ℕ} (hi : i < 64) :
    (coreSalsa20 (counterBlock n j) k sigma).getD i 0 = keystreamByte n k (64 * j + i) := by
  have hdiv : (64 * j + i) / 64 = j := by omega
  have hmod : (64 * j + i) % 64 = i := by omega
  simp [keystreamByte, hdiv, hmod, Vector.getD, hi]

/-- One block of the key stream, or the beginning of one. -/
theorem xorBlock_keystream {n : Vector UInt8 8} {k : Vector UInt8 32} {j d : ℕ}
    (hd : d ≤ 64) {mem : Mem} {c : Addr} {m : Ptr} {msg : ℕ → UInt8} (hc : mem.Valid c d)
    (hm : Source mem m c d msg) :
    Runs (xorBlock (coreSalsa20 (counterBlock n j) k sigma) c m d) mem ()
      (mem.write c d fun i => msg i ^^^ keystreamByte n k (64 * j + i)) := by
  have h := xorBlock_runs hc hm (coreSalsa20 (counterBlock n j) k sigma)
  rwa [Mem.write_congr fun i hi => by rw [coreSalsa20_getD n k j (by omega)]] at h

/-- The full blocks, from block `j` on. The key must not be overwritten. -/
theorem streamBlocks_runs {n : Vector UInt8 8} {key : Vector UInt8 32} (q : ℕ) {j : ℕ} {mem : Mem}
    {c k : Addr} {m : Ptr} {msg : ℕ → UInt8} (hc : mem.Valid c (64 * q))
    (hm : Source mem m c (64 * q) msg) (hk : mem.Valid k 32) (hkey : mem.vec k 32 = key)
    (hkc : Disjoint k 32 c (64 * q)) :
    Runs (streamBlocks q (counterBlock n j) c m k) mem (counterBlock n (j + q))
      (mem.write c (64 * q) fun i => msg i ^^^ keystreamByte n key (64 * j + i)) := by
  induction q generalizing j mem c m msg with
  | zero =>
    rw [Nat.mul_zero, Mem.write_zero]
    exact Runs.pure _ _
  | succ q ih =>
    rw [show 64 * (q + 1) = 64 + 64 * q by ring] at hc hm hkc ⊢
    have hblock := xorBlock_keystream (n := n) (k := key) (j := j) le_rfl
      (hc.mono (k := 64) (by omega)) (hm.mono (by omega))
    have hrest := ih (j := j + 1) (Mem.valid_write.mpr (hc.add (i := 64) le_rfl))
      (hm.step fun i => msg i ^^^ keystreamByte n key (64 * j + i)) hk ?_ ?_
    · simp only [show ∀ i, 64 * (j + 1) + i = 64 * j + (64 + i) from fun i => by ring] at hrest
      rw [Mem.write_add _ _ _ _ fun i => msg i ^^^ keystreamByte n key (64 * j + i),
        show j + 1 + q = j + (q + 1) by ring] at hrest
      have hload := Runs.loadVec hk
      rw [hkey] at hload
      rw [← nextCounter_counterBlock] at hrest
      exact hload.bind (hblock.bind hrest)
    · rw [Mem.vec_write_of_disjoint (hkc.mono le_rfl (by omega)), hkey]
    · intro i hi l hl
      rw [Addr.add_add]
      exact hkc i hi (64 + l) (by omega)

/-- The first block: the counter is zero. -/
theorem counterBlock_zero (n : Vector UInt8 8) :
    (Vector.ofFn fun i => if h : i.val < 8 then n[i.val] else 0 : Vector UInt8 16) =
      counterBlock n 0 := by
  simp [counterBlock]

/-- The stream body writes the message xor the key stream. -/
theorem streamBody_runs {mem : Mem} {c n k : Addr} {m : Ptr} {b : ℕ} {msg : ℕ → UInt8}
    (hc : mem.Valid c b) (hm : Source mem m c b msg) (hn : mem.Valid n 8) (hk : mem.Valid k 32)
    (hkc : Disjoint k 32 c b) :
    Runs (streamBody c m b n k) mem 0
      (mem.write c b fun i => msg i ^^^ keystreamByte (mem.vec n 8) (mem.vec k 32) i) := by
  have hsplit : 64 * (b / 64) + b % 64 = b := by omega
  rw [← hsplit] at hc hm hkc
  have hblocks := streamBlocks_runs (n := mem.vec n 8) (j := 0) (b / 64) (hc.mono (by omega))
    (hm.mono (by omega)) hk rfl (hkc.mono le_rfl (by omega))
  simp only [Nat.mul_zero, Nat.zero_add] at hblocks
  refine (Runs.loadVec hn).bind ?_
  rw [counterBlock_zero]
  refine hblocks.bind ?_
  by_cases hrest : b % 64 ≠ 0
  · have hload := Runs.loadVec (m := mem.write c (64 * (b / 64)) fun i =>
      msg i ^^^ keystreamByte (mem.vec n 8) (mem.vec k 32) i) hk
    rw [Mem.vec_write_of_disjoint (hkc.mono le_rfl (by omega))] at hload
    have hlast := xorBlock_keystream (n := mem.vec n 8) (k := mem.vec k 32) (j := b / 64) (by omega)
      (Mem.valid_write.mpr (hc.add (i := 64 * (b / 64)) le_rfl)) (hm.step fun i =>
        msg i ^^^ keystreamByte (mem.vec n 8) (mem.vec k 32) i)
    rw [Mem.write_add _ _ _ _ fun i => msg i ^^^ keystreamByte (mem.vec n 8) (mem.vec k 32) i,
      hsplit] at hlast
    rw [if_pos hrest]
    exact hload.bind (hlast.bind (Runs.pure _ _))
  · rw [if_neg hrest]
    have heq : 64 * (b / 64) = b := by omega
    rw [heq]
    exact (Runs.pure _ _).bind (Runs.pure _ _)

/-- The length is not refused. -/
def StreamFits (b : UInt64) : Prop := b ≤ 256 * 1024 * 1024

instance (b : UInt64) : Decidable (StreamFits b) := inferInstanceAs (Decidable (b ≤ _))

/-- `crypto_stream_salsa20_xor` adds the key stream to the source. -/
theorem cryptoStreamSalsa20Xor_runs {mem : Mem} {c n k : Addr} {m : Ptr} {b : UInt64}
    {msg : ℕ → UInt8} (hfits : StreamFits b) (hmc : m ≠ some c) (hc : mem.Valid c b.toNat)
    (hm : Source mem m c b.toNat msg) (hn : mem.Valid n 8) (hk : mem.Valid k 32)
    (hkc : Disjoint k 32 c b.toNat) :
    Runs (cryptoStreamSalsa20Xor (some c) m b (some n) (some k)) mem 0
      (mem.write c b.toNat fun i => msg i ^^^ keystreamByte (mem.vec n 8) (mem.vec k 32) i) := by
  rw [cryptoStreamSalsa20Xor]
  split
  next hzero =>
    subst hzero
    simpa using Runs.pure _ _
  next hzero =>
    rw [if_neg (UInt64.not_lt.mpr hfits)]
    simp only [hmc, and_false, if_false]
    exact streamBody_runs hc hm hn hk hkc

/-- The stream function refuses long messages and, for nonempty ones, an output buffer that is the
message. -/
theorem cryptoStreamSalsa20Xor_refuses (mem : Mem) {c n k : Addr} {m : Ptr} {b : UInt64}
    (h : ¬ StreamFits b ∨ b ≠ 0 ∧ m = some c) :
    Runs (cryptoStreamSalsa20Xor (some c) m b (some n) (some k)) mem (-1) mem := by
  have hzero : b ≠ 0 := by
    rcases h with h | h
    · rintro rfl
      exact h (by decide)
    · exact h.1
  rw [cryptoStreamSalsa20Xor, if_neg hzero]
  split
  next => exact Runs.pure _ _
  next hlong =>
    rcases h with h | ⟨_, rfl⟩
    · exact absurd (UInt64.not_lt.mp hlong) h
    · simp only [ne_eq, reduceCtorEq, not_false_eq_true, and_self, if_true]
      exact Runs.pure _ _

/-- The local subkey of the XSalsa20 functions leaves no trace. -/
theorem release_subkey {mem : Mem} {c : Addr} {d : ℕ} (hc : mem.Valid c d) (f : ℕ → UInt8)
    (v : Vector UInt8 32) :
    (((mem.alloc 32).writeVec ⟨mem.fresh, 0⟩ v).write c d f).release mem = mem.write c d f := by
  rw [Mem.release_write_of_valid hc, Mem.writeVec, Mem.release_write_of_le le_rfl,
    Mem.release_alloc]

/-- A source is one also beside a new local object. -/
theorem Source.alloc {mem : Mem} {m : Ptr} {c : Addr} {d : ℕ} {msg : ℕ → UInt8}
    (h : Source mem m c d msg) (n : ℕ) (v : Vector UInt8 n) :
    Source ((mem.alloc n).writeVec ⟨mem.fresh, 0⟩ v) m c d msg := by
  cases m with
  | none => exact h
  | some p =>
    obtain ⟨hvalid, hdisjoint, hbytes⟩ := h
    refine ⟨hvalid.alloc n, hdisjoint, fun i hi => ?_⟩
    have hfresh := hvalid.disjoint_fresh (q := ⟨mem.fresh, 0⟩) le_rfl n
    rw [Mem.writeVec, Mem.write_byte_of_ne fun j hj => hfresh i hi j hj]
    exact hbytes i hi

/-- The two parts of the nonce and the key under which `crypto_stream_salsa20_xor` runs. -/
theorem xsalsaByte_vec (mem : Mem) (n k : Addr) (i : ℕ) :
    xsalsaByte (mem.vec n 24) (mem.vec k 32) i =
      keystreamByte (mem.vec (n + 16) 8) (coreHsalsa20 (mem.vec n 16) (mem.vec k 32) sigma) i := by
  have hfirst : (Vector.ofFn fun j => (mem.vec n 24)[j.val] : Vector UInt8 16) = mem.vec n 16 :=
    Vector.ext fun j hj => by simp only [Vector.getElem_ofFn, Mem.getElem_vec]
  have hlast : (Vector.ofFn fun j => (mem.vec n 24)[16 + j.val] : Vector UInt8 8) = mem.vec
      (n + 16) 8 :=
    Vector.ext fun j hj => by simp only [Vector.getElem_ofFn, Mem.getElem_vec, Addr.add_add]
  rw [xsalsaByte, hfirst, hlast]

/-- The prologue of the XSalsa20 functions: the subkey in a local object. -/
theorem withSubkey_runs {mem mem' : Mem} {n k : Addr} {f : Addr → Exec Int32} {ret : Int32}
    (hn : mem.Valid n 24) (hk : mem.Valid k 32)
    (h : Runs (f ⟨mem.fresh, 0⟩) ((mem.alloc 32).writeVec ⟨mem.fresh, 0⟩
      (coreHsalsa20 (mem.vec n 16) (mem.vec k 32) sigma)) ret mem') :
    Runs (withLocal 32 fun s => do
        let input ← loadVec n 16
        let key ← loadVec k 32
        storeVec s (coreHsalsa20 input key sigma)
        f s) mem ret (mem'.release mem) := by
  refine Runs.withLocal ((Runs.loadVec ((hn.mono (by omega)).alloc 32)).bind ?_)
  refine (Runs.loadVec (hk.alloc 32)).bind ?_
  exact (Runs.storeVec (mem.valid_alloc 32) _).bind h

/-- The inner call of the XSalsa20 functions, under the subkey in the local object. -/
theorem streamUnderSubkey_runs {mem : Mem} {c n k : Addr} {m : Ptr} {d : UInt64} {msg : ℕ → UInt8}
    (hfits : StreamFits d) (hmc : m ≠ some c) (hc : mem.Valid c d.toNat)
    (hm : Source mem m c d.toNat msg) (hn : mem.Valid n 24) (hk : mem.Valid k 32) :
    Runs (withLocal 32 fun s => do
        let input ← loadVec n 16
        let key ← loadVec k 32
        storeVec s (coreHsalsa20 input key sigma)
        cryptoStreamSalsa20Xor (some c) m d (some (n + 16)) (some s)) mem 0
      (mem.write c d.toNat fun i => msg i ^^^ xsalsaByte (mem.vec n 24) (mem.vec k 32) i) := by
  have hlocal := mem.valid_alloc 32
  have hfresh : ∀ {p : Addr} {l : ℕ}, mem.Valid p l → Disjoint p l ⟨mem.fresh, 0⟩ 32 :=
    fun h => h.disjoint_fresh le_rfl 32
  have hrun :=
    cryptoStreamSalsa20Xor_runs hfits hmc (show Mem.Valid ((mem.alloc 32).writeVec ⟨mem.fresh, 0⟩
      (coreHsalsa20 (mem.vec n 16) (mem.vec k 32) sigma)) c d.toNat from hc.alloc 32)
    (hm.alloc 32 _) ((hn.add (i := 16) le_rfl).alloc 32) hlocal (hfresh hc).symm
  have hnonce : ((mem.alloc 32).writeVec ⟨mem.fresh, 0⟩
      (coreHsalsa20 (mem.vec n 16) (mem.vec k 32) sigma)).vec (n + 16) 8 = mem.vec (n + 16) 8 :=
    Mem.vec_write_of_disjoint (hfresh (hn.add (i := 16) le_rfl))
  rw [Mem.vec_writeVec, hnonce] at hrun
  have h := withSubkey_runs
    (f := fun s => cryptoStreamSalsa20Xor (some c) m d (some (n + 16)) (some s))
    hn hk hrun
  rw [release_subkey hc] at h
  simp only [xsalsaByte_vec]
  exact h

/-- `crypto_stream_xor` writes the message xor the XSalsa20 key stream. -/
theorem cryptoStreamXor_runs {mem : Mem} {c m n k : Addr} {d : UInt64} (hfits : StreamFits d)
    (hmc : m ≠ c) (hc : mem.Valid c d.toNat) (hm : mem.Valid m d.toNat)
    (hdisjoint : Disjoint m d.toNat c d.toNat) (hn : mem.Valid n 24) (hk : mem.Valid k 32) :
    Runs (cryptoStreamXor (some c) (some m) d n k) mem 0
      (mem.write c d.toNat fun i =>
        mem.byte (m + i) ^^^ xsalsaByte (mem.vec n 24) (mem.vec k 32) i) :=
  streamUnderSubkey_runs hfits (by simpa using hmc) hc ⟨hm, hdisjoint, fun _ _ => rfl⟩ hn hk

/-- `crypto_stream` writes the XSalsa20 key stream. -/
theorem cryptoStream_runs {mem : Mem} {c n k : Addr} {d : UInt64} (hfits : StreamFits d)
    (hc : mem.Valid c d.toNat) (hn : mem.Valid n 24) (hk : mem.Valid k 32) :
    Runs (cryptoStream (some c) d n k) mem 0
      (mem.write c d.toNat fun i => xsalsaByte (mem.vec n 24) (mem.vec k 32) i) := by
  have h := streamUnderSubkey_runs hfits (by simp) hc
    (show Source mem none c d.toNat fun _ => 0 from fun _ _ => rfl) hn hk
  simp only [UInt8.zero_xor] at h
  exact h

/-- `crypto_stream_xor` refuses long messages and, for nonempty ones, an output buffer that is the
message; the memory is left as it was. -/
theorem cryptoStreamXor_refuses {mem : Mem} {c m n k : Addr} {d : UInt64} (hn : mem.Valid n 24)
    (hk : mem.Valid k 32) (h : ¬ StreamFits d ∨ d ≠ 0 ∧ m = c) :
    Runs (cryptoStreamXor (some c) (some m) d n k) mem (-1) mem := by
  have hrun := cryptoStreamSalsa20Xor_refuses ((mem.alloc 32).writeVec ⟨mem.fresh, 0⟩
      (coreHsalsa20 (mem.vec n 16) (mem.vec k 32) sigma)) (c := c) (n := n + 16)
    (k := ⟨mem.fresh, 0⟩) (m := some m) (b := d) (by simpa using h)
  have hrelease := withSubkey_runs
    (f := fun s => cryptoStreamSalsa20Xor (some c) (some m) d (some (n + 16)) (some s)) hn hk hrun
  rwa [Mem.writeVec, Mem.release_write_of_le le_rfl, Mem.release_alloc] at hrelease

end TweetNacl
