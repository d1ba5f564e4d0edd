import TweetNacl.Salsa20Correct
import TweetNacl.Stream

/-!
# The position law of the stream functions

Byte `i` of the output is byte `i` of the message xor byte `i % 64` of block `i / 64` of the
XSalsa20 key stream, as the specification of Salsa20 defines it. So the length only says where the
output ends, and a second application takes the first one back.
-/

namespace TweetNacl

open Memory Salsa20

/-- Block `j` of the XSalsa20 key stream: the Salsa20 block for the last eight bytes of the nonce
and the counter `j`, under the HSalsa20 subkey of its first sixteen. -/
def xsalsaBlock (n : Vector UInt8 24) (k : Vector UInt8 32) (j : ℕ) : Vector UInt8 64 :=
  salsa20 (counterBlock (Vector.ofFn fun i => n.get (Fin.natAdd 16 i)) j)
    (hsalsa20 (Vector.ofFn fun i => n.get (Fin.castAdd 8 i)) k sigma) sigma

/-- The key stream of the code consists of the blocks. -/
theorem xsalsaByte_eq (n : Vector UInt8 24) (k : Vector UInt8 32) (i : ℕ) :
    xsalsaByte n k i = (xsalsaBlock n k (i / 64)).cyc i := by
  rw [xsalsaBlock, ← coreSalsa20_eq, ← coreHsalsa20_eq]
  rfl

/-- The one-time key of a box: the first 32 bytes of block 0. -/
def xsalsaPolyKey (n : Vector UInt8 24) (k : Vector UInt8 32) : Vector UInt8 32 :=
  Vector.ofFn fun i => (xsalsaBlock n k 0).cyc i.val

section Law

variable {mem mem' mem₂ : Mem} {c m n k c' m' n' k' : Addr} {d : UInt64}

/-- The bytes from `c` on are the message xor the key stream. -/
def Streamed (mem' : Mem) (c : Addr) (msg : ℕ → UInt8) (n : Vector UInt8 24) (k : Vector UInt8 32)
    (d : ℕ) : Prop :=
  ∀ i < d, mem'.byte (c + i) = msg i ^^^ (xsalsaBlock n k (i / 64)).cyc i

/-- `crypto_stream_xor` follows the law. -/
theorem cryptoStreamXor_streamed (hd : d ≤ 256 * 1024 * 1024) (hc : mem.Valid c d.toNat)
    (hm : mem.Valid m d.toNat) (hdisjoint : Disjoint m d.toNat c d.toNat) (hn : mem.Valid n 24)
    (hk : mem.Valid k 32) :
    ∃ mem', Runs (cryptoStreamXor (some c) (some m) d n k) mem 0 mem' ∧ mem.Frame mem' c d.toNat ∧
      Streamed mem' c (fun i => mem.byte (m + i)) (mem.vec n 24) (mem.vec k 32) d.toNat := by
  by_cases hmc : m = c
  · -- only an empty message is apart from itself, and then nothing is refused
    have hzero : d = 0 := by
      by_contra hne
      have hpos : 0 < d.toNat := Nat.pos_of_ne_zero fun h => hne (UInt64.toNat_inj.mp h)
      exact hdisjoint 0 hpos 0 hpos (by rw [hmc])
    subst hzero
    have hempty :=
      withSubkey_runs (f :=
        fun s => cryptoStreamSalsa20Xor (some c) (some m) 0 (some (n + 16)) (some s))
      hn hk (Runs.pure 0 _)
    rw [Mem.writeVec, Mem.release_write_of_le le_rfl, Mem.release_alloc] at hempty
    exact ⟨mem, hempty, Mem.Frame.refl _ _ _, fun i hi => absurd hi (Nat.not_lt_zero i)⟩
  · refine ⟨_, cryptoStreamXor_runs hd hmc hc hm hdisjoint hn hk, mem.frame_write _ _ _,
      fun i hi => ?_⟩
    rw [Mem.write_byte hi, xsalsaByte_eq]

/-- `crypto_stream` follows it with a message of zeros. -/
theorem cryptoStream_streamed (hd : d ≤ 256 * 1024 * 1024) (hc : mem.Valid c d.toNat)
    (hn : mem.Valid n 24) (hk : mem.Valid k 32) :
    ∃ mem', Runs (cryptoStream (some c) d n k) mem 0 mem' ∧ mem.Frame mem' c d.toNat ∧
      Streamed mem' c (fun _ => 0) (mem.vec n 24) (mem.vec k 32) d.toNat := by
  refine ⟨_, cryptoStream_runs hd hc hn hk, mem.frame_write _ _ _, fun i hi => ?_⟩
  rw [Mem.write_byte hi, UInt8.zero_xor, xsalsaByte_eq]

/-- The output for a shorter length is a prefix. -/
theorem Streamed.take {msg : ℕ → UInt8} {nonce : Vector UInt8 24} {key : Vector UInt8 32} {l l' : ℕ}
    (h : Streamed mem c msg nonce key l) (h' : Streamed mem' c msg nonce key l') (hl : l' ≤ l) :
    mem'.bytes c l' = (mem.bytes c l).take l' := by
  refine List.ext_getElem (by simp [hl]) fun i hi _ => ?_
  rw [Mem.length_bytes] at hi
  rw [List.getElem_take, Mem.getElem_bytes, Mem.getElem_bytes, h i (by omega), h' i hi]

/-- The key stream cancels against itself. -/
theorem Streamed.twice {msg : ℕ → UInt8} {nonce : Vector UInt8 24} {key : Vector UInt8 32} {l : ℕ}
    (h : Streamed mem' c msg nonce key l)
    (h' : Streamed mem₂ c' (fun i => mem'.byte (c + i)) nonce key l) {i : ℕ} (hi : i < l) :
    mem₂.byte (c' + i) = msg i := by
  refine (h' i hi).trans ?_
  dsimp only
  rw [h i hi, UInt8.xor_assoc, UInt8.xor_self, UInt8.xor_zero]

/-- The law, what it says about two lengths, and the second application, wherever the output has
been moved in between. -/
theorem stream_position_law (hd : d ≤ 256 * 1024 * 1024) (hc : mem.Valid c d.toNat)
    (hn : mem.Valid n 24) (hk : mem.Valid k 32) :
    (∃ mem₁, Runs (cryptoStream (some c) d n k) mem 0 mem₁ ∧ mem.Frame mem₁ c d.toNat ∧
      Streamed mem₁ c (fun _ => 0) (mem.vec n 24) (mem.vec k 32) d.toNat ∧
      ∀ d' ≤ d, ∃ mem₂, Runs (cryptoStream (some c) d' n k) mem 0 mem₂ ∧
        mem₂.bytes c d'.toNat = (mem₁.bytes c d.toNat).take d'.toNat) ∧
    ∀ m, mem.Valid m d.toNat → Disjoint m d.toNat c d.toNat → ∃ mem₁,
      Runs (cryptoStreamXor (some c) (some m) d n k) mem 0 mem₁ ∧ mem.Frame mem₁ c d.toNat ∧
      Streamed mem₁ c (fun i => mem.byte (m + i)) (mem.vec n 24) (mem.vec k 32) d.toNat ∧
      (∀ d' ≤ d, ∃ mem₂, Runs (cryptoStreamXor (some c) (some m) d' n k) mem 0 mem₂ ∧
        mem₂.bytes c d'.toNat = (mem₁.bytes c d.toNat).take d'.toNat) ∧
      ∀ mem₂ c' m' n' k', mem₂.Valid c' d.toNat → mem₂.Valid m' d.toNat →
        Disjoint m' d.toNat c' d.toNat →
        mem₂.Valid n' 24 → mem₂.Valid k' 32 → mem₂.vec n' 24 = mem.vec n 24 →
        mem₂.vec k' 32 = mem.vec k 32 →
        mem₂.bytes m' d.toNat = mem₁.bytes c d.toNat → ∃ mem₃,
          Runs (cryptoStreamXor (some c') (some m') d n' k') mem₂ 0 mem₃ ∧
          mem₃.bytes c' d.toNat = mem.bytes m d.toNat := by
  refine ⟨?_, fun m hm hdisjoint => ?_⟩
  · obtain ⟨mem₁, hrun, hframe, hbytes⟩ := cryptoStream_streamed hd hc hn hk
    refine ⟨mem₁, hrun, hframe, hbytes, fun d' hd' => ?_⟩
    obtain ⟨mem₂, hrun', -, hbytes'⟩ :=
      cryptoStream_streamed (UInt64.le_trans hd' hd) (hc.mono hd') hn hk
    exact ⟨mem₂, hrun', hbytes.take hbytes' hd'⟩
  · obtain ⟨mem₁, hrun, hframe, hbytes⟩ := cryptoStreamXor_streamed hd hc hm hdisjoint hn hk
    refine ⟨mem₁, hrun, hframe, hbytes, fun d' hd' => ?_,
      fun mem₂ c' m' n' k' hc' hm' hdisjoint' hn' hk' hnonce hkey hcopy => ?_⟩
    · obtain ⟨mem₂, hrun', -, hbytes'⟩ :=
        cryptoStreamXor_streamed (UInt64.le_trans hd' hd) (hc.mono hd') (hm.mono hd')
        (hdisjoint.mono hd' hd') hn hk
      exact ⟨mem₂, hrun', hbytes.take hbytes' hd'⟩
    · obtain ⟨mem₃, hrun', -, hbytes'⟩ := cryptoStreamXor_streamed hd hc' hm' hdisjoint' hn' hk'
      have hagain : Streamed mem₃ c' (fun i => mem₁.byte (c + i)) (mem.vec n 24)
          (mem.vec k 32) d.toNat :=
        fun i hi => by
          have hbyte := hbytes' i hi
          dsimp only at hbyte
          rw [hbyte, byte_of_bytes_eq hcopy hi, hnonce, hkey]
      exact ⟨mem₃, hrun', congrArg List.ofFn (funext fun i => hbytes.twice hagain i.isLt)⟩

/-- The law for 100 zero bytes in separate objects. -/
theorem stream_position_law_hundred : ∃ mem₁,
    Runs (cryptoStreamXor (some ⟨0, 0⟩) (some ⟨1, 0⟩) 100 ⟨2, 0⟩ ⟨3, 0⟩)
    (Mem.ofSizes [100, 100, 24, 32]) 0 mem₁ ∧
      Streamed mem₁ ⟨0, 0⟩ (fun _ => 0) ((Mem.ofSizes [100, 100, 24, 32]).vec ⟨2, 0⟩ 24)
        ((Mem.ofSizes [100, 100, 24, 32]).vec ⟨3, 0⟩ 32) 100 := by
  have hc : (Mem.ofSizes [100, 100, 24, 32]).Valid ⟨0, 0⟩ (100 : UInt64).toNat := by decide
  have h := stream_position_law (n := ⟨2, 0⟩) (k := ⟨3, 0⟩) (d := 100) (by decide) hc
    (by decide) (by decide)
  obtain ⟨mem₁, hrun, -, hbytes, -⟩ := h.2 ⟨1, 0⟩ (by decide) (Disjoint.of_obj_ne (by decide) _ _)
  exact ⟨mem₁, hrun, hbytes⟩

end Law

end TweetNacl
