import TweetNacl.Curve25519
import TweetNacl.SecretBox
import TweetNacl.StreamLaw

/-!
# The public-key box

`crypto_box` is `crypto_secretbox` under the HSalsa20 hash of the X25519 shared secret. The
two parties derive the same key, so what one boxes the other opens.
-/

namespace TweetNacl

open Limbs Memory Salsa20

section Code

/-- `secure_zero`. -/
def secureZero (p : Addr) (n : ℕ) : Exec Unit := forN n fun i => store (p + i) 0

/-- `crypto_box_beforenm`. -/
def cryptoBoxBeforenm (k y x : Ptr) : Exec Int32 :=
  withLocal 32 fun s =>
    match k, y, x with
    | some k, some y, some x => do
      let _ ← cryptoScalarmult (some s) (some x) (some y)
      let shared ← loadVec s 32
      storeVec k (coreHsalsa20 (Vector.replicate 16 0) shared sigma)
      secureZero s 32
      pure 0
    | _, _, _ => pure (-1)

/-- `crypto_box`, with `crypto_box_afternm` for its last call. -/
def cryptoBox (c m : Ptr) (d : UInt64) (n y x : Ptr) : Exec Int32 :=
  withLocal 32 fun k =>
    match c, m, n, y, x with
    | some c, some m, some n, some y, some x => do
      let ret ← cryptoBoxBeforenm (some k) (some y) (some x)
      if ret ≠ 0 then pure (-1)
      else do
        let ret ← cryptoSecretbox (some c) (some m) d (some n) (some k)
        secureZero k 32
        pure ret
    | _, _, _, _, _ => pure (-1)

/-- `crypto_box_open`, with `crypto_box_open_afternm` for its last call. -/
def cryptoBoxOpen (m c : Ptr) (d : UInt64) (n y x : Ptr) : Exec Int32 :=
  withLocal 32 fun k =>
    match m, c, n, y, x with
    | some m, some c, some n, some y, some x => do
      let ret ← cryptoBoxBeforenm (some k) (some y) (some x)
      if ret ≠ 0 then pure (-1)
      else do
        let ret ← cryptoSecretboxOpen (some m) (some c) d (some n) (some k)
        secureZero k 32
        pure ret
    | _, _, _, _, _ => pure (-1)

end Code

/-- The key two parties share, from the public key of the one and the secret of the other. -/
def boxKey (y x : Vector UInt8 32) : Vector UInt8 32 :=
  coreHsalsa20 (Vector.replicate 16 0) (scalarmultBytes x y) sigma

/-- Both parties derive the same key. -/
theorem boxKey_agree (a b : Vector UInt8 32) :
    boxKey (scalarmultBytes b basePoint9) a = boxKey (scalarmultBytes a basePoint9) b := by
  rw [boxKey, scalarmultBytes_agree, boxKey]

section Runs

variable {mem mem' : Mem} {c m n y x k : Addr} {d : UInt64}

/-- `secure_zero` overwrites a valid object with zero bytes and touches nothing else. -/
theorem secureZero_runs {p : Addr} {l : ℕ} (hp : mem.Valid p l) :
    Runs (secureZero p l) mem () (mem.write p l fun _ => 0) := Runs.fill hp _

/-- `crypto_box_beforenm` writes the shared key. -/
theorem cryptoBoxBeforenm_runs (hk : mem.Valid k 32) (hy : mem.Valid y 32) (hx : mem.Valid x 32) :
    Runs (cryptoBoxBeforenm (some k) (some y) (some x)) mem 0
      (mem.writeVec k (boxKey (mem.vec y 32) (mem.vec x 32))) := by
  have hmul := cryptoScalarmult_runs (mem.valid_alloc 32) (hx.alloc 32) (hy.alloc 32)
  have hload := Runs.loadVec (m := (mem.alloc 32).writeVec ⟨mem.fresh, 0⟩
    (scalarmultBytes (mem.vec x 32) (mem.vec y 32))) (mem.valid_alloc 32)
  rw [Mem.vec_writeVec] at hload
  have hstore := Runs.storeVec (m := (mem.alloc 32).writeVec ⟨mem.fresh, 0⟩
    (scalarmultBytes (mem.vec x 32) (mem.vec y 32))) (hk.alloc 32)
    (boxKey (mem.vec y 32) (mem.vec x 32))
  have hzero := secureZero_runs (show Mem.Valid (((mem.alloc 32).writeVec ⟨mem.fresh, 0⟩
    (scalarmultBytes (mem.vec x 32) (mem.vec y 32))).writeVec k
    (boxKey (mem.vec y 32) (mem.vec x 32))) ⟨mem.fresh, 0⟩ 32 from mem.valid_alloc 32)
  have hrelease :
      (((mem.alloc 32).writeVec ⟨mem.fresh, 0⟩ (scalarmultBytes (mem.vec x 32) (mem.vec y 32))
        |>.writeVec k (boxKey (mem.vec y 32) (mem.vec x 32))).write ⟨mem.fresh, 0⟩ 32
          fun _ => 0).release mem = mem.writeVec k (boxKey (mem.vec y 32) (mem.vec x 32)) := by
    rw [Mem.release_write_of_le le_rfl, Mem.writeVec, Mem.release_write_of_valid hk, Mem.writeVec,
      Mem.release_write_of_le le_rfl, Mem.release_alloc, Mem.writeVec]
  rw [← hrelease]
  exact Runs.withLocal (hmul.bind (hload.bind (hstore.bind (hzero.bind (Runs.pure _ _)))))

/-- The memory of a box function after the shared key has been computed. -/
def withBoxKey (mem : Mem) (y x : Addr) : Mem :=
  (mem.alloc 32).writeVec ⟨mem.fresh, 0⟩ (boxKey (mem.vec y 32) (mem.vec x 32))

/-- Only the local key array changes while the shared key is derived. -/
theorem withBoxKey_frame (mem : Mem) (y x : Addr) :
    (mem.alloc 32).Frame (withBoxKey mem y x) ⟨mem.fresh, 0⟩ 32 :=
  Mem.frame_writeVec _ _ _

/-- The local key array holds the key of the two parties afterwards. -/
@[simp] theorem withBoxKey_key (mem : Mem) (y x : Addr) :
    (withBoxKey mem y x).vec ⟨mem.fresh, 0⟩ 32 = boxKey (mem.vec y 32) (mem.vec x 32) :=
  Mem.vec_writeVec _ _ _

/-- An object that was valid before the call is read as before. -/
theorem withBoxKey_vec {p : Addr} {l : ℕ} (hp : mem.Valid p l) :
    (withBoxKey mem y x).vec p l = mem.vec p l :=
  (withBoxKey_frame mem y x).vec_of_disjoint (hp.disjoint_fresh le_rfl 32)

/-- The same for one byte of such an object. -/
theorem withBoxKey_byte {p : Addr} {l i : ℕ} (hp : mem.Valid p l) (hi : i < l) :
    (withBoxKey mem y x).byte (p + i) = mem.byte (p + i) :=
  (withBoxKey_frame mem y x).byte_of_disjoint (hp.disjoint_fresh le_rfl 32) hi

/-- `crypto_box_beforenm` runs on the local array and leaves the shared key in it. -/
theorem withBoxKey_runs (hy : mem.Valid y 32) (hx : mem.Valid x 32) :
    Runs (cryptoBoxBeforenm (some ⟨mem.fresh, 0⟩) (some y) (some x)) (mem.alloc 32) 0
      (withBoxKey mem y x) :=
  cryptoBoxBeforenm_runs (mem.valid_alloc 32) (hy.alloc 32) (hx.alloc 32)

/-- What a box holds does not depend on the memory elsewhere. -/
theorem Boxed.congr {mem₁ mem₁' : Mem} {nonce : Vector UInt8 24} {key : Vector UInt8 32} {l : ℕ}
    (h : Boxed mem mem' c m nonce key l) (hl : 32 ≤ l)
    (hm : ∀ i < l, mem₁.byte (m + i) = mem.byte (m + i))
    (hc : ∀ i < l, mem₁'.byte (c + i) = mem'.byte (c + i)) : Boxed mem₁ mem₁' c m nonce key l := by
  refine ⟨fun i hi => ?_, ?_, fun i hi hil => ?_⟩
  · rw [hc i (by omega), h.zeros i hi]
  · have htag : mem₁'.vec (c + 16) 16 = mem'.vec (c + 16) 16 :=
      congrArg Vector.ofFn (funext fun i => by rw [Addr.add_add, hc _ (by omega)])
    have hbody : mem₁'.bytes (c + 32) (l - 32) = mem'.bytes (c + 32) (l - 32) :=
      congrArg List.ofFn (funext fun i => by rw [Addr.add_add, hc _ (by omega)])
    rw [htag, hbody, h.tag]
  · rw [hc i hil, hm i hil, h.body i hi hil]

/-- `Opened` depends only on the bytes of the ciphertext and of the message. -/
theorem Opened.congr {mem₁ mem₁' : Mem} {nonce : Vector UInt8 24} {key : Vector UInt8 32} {l : ℕ}
    (h : Opened mem mem' m c nonce key l) (hl : 32 ≤ l)
    (hc : ∀ i < l, mem₁.byte (c + i) = mem.byte (c + i))
    (hm : ∀ i < l, mem₁'.byte (m + i) = mem'.byte (m + i)) : Opened mem₁ mem₁' m c nonce key l := by
  refine ⟨fun i hi => ?_, fun i hi hil => ?_⟩
  · rw [hm i (by omega), h.zeros i hi]
  · rw [hm i hil, hc i hil, h.body i hi hil]

/-- `crypto_box` boxes the message under the shared key. -/
theorem cryptoBox_boxes (hd : 32 ≤ d) (hfits : StreamFits d) (hmc : c ≠ m)
    (hc : mem.Valid c d.toNat) (hm : mem.Valid m d.toNat) (hdisjoint : Disjoint m d.toNat c d.toNat)
    (hn : mem.Valid n 24) (hy : mem.Valid y 32) (hx : mem.Valid x 32)
    (hzeros : ∀ i < 32, mem.byte (m + i) = 0) :
    ∃ mem', Runs (cryptoBox (some c) (some m) d (some n) (some y) (some x)) mem 0 mem' ∧
      Boxed mem mem' c m (mem.vec n 24) (boxKey (mem.vec y 32) (mem.vec x 32)) d.toNat ∧
      mem.Frame mem' c d.toNat := by
  have hd' : 32 ≤ d.toNat := hd
  have hframe := withBoxKey_frame mem y x
  obtain ⟨mem₂, hrun, hboxed, hframe₂⟩ := cryptoSecretbox_boxes
    (k := ⟨mem.fresh, 0⟩) hd hfits hmc (hframe.valid (hc.alloc 32))
    (hframe.valid (hm.alloc 32)) hdisjoint
    (hframe.valid (hn.alloc 32)) (hframe.valid (mem.valid_alloc 32))
    (fun i hi => by rw [withBoxKey_byte hm (by omega), hzeros i hi])
  rw [withBoxKey_key, withBoxKey_vec hn] at hboxed
  have hzero := secureZero_runs (hframe₂.valid (hframe.valid (mem.valid_alloc 32)))
  have hbox : Runs (cryptoBox (some c) (some m) d (some n) (some y) (some x)) mem 0
      ((mem₂.write ⟨mem.fresh, 0⟩ 32 fun _ => 0).release mem) := by
    refine Runs.withLocal ((withBoxKey_runs hy hx).bind ?_)
    exact hrun.bind (hzero.bind (Runs.pure _ _))
  rw [Mem.release_write_of_le le_rfl] at hbox
  refine ⟨_, hbox, hboxed.congr hd' (fun i hi => (withBoxKey_byte hm hi).symm) fun i hi => ?_,
    hframe.release hframe₂⟩
  exact Mem.release_byte (by simpa using hc.obj_lt (by omega))

/-- `crypto_box_open` opens a box whose authenticator fits the shared key. -/
theorem cryptoBoxOpen_opens (hd : 32 ≤ d) (hfits : StreamFits d) (hmc : m ≠ c)
    (hm : mem.Valid m d.toNat) (hc : mem.Valid c d.toNat) (hdisjoint : Disjoint c d.toNat m d.toNat)
    (hn : mem.Valid n 24) (hy : mem.Valid y 32) (hx : mem.Valid x 32)
    (htag : TagAccepted mem c (mem.vec n 24) (boxKey (mem.vec y 32) (mem.vec x 32)) d.toNat) :
    ∃ mem', Runs (cryptoBoxOpen (some m) (some c) d (some n) (some y) (some x)) mem 0 mem' ∧
      Opened mem mem' m c (mem.vec n 24) (boxKey (mem.vec y 32) (mem.vec x 32)) d.toNat := by
  have hd' : 32 ≤ d.toNat := hd
  have hframe := withBoxKey_frame mem y x
  have htag' : TagAccepted (withBoxKey mem y x) c ((withBoxKey mem y x).vec n 24)
      ((withBoxKey mem y x).vec ⟨mem.fresh, 0⟩ 32) d.toNat := by
    have hbytes : (withBoxKey mem y x).bytes (c + 32) (d.toNat - 32) =
        mem.bytes (c + 32) (d.toNat - 32) :=
      congrArg List.ofFn (funext fun i => withBoxKey_byte (hc.add (by omega)) i.isLt)
    rw [TagAccepted, withBoxKey_key, withBoxKey_vec hn, withBoxKey_vec (hc.add (by omega)), hbytes]
    exact htag
  obtain ⟨mem₂, hrun, hopened, hframe₂⟩ := cryptoSecretboxOpen_opens
    (k := ⟨mem.fresh, 0⟩) hd hfits hmc (hframe.valid (hm.alloc 32))
    (hframe.valid (hc.alloc 32)) hdisjoint
    (hframe.valid (hn.alloc 32)) (hframe.valid (mem.valid_alloc 32)) htag'
  rw [withBoxKey_key, withBoxKey_vec hn] at hopened
  have hzero := secureZero_runs (hframe₂.valid (hframe.valid (mem.valid_alloc 32)))
  have hbox : Runs (cryptoBoxOpen (some m) (some c) d (some n) (some y) (some x)) mem 0
      ((mem₂.write ⟨mem.fresh, 0⟩ 32 fun _ => 0).release mem) := by
    refine Runs.withLocal ((withBoxKey_runs hy hx).bind ?_)
    exact hrun.bind (hzero.bind (Runs.pure _ _))
  rw [Mem.release_write_of_le le_rfl] at hbox
  refine ⟨_, hbox, hopened.congr hd' (fun i hi => (withBoxKey_byte hc hi).symm) fun i hi => ?_⟩
  exact Mem.release_byte (by simpa using hm.obj_lt (by omega))

end Runs

/-- Where two parties keep their secrets `a` and `b` and their public keys. -/
structure KeyBuffers (mem : Mem) (a b pkA pkB : Addr) : Prop where
  valid_a : mem.Valid a 32
  valid_b : mem.Valid b 32
  valid_pkA : mem.Valid pkA 32
  valid_pkB : mem.Valid pkB 32
  a_pkA : Disjoint a 32 pkA 32
  b_pkA : Disjoint b 32 pkA 32
  a_pkB : Disjoint a 32 pkB 32
  b_pkB : Disjoint b 32 pkB 32
  pkA_pkB : Disjoint pkA 32 pkB 32

/-- Where a message, its box and the opened message are kept, apart from the keys of the
receiver. -/
structure BoxBuffers (mem : Mem) (pkA b n m c m' : Addr) (d : ℕ) : Prop where
  valid_n : mem.Valid n 24
  valid_m : mem.Valid m d
  valid_c : mem.Valid c d
  valid_m' : mem.Valid m' d
  m_c : Disjoint m d c d
  c_m' : Disjoint c d m' d
  n_c : Disjoint n 24 c d
  pkA_c : Disjoint pkA 32 c d
  b_c : Disjoint b 32 c d

section Agreement

variable {mem mem' mem'' : Mem} {a b pkA pkB n m c m' : Addr}

/-- The memory after both parties have derived their public keys. -/
def withPublicKeys (mem : Mem) (a b pkA pkB : Addr) : Mem :=
  (mem.writeVec pkA (scalarmultBytes (mem.vec a 32) basePoint9)).writeVec pkB
    (scalarmultBytes (mem.vec b 32) basePoint9)

/-- The secrets are as before, and the public keys are theirs. -/
theorem KeyBuffers.vec (h : KeyBuffers mem a b pkA pkB) :
    (withPublicKeys mem a b pkA pkB).vec a 32 = mem.vec a 32 ∧
      (withPublicKeys mem a b pkA pkB).vec b 32 = mem.vec b 32 ∧
      (withPublicKeys mem a b pkA pkB).vec pkA 32 = scalarmultBytes (mem.vec a 32) basePoint9 ∧
      (withPublicKeys mem a b pkA pkB).vec pkB 32 = scalarmultBytes (mem.vec b 32) basePoint9 := by
  have hframe := fun mem pk v => Mem.frame_writeVec (n := 32) mem pk v
  refine ⟨?_, ?_, ?_, Mem.vec_writeVec _ _ _⟩
  · exact ((hframe _ _ _).vec_of_disjoint h.a_pkB).trans ((hframe _ _ _).vec_of_disjoint h.a_pkA)
  · exact ((hframe _ _ _).vec_of_disjoint h.b_pkB).trans ((hframe _ _ _).vec_of_disjoint h.b_pkA)
  · exact ((hframe _ _ _).vec_of_disjoint h.pkA_pkB).trans (Mem.vec_writeVec _ _ _)

/-- Both parties derive their public keys, one call after the other. -/
theorem KeyBuffers.derive (h : KeyBuffers mem a b pkA pkB) :
    ∃ mem₁, Runs (cryptoScalarmultBase (some pkA) (some a)) mem 0 mem₁ ∧
      Runs (cryptoScalarmultBase (some pkB) (some b)) mem₁ 0 (withPublicKeys mem a b pkA pkB) := by
  refine ⟨_, cryptoScalarmultBase_runs h.valid_pkA h.valid_a, ?_⟩
  have hrun := cryptoScalarmultBase_runs
    (m := mem.writeVec pkA (scalarmultBytes (mem.vec a 32) basePoint9)) h.valid_pkB h.valid_b
  rwa [(Mem.frame_writeVec mem pkA _).vec_of_disjoint h.b_pkA] at hrun

/-- What is boxed under one pair of keys opens under the other. -/
theorem box_roundtrip {d : UInt64} {skA skB : Vector UInt8 32} (hd : 32 ≤ d) (hfits : StreamFits d)
    (hbuf : BoxBuffers mem pkA b n m c m' d.toNat) (ha : mem.Valid a 32) (hb : mem.Valid b 32)
    (hpkA : mem.Valid pkA 32) (hpkB : mem.Valid pkB 32) (hveca : mem.vec a 32 = skA)
    (hvecb : mem.vec b 32 = skB) (hvecA : mem.vec pkA 32 = scalarmultBytes skA basePoint9)
    (hvecB : mem.vec pkB 32 = scalarmultBytes skB basePoint9)
    (hzeros : ∀ i < 32, mem.byte (m + i) = 0) :
    ∃ mem' mem'', Runs (cryptoBox (some c) (some m) d (some n) (some pkB) (some a)) mem 0 mem' ∧
      Runs (cryptoBoxOpen (some m') (some c) d (some n) (some pkA) (some b)) mem' 0 mem'' ∧
      mem''.bytes m' d.toNat = mem.bytes m d.toNat := by
  have hpos : 0 < d.toNat := Nat.lt_of_lt_of_le (by decide) (show 32 ≤ d.toNat from hd)
  obtain ⟨mem', hbox, hboxed, hframe⟩ :=
    cryptoBox_boxes hd hfits (ne_of_disjoint hbuf.m_c.symm hpos)
    hbuf.valid_c hbuf.valid_m hbuf.m_c hbuf.valid_n hpkB ha hzeros
  rw [hvecB, hveca, boxKey_agree] at hboxed
  have hn' := hframe.vec_of_disjoint hbuf.n_c
  have hpkA' := hframe.vec_of_disjoint hbuf.pkA_c
  have hb' := hframe.vec_of_disjoint hbuf.b_c
  have htag : TagAccepted mem' c (mem'.vec n 24) (boxKey (mem'.vec pkA 32) (mem'.vec b 32))
      d.toNat := by
    rw [hn', hpkA', hb', hvecA, hvecb]
    exact hboxed.accepted
  obtain ⟨mem'', hopen, hopened⟩ :=
    cryptoBoxOpen_opens hd hfits (ne_of_disjoint hbuf.c_m'.symm hpos)
    (hframe.valid hbuf.valid_m') (hframe.valid hbuf.valid_c) hbuf.c_m' (hframe.valid hbuf.valid_n)
    (hframe.valid hpkA) (hframe.valid hb) htag
  rw [hn', hpkA', hb', hvecA, hvecb] at hopened
  exact ⟨mem', mem'', hbox, hopen, hopened.message hboxed hzeros⟩

end Agreement

/-- Two parties derive their public keys. Then `crypto_scalarmult` and `crypto_box_beforenm` give
both the same secret, and what the first boxes for the second, the second opens. -/
theorem box_agreement {mem : Mem} {a b pkA pkB : Addr} (h : KeyBuffers mem a b pkA pkB) :
    ∃ mem₁ mem₂, Runs (cryptoScalarmultBase (some pkA) (some a)) mem 0 mem₁ ∧
      Runs (cryptoScalarmultBase (some pkB) (some b)) mem₁ 0 mem₂ ∧
      (∀ q, mem₂.Valid q 32 → ∃ memA memB,
        Runs (cryptoScalarmult (some q) (some a) (some pkB)) mem₂ 0 memA ∧
        Runs (cryptoScalarmult (some q) (some b) (some pkA)) mem₂ 0 memB ∧
        memA.vec q 32 = memB.vec q 32) ∧
      (∀ k, mem₂.Valid k 32 → ∃ memA memB,
        Runs (cryptoBoxBeforenm (some k) (some pkB) (some a)) mem₂ 0 memA ∧
        Runs (cryptoBoxBeforenm (some k) (some pkA) (some b)) mem₂ 0 memB ∧
        memA.vec k 32 = memB.vec k 32) ∧
      ∀ n m c m' (d : UInt64), BoxBuffers mem₂ pkA b n m c m' d.toNat → 32 ≤ d →
        d ≤ 256 * 1024 * 1024 → (∀ i < 32, mem₂.byte (m + i) = 0) → ∃ mem₃ mem₄,
          Runs (cryptoBox (some c) (some m) d (some n) (some pkB) (some a)) mem₂ 0 mem₃ ∧
          Runs (cryptoBoxOpen (some m') (some c) d (some n) (some pkA) (some b)) mem₃ 0 mem₄ ∧
          mem₄.bytes m' d.toNat = mem₂.bytes m d.toNat := by
  obtain ⟨mem₁, hA, hB⟩ := h.derive
  obtain ⟨hveca, hvecb, hvecA, hvecB⟩ := h.vec
  have hvalid : ∀ {p l}, mem.Valid p l → (withPublicKeys mem a b pkA pkB).Valid p l := fun hp => hp
  refine ⟨mem₁, _, hA, hB, fun q hq => ?_, fun k hk => ?_,
    fun n m c m' d hbuf hd hfits hzeros => ?_⟩
  · refine ⟨_, _, cryptoScalarmult_runs hq (hvalid h.valid_a) (hvalid h.valid_pkB),
      cryptoScalarmult_runs hq (hvalid h.valid_b) (hvalid h.valid_pkA), ?_⟩
    rw [Mem.vec_writeVec, Mem.vec_writeVec, hveca, hvecb, hvecA, hvecB, scalarmultBytes_agree]
  · refine ⟨_, _, cryptoBoxBeforenm_runs hk (hvalid h.valid_pkB) (hvalid h.valid_a),
      cryptoBoxBeforenm_runs hk (hvalid h.valid_pkA) (hvalid h.valid_b), ?_⟩
    rw [Mem.vec_writeVec, Mem.vec_writeVec, hveca, hvecb, hvecA, hvecB, boxKey_agree]
  · exact box_roundtrip hd hfits hbuf (hvalid h.valid_a) (hvalid h.valid_b) (hvalid h.valid_pkA)
      (hvalid h.valid_pkB) hveca hvecb hvecA hvecB hzeros

/-- Two secrets, the buffers of the public keys, the nonce, a padded message of 32 bytes and the
buffers of the box and of what is opened. -/
def boxMemory : Mem :=
  Mem.ofBytes [numberedBytes 1 32, numberedBytes 33 32, List.replicate 32 0, List.replicate 32 0,
    numberedBytes 65 24, List.replicate 32 0 ++ numberedBytes 89 32, List.replicate 64 0,
    List.replicate 64 0]

/-- The four key arrays of the example are valid and lie apart. -/
theorem boxMemory_keyBuffers : KeyBuffers boxMemory ⟨0, 0⟩ ⟨1, 0⟩ ⟨2, 0⟩ ⟨3, 0⟩ where
  valid_a := by decide
  valid_b := by decide
  valid_pkA := by decide
  valid_pkB := by decide
  a_pkA := Disjoint.of_obj_ne (by decide) _ _
  b_pkA := Disjoint.of_obj_ne (by decide) _ _
  a_pkB := Disjoint.of_obj_ne (by decide) _ _
  b_pkB := Disjoint.of_obj_ne (by decide) _ _
  pkA_pkB := Disjoint.of_obj_ne (by decide) _ _

/-- The buffers of the example hold a 64-byte box and lie apart. -/
theorem boxMemory_boxBuffers :
    BoxBuffers boxMemory ⟨2, 0⟩ ⟨1, 0⟩ ⟨4, 0⟩ ⟨5, 0⟩ ⟨6, 0⟩ ⟨7, 0⟩ 64 where
  valid_n := by decide
  valid_m := by decide
  valid_c := by decide
  valid_m' := by decide
  m_c := Disjoint.of_obj_ne (by decide) _ _
  c_m' := Disjoint.of_obj_ne (by decide) _ _
  n_c := Disjoint.of_obj_ne (by decide) _ _
  pkA_c := Disjoint.of_obj_ne (by decide) _ _
  b_c := Disjoint.of_obj_ne (by decide) _ _

/-- The two secrets agree on the box: the message of the bytes 89 to 120 arrives. -/
theorem box_agreement_numbered :
    ∃ mem₁ mem₂, Runs (cryptoScalarmultBase (some ⟨2, 0⟩) (some ⟨0, 0⟩)) boxMemory 0 mem₁ ∧
      Runs (cryptoScalarmultBase (some ⟨3, 0⟩) (some ⟨1, 0⟩)) mem₁ 0 mem₂ ∧ ∃ mem₃ mem₄,
        Runs (cryptoBox (some ⟨6, 0⟩) (some ⟨5, 0⟩) 64 (some ⟨4, 0⟩) (some ⟨3, 0⟩)
          (some ⟨0, 0⟩)) mem₂ 0 mem₃ ∧
        Runs (cryptoBoxOpen (some ⟨7, 0⟩) (some ⟨6, 0⟩) 64 (some ⟨4, 0⟩) (some ⟨2, 0⟩)
          (some ⟨1, 0⟩)) mem₃ 0 mem₄ ∧
        mem₄.bytes ⟨7, 0⟩ 64 = List.replicate 32 0 ++ numberedBytes 89 32 := by
  obtain ⟨mem₁, mem₂, hA, hB, -, -, hbox⟩ := box_agreement boxMemory_keyBuffers
  obtain ⟨mem₁', hA', hB'⟩ := boxMemory_keyBuffers.derive
  obtain ⟨-, rfl⟩ := hA.unique hA'
  obtain ⟨-, rfl⟩ := hB.unique hB'
  have hbuf := boxMemory_boxBuffers
  have hmessage : (withPublicKeys boxMemory ⟨0, 0⟩ ⟨1, 0⟩ ⟨2, 0⟩ ⟨3, 0⟩).bytes ⟨5, 0⟩ 64 =
      List.replicate 32 0 ++ numberedBytes 89 32 := by
    rw [withPublicKeys, Mem.writeVec,
      Mem.bytes_write_of_disjoint (Disjoint.of_obj_ne (by decide) _ _),
      Mem.writeVec, Mem.bytes_write_of_disjoint (Disjoint.of_obj_ne (by decide) _ _)]
    decide +kernel
  obtain ⟨mem₃, mem₄, hboxed, hopened, hsame⟩ := hbox ⟨4, 0⟩ ⟨5, 0⟩ ⟨6, 0⟩ ⟨7, 0⟩ 64
    ⟨hbuf.valid_n, hbuf.valid_m, hbuf.valid_c, hbuf.valid_m', hbuf.m_c, hbuf.c_m', hbuf.n_c,
      hbuf.pkA_c, hbuf.b_c⟩ (by decide) (by decide) fun i hi => by
    rw [withPublicKeys, Mem.writeVec, Mem.write_byte_of_obj_ne (by simp), Mem.writeVec,
      Mem.write_byte_of_obj_ne (by simp)]
    exact (by decide : ∀ i < 32, boxMemory.byte ((⟨5, 0⟩ : Addr) + i) = 0) i hi
  exact ⟨mem₁, _, hA, hB, mem₃, mem₄, hboxed, hopened, hsame.trans hmessage⟩

section Authenticity

variable {mem : Mem} {c m n k y x : Addr} {d : UInt64}

/-- The box of `d` bytes at `c` is long enough and carries the Poly1305 authenticator of its
body. -/
structure Authentic (mem : Mem) (c : Addr) (n : Vector UInt8 24) (k : Vector UInt8 32)
    (d : ℕ) : Prop where
  long : 32 ≤ d
  tag : leInt (mem.vec (c + 16) 16) =
    poly1305 (mem.bytes (c + 32) (d - 32)) (xsalsaPolyKey n k)

/-- The key of the code is the one of the specification. -/
theorem polyKey_eq (n : Vector UInt8 24) (k : Vector UInt8 32) :
    polyKey n k = xsalsaPolyKey n k := by
  refine Vector.ext fun i hi => ?_
  have hblock : i / 64 = 0 := by omega
  rw [polyKey, xsalsaPolyKey, Vector.getElem_ofFn, Vector.getElem_ofFn, xsalsaByte_eq, hblock]

/-- The authentic boxes are those whose tag the code accepts. -/
theorem authentic_iff {nonce : Vector UInt8 24} {key : Vector UInt8 32} {l : ℕ} :
    Authentic mem c nonce key l ↔ 32 ≤ l ∧ TagAccepted mem c nonce key l := by
  have htag : TagAccepted mem c nonce key l ↔
      leInt (mem.vec (c + 16) 16) =
        poly1305 (mem.bytes (c + 32) (l - 32)) (xsalsaPolyKey nonce key) := by
    rw [← leInt_onetimeauth, ← polyKey_eq]
    exact leInt_injective.eq_iff.symm
  rw [htag]
  exact ⟨fun h => ⟨h.long, h.tag⟩, fun h => ⟨h.1, h.2⟩⟩

/-- `crypto_secretbox_open` rejects every box that is not authentic, and then nothing has been
written. -/
theorem cryptoSecretboxOpen_unauthentic (hc : mem.Valid c d.toNat) (hn : mem.Valid n 24)
    (hk : mem.Valid k 32) (h : ¬ Authentic mem c (mem.vec n 24) (mem.vec k 32) d.toNat) :
    Runs (cryptoSecretboxOpen (some m) (some c) d (some n) (some k)) mem (-1) mem := by
  by_cases hd : 32 ≤ d
  · exact cryptoSecretboxOpen_rejects hd hc hn hk fun htag => h (authentic_iff.mpr ⟨hd, htag⟩)
  · exact cryptoSecretboxOpen_short hd

/-- So does `crypto_box_open`, under the shared key. -/
theorem cryptoBoxOpen_unauthentic (hc : mem.Valid c d.toNat) (hn : mem.Valid n 24)
    (hy : mem.Valid y 32) (hx : mem.Valid x 32)
    (h : ¬ Authentic mem c (mem.vec n 24) (boxKey (mem.vec y 32) (mem.vec x 32)) d.toNat) :
    Runs (cryptoBoxOpen (some m) (some c) d (some n) (some y) (some x)) mem (-1) mem := by
  have hframe := withBoxKey_frame mem y x
  have hsame : ¬ Authentic (withBoxKey mem y x) c ((withBoxKey mem y x).vec n 24)
      ((withBoxKey mem y x).vec ⟨mem.fresh, 0⟩ 32) d.toNat := fun h' => h <| by
    have hd := h'.long
    have hbytes : (withBoxKey mem y x).bytes (c + 32) (d.toNat - 32) = mem.bytes (c + 32)
        (d.toNat - 32) :=
      congrArg List.ofFn (funext fun i => withBoxKey_byte (hc.add (by omega)) i.isLt)
    have htag := h'.tag
    rw [withBoxKey_key, withBoxKey_vec hn, withBoxKey_vec (hc.add (by omega)), hbytes] at htag
    exact ⟨hd, htag⟩
  have hopen := cryptoSecretboxOpen_unauthentic (m := m) (hframe.valid (hc.alloc 32))
    (hframe.valid (hn.alloc 32)) (hframe.valid (mem.valid_alloc 32)) hsame
  have hzero := secureZero_runs (hframe.valid (mem.valid_alloc 32))
  have hrun : Runs (cryptoBoxOpen (some m) (some c) d (some n) (some y) (some x)) mem (-1)
      (((withBoxKey mem y x).write ⟨mem.fresh, 0⟩ 32 fun _ => 0).release mem) := by
    refine Runs.withLocal ((withBoxKey_runs hy hx).bind ?_)
    exact hopen.bind (hzero.bind (Runs.pure _ _))
  rwa [Mem.release_write_of_le le_rfl, withBoxKey, Mem.writeVec, Mem.release_write_of_le le_rfl,
    Mem.release_alloc] at hrun

/-- The two opening functions accept exactly the authentic boxes, and write nothing when they reject
one. -/
theorem open_authentic (hfits : d ≤ 256 * 1024 * 1024) (hm : mem.Valid m d.toNat)
    (hc : mem.Valid c d.toNat) (hdisjoint : Disjoint c d.toNat m d.toNat) (hn : mem.Valid n 24) :
    (∀ k, mem.Valid k 32 → ∃ ret mem',
      Runs (cryptoSecretboxOpen (some m) (some c) d (some n) (some k)) mem ret mem' ∧
        (ret = 0 ↔ Authentic mem c (mem.vec n 24) (mem.vec k 32) d.toNat) ∧
        (ret ≠ 0 → ret = -1 ∧ mem' = mem)) ∧
    ∀ y x, mem.Valid y 32 → mem.Valid x 32 → ∃ ret mem',
      Runs (cryptoBoxOpen (some m) (some c) d (some n) (some y) (some x)) mem ret mem' ∧
        (ret = 0 ↔ Authentic mem c (mem.vec n 24) (boxKey (mem.vec y 32) (mem.vec x 32)) d.toNat) ∧
        (ret ≠ 0 → ret = -1 ∧ mem' = mem) := by
  have hmc : 32 ≤ d.toNat → m ≠ c := fun hd => ne_of_disjoint hdisjoint.symm (by omega)
  refine ⟨fun k hk => ?_, fun y x hy hx => ?_⟩
  · by_cases h : Authentic mem c (mem.vec n 24) (mem.vec k 32) d.toNat
    · obtain ⟨hd, htag⟩ := authentic_iff.mp h
      obtain ⟨mem', hrun, -⟩ :=
        cryptoSecretboxOpen_opens hd hfits (hmc hd) hm hc hdisjoint hn hk htag
      exact ⟨0, mem', hrun, iff_of_true rfl h, fun hne => absurd rfl hne⟩
    · exact ⟨-1, mem, cryptoSecretboxOpen_unauthentic hc hn hk h, iff_of_false (by decide) h,
        fun _ => ⟨rfl, rfl⟩⟩
  · by_cases h : Authentic mem c (mem.vec n 24) (boxKey (mem.vec y 32) (mem.vec x 32)) d.toNat
    · obtain ⟨hd, htag⟩ := authentic_iff.mp h
      obtain ⟨mem', hrun, -⟩ := cryptoBoxOpen_opens hd hfits (hmc hd) hm hc hdisjoint hn hy hx htag
      exact ⟨0, mem', hrun, iff_of_true rfl h, fun hne => absurd rfl hne⟩
    · exact ⟨-1, mem, cryptoBoxOpen_unauthentic hc hn hy hx h, iff_of_false (by decide) h,
        fun _ => ⟨rfl, rfl⟩⟩

/-- A buffer for what is opened, a box of 64 bytes with the tag `tag` and the body 1 to 32, a nonce,
and two keys. -/
def taggedMemory (tag : Vector UInt8 16) : Mem :=
  (Mem.ofBytes [List.replicate 64 0, List.replicate 32 0 ++ numberedBytes 1 32, numberedBytes 33 24,
    numberedBytes 57 32, numberedBytes 89 32]).writeVec ((⟨1, 0⟩ : Addr) + 16) tag

/-- The nonce of this memory. -/
def taggedNonce : Vector UInt8 24 := Vector.ofFn fun i => UInt8.ofNat (33 + i.val)

/-- The first of its keys. -/
def taggedKey : Vector UInt8 32 := Vector.ofFn fun i => UInt8.ofNat (57 + i.val)

/-- The parts of this memory. -/
theorem taggedMemory_parts (tag : Vector UInt8 16) :
    (taggedMemory tag).vec ((⟨1, 0⟩ : Addr) + 16) 16 = tag ∧
      (taggedMemory tag).bytes ((⟨1, 0⟩ : Addr) + 32) ((64 : UInt64).toNat - 32) =
        numberedBytes 1 32 ∧
      (taggedMemory tag).vec ⟨2, 0⟩ 24 = taggedNonce ∧
        (taggedMemory tag).vec ⟨3, 0⟩ 32 = taggedKey ∧
      (taggedMemory tag).vec ⟨4, 0⟩ 32 = Vector.ofFn (fun i => UInt8.ofNat (89 + i.val)) := by
  refine ⟨Mem.vec_writeVec _ _ _, ?_, ?_, ?_, ?_⟩
  · rw [taggedMemory, Mem.writeVec, Mem.bytes_write_of_disjoint (Disjoint.of_le (by decide)).symm]
    decide +kernel
  · rw [taggedMemory, Mem.writeVec, Mem.vec_write_of_disjoint (Disjoint.of_obj_ne (by decide) _ _)]
    decide +kernel
  · rw [taggedMemory, Mem.writeVec, Mem.vec_write_of_disjoint (Disjoint.of_obj_ne (by decide) _ _)]
    decide +kernel
  · rw [taggedMemory, Mem.writeVec, Mem.vec_write_of_disjoint (Disjoint.of_obj_ne (by decide) _ _)]
    decide +kernel

/-- The shared key of the two keys. -/
def taggedSharedKey : Vector UInt8 32 :=
  boxKey taggedKey (Vector.ofFn fun i => UInt8.ofNat (89 + i.val))

/-- The tag of the body under a key. -/
def rightTag (key : Vector UInt8 32) : Vector UInt8 16 :=
  onetimeauth (numberedBytes 1 32) (polyKey taggedNonce key)

/-- A tag with another first byte. -/
def wrongTag (tag : Vector UInt8 16) : Vector UInt8 16 :=
  Vector.ofFn fun i => if i = 0 then tag.get i + 1 else tag.get i

/-- The tag under the first key, as a number. -/
theorem rightTag_taggedKey :
    rightTag taggedKey = ofNatLE 16 299055635071231153348561707291310459738 := by
  apply leInt_injective
  rw [rightTag, leInt_onetimeauth, polyKey_eq, ← leNat_cast, leNat_ofNatLE (by norm_num)]
  decide +kernel

/-- The two tags are different. -/
theorem wrongTag_ne (tag : Vector UInt8 16) : wrongTag tag ≠ tag := fun h => by
  have hfirst : (wrongTag tag).get 0 = tag.get 0 + 1 := Vector.getElem_ofFn (Nat.succ_pos 15)
  rw [h] at hfirst
  simp at hfirst

/-- The box of this memory is authentic exactly if its tag is the right one. -/
theorem taggedMemory_authentic_iff (tag : Vector UInt8 16) (key : Vector UInt8 32) :
    Authentic (taggedMemory tag) ⟨1, 0⟩ ((taggedMemory tag).vec ⟨2, 0⟩ 24) key (64 : UInt64).toNat ↔
      tag = rightTag key := by
  obtain ⟨htag, hbody, hnonce, -⟩ := taggedMemory_parts tag
  rw [authentic_iff, TagAccepted, htag, hbody, hnonce]
  exact and_iff_right (by decide)

/-- A box of 64 bytes with the right tag is opened by both functions. With another tag it is
rejected, and nothing is written. -/
theorem open_authentic_tagged :
    (∃ mem', Runs (cryptoSecretboxOpen (some ⟨0, 0⟩) (some ⟨1, 0⟩) 64 (some ⟨2, 0⟩) (some ⟨3, 0⟩))
      (taggedMemory (ofNatLE 16 299055635071231153348561707291310459738)) 0 mem') ∧
    Runs (cryptoSecretboxOpen (some ⟨0, 0⟩) (some ⟨1, 0⟩) 64 (some ⟨2, 0⟩) (some ⟨3, 0⟩))
      (taggedMemory (ofNatLE 16 299055635071231153348561707291310459739)) (-1)
      (taggedMemory (ofNatLE 16 299055635071231153348561707291310459739)) ∧
    (∃ mem', Runs (cryptoBoxOpen (some ⟨0, 0⟩) (some ⟨1, 0⟩) 64 (some ⟨2, 0⟩) (some ⟨3, 0⟩)
      (some ⟨4, 0⟩)) (taggedMemory (rightTag taggedSharedKey)) 0 mem') ∧
    Runs (cryptoBoxOpen (some ⟨0, 0⟩) (some ⟨1, 0⟩) 64 (some ⟨2, 0⟩) (some ⟨3, 0⟩) (some ⟨4, 0⟩))
      (taggedMemory (wrongTag (rightTag taggedSharedKey))) (-1)
      (taggedMemory (wrongTag (rightTag taggedSharedKey))) := by
  have hvalid : ∀ tag o k, (taggedMemory (Vector.replicate 16 0)).Valid ⟨o, 0⟩ k →
      (taggedMemory tag).Valid ⟨o, 0⟩ k :=
    fun _ _ _ h => h
  have hopen := fun tag => open_authentic (c := ⟨1, 0⟩) (m := ⟨0, 0⟩) (n := ⟨2, 0⟩) (d := 64)
    (by decide) (hvalid tag 0 _ (by decide)) (hvalid tag 1 _ (by decide))
    (Disjoint.of_obj_ne (by decide) _ _) (hvalid tag 2 _ (by decide))
  have hsecret : ∀ tag, ∃ ret mem',
      Runs (cryptoSecretboxOpen (some ⟨0, 0⟩) (some ⟨1, 0⟩) 64 (some ⟨2, 0⟩) (some ⟨3, 0⟩))
        (taggedMemory tag) ret mem' ∧ (ret = 0 ↔ tag = rightTag taggedKey) ∧
        (ret ≠ 0 → ret = -1 ∧ mem' = taggedMemory tag) := fun tag => by
    obtain ⟨ret, mem', hrun, hiff, hfail⟩ := (hopen tag).1 ⟨3, 0⟩ (hvalid tag 3 _ (by decide))
    rw [(taggedMemory_parts tag).2.2.2.1, taggedMemory_authentic_iff] at hiff
    exact ⟨ret, mem', hrun, hiff, hfail⟩
  have hbox : ∀ tag, ∃ ret mem',
      Runs (cryptoBoxOpen (some ⟨0, 0⟩) (some ⟨1, 0⟩) 64 (some ⟨2, 0⟩) (some ⟨3, 0⟩) (some ⟨4, 0⟩))
        (taggedMemory tag) ret mem' ∧ (ret = 0 ↔ tag = rightTag taggedSharedKey) ∧
        (ret ≠ 0 → ret = -1 ∧ mem' = taggedMemory tag) := fun tag => by
    obtain ⟨ret, mem', hrun, hiff, hfail⟩ := (hopen tag).2 ⟨3, 0⟩ ⟨4, 0⟩
      (hvalid tag 3 _ (by decide)) (hvalid tag 4 _ (by decide))
    rw [(taggedMemory_parts tag).2.2.2.1, (taggedMemory_parts tag).2.2.2.2,
      taggedMemory_authentic_iff] at hiff
    exact ⟨ret, mem', hrun, hiff, hfail⟩
  refine ⟨?_, ?_, ?_, ?_⟩
  · obtain ⟨ret, mem', hrun, hiff, -⟩ :=
      hsecret (ofNatLE 16 299055635071231153348561707291310459738)
    obtain rfl := hiff.mpr rightTag_taggedKey.symm
    exact ⟨mem', hrun⟩
  · obtain ⟨ret, mem', hrun, hiff, hfail⟩ :=
      hsecret (ofNatLE 16 299055635071231153348561707291310459739)
    obtain ⟨rfl, rfl⟩ := hfail fun hzero =>
      absurd ((hiff.mp hzero).trans rightTag_taggedKey) (by decide +kernel)
    exact hrun
  · obtain ⟨ret, mem', hrun, hiff, -⟩ := hbox (rightTag taggedSharedKey)
    obtain rfl := hiff.mpr rfl
    exact ⟨mem', hrun⟩
  · obtain ⟨ret, mem', hrun, hiff, hfail⟩ := hbox (wrongTag (rightTag taggedSharedKey))
    obtain ⟨rfl, rfl⟩ := hfail fun hzero => wrongTag_ne _ (hiff.mp hzero)
    exact hrun

end Authenticity

end TweetNacl
