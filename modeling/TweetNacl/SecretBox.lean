import TweetNacl.Poly1305Correct
import TweetNacl.Stream
import TweetNacl.Verify

/-!
# The secret-key box

`crypto_secretbox` encrypts with the XSalsa20 key stream and authenticates the result with
Poly1305 under the first 32 key stream bytes. Neither it nor `crypto_secretbox_open` looks
at the return code of its inner `crypto_stream_xor`, which refuses long messages and an
output buffer that is the input. The boxes are what they should be exactly on the calls
that are not refused.
-/

namespace TweetNacl

open Memory Limbs

section Code

/-- `crypto_onetimeauth_verify`. -/
def cryptoOnetimeauthVerify (h : Addr) (m : Ptr) (n : UInt64) (k : Ptr) : Exec Int32 :=
  withLocal 16 fun x => do
    let ret ← cryptoOnetimeauth (some x) m n k
    if ret ≠ 0 then pure (-1) else cryptoVerify16 h x

/-- `crypto_secretbox`. -/
def cryptoSecretbox (c m : Ptr) (d : UInt64) (n k : Ptr) : Exec Int32 :=
  match c, m, n, k with
  | some c, some m, some n, some k =>
    if d < 32 then pure (-1)
    else do
      let _ ← cryptoStreamXor (some c) (some m) d n k
      let _ ← cryptoOnetimeauth (some (c + 16)) (some (c + 32)) (d - 32) (some c)
      forN 16 fun i => store (c + i) 0
      pure 0
  | _, _, _, _ => pure (-1)

/-- `crypto_secretbox_open`. -/
def cryptoSecretboxOpen (m c : Ptr) (d : UInt64) (n k : Ptr) : Exec Int32 :=
  withLocal 32 fun x =>
    match m, c, n, k with
    | some m, some c, some n, some k =>
      if d < 32 then pure (-1)
      else do
        let _ ← cryptoStream (some x) 32 n k
        let ret ← cryptoOnetimeauthVerify (c + 16) (some (c + 32)) (d - 32) (some x)
        if ret ≠ 0 then pure (-1)
        else do
          let _ ← cryptoStreamXor (some m) (some c) d n k
          forN 32 fun i => store (m + i) 0
          pure 0
    | _, _, _, _ => pure (-1)

end Code

section Verify

/-- The verification compares with the authenticator of the message and leaves the memory as it
was. -/
theorem cryptoOnetimeauthVerify_runs {mem : Mem} {h m k : Addr} {n : UInt64} (hh : mem.Valid h 16)
    (hm : mem.Valid m n.toNat) (hk : mem.Valid k 32) :
    Runs (cryptoOnetimeauthVerify h (some m) n (some k)) mem
      (if mem.vec h 16 = onetimeauth (mem.bytes m n.toNat) (mem.vec k 32) then 0 else -1) mem := by
  have hauth := cryptoOnetimeauth_runs (mem.valid_alloc 16) (hm.alloc 16) (hk.alloc 16)
  have hverify := cryptoVerify16_runs (show Mem.Valid ((mem.alloc 16).writeVec ⟨mem.fresh, 0⟩
    (onetimeauth (mem.bytes m n.toNat) (mem.vec k 32))) h 16 from hh.alloc 16) (mem.valid_alloc 16)
  have htag : ((mem.alloc 16).writeVec ⟨mem.fresh, 0⟩
      (onetimeauth (mem.bytes m n.toNat) (mem.vec k 32))).vec h 16 = mem.vec h 16 :=
    Mem.vec_write_of_disjoint (hh.disjoint_fresh le_rfl 16)
  rw [Mem.vec_writeVec, htag] at hverify
  have hrun := Runs.withLocal (f := fun x => do
    let ret ← cryptoOnetimeauth (some x) (some m) n (some k)
    if ret ≠ 0 then pure (-1) else cryptoVerify16 h x) (hauth.bind hverify)
  rwa [Mem.writeVec, Mem.release_write_of_le le_rfl, Mem.release_alloc] at hrun

end Verify

/-- The authentication key of a box: the first 32 bytes of the key stream. -/
def polyKey (n : Vector UInt8 24) (k : Vector UInt8 32) : Vector UInt8 32 :=
  Vector.ofFn fun i => xsalsaByte n k i.val

/-- What a box of `d` bytes at `c` is to hold, for the padded message that was at `m`: zeros, the
authenticator, and the message under the key stream. -/
structure Boxed (mem mem' : Mem) (c m : Addr) (n : Vector UInt8 24) (k : Vector UInt8 32) (d : ℕ) :
    Prop where
  zeros : ∀ i < 16, mem'.byte (c + i) = 0
  tag : leInt (mem'.vec (c + 16) 16) = poly1305 (mem'.bytes (c + 32) (d - 32)) (polyKey n k)
  body : ∀ i, 32 ≤ i → i < d → mem'.byte (c + i) = mem.byte (m + i) ^^^ xsalsaByte n k i

/-- What the opened message at `m` is to hold, for the box that was at `c`. -/
structure Opened (mem mem' : Mem) (m c : Addr) (n : Vector UInt8 24) (k : Vector UInt8 32) (d : ℕ) :
    Prop where
  zeros : ∀ i < 32, mem'.byte (m + i) = 0
  body : ∀ i, 32 ≤ i → i < d → mem'.byte (m + i) = mem.byte (c + i) ^^^ xsalsaByte n k i

/-- A call of `crypto_secretbox` that returns 0 has encrypted: its inner stream call has not failed
and the buffer holds the box. -/
def SecretboxSound (mem : Mem) (c m n k : Addr) (d : UInt64) : Prop :=
  ∀ mem', Runs (cryptoSecretbox (some c) (some m) d (some n) (some k)) mem 0 mem' →
    (∀ mem'', ¬ Runs (cryptoStreamXor (some c) (some m) d n k) mem (-1) mem'') ∧
      Boxed mem mem' c m (mem.vec n 24) (mem.vec k 32) d.toNat

/-- A call of `crypto_secretbox_open` that returns 0 has decrypted. -/
def SecretboxOpenSound (mem : Mem) (m c n k : Addr) (d : UInt64) : Prop :=
  ∀ mem', Runs (cryptoSecretboxOpen (some m) (some c) d (some n) (some k)) mem 0 mem' →
    (∀ mem'', ¬ Runs (cryptoStreamXor (some m) (some c) d n k) mem (-1) mem'') ∧
      Opened mem mem' m c (mem.vec n 24) (mem.vec k 32) d.toNat

/-- The box carries the authenticator of its body. -/
def TagAccepted (mem : Mem) (c : Addr) (n : Vector UInt8 24) (k : Vector UInt8 32) (d : ℕ) : Prop :=
  mem.vec (c + 16) 16 = onetimeauth (mem.bytes (c + 32) (d - 32)) (polyKey n k)

instance (mem : Mem) (c : Addr) (n : Vector UInt8 24) (k : Vector UInt8 32) (d : ℕ) :
    Decidable (TagAccepted mem c n k d) :=
  inferInstanceAs (Decidable (_ = _))

section Seal

variable {mem mem' : Mem} {c m n k : Addr} {d : UInt64}

/-- The length behind the header does not wrap. -/
theorem toNat_sub_32 (hd : 32 ≤ d) : (d - 32).toNat = d.toNat - 32 :=
  UInt64.toNat_sub_of_le _ _ hd

/-- The buffer after the stream call, with the authenticator and the leading zeros stored. -/
def finishBox (mem : Mem) (c : Addr) (d : ℕ) : Mem :=
  (mem.writeVec (c + 16) (onetimeauth (mem.bytes (c + 32) (d - 32)) (mem.vec c 32))).write c
    16 fun _ => 0

/-- Whatever the stream call returns, `crypto_secretbox` returns 0. -/
theorem cryptoSecretbox_of_stream {ret : Int32} (hd : 32 ≤ d) (hc : mem'.Valid c d.toNat)
    (h : Runs (cryptoStreamXor (some c) (some m) d n k) mem ret mem') :
    Runs (cryptoSecretbox (some c) (some m) d (some n) (some k)) mem 0
      (finishBox mem' c d.toNat) := by
  have hd' : 32 ≤ d.toNat := hd
  have hauth := cryptoOnetimeauth_runs (m := c + 32) (k := c) (n := d - 32)
    (hc.add (by omega) : mem'.Valid (c + 16) 16) (hc.add (by rw [toNat_sub_32 hd]; omega))
    (hc.mono (by omega))
  have hzeros := Runs.fill (Mem.valid_write.mpr (hc.mono (k := 16) (by omega)) :
    (mem'.writeVec (c + 16)
      (onetimeauth (mem'.bytes (c + 32) (d - 32).toNat) (mem'.vec c 32))).Valid c 16)
    fun _ => 0
  rw [toNat_sub_32 hd] at hauth hzeros
  simp only [cryptoSecretbox, if_neg (UInt64.not_lt.mpr hd)]
  exact h.bind (hauth.bind (hzeros.bind (Runs.pure _ _)))

/-- The finished buffer: zeros, the authenticator, and the body the stream call left. -/
theorem finishBox_byte (mem : Mem) (c : Addr) (d : ℕ) :
    (∀ i < 16, (finishBox mem c d).byte (c + i) = 0) ∧
      (finishBox mem c d).vec (c + 16) 16 =
        onetimeauth (mem.bytes (c + 32) (d - 32)) (mem.vec c 32) ∧
      ∀ i, 32 ≤ i → (finishBox mem c d).byte (c + i) = mem.byte (c + i) := by
  refine ⟨fun i hi => Mem.write_byte hi, ?_, fun i hi => ?_⟩
  · have hdisjoint : Disjoint (c + 16) 16 c 16 := (Disjoint.of_le (p := c) (i := 0) (by omega)).symm
    rw [finishBox, Mem.vec_write_of_disjoint hdisjoint, Mem.vec_writeVec]
  · rw [finishBox, Mem.write_byte_of_ne, Mem.writeVec, Mem.write_byte_of_ne]
    · intro j hj
      rw [Addr.add_add, ne_eq, Addr.add_inj]
      omega
    · intro j hj
      rw [ne_eq, Addr.add_inj]
      omega

/-- A call that is not refused boxes the message. -/
theorem cryptoSecretbox_boxes (hd : 32 ≤ d) (hfits : StreamFits d) (hmc : c ≠ m)
    (hc : mem.Valid c d.toNat) (hm : mem.Valid m d.toNat) (hdisjoint : Disjoint m d.toNat c d.toNat)
    (hn : mem.Valid n 24) (hk : mem.Valid k 32) (hzeros : ∀ i < 32, mem.byte (m + i) = 0) :
    ∃ mem', Runs (cryptoSecretbox (some c) (some m) d (some n) (some k)) mem 0 mem' ∧
      Boxed mem mem' c m (mem.vec n 24) (mem.vec k 32) d.toNat ∧ mem.Frame mem' c d.toNat := by
  have hd' : 32 ≤ d.toNat := hd
  obtain ⟨memc, hstream, hframe, hbyte⟩ : ∃ memc,
      Runs (cryptoStreamXor (some c) (some m) d n k) mem 0 memc ∧ mem.Frame memc c d.toNat ∧
        ∀ i < d.toNat, memc.byte (c + i) =
          mem.byte (m + i) ^^^ xsalsaByte (mem.vec n 24) (mem.vec k 32) i :=
    ⟨_, cryptoStreamXor_runs hfits (Ne.symm hmc) hc hm hdisjoint hn hk, Mem.frame_write _ _ _ _,
      fun i hi => Mem.write_byte hi⟩
  obtain ⟨hfirst, htag, hbody⟩ := finishBox_byte memc c d.toNat
  have hkey : memc.vec c 32 = polyKey (mem.vec n 24) (mem.vec k 32) := by
    refine Vector.ext fun i hi => ?_
    rw [Mem.getElem_vec, hbyte i (by omega), hzeros i hi, UInt8.zero_xor, polyKey,
      Vector.getElem_ofFn]
  have hbytes : memc.bytes (c + 32) (d.toNat - 32) =
      (finishBox memc c d.toNat).bytes (c + 32) (d.toNat - 32) := by
    refine congrArg List.ofFn (funext fun i => ?_)
    rw [Addr.add_add, hbody _ (by omega)]
  refine ⟨_, cryptoSecretbox_of_stream hd (hframe.valid hc) hstream,
    ⟨hfirst, ?_, fun i hi hid => ?_⟩, (hframe.write_add (by omega)).write (by omega)⟩
  · rw [htag, leInt_onetimeauth, hkey, hbytes]
  · rw [hbody i hi, hbyte i hid]

/-- `crypto_secretbox` is sound on the calls whose stream call is not refused, and on no other. -/
theorem secretboxSound_iff (hd : 32 ≤ d) (hc : mem.Valid c d.toNat) (hm : mem.Valid m d.toNat)
    (hdisjoint : c ≠ m → Disjoint m d.toNat c d.toNat) (hn : mem.Valid n 24) (hk : mem.Valid k 32)
    (hzeros : ∀ i < 32, mem.byte (m + i) = 0) :
    SecretboxSound mem c m n k d ↔ StreamFits d ∧ c ≠ m := by
  constructor
  · intro hsound
    by_contra hrefused
    have hd0 : d ≠ 0 := by
      rintro rfl
      exact absurd hd (by decide)
    have hstream := cryptoStreamXor_refuses (c := c) (m := m) (d := d) hn hk (by tauto)
    exact (hsound _ (cryptoSecretbox_of_stream hd hc hstream)).1 _ hstream
  · rintro ⟨hfits, hmc⟩ mem' hrun
    obtain ⟨mem'', hrun', hboxed, -⟩ :=
      cryptoSecretbox_boxes hd hfits hmc hc hm (hdisjoint hmc) hn hk hzeros
    obtain ⟨-, rfl⟩ := hrun.unique hrun'
    refine ⟨fun mem'' hminus => ?_, hboxed⟩
    have hstream := cryptoStreamXor_runs hfits (Ne.symm hmc) hc hm (hdisjoint hmc) hn hk
    exact absurd (hstream.unique hminus).1 (by decide)

end Seal

section Unseal

variable {mem mem' : Mem} {c m n k : Addr} {d : UInt64}

/-- The memory of `crypto_secretbox_open` after its call of `crypto_stream`. -/
def withPolyKey (mem : Mem) (n k : Addr) : Mem :=
  (mem.alloc 32).write ⟨mem.fresh, 0⟩ 32 fun i => xsalsaByte (mem.vec n 24) (mem.vec k 32) i

/-- The local key leaves every object valid. -/
theorem valid_withPolyKey {p : Addr} {l : ℕ} (h : (mem.alloc 32).Valid p l) :
    (withPolyKey mem n k).Valid p l := Mem.valid_write.mpr h

/-- An object that was valid before the call is read as before. -/
theorem withPolyKey_vec {p : Addr} {l : ℕ} (h : mem.Valid p l) :
    (withPolyKey mem n k).vec p l = mem.vec p l :=
  Mem.vec_write_of_disjoint (h.disjoint_fresh le_rfl 32)

/-- The local array holds the authentication key. -/
theorem withPolyKey_key : (withPolyKey mem n k).vec ⟨mem.fresh, 0⟩ 32 =
    polyKey (mem.vec n 24) (mem.vec k 32) := by
  refine Vector.ext fun i hi => ?_
  rw [Mem.getElem_vec, withPolyKey, Mem.write_byte hi, polyKey, Vector.getElem_ofFn]

/-- The verification of `crypto_secretbox_open`. -/
theorem secretboxOpen_verify (hd : 32 ≤ d) (hc : mem.Valid c d.toNat) :
    Runs (cryptoOnetimeauthVerify (c + 16) (some (c + 32)) (d - 32) (some ⟨mem.fresh, 0⟩))
      (withPolyKey mem n k)
      (if TagAccepted mem c (mem.vec n 24) (mem.vec k 32) d.toNat then 0 else -1)
        (withPolyKey mem n k) := by
  have hd' : 32 ≤ d.toNat := hd
  have htag : mem.Valid (c + 16) 16 := hc.add (by omega)
  have hbody : mem.Valid (c + 32) (d.toNat - 32) := hc.add (by omega)
  have hbytes : (withPolyKey mem n k).bytes (c + 32) (d.toNat - 32) =
      mem.bytes (c + 32) (d.toNat - 32) :=
    Mem.bytes_write_of_disjoint (hbody.disjoint_fresh le_rfl 32)
  have hlen : (withPolyKey mem n k).Valid (c + 32) (d - 32).toNat := by
    rw [toNat_sub_32 hd]
    exact valid_withPolyKey (hbody.alloc 32)
  have hverify :=
    cryptoOnetimeauthVerify_runs (valid_withPolyKey (n := n) (k := k) (htag.alloc 32)) hlen
    (valid_withPolyKey (mem.valid_alloc 32))
  rw [toNat_sub_32 hd, withPolyKey_vec htag, withPolyKey_key, hbytes] at hverify
  exact hverify

/-- The call of `crypto_stream` into the local key. -/
theorem secretboxOpen_key (hn : mem.Valid n 24) (hk : mem.Valid k 32) :
    Runs (cryptoStream (some ⟨mem.fresh, 0⟩) 32 n k) (mem.alloc 32) 0 (withPolyKey mem n k) :=
  cryptoStream_runs (d := 32) (by decide) (mem.valid_alloc 32) (hn.alloc 32) (hk.alloc 32)

/-- A box whose authenticator is wrong is rejected; nothing is written. -/
theorem cryptoSecretboxOpen_rejects (hd : 32 ≤ d) (hc : mem.Valid c d.toNat) (hn : mem.Valid n 24)
    (hk : mem.Valid k 32) (htag : ¬ TagAccepted mem c (mem.vec n 24) (mem.vec k 32) d.toNat) :
    Runs (cryptoSecretboxOpen (some m) (some c) d (some n) (some k)) mem (-1) mem := by
  have hverify := secretboxOpen_verify (n := n) (k := k) hd hc
  rw [if_neg htag] at hverify
  have hrelease : (withPolyKey mem n k).release mem = mem := by
    rw [withPolyKey, Mem.release_write_of_le le_rfl, Mem.release_alloc]
  have hrun : Runs (cryptoSecretboxOpen (some m) (some c) d (some n) (some k)) mem (-1)
      ((withPolyKey mem n k).release mem) := by
    refine Runs.withLocal ?_
    simp only [if_neg (UInt64.not_lt.mpr hd)]
    refine (secretboxOpen_key hn hk).bind (hverify.bind ?_)
    exact Runs.pure _ _
  rwa [hrelease] at hrun

/-- A box without room for its zeros and its authenticator is rejected before anything is read. -/
theorem cryptoSecretboxOpen_short (hd : ¬ 32 ≤ d) :
    Runs (cryptoSecretboxOpen (some m) (some c) d (some n) (some k)) mem (-1) mem := by
  have hrun : Runs (cryptoSecretboxOpen (some m) (some c) d (some n) (some k)) mem (-1)
      ((mem.alloc 32).release mem) := by
    refine Runs.withLocal ?_
    simp only [if_pos (UInt64.not_le.mp hd)]
    exact Runs.pure _ _
  rwa [Mem.release_alloc] at hrun

/-- Once the authenticator is accepted, `crypto_secretbox_open` returns 0 whatever the stream call
returns. -/
theorem cryptoSecretboxOpen_of_stream {ret : Int32} (hd : 32 ≤ d) (hc : mem.Valid c d.toNat)
    (hn : mem.Valid n 24) (hk : mem.Valid k 32)
    (htag : TagAccepted mem c (mem.vec n 24) (mem.vec k 32) d.toNat)
    (hm : mem'.Valid m 32)
    (h : Runs (cryptoStreamXor (some m) (some c) d n k) (withPolyKey mem n k) ret mem') :
    Runs (cryptoSecretboxOpen (some m) (some c) d (some n) (some k)) mem 0
      ((mem'.write m 32 fun _ => 0).release mem) := by
  have hverify := secretboxOpen_verify (n := n) (k := k) hd hc
  rw [if_pos htag] at hverify
  refine Runs.withLocal ?_
  simp only [if_neg (UInt64.not_lt.mpr hd)]
  refine (secretboxOpen_key hn hk).bind (hverify.bind ?_)
  exact h.bind ((Runs.fill hm fun _ => 0).bind (Runs.pure _ _))

/-- A call that is accepted and not refused opens the box. -/
theorem cryptoSecretboxOpen_opens (hd : 32 ≤ d) (hfits : StreamFits d) (hmc : m ≠ c)
    (hm : mem.Valid m d.toNat) (hc : mem.Valid c d.toNat) (hdisjoint : Disjoint c d.toNat m d.toNat)
    (hn : mem.Valid n 24) (hk : mem.Valid k 32)
    (htag : TagAccepted mem c (mem.vec n 24) (mem.vec k 32) d.toNat) :
    ∃ mem', Runs (cryptoSecretboxOpen (some m) (some c) d (some n) (some k)) mem 0 mem' ∧
      Opened mem mem' m c (mem.vec n 24) (mem.vec k 32) d.toNat ∧ mem.Frame mem' m d.toNat := by
  have hd' : 32 ≤ d.toNat := hd
  obtain ⟨f, hstream, hf⟩ :
    ∃ f, Runs (cryptoStreamXor (some m) (some c) d n k) (withPolyKey mem n k) 0
      ((withPolyKey mem n k).write m d.toNat f) ∧
        ∀ i < d.toNat, f i = mem.byte (c + i) ^^^ xsalsaByte (mem.vec n 24) (mem.vec k 32) i := by
    have h := cryptoStreamXor_runs hfits (Ne.symm hmc)
      (valid_withPolyKey (n := n) (k := k) (hm.alloc 32))
      (hc.alloc 32) hdisjoint (hn.alloc 32) (hk.alloc 32)
    rw [withPolyKey_vec hn, withPolyKey_vec hk] at h
    refine ⟨_, h, fun i hi => ?_⟩
    have hfresh := hc.disjoint_fresh (q := ⟨mem.fresh, 0⟩) le_rfl 32
    rw [withPolyKey, Mem.write_byte_of_ne fun j hj => hfresh i hi j hj, Mem.alloc_byte]
  have hrelease : (((withPolyKey mem n k).write m d.toNat f).write m 32 fun _ => 0).release mem =
      (mem.write m d.toNat f).write m 32 fun _ => 0 := by
    rw [Mem.release_write_of_valid (hm.mono hd'), Mem.release_write_of_valid hm, withPolyKey,
      Mem.release_write_of_le le_rfl, Mem.release_alloc]
  have hrun := cryptoSecretboxOpen_of_stream hd hc hn hk htag
    (Mem.valid_write.mpr (valid_withPolyKey ((hm.mono hd').alloc 32))) hstream
  rw [hrelease] at hrun
  refine ⟨_, hrun, ⟨fun i hi => Mem.write_byte hi, fun i hi hid => ?_⟩,
    (Mem.frame_write _ _ _ _).write hd'⟩
  rw [Mem.write_byte_of_ne, Mem.write_byte hid, hf i hid]
  intro j hj
  rw [ne_eq, Addr.add_inj]
  omega

/-- `crypto_secretbox_open` is sound on the boxes it rejects and on the calls whose stream call is
not refused, and on no other. -/
theorem secretboxOpenSound_iff (hd : 32 ≤ d) (hm : mem.Valid m d.toNat) (hc : mem.Valid c d.toNat)
    (hdisjoint : c ≠ m → Disjoint m d.toNat c d.toNat) (hn : mem.Valid n 24) (hk : mem.Valid k 32) :
    SecretboxOpenSound mem m c n k d ↔
      (StreamFits d ∧ c ≠ m) ∨ ¬ TagAccepted mem c (mem.vec n 24) (mem.vec k 32) d.toNat := by
  constructor
  · intro hsound
    by_contra hrefused
    have htag : TagAccepted mem c (mem.vec n 24) (mem.vec k 32) d.toNat := by tauto
    have hd0 : d ≠ 0 := by
      rintro rfl
      exact absurd hd (by decide)
    have hrefuses : ¬ StreamFits d ∨ d ≠ 0 ∧ c = m := by tauto
    have hinner := cryptoStreamXor_refuses (c := m) (m := c) (d := d)
      (valid_withPolyKey (n := n) (k := k) (hn.alloc 32)) (hk.alloc 32) hrefuses
    have hm32 : (withPolyKey mem n k).Valid m 32 :=
      valid_withPolyKey ((hm.mono (k := 32) hd).alloc 32)
    have hrun := cryptoSecretboxOpen_of_stream hd hc hn hk htag hm32 hinner
    exact (hsound _ hrun).1 _ (cryptoStreamXor_refuses hn hk hrefuses)
  · rintro (⟨hfits, hmc⟩ | hbad) mem' hrun
    · by_cases htag : TagAccepted mem c (mem.vec n 24) (mem.vec k 32) d.toNat
      swap
      · exact absurd (hrun.unique (cryptoSecretboxOpen_rejects hd hc hn hk htag)).1 (by decide)
      obtain ⟨mem'', hrun', hopened, -⟩ := cryptoSecretboxOpen_opens hd hfits (Ne.symm hmc) hm hc
        (hdisjoint hmc).symm hn hk htag
      obtain ⟨-, rfl⟩ := hrun.unique hrun'
      refine ⟨fun mem'' hminus => ?_, hopened⟩
      have hstream := cryptoStreamXor_runs hfits hmc hm hc (hdisjoint hmc).symm hn hk
      exact absurd (hstream.unique hminus).1 (by decide)
    · exact absurd (hrun.unique (cryptoSecretboxOpen_rejects hd hc hn hk hbad)).1 (by decide)

end Unseal

section Bijection

variable {mem mem' mem'' : Mem} {c m n k c' m' n' k' : Addr}

/-- Nonempty disjoint ranges start at different addresses. -/
theorem ne_of_disjoint {p q : Addr} {l : ℕ} (h : Disjoint p l q l) (hl : 0 < l) : p ≠ q := by
  rintro rfl
  exact h 0 hl 0 hl rfl

/-- A box is accepted under the key it was made with. -/
theorem Boxed.accepted {nonce : Vector UInt8 24} {key : Vector UInt8 32} {l : ℕ}
    (h : Boxed mem mem' c m nonce key l) : TagAccepted mem' c nonce key l := by
  apply leInt_injective
  rw [h.tag, leInt_onetimeauth]

/-- Opening a box gives the padded message back. -/
theorem Opened.message {nonce : Vector UInt8 24} {key : Vector UInt8 32} {l : ℕ}
    (h : Opened mem' mem'' m' c nonce key l) (hboxed : Boxed mem mem' c m nonce key l)
    (hzeros : ∀ i < 32, mem.byte (m + i) = 0) : mem''.bytes m' l = mem.bytes m l := by
  refine congrArg List.ofFn (funext fun i => ?_)
  by_cases hi : i.val < 32
  · rw [h.zeros i hi, hzeros i hi]
  · rw [h.body i (by omega) i.isLt, hboxed.body i (by omega) i.isLt, UInt8.xor_assoc,
      UInt8.xor_self, UInt8.xor_zero]

/-- A box is where its bytes are. -/
theorem Boxed.moved {nonce : Vector UInt8 24} {key : Vector UInt8 32} {l : ℕ}
    (h : Boxed mem mem' c m nonce key l)
    (hc : mem''.bytes c' l = mem'.bytes c l) (hl : 32 ≤ l) : Boxed mem mem'' c' m nonce key l := by
  have hbyte : ∀ i < l, mem''.byte (c' + i) = mem'.byte (c + i) :=
    fun i hi => byte_of_bytes_eq hc hi
  refine ⟨fun i hi => ?_, ?_, fun i hi hil => ?_⟩
  · rw [hbyte i (by omega), h.zeros i hi]
  · have hvec : mem''.vec (c' + 16) 16 = mem'.vec (c + 16) 16 :=
      congrArg Vector.ofFn (funext fun i => by rw [Addr.add_add, Addr.add_add, hbyte _ (by omega)])
    have hbytes : mem''.bytes (c' + 32) (l - 32) = mem'.bytes (c + 32) (l - 32) :=
      congrArg List.ofFn (funext fun i => by rw [Addr.add_add, Addr.add_add, hbyte _ (by omega)])
    rw [hvec, hbytes, h.tag]
  · rw [hbyte i hil, h.body i hi hil]

/-- Opening an accepted box and boxing the message again gives the same bytes. -/
theorem Boxed.bytes_eq {memA memB : Mem} {nonce : Vector UInt8 24} {key : Vector UInt8 32} {l : ℕ}
    (h : Boxed memA memB c' m' nonce key l) (hzeros : ∀ i < 16, mem.byte (c + i) = 0)
    (haccepted : TagAccepted mem c nonce key l)
    (hbody : ∀ i, 32 ≤ i → i < l →
      memA.byte (m' + i) = mem.byte (c + i) ^^^ xsalsaByte nonce key i) :
    memB.bytes c' l = mem.bytes c l := by
  have hbody' : ∀ i, 32 ≤ i → i < l → memB.byte (c' + i) = mem.byte (c + i) := fun i hi hil => by
    rw [h.body i hi hil, hbody i hi hil, UInt8.xor_assoc, UInt8.xor_self, UInt8.xor_zero]
  have hbytes : memB.bytes (c' + 32) (l - 32) = mem.bytes (c + 32) (l - 32) :=
    congrArg List.ofFn (funext fun i => by
      rw [Addr.add_add, Addr.add_add]
      exact hbody' _ (Nat.le_add_right _ _) (by omega))
  have htag : memB.vec (c' + 16) 16 = mem.vec (c + 16) 16 := by
    apply leInt_injective
    rw [haccepted, h.tag, leInt_onetimeauth, hbytes]
  refine congrArg List.ofFn (funext fun i => ?_)
  by_cases hi : i.val < 16
  · rw [h.zeros i hi, hzeros i hi]
  · by_cases hi' : i.val < 32
    · have hlist := congrArg Vector.toList htag
      rw [Mem.toList_vec, Mem.toList_vec] at hlist
      have hbyte := byte_of_bytes_eq hlist (show i.val - 16 < 16 by omega)
      rwa [Addr.add_add, Addr.add_add, show 16 + (i.val - 16) = i.val by omega] at hbyte
    · exact hbody' i (by omega) i.isLt

/-- The buffers of a box: `m` holds the padded message, `c` the box. -/
structure SecretboxBuffers (mem : Mem) (c m n k : Addr) (d : ℕ) : Prop where
  valid_c : mem.Valid c d
  valid_m : mem.Valid m d
  valid_n : mem.Valid n 24
  valid_k : mem.Valid k 32
  m_c : Disjoint m d c d

end Bijection

/-- Boxing and opening are inverse to each other, between the messages with 32 leading zeros and the
accepted boxes with 16. The box or the message may have been moved in between. -/
theorem secretbox_bijective {mem : Mem} {c m n k : Addr} {d : UInt64} (hd : 32 ≤ d)
    (hfits : d ≤ 256 * 1024 * 1024) (h : SecretboxBuffers mem c m n k d.toNat) :
    ((∀ i < 32, mem.byte (m + i) = 0) → ∃ mem₁,
        Runs (cryptoSecretbox (some c) (some m) d (some n) (some k)) mem 0 mem₁ ∧
        mem.Frame mem₁ c d.toNat ∧
        (∀ i < 16, mem₁.byte (c + i) = 0) ∧
        ∀ mem₂ c' m' n' k', SecretboxBuffers mem₂ c' m' n' k' d.toNat →
        mem₂.vec n' 24 = mem.vec n 24 →
          mem₂.vec k' 32 = mem.vec k 32 → mem₂.bytes c' d.toNat = mem₁.bytes c d.toNat → ∃ mem₃,
            Runs (cryptoSecretboxOpen (some m') (some c') d (some n') (some k')) mem₂ 0 mem₃ ∧
            mem₃.bytes m' d.toNat = mem.bytes m d.toNat) ∧
      ((∀ i < 16, mem.byte (c + i) = 0) → ∀ mem₁,
        Runs (cryptoSecretboxOpen (some m) (some c) d (some n) (some k)) mem 0 mem₁ →
        ∀ mem₂ c' m' n' k', SecretboxBuffers mem₂ c' m' n' k' d.toNat →
        mem₂.vec n' 24 = mem.vec n 24 →
          mem₂.vec k' 32 = mem.vec k 32 → mem₂.bytes m' d.toNat = mem₁.bytes m d.toNat → ∃ mem₃,
            Runs (cryptoSecretbox (some c') (some m') d (some n') (some k')) mem₂ 0 mem₃ ∧
            mem₃.bytes c' d.toNat = mem.bytes c d.toNat) := by
  have hpos : 0 < d.toNat := Nat.lt_of_lt_of_le (by decide) (show 32 ≤ d.toNat from hd)
  refine ⟨fun hzeros => ?_, fun hzeros mem₁ hopen mem₂ c' m' n' k' h₂ hn hk hm => ?_⟩
  · obtain ⟨mem₁, hbox, hboxed, hframe⟩ :=
      cryptoSecretbox_boxes hd hfits (ne_of_disjoint h.m_c.symm hpos) h.valid_c
      h.valid_m h.m_c h.valid_n h.valid_k hzeros
    refine ⟨mem₁, hbox, hframe, hboxed.zeros, fun mem₂ c' m' n' k' h₂ hn hk hc => ?_⟩
    have hboxed₂ := hboxed.moved hc hd
    rw [← hn, ← hk] at hboxed₂
    obtain ⟨mem₃, hopen, hopened, -⟩ :=
      cryptoSecretboxOpen_opens hd hfits (ne_of_disjoint h₂.m_c hpos) h₂.valid_m
      h₂.valid_c h₂.m_c.symm h₂.valid_n h₂.valid_k hboxed₂.accepted
    exact ⟨mem₃, hopen, hopened.message hboxed₂ hzeros⟩
  · have haccepted : TagAccepted mem c (mem.vec n 24) (mem.vec k 32) d.toNat := by
      by_contra hrejected
      exact absurd (hopen.unique
        (cryptoSecretboxOpen_rejects hd h.valid_c h.valid_n h.valid_k hrejected)).1
        (by decide)
    obtain ⟨mem₁', hopen', hopened, -⟩ :=
      cryptoSecretboxOpen_opens hd hfits (ne_of_disjoint h.m_c hpos) h.valid_m
      h.valid_c h.m_c.symm h.valid_n h.valid_k haccepted
    obtain ⟨-, rfl⟩ := hopen.unique hopen'
    have hbyte : ∀ i < d.toNat, mem₂.byte (m' + i) = mem₁.byte (m + i) :=
      fun i hi => byte_of_bytes_eq hm hi
    obtain ⟨mem₃, hbox, hboxed, -⟩ :=
      cryptoSecretbox_boxes hd hfits (ne_of_disjoint h₂.m_c.symm hpos) h₂.valid_c
      h₂.valid_m h₂.m_c h₂.valid_n h₂.valid_k fun i hi => by
        rw [hbyte i (Nat.lt_of_lt_of_le hi hd), hopened.zeros i hi]
    rw [hn, hk] at hboxed
    exact ⟨mem₃, hbox, hboxed.bytes_eq hzeros haccepted fun i hi hid =>
      by rw [hbyte i hid, hopened.body i hi hid]⟩

/-- A zero message of 64 bytes is boxed, and the box opened into another buffer. -/
theorem secretbox_bijective_zero :
    ∃ mem₁ mem₂,
      Runs (cryptoSecretbox (some ⟨0, 0⟩) (some ⟨1, 0⟩) 64 (some ⟨2, 0⟩) (some ⟨3, 0⟩))
        (Mem.ofSizes [64, 64, 24, 32, 64]) 0 mem₁ ∧
      Runs (cryptoSecretboxOpen (some ⟨4, 0⟩) (some ⟨0, 0⟩) 64 (some ⟨2, 0⟩) (some ⟨3, 0⟩))
        mem₁ 0 mem₂ ∧
      mem₂.bytes ⟨4, 0⟩ 64 = (Mem.ofSizes [64, 64, 24, 32, 64]).bytes ⟨1, 0⟩ 64 := by
  have hbuffers : SecretboxBuffers (Mem.ofSizes [64, 64, 24, 32, 64]) ⟨0, 0⟩ ⟨1, 0⟩ ⟨2, 0⟩ ⟨3, 0⟩
      (64 : UInt64).toNat :=
    ⟨by decide, by decide, by decide, by decide, Disjoint.of_obj_ne (by decide) _ _⟩
  obtain ⟨mem₁, hbox, hframe, -, hopen⟩ :=
    (secretbox_bijective (by decide) (by decide) hbuffers).1 fun _ _ => rfl
  obtain ⟨mem₂, hrun, hbytes⟩ := hopen mem₁ ⟨0, 0⟩ ⟨4, 0⟩ ⟨2, 0⟩ ⟨3, 0⟩
    ⟨hframe.valid (by decide), hframe.valid (by decide), hframe.valid (by decide),
      hframe.valid (by decide), Disjoint.of_obj_ne (by decide) _ _⟩
    (hframe.vec_of_disjoint (Disjoint.of_obj_ne (by decide) _ _))
    (hframe.vec_of_disjoint (Disjoint.of_obj_ne (by decide) _ _)) rfl
  exact ⟨mem₁, mem₂, hbox, hrun, hbytes⟩

/-- With `c` and `m` the same buffer or apart, the two functions return 0 only on success exactly
when their stream call is not refused or, for opening, the box is rejected before it. -/
theorem secretbox_sound_iff {mem : Mem} {c m n k : Addr} {d : UInt64} (hd : 32 ≤ d)
    (hc : mem.Valid c d.toNat) (hm : mem.Valid m d.toNat)
    (hlayout : c ≠ m → Disjoint m d.toNat c d.toNat) (hn : mem.Valid n 24) (hk : mem.Valid k 32) :
    ((∀ i < 32, mem.byte (m + i) = 0) → (SecretboxSound mem c m n k d ↔ StreamFits d ∧ c ≠ m)) ∧
      (SecretboxOpenSound mem m c n k d ↔
        (StreamFits d ∧ c ≠ m) ∨ ¬ TagAccepted mem c (mem.vec n 24) (mem.vec k 32) d.toNat) :=
  ⟨fun hzeros => secretboxSound_iff hd hc hm hlayout hn hk hzeros,
    secretboxOpenSound_iff hd hm hc hlayout hn hk⟩

/-- Both are sound on distinct buffers of 64 bytes. -/
theorem secretbox_sound_distinct :
    SecretboxSound (Mem.ofSizes [64, 64, 24, 32]) ⟨0, 0⟩ ⟨1, 0⟩ ⟨2, 0⟩ ⟨3, 0⟩ 64 ∧
      SecretboxOpenSound (Mem.ofSizes [64, 64, 24, 32]) ⟨1, 0⟩ ⟨0, 0⟩ ⟨2, 0⟩ ⟨3, 0⟩ 64 := by
  have h := secretbox_sound_iff (c := ⟨0, 0⟩) (m := ⟨1, 0⟩) (n := ⟨2, 0⟩) (k := ⟨3, 0⟩)
    (d := 64) (by decide) (by decide : (Mem.ofSizes [64, 64, 24, 32]).Valid ⟨0, 0⟩ 64) (by decide)
    (fun _ => Disjoint.of_obj_ne (by decide) _ _) (by decide) (by decide)
  exact ⟨(h.1 fun _ _ => rfl).mpr ⟨by decide, by decide⟩, h.2.mpr (Or.inl ⟨by decide, by decide⟩)⟩

/-- Encrypting 33 zero bytes in place returns 0 although the stream call has returned −1, and leaves
the message byte in the buffer. -/
theorem secretbox_in_place_not_boxed :
    (∀ i < 32, (Mem.ofSizes [33, 24, 32]).byte ((⟨0, 0⟩ : Addr) + i) = 0) ∧
      Runs (cryptoStreamXor (some ⟨0, 0⟩) (some ⟨0, 0⟩) 33 ⟨1, 0⟩ ⟨2, 0⟩)
        (Mem.ofSizes [33, 24, 32]) (-1) (Mem.ofSizes [33, 24, 32]) ∧
      ∃ mem', Runs (cryptoSecretbox (some ⟨0, 0⟩) (some ⟨0, 0⟩) 33 (some ⟨1, 0⟩) (some ⟨2, 0⟩))
          (Mem.ofSizes [33, 24, 32]) 0 mem' ∧
        ¬ Boxed (Mem.ofSizes [33, 24, 32]) mem' ⟨0, 0⟩ ⟨0, 0⟩
        ((Mem.ofSizes [33, 24, 32]).vec ⟨1, 0⟩ 24)
          ((Mem.ofSizes [33, 24, 32]).vec ⟨2, 0⟩ 32) 33 := by
  have hstream := cryptoStreamXor_refuses (c := ⟨0, 0⟩) (m := ⟨0, 0⟩) (n := ⟨1, 0⟩)
    (k := ⟨2, 0⟩) (d := 33) (by decide : (Mem.ofSizes [33, 24, 32]).Valid ⟨1, 0⟩ 24) (by decide)
    (Or.inr ⟨by decide, rfl⟩)
  refine ⟨fun _ _ => rfl, hstream, _,
    cryptoSecretbox_of_stream (by decide) (by decide) hstream, fun hboxed => ?_⟩
  have hbody := hboxed.body 32 le_rfl (by decide)
  rw [(finishBox_byte _ _ _).2.2 32 le_rfl] at hbody
  have hkeystream : xsalsaByte ((Mem.ofSizes [33, 24, 32]).vec ⟨1, 0⟩ 24)
      ((Mem.ofSizes [33, 24, 32]).vec ⟨2, 0⟩ 32) 32 ≠ 0 := by decide +kernel
  refine hkeystream ?_
  simpa [Mem.ofSizes] using hbody.symm

end TweetNacl
