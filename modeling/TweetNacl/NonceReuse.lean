import TweetNacl.Box
import TweetNacl.Poly1305Forgery

/-!
# Two boxes with one nonce

`crypto_box` derives the key stream and the authentication key from the shared secret and the nonce
alone. Two boxes with one nonce, in either direction between two parties, give the sum of their
messages away, and their tags leave few authentication keys. With one of these, what is known of one
message makes a box of every other message that `crypto_box_open` accepts.
-/

namespace TweetNacl

open Limbs Memory Salsa20

section Candidates

variable {body body' : List UInt8} {t t' : Vector UInt8 16} {k k' : Vector UInt8 32}

/-- The halves of the authentication keys under which two bodies have their tags, the first half
without the bits that do not count. -/
def candidates (body body' : List UInt8) (t t' : Vector UInt8 16) : Set (ℕ × ℤ) :=
  (fun k => (keyR k, keyS k)) '' (tagKeys body t ∩ tagKeys body' t')

/-- The first half and a tag determine the second half. -/
theorem keyS_eq_of_tagKeys (hk : k ∈ tagKeys body t) (hk' : k' ∈ tagKeys body t)
    (hr : keyR k = keyR k') :
    keyS k = keyS k' := by
  rw [(leNat_key k).2, (leNat_key k').2, mem_tagKeys_iff.mp hk, mem_tagKeys_iff.mp hk', hr]

/-- A candidate is determined by its first half. -/
theorem candidates_injOn : Set.InjOn Prod.fst (candidates body body' t t') := by
  rintro _ ⟨k, hk, rfl⟩ _ ⟨k', hk', rfl⟩ hr
  exact Prod.ext hr (keyS_eq_of_tagKeys hk.1 hk'.1 hr)

/-- There are at most eight candidates for each block of the longer body. -/
theorem ncard_candidates_le (hne : body ≠ body') :
    (candidates body body' t t').ncard ≤ max (blockCount body) (blockCount body') * 8 := by
  have hrange : Prod.fst '' candidates body body' t t' ⊆ (Finset.range (2 ^ 124) : Set ℕ) := by
    rintro _ ⟨_, ⟨k, -, rfl⟩, rfl⟩
    exact Finset.mem_coe.mpr (Finset.mem_range.mpr (keyR_parts k).2.2)
  obtain ⟨keys, hkeys⟩ := ((Finset.finite_toSet _).subset hrange).exists_finset_coe
  rw [← candidates_injOn.ncard_image, ← hkeys, Set.ncard_coe_finset]
  refine card_multipliers_le hne t t' keys fun r hr => ?_
  rw [← Finset.mem_coe, hkeys] at hr
  obtain ⟨_, ⟨k, hk, rfl⟩, rfl⟩ := hr
  exact ⟨k, hk, rfl⟩

/-- Only the two halves count for a tag. -/
theorem onetimeauth_of_halves (m : List UInt8) (hr : keyR k = keyR k') (hs : keyS k = keyS k') :
    onetimeauth m k = onetimeauth m k' := by
  apply leInt_injective
  rw [leInt_onetimeauth, leInt_onetimeauth, poly1305, poly1305, hr, hs]

end Candidates

section Forgery

/-- A body for the bytes `msg`, from the body of known bytes. -/
def forgeBody (body known msg : List UInt8) : List UInt8 :=
  List.ofFn fun i : Fin msg.length => body.getD i 0 ^^^ known.getD i 0 ^^^ msg.get i

/-- The box with that body and its tag under an authentication key. -/
def forgeBox (k : Vector UInt8 32) (body known msg : List UInt8) : List UInt8 :=
  List.replicate 16 0 ++ (onetimeauth (forgeBody body known msg) k).toList ++ forgeBody
    body known msg

/-- The buffers of a call of `crypto_box_open`. -/
structure BoxOpenBuffers (mem : Mem) (m c n y x : Addr) (d : ℕ) : Prop where
  valid_m : mem.Valid m d
  valid_c : mem.Valid c d
  valid_n : mem.Valid n 24
  valid_y : mem.Valid y 32
  valid_x : mem.Valid x 32
  c_m : Disjoint c d m d

/-- With the authentication key, every message that is not longer than the known one is boxed so
that `crypto_box_open` opens it under the nonce and the shared key. -/
def Forges (k : Vector UInt8 32) (body known : List UInt8) (nonce : Vector UInt8 24)
    (key : Vector UInt8 32) : Prop :=
  ∀ mem m c n y x (d : UInt64) msg, BoxOpenBuffers mem m c n y x d.toNat → d ≤ 256 * 1024 * 1024 →
    mem.vec n 24 = nonce → boxKey (mem.vec y 32) (mem.vec x 32) = key → msg.length ≤ known.length →
    mem.bytes c d.toNat = forgeBox k body known msg →
    ∃ mem', Runs (cryptoBoxOpen (some m) (some c) d (some n) (some y) (some x)) mem 0 mem' ∧
      mem'.bytes (m + 32) (d.toNat - 32) = msg

variable {k key : Vector UInt8 32} {nonce : Vector UInt8 24} {body known : List UInt8}

/-- A key with the halves of the authentication key forges, if the known bytes are those under the
key stream. -/
theorem forges_of_halves (hr : keyR k = keyR (polyKey nonce key))
    (hs : keyS k = keyS (polyKey nonce key))
    (hstream : ∀ i < known.length,
      body.getD i 0 ^^^ known.getD i 0 = xsalsaByte nonce key (32 + i)) :
    Forges k body known nonce key := by
  intro mem m c n y x d msg hbuf hfits hnonce hkey hknown hbytes
  have hlength : d.toNat = 16 + (16 + msg.length) := by
    have hlen := congrArg List.length hbytes
    simp only [Mem.length_bytes, forgeBox, forgeBody, List.length_append, List.length_replicate,
      Vector.length_toList, List.length_ofFn] at hlen
    omega
  have hd : 32 ≤ d := UInt64.le_iff_toNat_le.mpr (hlength ▸ by simp; omega)
  rw [hlength, Mem.bytes_append, Mem.bytes_append, Addr.add_add, forgeBox,
    ← List.append_assoc] at hbytes
  obtain ⟨hleft, hbody⟩ := List.append_inj' hbytes (by simp [forgeBody])
  obtain ⟨-, htag⟩ := List.append_inj' hleft (by simp)
  rw [← Mem.toList_vec] at htag
  have haccepted : TagAccepted mem c (mem.vec n 24) (boxKey (mem.vec y 32) (mem.vec x 32))
      d.toNat := by
    rw [TagAccepted, hnonce, hkey, Vector.toList_inj.mp htag, hlength,
        show 16 + (16 + msg.length) - 32 = msg.length by
      omega, hbody, onetimeauth_of_halves _ hr hs]
  obtain ⟨mem', hrun, hopened⟩ := cryptoBoxOpen_opens hd hfits
    (ne_of_disjoint hbuf.c_m.symm (by omega)) hbuf.valid_m hbuf.valid_c hbuf.c_m hbuf.valid_n
    hbuf.valid_y hbuf.valid_x haccepted
  refine ⟨mem', hrun, List.ext_getElem (by rw [Mem.length_bytes]; omega) fun i hi hi' => ?_⟩
  have hforged : mem.byte (c + (32 + i)) = (xsalsaByte nonce key (32 + i)) ^^^ msg[i] := by
    have hget := congrArg (fun l => l[i]?) hbody
    simp only [Mem.bytes, forgeBody, List.getElem?_ofFn, hi', dite_true, Option.some.injEq,
      Addr.add_add] at hget
    rw [← hstream i (by omega)]
    exact hget
  simp only [Mem.bytes, List.getElem_ofFn, Addr.add_add]
  rw [hopened.body (32 + i) (by omega) (by omega), hforged, hnonce, hkey, UInt8.xor_comm,
    ← UInt8.xor_assoc, UInt8.xor_self, UInt8.zero_xor]

end Forgery

section Reuse

/-- A call of `crypto_box` that has boxed the padded message of `d` bytes at `m` into the separate
buffer at `c`. -/
structure BoxCall (mem mem' : Mem) (c m n y x : Addr) (d : UInt64) : Prop where
  long : 32 ≤ d
  fits : d ≤ 256 * 1024 * 1024
  valid_c : mem.Valid c d.toNat
  valid_m : mem.Valid m d.toNat
  valid_n : mem.Valid n 24
  valid_y : mem.Valid y 32
  valid_x : mem.Valid x 32
  m_c : Disjoint m d.toNat c d.toNat
  padding : ∀ i < 32, mem.byte (m + i) = 0
  run : Runs (cryptoBox (some c) (some m) d (some n) (some y) (some x)) mem 0 mem'

variable {mem mem' mem₂ mem₂' : Mem} {c m n y x c₂ m₂ n₂ y₂ x₂ : Addr} {d d₂ : UInt64}

/-- A call boxes its message under the key of the two parties. -/
theorem BoxCall.boxed (h : BoxCall mem mem' c m n y x d) :
    Boxed mem mem' c m (mem.vec n 24) (boxKey (mem.vec y 32) (mem.vec x 32)) d.toNat := by
  have hlong : 32 ≤ d.toNat := h.long
  obtain ⟨mem'', hrun, hboxed, -⟩ :=
    cryptoBox_boxes h.long h.fits (ne_of_disjoint h.m_c.symm (by omega)) h.valid_c
    h.valid_m h.m_c h.valid_n h.valid_y h.valid_x h.padding
  rwa [(h.run.unique hrun).2]

/-- The authentication key is one under which the body has its tag. -/
theorem BoxCall.mem_tagKeys (h : BoxCall mem mem' c m n y x d) :
    polyKey (mem.vec n 24) (boxKey (mem.vec y 32) (mem.vec x 32)) ∈
      tagKeys (mem'.bytes (c + 32) (d.toNat - 32)) (mem'.vec (c + 16) 16) :=
  h.boxed.accepted.symm

/-- The key stream is what the body and the message differ by. -/
theorem BoxCall.stream (h : BoxCall mem mem' c m n y x d) {i : ℕ} (hi : i < d.toNat - 32) :
    (mem'.bytes (c + 32) (d.toNat - 32)).getD i 0 ^^^ (mem.bytes (m + 32) (d.toNat - 32)).getD i 0 =
      xsalsaByte (mem.vec n 24) (boxKey (mem.vec y 32) (mem.vec x 32)) (32 + i) := by
  have hget : ∀ (mem : Mem) (p : Addr),
      (mem.bytes (p + 32) (d.toNat - 32)).getD i 0 = mem.byte (p + (32 + i)) := fun mem p => by
    rw [List.getD_eq_getElem _ _ (by rwa [Mem.length_bytes])]
    simp only [Mem.bytes, List.getElem_ofFn, Addr.add_add]
  rw [hget, hget, h.boxed.body (32 + i) (by omega) (by omega), UInt8.xor_comm, ← UInt8.xor_assoc,
    UInt8.xor_self, UInt8.zero_xor]

/-- Different messages have different bodies under one nonce. -/
theorem BoxCall.body_ne (h : BoxCall mem mem' c m n y x d)
    (h₂ : BoxCall mem₂ mem₂' c₂ m₂ n₂ y₂ x₂ d₂) (hnonce : mem₂.vec n₂ 24 = mem.vec n 24)
    (hkey : boxKey (mem₂.vec y₂ 32) (mem₂.vec x₂ 32) = boxKey (mem.vec y 32) (mem.vec x 32))
    (hne : mem.bytes (m + 32) (d.toNat - 32) ≠ mem₂.bytes (m₂ + 32) (d₂.toNat - 32)) :
    mem'.bytes (c + 32) (d.toNat - 32) ≠ mem₂'.bytes (c₂ + 32) (d₂.toNat - 32) := by
  intro hbody
  have hlength : d.toNat - 32 = d₂.toNat - 32 := by
    have hlen := congrArg List.length hbody
    rwa [Mem.length_bytes, Mem.length_bytes] at hlen
  refine hne (List.ext_getElem (by rw [Mem.length_bytes, Mem.length_bytes, hlength])
    fun i hi hi₂ => ?_)
  have hi' : i < d.toNat - 32 := by rwa [Mem.length_bytes] at hi
  have hstream := h.stream hi'
  rw [← hnonce, ← hkey, ← h₂.stream (hlength ▸ hi'), hbody] at hstream
  rw [← List.getD_eq_getElem _ 0 hi, ← List.getD_eq_getElem _ 0 hi₂]
  exact (UInt8.xor_right_inj _).mp hstream

/-- Two boxes with one nonce and one shared key, of different messages: where they overlap they
differ as the messages do. At most eight authentication keys for each block carry both tags, up to
bits that do not count, and with one of them who knows the first message boxes every message of that
length so that `crypto_box_open` opens it. -/
theorem nonce_reuse_forges (h : BoxCall mem mem' c m n y x d)
    (h₂ : BoxCall mem₂ mem₂' c₂ m₂ n₂ y₂ x₂ d₂) (hnonce : mem₂.vec n₂ 24 = mem.vec n 24)
    (hkey : boxKey (mem₂.vec y₂ 32) (mem₂.vec x₂ 32) = boxKey (mem.vec y 32) (mem.vec x 32))
    (hne : mem.bytes (m + 32) (d.toNat - 32) ≠ mem₂.bytes (m₂ + 32) (d₂.toNat - 32)) :
    let body := mem'.bytes (c + 32) (d.toNat - 32)
    let body₂ := mem₂'.bytes (c₂ + 32) (d₂.toNat - 32)
    let keys := candidates body body₂ (mem'.vec (c + 16) 16) (mem₂'.vec (c₂ + 16) 16)
    (∀ i, 32 ≤ i → i < d.toNat → i < d₂.toNat →
      mem'.byte (c + i) ^^^ mem₂'.byte (c₂ + i) = mem.byte (m + i) ^^^ mem₂.byte (m₂ + i)) ∧
    keys.ncard ≤ max (blockCount body) (blockCount body₂) * 8 ∧
    ∃ halves ∈ keys, ∀ k, (keyR k, keyS k) = halves →
      Forges k body (mem.bytes (m + 32) (d.toNat - 32)) (mem.vec n 24)
      (boxKey (mem.vec y 32) (mem.vec x 32)) := by
  intro body body₂ keys
  refine ⟨fun i hi hid hid₂ => ?_, ncard_candidates_le (h.body_ne h₂ hnonce hkey hne), _,
    ⟨_, ⟨h.mem_tagKeys, ?_⟩, rfl⟩, fun k hk => ?_⟩
  · rw [h.boxed.body i hi hid, h₂.boxed.body i hi hid₂, hnonce, hkey]
    generalize xsalsaByte (mem.vec n 24) (boxKey (mem.vec y 32) (mem.vec x 32)) i = s
    rw [UInt8.xor_assoc, UInt8.xor_comm (mem₂.byte (m₂ + i)), ← UInt8.xor_assoc s, UInt8.xor_self,
      UInt8.zero_xor]
  · have hmem := h₂.mem_tagKeys
    rwa [hnonce, hkey] at hmem
  · obtain ⟨hr, hs⟩ := Prod.mk.inj hk
    exact forges_of_halves hr hs fun i hi => h.stream (by rwa [Mem.length_bytes] at hi)

end Reuse

section Example

/-- A message of 64 bytes with one byte after its padding, the keys, the nonce and the box in
separate objects. -/
def reusedNonce (b : UInt8) : Mem := (Mem.ofSizes [32, 32, 24, 64, 64]).write ⟨3, 32⟩ 1 fun _ => b

/-- Boxes of two messages under zero keys and the zero nonce. -/
theorem reusedNonce_call (b : UInt8) :
    ∃ mem', BoxCall (reusedNonce b) mem' ⟨4, 0⟩ ⟨3, 0⟩ ⟨2, 0⟩ ⟨0, 0⟩ ⟨1, 0⟩ 64 := by
  have hvalid : ∀ o k, (Mem.ofSizes [32, 32, 24, 64, 64]).Valid ⟨o, 0⟩ k →
      (reusedNonce b).Valid ⟨o, 0⟩ k :=
    fun _ _ h => h
  have hpadding : ∀ i < 32, (reusedNonce b).byte ((⟨3, 0⟩ : Addr) + i) = 0 := fun i hi => by
    rw [reusedNonce, Mem.write_byte_of_ne]
    · rfl
    · intro j _ heq
      have hoff : 0 + i = 32 + j := by simpa only [Addr.add_off] using congrArg Addr.off heq
      omega
  obtain ⟨mem', hrun, -, -⟩ := cryptoBox_boxes (d := 64) (by decide) (by decide) (by decide)
    (hvalid 4 64 (by decide)) (hvalid 3 64 (by decide)) (Disjoint.of_obj_ne (by decide) _ _)
    (hvalid 2 24 (by decide)) (hvalid 0 32 (by decide)) (hvalid 1 32 (by decide)) hpadding
  exact ⟨mem',
    by decide, by decide, hvalid 4 64 (by decide), hvalid 3 64 (by decide), hvalid 2 24 (by decide),
    hvalid 0 32 (by decide), hvalid 1 32 (by decide), Disjoint.of_obj_ne (by decide) _ _,
    hpadding, hrun⟩

/-- The messages with the bytes 0 and 1. -/
theorem nonce_reuse_forges_zero : ∃ mem' mem₂',
    BoxCall (reusedNonce 0) mem' ⟨4, 0⟩ ⟨3, 0⟩ ⟨2, 0⟩ ⟨0, 0⟩ ⟨1, 0⟩ 64 ∧
      BoxCall (reusedNonce 1) mem₂' ⟨4, 0⟩ ⟨3, 0⟩ ⟨2, 0⟩ ⟨0, 0⟩ ⟨1, 0⟩ 64 ∧
      mem'.byte ((⟨4, 0⟩ : Addr) + 32) ^^^ mem₂'.byte ((⟨4, 0⟩ : Addr) + 32) = 1 := by
  obtain ⟨mem', h⟩ := reusedNonce_call 0
  obtain ⟨mem₂', h₂⟩ := reusedNonce_call 1
  have hbyte : ∀ b, (reusedNonce b).byte ((⟨3, 0⟩ : Addr) + 32) = b :=
    fun b => Mem.write_byte (i := 0) (by norm_num)
  have hvec : ∀ b o k, o ≠ 3 →
      (reusedNonce b).vec ⟨o, 0⟩ k = (Mem.ofSizes [32, 32, 24, 64, 64]).vec ⟨o, 0⟩ k :=
    fun b o k ho => Mem.vec_write_of_disjoint (Disjoint.of_obj_ne ho _ _)
  have hsame : ∀ o k, o ≠ 3 → (reusedNonce 1).vec ⟨o, 0⟩ k = (reusedNonce 0).vec ⟨o, 0⟩ k :=
      fun o k ho => by
    rw [hvec 1 o k ho, hvec 0 o k ho]
  have hsum := (nonce_reuse_forges h h₂ (hsame 2 24 (by decide))
    (by rw [hsame 0 32 (by decide), hsame 1 32 (by decide)]) fun heq => ?_).1 32 le_rfl
    (by decide) (by decide)
  · refine ⟨mem', mem₂', h, h₂, ?_⟩
    rw [hsum, hbyte, hbyte]
    rfl
  · have hfirst := byte_of_bytes_eq heq (show 0 < (64 : UInt64).toNat - 32 by decide)
    rw [Addr.add_add, Nat.add_zero, hbyte, hbyte] at hfirst
    exact absurd hfirst (by decide)

end Example

end TweetNacl
