import TweetNacl.Lib.IteratedHash
import TweetNacl.Sha512Correct

/-!
# SHA-512 as an iterated hash

The blocks of a padded message go one after the other through the compression function. The length
in the last block makes a collision of `crypto_hash` one of the compression function; it does not
hide the chaining value, which is the hash, so that the hash of a message gives those of its
extensions.
-/

namespace TweetNacl.Sha512

open Fips180 IteratedHash

section Blocks

/-- The last byte of a number is its remainder modulo 256. -/
theorem bigEndianBytes_succ (n v : ℕ) :
    bigEndianBytes (n + 1) v = bigEndianBytes n (v / 256) ++ [UInt8.ofNat (v % 256)] := by
  rw [bigEndianBytes, List.ofFn_succ', List.concat_eq_append, bigEndianBytes]
  congr 1
  · refine congrArg List.ofFn (funext fun i => ?_)
    have hexp : n + 1 - 1 - i.castSucc.val = n - 1 - i.val + 1 := by
      have := i.isLt
      rw [Fin.val_castSucc]
      omega
    rw [hexp, pow_succ', Nat.div_div_eq_div_mul]
  · simp

/-- The bytes of a number give the number back. -/
theorem bigEndian_bigEndianBytes (n v : ℕ) : bigEndian (bigEndianBytes n v) = v % 256 ^ n := by
  induction n generalizing v with
  | zero => simp [bigEndianBytes, bigEndian, Nat.mod_one]
  | succ n ih =>
    rw [bigEndianBytes_succ, bigEndian_append, ih, UInt8.toNat_ofNat', Nat.mod_mod, pow_succ',
      Nat.mod_mul, add_comm]

/-- The length of a padded message. -/
theorem length_pad (m : List UInt8) :
    (pad m).length = m.length + 17 + (239 - m.length % 128) % 128 := by
  simp only [pad, List.length_append, List.length_singleton, List.length_replicate, bigEndianBytes,
    List.length_ofFn]
  omega

/-- The padded message is made of blocks. -/
theorem length_pad_eq (m : List UInt8) : (pad m).length = 128 * ((pad m).length / 128) := by
  rw [length_pad]
  omega

/-- No padded message is the end of another, because both end in their lengths. -/
theorem eq_of_pad_suffix {m m' : List UInt8} (hm : m.length < 2 ^ 64) (hm' : m'.length < 2 ^ 64)
    (h : pad m <:+ pad m') : m = m' := by
  obtain ⟨t, ht⟩ := h
  have hsize : ∀ v, (bigEndianBytes 16 v).length = 16 := fun v => List.length_ofFn
  have hlength : m.length = m'.length := by
    simp only [pad, ← List.append_assoc] at ht
    have hbytes := congrArg bigEndian (List.append_inj_right' ht (by rw [hsize, hsize]))
    rw [bigEndian_bigEndianBytes, bigEndian_bigEndianBytes] at hbytes
    omega
  have hnil : t = [] := by
    have hcount := congrArg List.length ht
    rw [List.length_append, length_pad, length_pad, hlength] at hcount
    exact List.eq_nil_of_length_eq_zero (by omega)
  subst hnil
  simp only [List.nil_append, pad, List.append_assoc] at ht
  exact List.append_inj_left ht hlength

/-- The blocks of a byte string. -/
def blocksOf (p : List UInt8) : List (List UInt8) :=
  (List.range (p.length / 128)).map fun k => (p.drop (128 * k)).take 128

/-- A fold over a range is a counted loop. -/
theorem foldl_range_eq_fold {σ : Type*} (f : ℕ → σ → σ) (n : ℕ) (z : σ) :
    (List.range n).foldl (fun z k => f k z) z = Nat.fold n (fun k _ z => f k z) z := by
  induction n with
  | zero => rfl
  | succ n ih => rw [List.range_succ, List.foldl_concat, ih, Nat.fold_succ]

/-- The loop of `crypto_hashblocks` goes through the blocks. -/
theorem hashblocksLoop_eq_foldl (z : Vector UInt64 8) (p : List UInt8) :
    hashblocksLoop z p = (blocksOf p).foldl hashBlock z := by
  rw [blocksOf, List.foldl_map, foldl_range_eq_fold fun k z =>
    hashBlock z ((p.drop (128 * k)).take 128), hashblocksLoop]
  refine Loops.fold_congr fun k hk z => ?_
  have hlen : 128 ≤ ((p.drop (128 * k)).take 128).length := by
    rw [List.length_take, List.length_drop]
    omega
  rw [← hashBlock_append z _ ((p.drop (128 * k)).drop 128) hlen, List.take_append_drop]

/-- The blocks of a string made of blocks are the string. -/
theorem flatten_blocksOf (p : List UInt8) :
    (blocksOf p).flatten = p.take (128 * (p.length / 128)) := by
  rw [blocksOf]
  induction p.length / 128 with
  | zero => rw [List.range_zero, List.map_nil, List.flatten_nil, Nat.mul_zero, List.take_zero]
  | succ n ih =>
    rw [List.range_succ, List.map_append, List.flatten_append, ih, List.map_singleton,
      List.flatten_singleton, Nat.mul_succ, List.take_add]

/-- The blocks that `crypto_hash` goes through. -/
def paddedBlocks (m : List UInt8) : List (List UInt8) := blocksOf (pad m)

/-- The blocks of a padded message are its bytes. -/
theorem flatten_paddedBlocks (m : List UInt8) : (paddedBlocks m).flatten = pad m := by
  rw [paddedBlocks, flatten_blocksOf, ← length_pad_eq, List.take_length]

/-- The blocks of a message do not end in those of another one. -/
theorem paddedBlocks_suffixFree : SuffixFree (fun m => m.length < 2 ^ 64) paddedBlocks := by
  intro m m' hm hm' h
  obtain ⟨t, ht⟩ := h
  refine eq_of_pad_suffix hm hm' ⟨t.flatten, ?_⟩
  rw [← flatten_paddedBlocks, ← flatten_paddedBlocks, ← ht, List.flatten_append]

end Blocks

section Hash

/-- The bytes determine the words. -/
theorem bytesOfWords_injective : Function.Injective bytesOfWords :=
  Function.LeftInverse.injective wordsOfBytes_bytesOfWords

/-- A hash from an initial value is the loop over the padded message. -/
theorem hashFrom_eq_hashblocksLoop (x : Vector UInt8 64) {m : List UInt8} (hm : m.length < 2 ^ 64) :
    hashFrom x m = bytesOfWords (hashblocksLoop (wordsOfBytes x) (pad m)) := by
  have hlen : (m.take (128 * (m.length / 128))).length = 128 * (m.length / 128) := by
    rw [List.length_take]
    omega
  rw [pad_eq hm, hashblocksLoop_append _ _ _ hlen, hashblocksLoop_take, hashFrom, cryptoHashblocks,
    cryptoHashblocks, wordsOfBytes_bytesOfWords]

/-- Different messages have different hashes, or a collision of the compression function is met on
the way: two different pairs of chaining value and block, with the same next chaining value. -/
theorem hash_ne_or_collide {m m' : List UInt8} (hm : m.length < 2 ^ 64) (hm' : m'.length < 2 ^ 64)
    (hne : m ≠ m') :
    hash m ≠ hash m' ∨ Collide hashBlock (wordsOfBytes iv) (paddedBlocks m) (paddedBlocks m') := by
  have hfold : ∀ {m : List UInt8}, m.length < 2 ^ 64 →
      hash m = bytesOfWords ((paddedBlocks m).foldl hashBlock (wordsOfBytes iv)) := fun hm => by
    rw [hash, hashFrom_eq_hashblocksLoop iv hm, hashblocksLoop_eq_foldl, paddedBlocks]
  rw [hfold hm, hfold hm', bytesOfWords_injective.ne_iff]
  exact paddedBlocks_suffixFree.foldl_ne_or_collide hm hm' hne

/-- A message of two blocks. -/
def twoBlocks : List UInt8 := (List.range 200).map fun i => UInt8.ofNat i

/-- A message of four blocks. -/
def fourBlocks : List UInt8 := (List.range 400).map fun i => UInt8.ofNat (i + 1)

/-- The example of two blocks has 200 bytes. -/
theorem length_twoBlocks : twoBlocks.length = 200 := by
  rw [twoBlocks, List.length_map, List.length_range]

/-- The example of four blocks has 400 bytes. -/
theorem length_fourBlocks : fourBlocks.length = 400 := by
  rw [fourBlocks, List.length_map, List.length_range]

/-- The statement for these two messages. -/
theorem hash_ne_or_collide_blocks :
    twoBlocks.length < 2 ^ 64 ∧ fourBlocks.length < 2 ^ 64 ∧ twoBlocks ≠ fourBlocks ∧
      (hash twoBlocks ≠ hash fourBlocks ∨
        Collide hashBlock (wordsOfBytes iv) (paddedBlocks twoBlocks)
        (paddedBlocks fourBlocks)) := by
  have htwo : twoBlocks.length < 2 ^ 64 := by
    rw [length_twoBlocks]
    decide
  have hfour : fourBlocks.length < 2 ^ 64 := by
    rw [length_fourBlocks]
    decide
  have hne : twoBlocks ≠ fourBlocks := fun h => by
    have hlength := congrArg List.length h
    rw [length_twoBlocks, length_fourBlocks] at hlength
    exact absurd hlength (by decide)
  exact ⟨htwo, hfour, hne, hash_ne_or_collide htwo hfour hne⟩

/-- The last blocks depend on the end of the message and on its length. -/
theorem lastBlocks_congr {l l' : List UInt8} (hl : l.length < 2 ^ 64)
    (hlength : l.length = l'.length)
    (h : l.drop (128 * (l.length / 128)) = l'.drop (128 * (l'.length / 128))) :
    lastBlocks l = lastBlocks l' := by
  have hlast : ∀ {l : List UInt8}, l.length < 2 ^ 64 →
      lastBlocks l = l.drop
      (128 * (l.length / 128)) ++
      ([0x80] ++ List.replicate ((239 - l.length % 128) % 128) 0 ++ bigEndianBytes 16
        (8 * l.length)) := by
    intro l hl
    apply (List.append_right_inj (l.take (128 * (l.length / 128)))).mp
    rw [← pad_eq hl, ← List.append_assoc, List.take_append_drop, pad]
    simp only [List.append_assoc]
  rw [hlast hl, hlast (hlength ▸ hl), h, hlength]

/-- The hash of an extension of a padded message, from the hash and the length of the message. -/
def extendHash (digest : Vector UInt8 64) (paddedLength : ℕ) (s : List UInt8) : Vector UInt8 64 :=
  cryptoHashblocks (cryptoHashblocks digest s) (lastBlocks (List.replicate paddedLength 0 ++ s))

/-- `crypto_hash` of a padded message with anything after it is computed without the message. -/
theorem hash_pad_append {m s : List UInt8} (h : (pad m ++ s).length < 2 ^ 64) :
    hash (pad m ++ s) = extendHash (hash m) (m.length + 17 + (239 - m.length % 128) % 128) s := by
  have hm : m.length < 2 ^ 64 := by
    rw [List.length_append, length_pad] at h
    omega
  have hdrop : ∀ {l : List UInt8}, l.length = (pad m).length →
      (l ++ s).drop (128 * ((l ++ s).length / 128)) = s.drop (128 * (s.length / 128)) :=
      fun {l} hl => by
    have hq := length_pad_eq m
    rw [List.drop_append, List.drop_eq_nil_of_le (by rw [List.length_append]; omega),
      List.nil_append]
    congr 1
    rw [List.length_append]
    omega
  have hreplicate : (List.replicate (pad m).length (0 : UInt8)).length = (pad m).length :=
    List.length_replicate
  have hlast : lastBlocks (pad m ++ s) = lastBlocks (List.replicate (pad m).length 0 ++ s) :=
    lastBlocks_congr h (by rw [List.length_append, List.length_append, hreplicate])
      ((hdrop rfl).trans (hdrop hreplicate).symm)
  have hstate : cryptoHashblocks iv (pad m ++ s) = cryptoHashblocks (hash m) s := by
    rw [cryptoHashblocks, cryptoHashblocks, hash, hashFrom_eq_hashblocksLoop iv hm,
      wordsOfBytes_bytesOfWords, hashblocksLoop_append _ _ _ (length_pad_eq m)]
  rw [← length_pad, extendHash, ← hlast, ← hstate]
  rfl

/-- The hash of two blocks with their padding and four more, from the hash of the two. -/
theorem hash_pad_append_blocks : (pad twoBlocks ++ fourBlocks).length < 2 ^ 64 ∧
    hash (pad twoBlocks ++ fourBlocks) = extendHash (hash twoBlocks) 256 fourBlocks := by
  have hlen : (pad twoBlocks ++ fourBlocks).length < 2 ^ 64 := by
    rw [List.length_append, length_pad, length_twoBlocks, length_fourBlocks]
    decide
  have hextend := hash_pad_append hlen
  rw [length_twoBlocks] at hextend
  exact ⟨hlen, hextend⟩

end Hash

end TweetNacl.Sha512
