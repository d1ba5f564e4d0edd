import Mathlib.Algebra.Ring.Nat
import TweetNacl.Lib.AccessLog

/-!
# The string copy

`safe_strcpy` of `secure_utils.c` copies a string into a buffer of a given size, cut off if it does
not fit. Its loop stops at the end of the string or of the buffer, and the character at which it
stopped tells them apart.
-/

namespace TweetNacl.SecureUtils

open Memory

section Code

/-- The loop of `safe_strcpy` with at most `limit` characters left: the index at which it stops. -/
def strcpyLoop (dest src : Addr) (i : ℕ) : ℕ → Logged ℕ
  | 0 => pure i
  | limit + 1 => do
    let c ← Logged.load (src + i)
    if c = 0 then pure i
    else do
      let c ← Logged.load (src + i)
      Logged.store (dest + i) c
      strcpyLoop dest src (i + 1) limit

/-- `safe_strcpy`. -/
def safeStrcpy (dest : Ptr) (destSize : UInt64) (src : Ptr) : Logged Int32 :=
  match dest, src with
  | some dest, some src =>
    if destSize = 0 then pure (-1)
    else do
      let i ← strcpyLoop dest src 0 (destSize - 1).toNat
      Logged.store (dest + i) 0
      let c ← Logged.load (src + i)
      pure (if c = 0 then 0 else 1)
  | _, _ => pure (-1)

end Code

/-- The memory holds a string of `len` characters with its terminator. -/
structure IsString (m : Mem) (src : Addr) (len : ℕ) : Prop where
  valid : m.Valid src (len + 1)
  char_ne : ∀ i < len, m.byte (src + i) ≠ 0
  terminator : m.byte (src + len) = 0

/-- A string has one length. -/
theorem IsString.unique {m : Mem} {src : Addr} {len len' : ℕ} (h : IsString m src len)
    (h' : IsString m src len') :
    len = len' := by
  rcases Nat.lt_trichotomy len len' with hlt | heq | hgt
  · exact absurd h.terminator (h'.char_ne len hlt)
  · exact heq
  · exact absurd h'.terminator (h.char_ne len' hgt)

section Copy

variable {m : Mem} {dest src : Addr} {len size : ℕ}

/-- The memory after the first `i` characters have been copied. -/
def copied (m : Mem) (dest src : Addr) (i : ℕ) : Mem := m.write dest i fun j => m.byte (src + j)

/-- The memory after the terminator has been written as well. -/
def terminated (m : Mem) (dest src : Addr) (i : ℕ) : Mem :=
  m.write dest (i + 1) fun j => if j < i then m.byte (src + j) else 0

/-- A further pass copies a further byte. -/
theorem copied_succ (m : Mem) (dest src : Addr) (i : ℕ) :
    (copied m dest src i).write (dest + i) 1 (fun _ => m.byte (src + i)) =
      copied m dest src (i + 1) :=
  Mem.write_succ m dest i fun j => m.byte (src + j)

/-- The terminator follows the copied bytes. -/
theorem copied_terminated (m : Mem) (dest src : Addr) (i : ℕ) :
    (copied m dest src i).write (dest + i) 1 (fun _ => 0) = terminated m dest src i := by
  have hcopied : copied m dest src i = m.write dest i fun j =>
      if j < i then m.byte (src + j) else 0 :=
    Mem.write_congr fun j hj => (if_pos hj).symm
  have hwrite := Mem.write_succ m dest i fun j => if j < i then m.byte (src + j) else 0
  rwa [if_neg (Nat.lt_irrefl i), ← hcopied] at hwrite

/-- What is read next has not been overwritten. -/
def Ahead (dest src : Addr) (len : ℕ) : Prop := ∀ i ≤ len, ∀ j < i, src + i ≠ dest + j

/-- The loop copies up to the end of the string or to the limit, whichever comes first. -/
theorem strcpyLoop_logs (hsrc : IsString m src len) (hdest : m.Valid dest size)
    (hahead : Ahead dest src len) (limit : ℕ) {i : ℕ} (hi : i ≤ len) (hlimit : i + limit ≤ size) :
    ∃ log, Logs (strcpyLoop dest src i limit) (copied m dest src i) (min len (i + limit))
      (copied m dest src (min len (i + limit))) log ∧
      Within (InRange src (len + 1)) (InRange dest size) log := by
  induction limit generalizing i with
  | zero =>
    rw [Nat.add_zero, Nat.min_eq_right hi]
    exact ⟨[], Logs.pure i _, Within.nil⟩
  | succ limit ih =>
    have hload := Logs.load (m := copied m dest src i) (p := src + i) (hsrc.valid.add (by omega))
    rw [show (copied m dest src i).byte (src + i) = m.byte (src + i) from Mem.write_byte_of_ne
      (hahead i hi)] at hload
    have hreads : Within (InRange src (len + 1)) (InRange dest size) [.load (src + i)] :=
      Within.load ⟨i, by omega, rfl⟩
    rcases Nat.eq_or_lt_of_le hi with rfl | hlt
    · -- the terminator ends the loop
      rw [Nat.min_eq_left (by omega)]
      refine ⟨_, hload.bind ?_, hreads.append Within.nil⟩
      rw [if_pos hsrc.terminator]
      exact Logs.pure i _
    · obtain ⟨log, hrest, hwithin⟩ := ih (i := i + 1) (by omega) (by omega)
      have hstore := Logs.store (m := copied m dest src i) (p := dest + i) (hdest.add (by omega))
        (m.byte (src + i))
      rw [copied_succ] at hstore
      rw [show i + (limit + 1) = i + 1 + limit by omega]
      refine ⟨_, hload.bind ?_,
        hreads.append (hreads.append ((Within.store ⟨i, by omega, rfl⟩).append hwithin))⟩
      rw [if_neg (hsrc.char_ne i hlt)]
      exact hload.bind (hstore.bind hrest)

/-- A call, with the character that is read again after the terminator has been written. -/
theorem safeStrcpy_logs {destSize : UInt64} (hsrc : IsString m src len)
    (hdest : m.Valid dest destSize.toNat) (hsize : 1 ≤ destSize) (hahead : Ahead dest src len)
    {k : ℕ} (hk : k = min len (destSize.toNat - 1)) :
    ∃ log, Logs (safeStrcpy (some dest) destSize (some src)) m
      (if (terminated m dest src k).byte (src + k) = 0 then 0 else 1)
      (terminated m dest src k) log ∧
      Within (InRange src (len + 1)) (InRange dest destSize.toNat) log := by
  have hpos : 1 ≤ destSize.toNat := UInt64.le_iff_toNat_le.mp hsize
  have hne : destSize ≠ 0 := by
    rintro rfl
    exact absurd hpos (by decide)
  have hlimit : (destSize - 1).toNat = destSize.toNat - 1 := UInt64.toNat_sub_of_le _ _ hsize
  obtain ⟨log, hloop, hwithin⟩ :=
    strcpyLoop_logs hsrc hdest hahead (destSize - 1).toNat (Nat.zero_le len)
    (by omega)
  rw [Nat.zero_add, hlimit, ← hk, copied, Mem.write_zero, ← hlimit] at hloop
  have hstore := Logs.store (m := copied m dest src k) (p := dest + k) (hdest.add (by omega)) 0
  rw [copied_terminated] at hstore
  have hload := Logs.load (m := terminated m dest src k) (p := src + k) (hsrc.valid.add (by omega))
  refine ⟨_, ?_, hwithin.append ((Within.store ⟨k, by omega, rfl⟩).append
    ((Within.load ⟨k, by omega, rfl⟩).append Within.nil))⟩
  simp only [safeStrcpy, if_neg hne]
  exact hloop.bind (hstore.bind (hload.bind (Logs.pure _ _)))

/-- A destination outside the string is behind what is read. -/
theorem ne_of_outside (hout : ∀ i ≤ len, dest ≠ src + i) {i j : ℕ} (hi : i ≤ len) (hj : j ≤ i) :
    src + i ≠ dest + j := fun heq => by
  have hobj := congrArg Addr.obj heq
  have hoff := congrArg Addr.off heq
  rw [Addr.add_obj, Addr.add_obj] at hobj
  rw [Addr.add_off, Addr.add_off] at hoff
  refine hout (i - j) (by omega) (Addr.ext_parts hobj.symm ?_)
  rw [Addr.add_off]
  omega

/-- The copy is exact if the destination does not point into the string. The buffer may still run
into the string from below; other overlaps are what the header has `safe_memmove` for. -/
theorem safeStrcpy_exact {destSize : UInt64} (hsrc : IsString m src len)
    (hdest : m.Valid dest destSize.toNat)
    (hsize : 1 ≤ destSize) (hout : ∀ i ≤ len, dest ≠ src + i) :
    ∃ m' log, Logs (safeStrcpy (some dest) destSize (some src)) m
      (if len < destSize.toNat then 0 else 1) m' log ∧
      (∀ i < min len (destSize.toNat - 1), m'.byte (dest + i) = m.byte (src + i)) ∧
      m'.byte (dest + min len (destSize.toNat - 1)) = 0 ∧
        m.Frame m' dest (min len (destSize.toNat - 1) + 1) ∧
      Within (InRange src (len + 1)) (InRange dest destSize.toNat) log := by
  have hpos : 1 ≤ destSize.toNat := UInt64.le_iff_toNat_le.mp hsize
  obtain ⟨log, hlogs, hwithin⟩ := safeStrcpy_logs hsrc hdest hsize
    (fun i hi j hj => ne_of_outside hout hi hj.le) rfl
  set k := min len (destSize.toNat - 1) with hk
  have hread : (terminated m dest src k).byte (src + k) = m.byte (src + k) :=
    Mem.write_byte_of_ne fun j hj => ne_of_outside hout (by omega) (by omega)
  -- the loop has stopped at the terminator exactly if the whole string fits
  have hend : m.byte (src + k) = 0 ↔ len < destSize.toNat := by
    rcases Nat.lt_or_ge len destSize.toNat with hfits | hlong
    · rw [show k = len by omega]
      exact iff_of_true hsrc.terminator hfits
    · exact iff_of_false (hsrc.char_ne k (by omega)) (by omega)
  rw [hread, if_congr hend rfl rfl] at hlogs
  refine ⟨_, log, hlogs, fun i hi => ?_, ?_, Mem.frame_write _ _ _ _, hwithin⟩
  · exact (Mem.write_byte (by omega)).trans (if_pos hi)
  · exact (Mem.write_byte (by omega)).trans (if_neg (Nat.lt_irrefl k))

/-- A string that is cut off in its own place is reported as if it fitted: the terminator is read
back. -/
theorem safeStrcpy_self {destSize : UInt64} (hsrc : IsString m src len)
    (hdest : m.Valid src destSize.toNat) (hsize : 1 ≤ destSize) :
    ∃ m' log, Logs (safeStrcpy (some src) destSize (some src)) m 0 m' log := by
  obtain ⟨log, hlogs, -⟩ := safeStrcpy_logs hsrc hdest hsize
    (fun i _ j hj heq => absurd ((Addr.add_inj src).mp heq) (by omega)) rfl
  set k := min len (destSize.toNat - 1)
  have hread : (terminated m src src k).byte (src + k) = 0 :=
    (Mem.write_byte (Nat.lt_succ_self k)).trans (if_neg (Nat.lt_irrefl k))
  rw [if_pos hread] at hlogs
  exact ⟨_, log, hlogs⟩

end Copy

/-- The string `abc` and a buffer of three bytes. -/
def abc : Mem := (Mem.ofSizes [3, 4]).writeBytes ⟨1, 0⟩ [97, 98, 99, 0]

/-- The example is a string of three characters. -/
theorem abc_isString : IsString abc ⟨1, 0⟩ 3 := ⟨by decide, by decide, by decide⟩

/-- The string is cut off after two characters. -/
theorem safeStrcpy_exact_abc : ∃ m' log,
    Logs (safeStrcpy (some ⟨0, 0⟩) 3 (some ⟨1, 0⟩)) abc 1 m' log ∧ m'.byte ⟨0, 1⟩ = 98 ∧
    m'.byte ⟨0, 2⟩ = 0 := by
  obtain ⟨m', log, hlogs, hcopied, hterminator, -⟩ :=
    @safeStrcpy_exact abc ⟨0, 0⟩ ⟨1, 0⟩ 3 3 abc_isString (by decide) (by decide) (by decide)
  exact ⟨m', log, hlogs, hcopied 1 (by decide), hterminator⟩

end TweetNacl.SecureUtils
