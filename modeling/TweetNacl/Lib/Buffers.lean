import Mathlib.Tactic.Common

/-!
# Byte buffers with a declared length

A buffer argument is a pointer, which may be null, with the length the caller declares for it. An
access at or beyond that length and a remainder by zero are traps. A program over buffers is total
when it never ends in one.
-/

namespace Buffers

/-- What stops a program. -/
inductive Trap where
  | outOfBounds
  | remainderByZero
deriving DecidableEq, Repr

/-- A result, unless a trap stops the program. -/
abbrev Checked := Except Trap

/-- A program that has come to a value goes on with it. -/
@[simp] theorem ok_bind {α β : Type} (a : α) (f : α → Checked β) : (Except.ok a >>= f) = f a := rfl

/-- A program that has trapped stays trapped. -/
@[simp] theorem error_bind {α β : Type} (t : Trap) (f : α → Checked β) :
    (Except.error t >>= f) = .error t := rfl

/-- The program ends without a trap. -/
def Total {α : Type} (x : Checked α) : Prop := ∃ a, x = .ok a

/-- A value is a total result. -/
theorem total_ok {α : Type} (a : α) : Total (.ok a : Checked α) := ⟨a, rfl⟩

/-- A trap is not. -/
theorem not_total_error {α : Type} (t : Trap) : ¬ Total (.error t : Checked α) := by
  rintro ⟨a, h⟩
  cases h

/-- A pointer and the length that is declared with it. -/
structure Buffer where
  data : Option (List UInt8)
  len : UInt64
  length_data : ∀ bytes, data = some bytes → bytes.length = len.toNat

/-- A pointer whose length is passed by a pointer of its own. -/
structure SizedBuffer where
  data : Option (List UInt8)
  len : Option UInt64
  length_data : ∀ bytes n, data = some bytes → len = some n → bytes.length = n.toNat

/-- The buffer is there, with at least `n` bytes. -/
def Buffer.Holds (b : Buffer) (n : UInt64) : Prop := b.data ≠ none ∧ n ≤ b.len

/-- The same for a buffer whose length is passed by reference. -/
def SizedBuffer.Holds (b : SizedBuffer) (n : UInt64) : Prop :=
  b.data ≠ none ∧ ∃ len, b.len = some len ∧ n ≤ len

/-- The null pointer holds no bytes. -/
theorem Buffer.not_holds_null {b : Buffer} (h : b.data = none) (n : UInt64) : ¬ b.Holds n :=
  fun hb => hb.1 h

/-- A buffer declared too short does not hold the bytes asked for. -/
theorem Buffer.not_holds {b : Buffer} {n : UInt64} (h : b.len < n) : ¬ b.Holds n :=
  fun hb => UInt64.not_lt.mpr hb.2 h

/-- A buffer with an object behind it holds up to its declared length. -/
theorem Buffer.holds {b : Buffer} {bytes : List UInt8} {n : UInt64} (hdata : b.data = some bytes)
    (h : ¬ b.len < n) : b.Holds n := ⟨by simp [hdata], UInt64.not_lt.mp h⟩

/-- The null pointer holds no bytes, whatever the declared length is. -/
theorem SizedBuffer.not_holds_null {b : SizedBuffer} (h : b.data = none) (n : UInt64) :
    ¬ b.Holds n :=
  fun hb => hb.1 h

/-- Without a pointer to the length nothing is held. -/
theorem SizedBuffer.not_holds_of_len {b : SizedBuffer} (h : b.len = none) (n : UInt64) :
    ¬ b.Holds n := by
  rintro ⟨-, len, hlen, -⟩
  cases h.symm.trans hlen

/-- A buffer declared too short does not hold the bytes asked for. -/
theorem SizedBuffer.not_holds {b : SizedBuffer} {n len : UInt64} (hlen : b.len = some len)
    (h : len < n) :
    ¬ b.Holds n := by
  rintro ⟨-, len', hlen', hn⟩
  cases hlen.symm.trans hlen'
  exact UInt64.not_lt.mpr hn h

/-- A buffer with an object and a length holds up to that length. -/
theorem SizedBuffer.holds {b : SizedBuffer} {bytes : List UInt8} {n len : UInt64}
    (hdata : b.data = some bytes) (hlen : b.len = some len) (h : ¬ len < n) : b.Holds n :=
  ⟨by simp [hdata], len, hlen, UInt64.not_lt.mp h⟩

/-- A part of the declared length is a part of the bytes. -/
theorem Buffer.le_length {b : Buffer} {bytes : List UInt8} {n : UInt64}
    (hdata : b.data = some bytes) (h : ¬ b.len < n) : n.toNat ≤ bytes.length := by
  rw [b.length_data bytes hdata]
  exact UInt64.not_lt.mp h

/-- What is declared is there: a length that passes the check lies within the object. -/
theorem SizedBuffer.le_length {b : SizedBuffer} {bytes : List UInt8} {n len : UInt64}
    (hdata : b.data = some bytes) (hlen : b.len = some len) (h : ¬ len < n) :
    n.toNat ≤ bytes.length := by
  rw [b.length_data bytes len hdata hlen]
  exact UInt64.not_lt.mp h

/-- The null pointer, with length 0. -/
def Buffer.null : Buffer where
  data := none
  len := 0
  length_data _ h := by cases h

/-- A buffer of `n` zero bytes. -/
def Buffer.zeros (n : UInt64) : Buffer where
  data := some (List.replicate n.toNat 0)
  len := n
  length_data bytes h := by
    cases h
    exact List.length_replicate

/-- A buffer of `n` zero bytes, with a pointer to its length. -/
def SizedBuffer.zeros (n : UInt64) : SizedBuffer where
  data := some (List.replicate n.toNat 0)
  len := some n
  length_data bytes k h hk := by
    cases h
    cases hk
    exact List.length_replicate

section Access

/-- `bytes[i]`. -/
def load (bytes : List UInt8) (i : ℕ) : Checked UInt8 :=
  match bytes[i]? with
  | some x => .ok x
  | none => .error .outOfBounds

/-- `bytes[i] = x`. -/
def store (bytes : List UInt8) (i : ℕ) (x : UInt8) : Checked (List UInt8) :=
  if i < bytes.length then .ok (bytes.set i x) else .error .outOfBounds

/-- `i % n`. -/
def remainder (i n : ℕ) : Checked ℕ := if n = 0 then .error .remainderByZero else .ok (i % n)

/-- `bytes[i] ^= source[i % n]`. -/
def xorAt (source : List UInt8) (n i : ℕ) (bytes : List UInt8) : Checked (List UInt8) := do
  let x ← load source (← remainder i n)
  let y ← load bytes i
  store bytes i (y ^^^ x)

/-- Store a string at the start of the buffer. -/
def overwrite (bytes written : List UInt8) : Checked (List UInt8) :=
  if written.length ≤ bytes.length then .ok (written ++ bytes.drop written.length)
    else .error .outOfBounds

variable {bytes source : List UInt8} {n i : ℕ}

/-- A load within the object gives the byte. -/
theorem load_eq (hi : i < bytes.length) : load bytes i = .ok bytes[i] := by
  rw [load, List.getElem?_eq_getElem hi]

/-- A store within the object replaces the byte. -/
theorem store_eq (hi : i < bytes.length) (x : UInt8) :
    store bytes i x = .ok (bytes.set i x) := if_pos hi

/-- A remainder by a length that is not zero. -/
theorem remainder_eq (hn : n ≠ 0) (i : ℕ) : remainder i n = .ok (i % n) := if_neg hn

/-- The remainder by the length of a nonempty source is an index of it. -/
theorem xorAt_total (hsource : source.length = n) (hn : n ≠ 0) (hi : i < bytes.length) :
    ∃ out, xorAt source n i bytes = .ok out ∧ out.length = bytes.length := by
  have hmod : i % n < source.length := by
    rw [hsource]
    exact Nat.mod_lt _ (by omega)
  refine ⟨bytes.set i (bytes[i] ^^^ source[i % n]), ?_, List.length_set⟩
  simp only [xorAt, remainder_eq hn, load_eq hmod, load_eq hi, store_eq hi, ok_bind]

/-- One step of a loop that xors a repeated string into a buffer. -/
theorem xorAt_eq (hsource : source.length = n) (hn : n ≠ 0) {x : UInt8} (hx : bytes[i]? = some x) :
    xorAt source n i bytes = .ok (bytes.set i (x ^^^ source.getD (i % n) 0)) := by
  have hmod : i % n < source.length := by
    rw [hsource]
    exact Nat.mod_lt _ (by omega)
  obtain ⟨hi, rfl⟩ := List.getElem?_eq_some_iff.mp hx
  simp only [xorAt, remainder_eq hn, load_eq hmod, load_eq hi, store_eq hi, ok_bind,
    List.getD_eq_getElem?_getD, List.getElem?_eq_getElem hmod, Option.getD_some]

/-- A write that fits replaces the first bytes. -/
theorem overwrite_eq {written : List UInt8} (h : written.length ≤ bytes.length) :
    overwrite bytes written = .ok (written ++ bytes.drop written.length) := if_pos h

/-- Such a write keeps the length of the object. -/
theorem length_overwritten {written : List UInt8} (h : written.length ≤ bytes.length) :
    (written ++ bytes.drop written.length).length = bytes.length := by
  rw [List.length_append, List.length_drop]
  omega

end Access

section Loops

variable {α : Type}

/-- `for (i = 0; i < n; i++)`. -/
def loop (n : ℕ) (body : ℕ → α → Checked α) (a : α) : Checked α :=
  match n with
  | 0 => .ok a
  | n + 1 => loop n body a >>= body n

/-- A loop ends without a trap in its invariant if every pass does. -/
theorem loop_total {n : ℕ} {body : ℕ → α → Checked α} {a : α} (inv : α → Prop) (hinit : inv a)
    (hstep : ∀ i < n, ∀ a, inv a → ∃ a', body i a = .ok a' ∧ inv a') :
    ∃ a', loop n body a = .ok a' ∧ inv a' := by
  induction n with
  | zero => exact ⟨a, rfl, hinit⟩
  | succ n ih =>
    obtain ⟨a₁, hrun, hinv⟩ := ih fun i hi => hstep i (by omega)
    obtain ⟨a₂, hpass, hinv'⟩ := hstep n (by omega) a₁ hinv
    refine ⟨a₂, ?_, hinv'⟩
    rw [loop, hrun, ok_bind, hpass]

/-- A trap in the first pass is the trap of the loop. -/
theorem loop_error {n : ℕ} {body : ℕ → α → Checked α} {a : α} {t : Trap} (hn : 0 < n)
    (hbody : body 0 a = .error t) : loop n body a = .error t := by
  induction n with
  | zero => omega
  | succ n ih =>
    rw [loop]
    cases n with
    | zero => exact hbody
    | succ n => rw [ih (by omega), error_bind]

/-- A loop that updates the bytes of a buffer one after the other. -/
theorem loop_update {f : ℕ → UInt8 → UInt8} {body : ℕ → List UInt8 → Checked (List UInt8)} {n : ℕ}
    {bytes : List UInt8} (hn : n ≤ bytes.length) (hbody : ∀ i < n, ∀ out : List UInt8,
      out.length = bytes.length →
      ∀ x, out[i]? = some x → body i out = .ok (out.set i (f i x))) :
    ∃ out, loop n body bytes = .ok out ∧ out.length = bytes.length ∧
      ∀ i, out[i]? = if i < n then bytes[i]?.map (f i) else bytes[i]? := by
  induction n with
  | zero => exact ⟨bytes, rfl, rfl, fun i => (if_neg (Nat.not_lt_zero i)).symm⟩
  | succ n ih =>
    obtain ⟨out, hrun, hlen, hout⟩ := ih (by omega) fun i hi => hbody i (by omega)
    have hx : out[n]? = some bytes[n] := by
      rw [hout n, if_neg (Nat.lt_irrefl n), List.getElem?_eq_getElem]
    refine ⟨out.set n (f n bytes[n]), ?_, List.length_set.trans hlen, fun i => ?_⟩
    · rw [loop, hrun, ok_bind, hbody n (by omega) out hlen _ hx]
    · rw [List.getElem?_set, hout i]
      rcases Nat.lt_trichotomy i n with hlt | rfl | hgt
      · rw [if_neg (by omega), if_pos hlt, if_pos (by omega)]
      · rw [if_pos rfl, if_pos (by omega), if_pos (by omega), List.getElem?_eq_getElem (by omega),
          Option.map_some]
      · rw [if_neg (by omega), if_neg (by omega), if_neg (by omega)]

end Loops

end Buffers
