import Mathlib.Data.List.OfFn
import Mathlib.Logic.Function.Basic
import Mathlib.Tactic.Common

/-!
# Byte memory with bounded objects

Memory is a set of objects, each with a capacity in bytes. A pointer is `none` (the null
pointer) or an address, an object and an offset into it. Loads and stores outside the
capacity are faults, so "no access leaves its buffer" is "the run does not fault".

Programs are `Exec` actions. `Runs` and `Faults` describe their outcome; the rules below
follow the constructs of the programs: sequencing, loops, local objects. The effect of a
loop that fills a buffer is `Mem.write`, about which the frame lemmas speak.
-/

namespace Memory

/-- A byte address: an object and an offset into it. -/
structure Addr where
  obj : ℕ
  off : ℕ
deriving DecidableEq

/-- A pointer; `none` is the null pointer. -/
abbrev Ptr := Option Addr

instance : HAdd Addr ℕ Addr := ⟨fun p i => ⟨p.obj, p.off + i⟩⟩

/-- An offset stays in its object. -/
@[simp] theorem Addr.add_obj (p : Addr) (i : ℕ) : (p + i).obj = p.obj := rfl

/-- Offsets add up. -/
@[simp] theorem Addr.add_off (p : Addr) (i : ℕ) : (p + i).off = p.off + i := rfl

/-- The zero offset. -/
@[simp] theorem Addr.add_zero (p : Addr) : p + 0 = p := rfl

/-- An address is its object and its offset. -/
@[ext] theorem Addr.ext_parts {p q : Addr} (hobj : p.obj = q.obj) (hoff : p.off = q.off) :
    p = q := by
  cases p
  cases q
  simp_all

/-- Two offsets are one. -/
theorem Addr.add_add (p : Addr) (i j : ℕ) : p + i + j = p + (i + j) :=
  Addr.ext_parts rfl (Nat.add_assoc _ _ _)

/-- Offsets from one address are equal only if they are the same. -/
@[simp] theorem Addr.add_inj (p : Addr) {i j : ℕ} : p + i = p + j ↔ i = j := by
  constructor
  · intro h
    have := congrArg Addr.off h
    simpa using this
  · rintro rfl
    rfl

/-- Pointer arithmetic on a possibly null pointer, which stays null. -/
def Ptr.add (p : Ptr) (i : ℕ) : Ptr := p.map (· + i)

/-- The memory: the capacity and the bytes of every object. Objects from `fresh` on do not exist
yet and have no capacity. -/
structure Mem where
  size : ℕ → ℕ
  byte : Addr → UInt8
  fresh : ℕ
  size_fresh : ∀ o, fresh ≤ o → size o = 0

/-- A memory is its sizes, its bytes and its next object. -/
@[ext] theorem Mem.ext_parts {m m' : Mem} (hsize : m.size = m'.size) (hbyte : m.byte = m'.byte)
    (hfresh : m.fresh = m'.fresh) : m = m' := by
  cases m
  cases m'
  simp_all

/-- A memory of zeroed objects with the given capacities. -/
def Mem.ofSizes (sizes : List ℕ) : Mem where
  size o := sizes.getD o 0
  byte _ := 0
  fresh := sizes.length
  size_fresh o ho := by simp [List.getD, List.getElem?_eq_none ho]

/-- A memory of objects with the given contents. -/
def Mem.ofBytes (objects : List (List UInt8)) : Mem where
  size o := (objects.getD o []).length
  byte a := (objects.getD a.obj []).getD a.off 0
  fresh := objects.length
  size_fresh o ho := by simp [List.getD, List.getElem?_eq_none ho]

/-- The `n` bytes that follow each other from `start` on. -/
def numberedBytes (start n : ℕ) : List UInt8 := (List.range n).map fun i => UInt8.ofNat (start + i)

/-- The access that left its object. -/
inductive Fault where
  | load (p : Addr)
  | store (p : Addr)
deriving DecidableEq

/-- A program over the memory. -/
abbrev Exec := StateT Mem (Except Fault)

section Ranges

/-- The `n` bytes from `p` on lie within their object. -/
def Mem.Valid (m : Mem) (p : Addr) (n : ℕ) : Prop := ∀ i < n, p.off + i < m.size p.obj

instance (m : Mem) (p : Addr) (n : ℕ) : Decidable (m.Valid p n) :=
  inferInstanceAs (Decidable (∀ i < n, p.off + i < m.size p.obj))

/-- Two ranges have no byte in common. -/
def Disjoint (p : Addr) (n : ℕ) (q : Addr) (k : ℕ) : Prop := ∀ i < n, ∀ j < k, p + i ≠ q + j

/-- Ranges in two objects are apart. -/
theorem Disjoint.of_obj_ne {p q : Addr} (h : p.obj ≠ q.obj) (n k : ℕ) : Disjoint p n q k :=
  fun _ _ _ _ heq => h (by simpa only [Addr.add_obj] using congrArg Addr.obj heq)

/-- Ranges of one object that follow each other are apart. -/
theorem Disjoint.of_le {p : Addr} {n k i j : ℕ} (h : i + n ≤ j) :
    Disjoint (p + i) n (p + j) k := by
  intro a ha b _ heq
  have := congrArg Addr.off heq
  simp at this
  omega

/-- The start of a range is apart from what follows it. -/
theorem Disjoint.of_le_self {p : Addr} {n k j : ℕ} (h : n ≤ j) : Disjoint p n (p + j) k :=
  Disjoint.of_le (p := p) (i := 0) (by omega)

/-- Being apart is symmetric. -/
theorem Disjoint.symm {p q : Addr} {n k : ℕ} (h : Disjoint p n q k) : Disjoint q k p n :=
  fun i hi j hj heq => h j hj i hi heq.symm

/-- Shorter ranges are apart too. -/
theorem Disjoint.mono {p q : Addr} {n k n' k' : ℕ} (h : Disjoint p n q k) (hn : n' ≤ n)
    (hk : k' ≤ k) : Disjoint p n' q k' :=
  fun i hi j hj => h i (by omega) j (by omega)

/-- A range apart from another one is apart from every part of it. -/
theorem Disjoint.add_right {p q : Addr} {n k i l : ℕ} (h : Disjoint p n q k) (hl : i + l ≤ k) :
    Disjoint p n (q + i) l := fun a ha b hb => by
  rw [Addr.add_add]
  exact h a ha (i + b) (by omega)

/-- A part of the first range is apart from the second. -/
theorem Disjoint.add_left {p q : Addr} {n k i l : ℕ} (h : Disjoint p n q k) (hl : i + l ≤ n) :
    Disjoint (p + i) l q k := (h.symm.add_right hl).symm

/-- A shorter range is valid too. -/
theorem Mem.Valid.mono {m : Mem} {p : Addr} {n k : ℕ} (h : m.Valid p n) (hk : k ≤ n) :
    m.Valid p k := fun i hi => h i (by omega)

/-- A part of a valid range is valid. -/
theorem Mem.Valid.add {m : Mem} {p : Addr} {n k i : ℕ} (h : m.Valid p n) (hk : i + k ≤ n) :
    m.Valid (p + i) k := fun j hj => by
  have := h (i + j) (by omega)
  simpa [Nat.add_assoc] using this

/-- What is valid depends on the sizes of the objects only. -/
theorem Mem.Valid.of_size {m m' : Mem} {p : Addr} {n : ℕ} (h : m.Valid p n)
    (hsize : m'.size = m.size) :
    m'.Valid p n := fun i hi => by
  rw [hsize]
  exact h i hi

/-- A valid nonempty range is in an existing object. -/
theorem Mem.Valid.obj_lt {m : Mem} {p : Addr} {n : ℕ} (h : m.Valid p n) (hn : 0 < n) :
    p.obj < m.fresh := by
  by_contra hge
  have := h 0 hn
  rw [m.size_fresh p.obj (by omega)] at this
  omega

/-- The bytes of a range, as a list. -/
def Mem.bytes (m : Mem) (p : Addr) (n : ℕ) : List UInt8 :=
  List.ofFn fun i : Fin n => m.byte (p + i.val)

/-- The bytes of a range of fixed length. -/
def Mem.vec (m : Mem) (p : Addr) (n : ℕ) : Vector UInt8 n := Vector.ofFn fun i => m.byte (p + i.val)

/-- A range of `n` bytes has `n` bytes. -/
@[simp] theorem Mem.length_bytes (m : Mem) (p : Addr) (n : ℕ) : (m.bytes p n).length = n := by
  simp [Mem.bytes]

/-- A byte of a range. -/
@[simp] theorem Mem.getElem_bytes (m : Mem) (p : Addr) {n i : ℕ} (hi : i < (m.bytes p n).length) :
    (m.bytes p n)[i] = m.byte (p + i) := by
  simp [Mem.bytes]

/-- A byte of a range of fixed length. -/
@[simp] theorem Mem.getElem_vec (m : Mem) (p : Addr) {n i : ℕ} (hi : i < n) :
    (m.vec p n)[i] = m.byte (p + i) := by
  simp [Mem.vec]

/-- Equal byte strings are equal byte by byte. -/
theorem byte_of_bytes_eq {m m' : Mem} {p q : Addr} {n i : ℕ} (h : m'.bytes q n = m.bytes p n)
    (hi : i < n) :
    m'.byte (q + i) = m.byte (p + i) := by
  have hget := congrArg (fun bytes => bytes[i]?) h
  simpa [Mem.bytes, hi] using hget

/-- The memory with `n` bytes from `p` on replaced. -/
def Mem.write (m : Mem) (p : Addr) (n : ℕ) (f : ℕ → UInt8) : Mem :=
  { m with byte := fun a =>
      if a.obj = p.obj ∧ p.off ≤ a.off ∧ a.off < p.off + n then f (a.off - p.off) else m.byte a }

/-- The memory with the bytes of a vector stored from `p` on. -/
def Mem.writeVec {n : ℕ} (m : Mem) (p : Addr) (v : Vector UInt8 n) : Mem :=
  m.write p n fun i => v.getD i 0

/-- The memory with a byte string stored from `p` on. -/
def Mem.writeBytes (m : Mem) (p : Addr) (l : List UInt8) : Mem :=
  m.write p l.length fun i => l.getD i 0

variable {m : Mem} {p q : Addr} {n k : ℕ} {f : ℕ → UInt8}

/-- A write leaves the objects their sizes. -/
@[simp] theorem Mem.write_size : (m.write p n f).size = m.size := rfl

/-- A write leaves the valid ranges valid. -/
@[simp] theorem Mem.valid_write : (m.write p n f).Valid q k ↔ m.Valid q k := Iff.rfl

/-- A write changes the bytes in its range. -/
theorem Mem.write_byte {i : ℕ} (hi : i < n) : (m.write p n f).byte (p + i) = f i := by
  simp [Mem.write, hi]

/-- A write leaves every byte outside its range. -/
theorem Mem.write_byte_of_ne {a : Addr} (h : ∀ i < n, a ≠ p + i) :
    (m.write p n f).byte a = m.byte a := by
  rw [Mem.write]
  refine if_neg ?_
  rintro ⟨hobj, hlow, hhigh⟩
  refine h (a.off - p.off) (by omega) (Addr.ext_parts hobj ?_)
  rw [Addr.add_off]
  omega

/-- A write leaves every byte of other objects. -/
theorem Mem.write_byte_of_obj_ne {a : Addr} (h : a.obj ≠ p.obj) :
    (m.write p n f).byte a = m.byte a :=
  Mem.write_byte_of_ne fun _ _ heq => h (by simpa only [Addr.add_obj] using congrArg Addr.obj heq)

/-- Reading a range that was written gives what was written. -/
theorem Mem.bytes_write (hk : k ≤ n) :
    (m.write p n f).bytes p k = List.ofFn fun i : Fin k => f i.val := by
  refine congrArg List.ofFn (funext fun i => ?_)
  exact Mem.write_byte (by omega)

/-- A write leaves the ranges apart from it. -/
theorem Mem.bytes_write_of_disjoint (h : Disjoint q k p n) :
    (m.write p n f).bytes q k = m.bytes q k := by
  refine congrArg List.ofFn (funext fun i => ?_)
  exact Mem.write_byte_of_ne fun j hj => h i i.isLt j hj

/-- A write leaves the ranges of fixed length apart from it. -/
theorem Mem.vec_write_of_disjoint (h : Disjoint q k p n) :
    (m.write p n f).vec q k = m.vec q k := by
  refine congrArg Vector.ofFn (funext fun i => ?_)
  exact Mem.write_byte_of_ne fun j hj => h i i.isLt j hj

/-- Reading the range that a vector was stored to. -/
@[simp] theorem Mem.vec_writeVec (m : Mem) (p : Addr) (v : Vector UInt8 n) :
    (m.writeVec p v).vec p n = v := by
  refine Vector.ext fun i hi => ?_
  rw [Mem.getElem_vec, Mem.writeVec, Mem.write_byte hi]
  simp [Vector.getD, hi]

/-- The bytes of a range as a list, from its fixed-length form. -/
@[simp] theorem Mem.toList_vec (m : Mem) (p : Addr) (n : ℕ) : (m.vec p n).toList = m.bytes p n :=
  List.ext_getElem (by simp) fun i h1 h2 => by
    rw [Vector.getElem_toList, Mem.getElem_vec, Mem.getElem_bytes]

/-- The bytes of that range as a list. -/
@[simp] theorem Mem.bytes_writeVec (m : Mem) (p : Addr) (v : Vector UInt8 n) :
    (m.writeVec p v).bytes p n = v.toList := by
  rw [← Mem.toList_vec, Mem.vec_writeVec]

/-- Reading a range that holds a byte string. -/
theorem Mem.bytes_writeBytes (m : Mem) (p : Addr) (l : List UInt8) :
    (m.writeBytes p l).bytes p l.length = l := by
  refine (Mem.bytes_write le_rfl).trans (List.ext_getElem (by simp) fun i h1 h2 => ?_)
  rw [List.getElem_ofFn, List.getD_eq_getElem?_getD, List.getElem?_eq_getElem h2]
  rfl

/-- Storing a byte string leaves the ranges apart from it. -/
theorem Mem.bytes_writeBytes_of_disjoint {l : List UInt8} (h : Disjoint q k p l.length) :
    (m.writeBytes p l).bytes q k = m.bytes q k :=
  Mem.bytes_write_of_disjoint h

/-- Adjacent ranges are one range. -/
theorem Mem.bytes_append (m : Mem) (p : Addr) (n k : ℕ) :
    m.bytes p (n + k) = m.bytes p n ++ m.bytes (p + n) k := by
  refine List.ext_getElem (by simp) fun i h1 h2 => ?_
  rw [Mem.getElem_bytes]
  by_cases hi : i < n
  · rw [List.getElem_append_left (by simpa using hi), Mem.getElem_bytes]
  · rw [List.getElem_append_right (by simpa using hi), Mem.getElem_bytes, Addr.add_add,
      Mem.length_bytes, Nat.add_sub_cancel' (by omega)]

/-- The bytes of a copy are those of the original. -/
theorem Mem.bytes_write_copy (m m₁ : Mem) (p q : Addr) (n : ℕ) :
    (m.write p n fun i => m₁.byte (q + i)).bytes p n = m₁.bytes q n :=
  Mem.bytes_write le_rfl

/-- A write depends on the bytes within its range only. -/
theorem Mem.write_congr {g : ℕ → UInt8} (h : ∀ i < n, f i = g i) :
    m.write p n f = m.write p n g := by
  refine Mem.ext_parts rfl (funext fun a => ?_) rfl
  simp only [Mem.write]
  split
  next ha => exact h _ (by omega)
  next => rfl

/-- Writing no byte changes nothing. -/
@[simp] theorem Mem.write_zero (m : Mem) (p : Addr) (f : ℕ → UInt8) : m.write p 0 f = m := by
  refine Mem.ext_parts rfl (funext fun a => Mem.write_byte_of_ne fun i hi => ?_) rfl
  omega

/-- Two adjacent writes are one. -/
theorem Mem.write_add (m : Mem) (p : Addr) (n k : ℕ) (f : ℕ → UInt8) :
    (m.write p n f).write (p + n) k (fun i => f (n + i)) = m.write p (n + k) f := by
  refine Mem.ext_parts rfl (funext fun a => ?_) rfl
  simp only [Mem.write, Addr.add_obj, Addr.add_off]
  by_cases hobj : a.obj = p.obj
  · by_cases hlow : p.off ≤ a.off
    · by_cases hmid : a.off < p.off + n
      · simp [hobj, hlow, hmid, show ¬ p.off + n ≤ a.off by omega,
          show a.off < p.off + (n + k) by omega]
      · by_cases hhigh : a.off < p.off + n + k
        · simp [hobj, hlow, hhigh, show p.off + n ≤ a.off by omega,
            show a.off < p.off + (n + k) by omega,
            show n + (a.off - (p.off + n)) = a.off - p.off by omega]
        · simp [hobj, hmid, hhigh, show ¬ a.off < p.off + (n + k) by omega]
    · simp [hlow, show ¬ p.off + n ≤ a.off by omega]
  · simp [hobj]

/-- A range is written byte by byte. -/
theorem Mem.write_succ (m : Mem) (p : Addr) (n : ℕ) (f : ℕ → UInt8) :
    (m.write p n f).write (p + n) 1 (fun _ => f n) = m.write p (n + 1) f := by
  rw [← Mem.write_add]
  exact Mem.write_congr fun i hi => by rw [show i = 0 by omega, Nat.add_zero]

/-- The memories differ at most in the `n` bytes from `p` on. -/
structure Mem.Frame (m m' : Mem) (p : Addr) (n : ℕ) : Prop where
  size : m'.size = m.size
  fresh : m'.fresh = m.fresh
  byte : ∀ a, (∀ i < n, a ≠ p + i) → m'.byte a = m.byte a

/-- A write changes its range only. -/
theorem Mem.frame_write (m : Mem) (p : Addr) (n : ℕ) (f : ℕ → UInt8) :
    m.Frame (m.write p n f) p n :=
  ⟨rfl, rfl, fun _ ha => Mem.write_byte_of_ne ha⟩

/-- So does storing a vector. -/
theorem Mem.frame_writeVec (m : Mem) (p : Addr) (v : Vector UInt8 n) :
    m.Frame (m.writeVec p v) p n :=
  m.frame_write p n fun i => v.getD i 0

/-- A memory differs nowhere from itself. -/
theorem Mem.Frame.refl (m : Mem) (p : Addr) (n : ℕ) : m.Frame m p n := ⟨rfl, rfl, fun _ _ => rfl⟩

/-- Two changes of one range. -/
theorem Mem.Frame.trans {m m' m'' : Mem} (h : m.Frame m' p n) (h' : m'.Frame m'' p n) :
    m.Frame m'' p n :=
  ⟨h'.size.trans h.size, h'.fresh.trans h.fresh, fun a ha => (h'.byte a ha).trans (h.byte a ha)⟩

/-- A further write within the range. -/
theorem Mem.Frame.write_add {m m' : Mem} {i : ℕ} (h : m.Frame m' p n) (hi : i + k ≤ n) :
    m.Frame (m'.write (p + i) k f) p n := by
  refine ⟨h.size, h.fresh, fun a ha => ?_⟩
  rw [Mem.write_byte_of_ne fun j hj => by rw [Addr.add_add]; exact ha (i + j) (by omega)]
  exact h.byte a ha

/-- A further write at the start of the range. -/
theorem Mem.Frame.write {m m' : Mem} (h : m.Frame m' p n) (hk : k ≤ n) :
    m.Frame (m'.write p k f) p n :=
  h.write_add (i := 0) (by omega)

/-- Validity of a range across a change of bytes. -/
theorem Mem.Frame.valid {m m' : Mem} (h : m.Frame m' p n) (hq : m.Valid q k) : m'.Valid q k :=
  fun i hi => by rw [h.size]; exact hq i hi

/-- Bytes apart from the range keep their value. -/
theorem Mem.Frame.byte_of_disjoint {m m' : Mem} (h : m.Frame m' p n) (hq : Disjoint q k p n) {i : ℕ}
    (hi : i < k) : m'.byte (q + i) = m.byte (q + i) :=
  h.byte _ fun j hj => hq i hi j hj

/-- Ranges apart from the changed one keep their bytes. -/
theorem Mem.Frame.bytes_of_disjoint {m m' : Mem} (h : m.Frame m' p n) (hq : Disjoint q k p n) :
    m'.bytes q k = m.bytes q k :=
  congrArg List.ofFn (funext fun i => h.byte_of_disjoint hq i.isLt)

/-- So do those of fixed length. -/
theorem Mem.Frame.vec_of_disjoint {m m' : Mem} (h : m.Frame m' p n) (hq : Disjoint q k p n) :
    m'.vec q k = m.vec q k :=
  congrArg Vector.ofFn (funext fun i => h.byte_of_disjoint hq i.isLt)

end Ranges

section Programs

variable {α β : Type}

/-- The byte at an address. -/
def load (p : Addr) : Exec UInt8 := fun m =>
  if p.off < m.size p.obj then .ok (m.byte p, m) else .error (.load p)

/-- Replace the byte at an address. -/
def store (p : Addr) (b : UInt8) : Exec Unit := fun m =>
  if p.off < m.size p.obj then .ok ((), m.write p 1 fun _ => b) else .error (.store p)

/-- Run a loop body for the counter values below `n`. -/
def forN (n : ℕ) (body : ℕ → Exec Unit) : Exec Unit :=
  match n with
  | 0 => pure ()
  | n + 1 => do
    forN n body
    body n

/-- Run a loop body that updates a local variable for the counter values below `n`. -/
def foldN (n : ℕ) (body : ℕ → α → Exec α) (a : α) : Exec α :=
  match n with
  | 0 => pure a
  | n + 1 => do
    let a ← foldN n body a
    body n a

/-- Copy `n` bytes into a local array. -/
def loadVec (p : Addr) (n : ℕ) : Exec (Vector UInt8 n) := Vector.ofFnM fun i => load (p + i.val)

/-- Read `n` bytes in order. -/
def loadBytes (p : Addr) (n : ℕ) : Exec (List UInt8) :=
  match n with
  | 0 => pure []
  | n + 1 => do
    let b ← load p
    let bs ← loadBytes (p + 1) n
    pure (b :: bs)

/-- Store a local array. -/
def storeVec {n : ℕ} (p : Addr) (v : Vector UInt8 n) : Exec Unit :=
  forN n fun i => store (p + i) (v.getD i 0)

/-- Store a byte string. -/
def storeBytes (p : Addr) (l : List UInt8) : Exec Unit :=
  forN l.length fun i => store (p + i) (l.getD i 0)

/-- A loop that copies `n` bytes from `q` to `p`. -/
def copy (p q : Addr) (n : ℕ) : Exec Unit :=
  forN n fun i => do
    let b ← load (q + i)
    store (p + i) b

/-- The memory after an object of `n` bytes with unspecified contents has been added. -/
def Mem.alloc (m : Mem) (n : ℕ) : Mem where
  size := Function.update m.size m.fresh n
  byte := m.byte
  fresh := m.fresh + 1
  size_fresh o ho := by
    rw [Function.update_of_ne (by omega)]
    exact m.size_fresh o (by omega)

/-- The memory after the objects that did not exist in `m` have ended their life. -/
def Mem.release (m' m : Mem) : Mem where
  size o := if o < m.fresh then m'.size o else 0
  byte a := if a.obj < m.fresh then m'.byte a else m.byte a
  fresh := m.fresh
  size_fresh o ho := if_neg (by omega)

/-- Run a program with a local object of `n` bytes that ends with it. -/
def withLocal (n : ℕ) (body : Addr → Exec α) : Exec α := fun m =>
  (body ⟨m.fresh, 0⟩ (m.alloc n)).map fun (a, m') => (a, m'.release m)

/-- The program ends with a result and a memory. -/
def Runs (x : Exec α) (m : Mem) (a : α) (m' : Mem) : Prop := x m = .ok (a, m')

/-- The program leaves a buffer. -/
def Faults (x : Exec α) (m : Mem) (f : Fault) : Prop := x m = .error f

variable {x : Exec α} {m m' m'' : Mem} {a : α} {b : β} {fault : Fault}

/-- A program has one result. -/
theorem Runs.unique {a' : α} (h : Runs x m a m') (h' : Runs x m a' m'') : a = a' ∧ m' = m'' := by
  have := h.symm.trans h'
  simpa using this

/-- A program that ends does not leave an object. -/
theorem Runs.not_faults (h : Runs x m a m') : ¬ Faults x m fault := fun h' => by
  have := h.symm.trans h'
  simp at this

/-- A value leaves the memory alone. -/
theorem Runs.pure (a : α) (m : Mem) : Runs (pure a) m a m := rfl

/-- One program after the other. -/
theorem Runs.bind {f : α → Exec β} (hx : Runs x m a m') (hf : Runs (f a) m' b m'') :
    Runs (x >>= f) m b m'' := by
  change (x m >>= fun p => f p.1 p.2) = _
  rw [show x m = .ok (a, m') from hx]
  exact hf

/-- A program that leaves an object takes what follows with it. -/
theorem Faults.bind_left {f : α → Exec β} (hx : Faults x m fault) : Faults (x >>= f) m fault := by
  change (x m >>= fun p => f p.1 p.2) = _
  rw [show x m = .error fault from hx]
  rfl

/-- What follows a program that ends may leave an object. -/
theorem Faults.bind_right {f : α → Exec β} (hx : Runs x m a m') (hf : Faults (f a) m' fault) :
    Faults (x >>= f) m fault := by
  change (x m >>= fun p => f p.1 p.2) = _
  rw [show x m = .ok (a, m') from hx]
  exact hf

/-- A load within an object. -/
theorem Runs.load {p : Addr} (h : m.Valid p 1) : Runs (load p) m (m.byte p) m :=
  if_pos (h 0 (by omega))

/-- A store within an object. -/
theorem Runs.store {p : Addr} (h : m.Valid p 1) (b : UInt8) :
    Runs (store p b) m () (m.write p 1 fun _ => b) :=
  if_pos (h 0 (by omega))

/-- A store past the end of an object. -/
theorem Faults.store {p : Addr} (h : m.size p.obj ≤ p.off) (b : UInt8) :
    Faults (store p b) m (.store p) :=
  if_neg (by omega)

end Programs

section Loops

variable {m : Mem} {p q : Addr} {n : ℕ}

/-- A loop whose passes go through the memories of a trace. -/
theorem Runs.forN {f : ℕ → Exec Unit} (trace : ℕ → Mem)
    (hstep : ∀ i < n, Runs (f i) (trace i) () (trace (i + 1))) :
    Runs (forN n f) (trace 0) () (trace n) := by
  induction n with
  | zero => exact Runs.pure _ _
  | succ n ih => exact (ih fun i hi => hstep i (by omega)).bind (hstep n (by omega))

/-- A loop that only reads the memory is the loop on its local variable. -/
theorem Runs.foldN {α : Type} {body : ℕ → α → Exec α} {f : (i : ℕ) → i < n → α → α} {a : α}
    (hstep : ∀ i (hi : i < n) a, Runs (body i a) m (f i hi a) m) :
    Runs (Memory.foldN n body a) m (Nat.fold n f a) m := by
  induction n with
  | zero => exact Runs.pure _ _
  | succ n ih =>
    rw [Nat.fold_succ]
    exact (ih fun i hi => hstep i (by omega)).bind (hstep n _ _)

/-- A loop one of whose passes faults. -/
theorem Faults.forN {f : ℕ → Exec Unit} {e : Fault} (trace : ℕ → Mem) {c : ℕ} (hc : c < n)
    (hstep : ∀ i < c, Runs (f i) (trace i) () (trace (i + 1)))
    (hfault : Faults (f c) (trace c) e) : Faults (forN n f) (trace 0) e := by
  induction n with
  | zero => omega
  | succ n ih =>
    rcases Nat.lt_succ_iff_lt_or_eq.mp hc with hlt | rfl
    · exact (ih hlt).bind_left
    · exact Faults.bind_right (Runs.forN trace hstep) hfault

/-- A loop that stores a computed byte in each pass fills its buffer. -/
theorem Runs.fill (hp : m.Valid p n) (g : ℕ → UInt8) :
    Runs (Memory.forN n fun i => Memory.store (p + i) (g i)) m () (m.write p n g) := by
  have h := Runs.forN (n := n) (f := fun i => Memory.store (p + i) (g i))
    (fun i => m.write p i g) fun i hi => ?_
  · rwa [Mem.write_zero] at h
  · have hstore := Runs.store (m := m.write p i g) (p := p + i) (hp.add (by omega)) (g i)
    rwa [Mem.write_succ] at hstore

/-- A loop that stores a computed byte in each pass faults at the end of a shorter object. -/
theorem Faults.fill (g : ℕ → UInt8) {c : ℕ} (hc : c < n) (hsize : m.size p.obj = p.off + c) :
    Faults (Memory.forN n fun i => Memory.store (p + i) (g i)) m (.store (p + c)) := by
  have hvalid : m.Valid p c := fun i hi => by rw [hsize]; omega
  have h := Faults.forN (n := n) (f := fun i => Memory.store (p + i) (g i))
    (fun i => m.write p i g) hc (fun i hi => by
      have hstore := Runs.store (m := m.write p i g) (p := p + i) (hvalid.add (by omega)) (g i)
      rwa [Mem.write_succ] at hstore)
    (Faults.store (by rw [Addr.add_obj, Addr.add_off]; exact hsize.le) (g c))
  rwa [Mem.write_zero] at h

/-- A loop that transforms a buffer byte by byte into another one. Its passes must not overwrite
bytes that later passes read. -/
theorem Runs.transform (hp : m.Valid p n) (hq : m.Valid q n) (g : ℕ → UInt8 → UInt8)
    (hahead : ∀ j < n, ∀ i < j, q + j ≠ p + i) :
    Runs (Memory.forN n fun i => do
        let b ← Memory.load (q + i)
        Memory.store (p + i) (g i b)) m ()
      (m.write p n fun i => g i (m.byte (q + i))) := by
  have h := Runs.forN (n := n) (f := fun i => do
    let b ← Memory.load (q + i)
    Memory.store (p + i) (g i b))
    (fun i => m.write p i fun i => g i (m.byte (q + i))) fun i hi => ?_
  · rwa [Mem.write_zero] at h
  · have hload := Runs.load (m := m.write p i fun i => g i (m.byte (q + i))) (p := q + i)
      (hq.add (by omega))
    rw [Mem.write_byte_of_ne (hahead i hi)] at hload
    have hstore := Runs.store (m := m.write p i fun i => g i (m.byte (q + i))) (p := p + i)
      (hp.add (by omega)) (g i (m.byte (q + i)))
    rw [Mem.write_succ _ _ _ fun i => g i (m.byte (q + i))] at hstore
    exact hload.bind hstore

/-- A copy into too small a buffer stores past its end. -/
theorem Faults.transform (hq : m.Valid q n) (g : ℕ → UInt8 → UInt8)
    (hahead : ∀ j < n, ∀ i < j, q + j ≠ p + i) {c : ℕ} (hc : c < n)
    (hsize : m.size p.obj = p.off + c) :
    Faults (Memory.forN n fun i => do
        let b ← Memory.load (q + i)
        Memory.store (p + i) (g i b)) m (.store (p + c)) := by
  have hp : m.Valid p c := fun i hi => by omega
  have h := Faults.forN (n := n) (f := fun i => do
    let b ← Memory.load (q + i)
    Memory.store (p + i) (g i b)) (e := .store (p + c))
    (fun i => m.write p i fun i => g i (m.byte (q + i))) hc ?_ ?_
  · rwa [Mem.write_zero] at h
  · intro i hi
    have hload := Runs.load (m := m.write p i fun i => g i (m.byte (q + i))) (p := q + i)
      (hq.add (by omega))
    rw [Mem.write_byte_of_ne (hahead i (by omega))] at hload
    have hstore := Runs.store (m := m.write p i fun i => g i (m.byte (q + i))) (p := p + i)
      (hp.add (by omega)) (g i (m.byte (q + i)))
    rw [Mem.write_succ _ _ _ fun i => g i (m.byte (q + i))] at hstore
    exact hload.bind hstore
  · exact Faults.bind_right (Runs.load (hq.add (by omega))) (Faults.store (by simp [hsize]) _)

/-- A copy between ranges that do not overlap. -/
theorem Runs.copy (hp : m.Valid p n) (hq : m.Valid q n) (hpq : Disjoint q n p n) :
    Runs (Memory.copy p q n) m () (m.write p n fun i => m.byte (q + i)) :=
  Runs.transform hp hq (fun _ b => b) fun j hj i hi => hpq j hj i (by omega)

/-- A copy into too small a buffer stores past its end. -/
theorem Faults.copy (hq : m.Valid q n) (hpq : Disjoint q n p n) {c : ℕ} (hc : c < n)
    (hsize : m.size p.obj = p.off + c) : Faults (Memory.copy p q n) m (.store (p + c)) :=
  Faults.transform hq (fun _ b => b) (fun j hj i hi => hpq j hj i (by omega)) hc hsize

/-- Storing a vector within an object. -/
theorem Runs.storeVec (hp : m.Valid p n) (v : Vector UInt8 n) :
    Runs (Memory.storeVec p v) m () (m.writeVec p v) := Runs.fill hp _

/-- Storing a byte string within an object. -/
theorem Runs.storeBytes {l : List UInt8} (hp : m.Valid p l.length) :
    Runs (Memory.storeBytes p l) m () (m.writeBytes p l) := Runs.fill hp _

/-- Loading a range gives its bytes. -/
theorem Runs.loadVec (hp : m.Valid p n) : Runs (Memory.loadVec p n) m (m.vec p n) m := by
  have h : ∀ k (f : Fin k → Addr), (∀ i, m.Valid (f i) 1) →
      Runs (Vector.ofFnM fun i => Memory.load (f i)) m (Vector.ofFn fun i => m.byte (f i)) m := by
    intro k
    induction k with
    | zero =>
      intro f _
      rw [Vector.ofFnM_zero]
      exact Runs.pure _ _
    | succ k ih =>
      intro f hf
      rw [Vector.ofFnM_succ, Vector.ofFn_succ]
      exact (ih _ fun i => hf i.castSucc).bind ((Runs.load (hf (Fin.last k))).bind (Runs.pure _ _))
  exact h n _ fun i => hp.add (by omega)

/-- Reading a range gives the list of its bytes. -/
theorem Runs.loadBytes {p : Addr} {n : ℕ} (hp : m.Valid p n) :
    Runs (Memory.loadBytes p n) m (m.bytes p n) m := by
  induction n generalizing p with
  | zero => exact Runs.pure _ _
  | succ n ih =>
    rw [Mem.bytes, List.ofFn_succ]
    refine (Runs.load (hp.mono (by omega))).bind ((ih (hp.add (by omega))).bind ?_)
    simp only [Mem.bytes, Addr.add_add, Nat.add_comm 1, Fin.val_zero, Addr.add_zero, Fin.val_succ]
    exact Runs.pure _ _

end Loops

section Locals

variable {α : Type} {m m' : Mem} {p : Addr} {n k : ℕ} {f : ℕ → UInt8}

/-- A program with a local object ends when its body does, and the object goes. -/
theorem Runs.withLocal {f : Addr → Exec α} {a : α}
    (h : Runs (f ⟨m.fresh, 0⟩) (m.alloc n) a m') :
    Runs (Memory.withLocal n f) m a (m'.release m) := by
  unfold Runs Memory.withLocal
  rw [show f ⟨m.fresh, 0⟩ (m.alloc n) = .ok (a, m') from h]
  rfl

/-- It leaves an object when its body does. -/
theorem Faults.withLocal {f : Addr → Exec α} {fault : Fault}
    (h : Faults (f ⟨m.fresh, 0⟩) (m.alloc n) fault) :
    Faults (Memory.withLocal n f) m fault := by
  unfold Faults Memory.withLocal
  rw [show f ⟨m.fresh, 0⟩ (m.alloc n) = .error fault from h]
  rfl

/-- A new object changes no byte. -/
@[simp] theorem Mem.alloc_byte (m : Mem) (n : ℕ) : (m.alloc n).byte = m.byte := rfl

/-- The next object after a new one. -/
@[simp] theorem Mem.alloc_fresh (m : Mem) (n : ℕ) : (m.alloc n).fresh = m.fresh + 1 := rfl

/-- The size of a new object. -/
@[simp] theorem Mem.alloc_size_fresh (m : Mem) (n : ℕ) : (m.alloc n).size m.fresh = n :=
  Function.update_self ..

/-- The new object is valid for its capacity. -/
theorem Mem.valid_alloc (m : Mem) (n : ℕ) : (m.alloc n).Valid ⟨m.fresh, 0⟩ n := fun i hi => by
  simpa using hi

/-- Objects of the given sizes, added in turn. -/
def Mem.allocs : Mem → List ℕ → Mem
  | m, [] => m
  | m, n :: sizes => (m.alloc n).allocs sizes

/-- New objects leave the others their sizes. -/
theorem Mem.size_allocs_of_lt (sizes : List ℕ) {o : ℕ} (ho : o < m.fresh) :
    (m.allocs sizes).size o = m.size o := by
  induction sizes generalizing m with
  | nil => rfl
  | cons n sizes ih =>
    rw [Mem.allocs, ih (by simpa using Nat.lt_succ_of_lt ho)]
    exact Function.update_of_ne (by omega) _ _

/-- The object added at place `i`. -/
theorem Mem.size_allocs {sizes : List ℕ} {i : ℕ} (hi : sizes[i]? = some k) :
    (m.allocs sizes).size (m.fresh + i) = k := by
  induction sizes generalizing m i with
  | nil => exact absurd hi (by simp)
  | cons n sizes ih =>
    cases i with
    | zero =>
      cases hi
      exact (Mem.size_allocs_of_lt sizes (by simp)).trans (m.alloc_size_fresh _)
    | succ i =>
      have hnext := ih (m := m.alloc n) hi
      rwa [Mem.alloc_fresh, Nat.add_assoc, Nat.add_comm 1 i] at hnext

/-- Each of several new objects is valid in its size. -/
theorem Mem.valid_allocs {sizes : List ℕ} {i : ℕ} (hi : sizes[i]? = some k) :
    (m.allocs sizes).Valid ⟨m.fresh + i, 0⟩ k := fun j hj => by
  rw [Mem.size_allocs hi]
  simpa using hj

/-- Ranges that were valid stay valid. -/
theorem Mem.Valid.alloc (h : m.Valid p k) (n : ℕ) : (m.alloc n).Valid p k := fun i hi => by
  have hobj := h.obj_lt (by omega)
  change _ < Function.update m.size m.fresh n p.obj
  rw [Function.update_of_ne (by omega)]
  exact h i hi

/-- A valid range is disjoint from an object that does not exist yet. -/
theorem Mem.Valid.disjoint_fresh (h : m.Valid p k) {q : Addr} (hq : m.fresh ≤ q.obj) (n : ℕ) :
    Disjoint p k q n := by
  intro i hi j _ heq
  have hobj := h.obj_lt (by omega)
  have := congrArg Addr.obj heq
  simp only [Addr.add_obj] at this
  omega

/-- The objects of the first memory are as they were in the second. -/
structure Mem.Keeps (m m' : Mem) : Prop where
  size : ∀ o < m.fresh, m'.size o = m.size o
  byte : ∀ a : Addr, a.obj < m.fresh → m'.byte a = m.byte a

/-- What an earlier memory holds survives a new object. -/
theorem Mem.Keeps.alloc (h : m.Keeps m') (hfresh : m.fresh ≤ m'.fresh) (n : ℕ) :
    m.Keeps (m'.alloc n) := by
  refine ⟨fun o ho => ?_, h.byte⟩
  rw [← h.size o ho]
  exact Function.update_of_ne (by omega) _ _

/-- A new object keeps everything that was there. -/
theorem Mem.keeps_alloc (m : Mem) (n : ℕ) : m.Keeps (m.alloc n) :=
  Mem.Keeps.alloc ⟨fun _ _ => rfl, fun _ _ => rfl⟩ le_rfl n

/-- What only local objects have seen is gone with them. -/
theorem Mem.Keeps.release (h : m.Keeps m') : m'.release m = m := by
  refine Mem.ext_parts (funext fun o => ?_) (funext fun a => ?_) rfl
  · by_cases ho : o < m.fresh
    · simp [Mem.release, ho, h.size o ho]
    · simp [Mem.release, ho, m.size_fresh o (by omega)]
  · by_cases ha : a.obj < m.fresh
    · simp [Mem.release, ha, h.byte a ha]
    · simp [Mem.release, ha]

/-- Dropping a new object gives the memory before it. -/
@[simp] theorem Mem.release_alloc (m : Mem) (n : ℕ) : (m.alloc n).release m = m :=
  (m.keeps_alloc n).release

/-- A write to an object that ends its life leaves no trace. -/
theorem Mem.release_write_of_le (h : m.fresh ≤ p.obj) :
    (m'.write p k f).release m = m'.release m := by
  refine Mem.ext_parts rfl (funext fun a => ?_) rfl
  by_cases ha : a.obj < m.fresh
  · simp only [Mem.release, ha, if_true]
    exact Mem.write_byte_of_obj_ne (by omega)
  · simp [Mem.release, ha]

/-- A write to a range that outlives the local objects stays. -/
theorem Mem.release_write_of_valid (h : m.Valid p k) :
    (m'.write p k f).release m = (m'.release m).write p k f := by
  rcases Nat.eq_zero_or_pos k with rfl | hk
  · simp
  · have hobj := h.obj_lt hk
    refine Mem.ext_parts rfl (funext fun a => ?_) rfl
    by_cases ha : a.obj = p.obj
    · simp [Mem.release, Mem.write, ha, hobj]
    · simp [Mem.release, Mem.write, ha]

/-- The frame of a run with a local object, as seen after the object has ended its life. -/
theorem Mem.Frame.release {m₁ : Mem} (h : (m.alloc n).Frame m₁ ⟨m.fresh, 0⟩ n)
    (h' : m₁.Frame m' p k) :
    m.Frame (m'.release m) p k := by
  have hsize : m'.size = (m.alloc n).size := h'.size.trans h.size
  refine ⟨funext fun o => ?_, rfl, fun a ha => ?_⟩
  · by_cases ho : o < m.fresh
    · simp [Mem.release, ho, hsize, Mem.alloc, Function.update_of_ne (show o ≠ m.fresh by omega)]
    · simp [Mem.release, ho, m.size_fresh o (by omega)]
  · by_cases hobj : a.obj < m.fresh
    · have hlocal : ∀ i < n, a ≠ (⟨m.fresh, 0⟩ : Addr) + i := by
        rintro i - rfl
        simp at hobj
      simp only [Mem.release, hobj, if_true]
      rw [h'.byte a ha, h.byte a hlocal, Mem.alloc_byte]
    · simp [Mem.release, hobj]

/-- Local objects that end their life one after the other. -/
theorem Mem.release_release {m₁ : Mem} (h : m.fresh ≤ m₁.fresh) :
    (m'.release m₁).release m = m'.release m := by
  refine Mem.ext_parts (funext fun o => ?_) (funext fun a => ?_) rfl
  · by_cases ho : o < m.fresh
    · simp [Mem.release, ho, Nat.lt_of_lt_of_le ho h]
    · simp [Mem.release, ho]
  · by_cases ha : a.obj < m.fresh
    · simp [Mem.release, ha, Nat.lt_of_lt_of_le ha h]
    · simp [Mem.release, ha]

/-- A run that changes an object the first memory does not have. -/
theorem Mem.Keeps.frame {m'' : Mem} (h : m.Keeps m') (hframe : m'.Frame m'' p k)
    (hp : m.fresh ≤ p.obj) :
    m.Keeps m'' := by
  refine ⟨fun o ho => by rw [hframe.size, h.size o ho], fun a ha => ?_⟩
  rw [hframe.byte a, h.byte a ha]
  rintro i - rfl
  rw [Addr.add_obj] at ha
  omega

/-- The bytes of an object that outlives the local ones. -/
theorem Mem.release_byte {a : Addr} (ha : a.obj < m.fresh) : (m'.release m).byte a = m'.byte a :=
  if_pos ha

/-- What was valid before keeps its bytes when the objects since are dropped. -/
theorem Mem.bytes_release (hp : m.Valid p k) : (m'.release m).bytes p k = m'.bytes p k :=
  congrArg List.ofFn (funext fun i => Mem.release_byte (hp.obj_lt i.pos))

/-- So does a range of fixed length. -/
theorem Mem.vec_release (hp : m.Valid p k) : (m'.release m).vec p k = m'.vec p k :=
  congrArg Vector.ofFn (funext fun i => Mem.release_byte (hp.obj_lt i.pos))

/-- The sizes are as before when the local object has ended its life. -/
theorem Mem.size_release (h : m'.size = (m.alloc n).size) : (m'.release m).size = m.size := by
  funext o
  by_cases ho : o < m.fresh
  · simp [Mem.release, ho, h, Mem.alloc, Function.update_of_ne (show o ≠ m.fresh by omega)]
  · simp [Mem.release, ho, m.size_fresh o (by omega)]

end Locals

section Words

/-- The 64-bit word at an address, least significant byte first. -/
def Mem.u64 (m : Mem) (p : Addr) : UInt64 :=
  UInt64.ofNat ((m.bytes p 8).foldr (fun b acc => b.toNat + 256 * acc) 0)

/-- The memory after a 64-bit word has been stored. -/
def Mem.writeU64 (m : Mem) (p : Addr) (v : UInt64) : Mem :=
  m.write p 8 fun i => (v >>> UInt64.ofNat (8 * i)).toUInt8

/-- A 64-bit word is read in one access. -/
def loadU64 (p : Addr) : Exec UInt64 := fun m =>
  if m.Valid p 8 then .ok (m.u64 p, m) else .error (.load p)

/-- A 64-bit word is written in one access. -/
def storeU64 (p : Addr) (v : UInt64) : Exec Unit := fun m =>
  if m.Valid p 8 then .ok ((), m.writeU64 p v) else .error (.store p)

variable {m : Mem} {p q : Addr} {v : UInt64}

/-- Loading a word of eight bytes. -/
theorem Runs.loadU64 (h : m.Valid p 8) : Runs (Memory.loadU64 p) m (m.u64 p) m := if_pos h

/-- Storing a word of eight bytes. -/
theorem Runs.storeU64 (h : m.Valid p 8) (v : UInt64) :
    Runs (Memory.storeU64 p v) m () (m.writeU64 p v) := if_pos h

/-- Reading a word that was stored. -/
@[simp] theorem Mem.u64_writeU64 (m : Mem) (p : Addr) (v : UInt64) :
    (m.writeU64 p v).u64 p = v := by
  have hv := v.toNat_lt
  rw [Mem.u64, Mem.writeU64, Mem.bytes_write le_rfl]
  apply UInt64.toNat_inj.mp
  simp only [List.ofFn_succ, List.ofFn_zero, List.foldr, UInt64.toNat_ofNat', UInt64.toNat_toUInt8,
    UInt64.toNat_shiftRight]
  simp [Nat.shiftRight_eq_div_pow]
  omega

/-- Storing a word changes eight bytes. -/
theorem Mem.frame_writeU64 (m : Mem) (p : Addr) (v : UInt64) : m.Frame (m.writeU64 p v) p 8 :=
  m.frame_write p 8 _

/-- A word that was there before keeps its value when the objects since are dropped. -/
theorem Mem.u64_release {m' : Mem} (hp : m.Valid p 8) : (m'.release m).u64 p = m'.u64 p := by
  rw [Mem.u64, Mem.bytes_release hp, Mem.u64]

/-- A word apart from the changed range keeps its value. -/
theorem Mem.Frame.u64_of_disjoint {m' : Mem} {n : ℕ} (h : m.Frame m' p n) (hq : Disjoint q 8 p n) :
    m'.u64 q = m.u64 q := by
  rw [Mem.u64, h.bytes_of_disjoint hq, Mem.u64]

end Words

end Memory
