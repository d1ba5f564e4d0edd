import TweetNacl.Lib.Memory

/-!
# Programs with a record of their accesses

A program over the memory that appends every byte it loads or stores to a log. What the program
touches is then a fact about the log of its run, also where the object goes on beyond what it should
touch.
-/

namespace Memory

/-- An access to a byte. -/
inductive Access where
  | load (p : Addr)
  | store (p : Addr)
deriving DecidableEq

/-- A program over the memory that keeps a log. -/
abbrev Logged := StateT (List Access) Exec

namespace Logged

/-- The byte at an address. -/
def load (p : Addr) : Logged UInt8 := fun log => do
  let b ← Memory.load p
  pure (b, log ++ [.load p])

/-- Replace the byte at an address. -/
def store (p : Addr) (b : UInt8) : Logged Unit := fun log => do
  Memory.store p b
  pure ((), log ++ [.store p])

end Logged

section Rules

variable {α β : Type} {x : Logged α} {m m' m'' : Mem} {a : α} {b : β}
  {log log' : List Access} {p : Addr}

/-- The program ends with a result and a memory, and has made the accesses of the log. -/
def Logs (x : Logged α) (m : Mem) (a : α) (m' : Mem) (log : List Access) : Prop :=
  ∀ before, Runs (x before) m (a, before ++ log) m'

/-- A value alone logs nothing. -/
theorem Logs.pure (a : α) (m : Mem) : Logs (pure a) m a m [] := fun before => by
  rw [List.append_nil]
  exact Runs.pure _ _

/-- One program after the other: the logs follow each other. -/
theorem Logs.bind {f : α → Logged β} (hx : Logs x m a m' log) (hf : Logs (f a) m' b m'' log') :
    Logs (x >>= f) m b m'' (log ++ log') := fun before => by
  rw [← List.append_assoc]
  exact Runs.bind (f := fun p => f p.1 p.2) (hx before) (hf (before ++ log))

/-- A load logs its address. -/
theorem Logs.load (h : m.Valid p 1) : Logs (Logged.load p) m (m.byte p) m [.load p] := fun _ =>
  (Runs.load h).bind (Runs.pure _ _)

/-- A store logs its address. -/
theorem Logs.store (h : m.Valid p 1) (b : UInt8) :
    Logs (Logged.store p b) m () (m.write p 1 fun _ => b) [.store p] := fun _ =>
  (Runs.store h b).bind (Runs.pure _ _)

/-- One of the `n` bytes from `p` on. -/
def InRange (p : Addr) (n : ℕ) (a : Addr) : Prop := ∃ i < n, a = p + i

/-- Every load of the log is in one set of addresses and every store in another one. -/
def Within (reads writes : Addr → Prop) (log : List Access) : Prop :=
  ∀ access ∈ log, match access with
    | .load p => reads p
    | .store p => writes p

variable {reads writes : Addr → Prop}

/-- The empty log stays within any ranges. -/
theorem Within.nil : Within reads writes [] := fun _ h => absurd h List.not_mem_nil

/-- One load within the range of the reads. -/
theorem Within.load (h : reads p) : Within reads writes [.load p] := fun access haccess => by
  obtain rfl := List.mem_singleton.mp haccess
  exact h

/-- One store within the range of the writes. -/
theorem Within.store (h : writes p) : Within reads writes [.store p] := fun access haccess => by
  obtain rfl := List.mem_singleton.mp haccess
  exact h

/-- Logs that follow each other stay within the ranges if each of them does. -/
theorem Within.append (h : Within reads writes log) (h' : Within reads writes log') :
    Within reads writes (log ++ log') := fun access haccess => by
  rcases List.mem_append.mp haccess with hmem | hmem
  · exact h access hmem
  · exact h' access hmem

end Rules

end Memory
