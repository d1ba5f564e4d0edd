import TweetNacl.GfChecked
import TweetNacl.Sign

/-!
# The operands of `M` in the runs of the program

The functions above the field arithmetic once more, with its calls replaced by those that stop: at
an overflow, and at an operand of `M` outside its bound. For all inputs, and in every memory, the
programs with these calls are the programs without them, so that no call of any run stops.
-/

namespace TweetNacl

open Limbs Memory

/-- The bound of the operands of `M`. -/
def Gf.Operand (a : Gf) : Prop := ∀ i < 16, -2 ^ 26 < a.limbs i ∧ a.limbs i < 2 ^ 26

instance (a : Gf) : Decidable a.Operand :=
  inferInstanceAs (Decidable (∀ i < 16, -2 ^ 26 < a.limbs i ∧ a.limbs i < 2 ^ 26))

/-- An operand is within the bound of `M`. -/
theorem Gf.Operand.bounded {a : Gf} (h : a.Operand) : a.Bounded (2 ^ 26) := fun i hi => by
  obtain ⟨hlow, hhigh⟩ := h i hi
  exact abs_le.mpr ⟨hlow.le, hhigh.le⟩

/-- An element within a smaller bound is an operand. -/
theorem Gf.Bounded.operand {b : ℤ} {a : Gf} (h : a.Bounded b) (hb : b < 2 ^ 26) : a.Operand :=
  fun i hi => by
  obtain ⟨hlow, hhigh⟩ := abs_le.mp (h i hi)
  constructor <;> linarith

namespace Checked

section Field

/-- A call of `M`, which stops at an operand out of its bound. -/
def callM (a b : Gf) : Option Gf := if a.Operand ∧ b.Operand then M a b else none

/-- `S`. -/
def S (a : Gf) : Option Gf := callM a a

/-- `inv25519`. -/
def inv25519 (i : Gf) : Option Gf :=
  Loops.tryFoldRev 254 (fun a _ c => do
    let c ← S c
    if a ≠ 2 ∧ a ≠ 4 then callM c i else some c) (set25519 i)

/-- `pow2523`. -/
def pow2523 (i : Gf) : Option Gf :=
  Loops.tryFoldRev 251 (fun a _ c => do
    let c ← S c
    if a ≠ 1 then callM c i else some c) (set25519 i)

/-- `pack25519`. -/
def pack25519 (n : Gf) : Option (Vector UInt8 32) := do
  let t := set25519 n
  let t ← car25519 t
  let t ← car25519 t
  let t ← car25519 t
  some (digitBytes (Nat.fold 2 (fun _ _ t => packStep t) t))

end Field

section Ladder

/-- The arithmetic in a pass of the loop of `crypto_scalarmult`. -/
def ladderArithmetic (x a b c d : Gf) : Option LadderState := do
  let e ← A a c
  let a ← Z a c
  let c ← A b d
  let b ← Z b d
  let d ← S e
  let f ← S a
  let a ← callM c a
  let c ← callM b e
  let e ← A a c
  let a ← Z a c
  let b ← S a
  let c ← Z d f
  let a ← callM c c121665
  let a ← A a d
  let c ← callM c a
  let a ← callM d f
  let d ← callM b x
  let b ← S e
  some ⟨a, b, c, d, e, f⟩

/-- A pass of the loop of `crypto_scalarmult`. -/
def ladderStep (x : Gf) (r : Int32) (s : LadderState) : Option LadderState := do
  let (a, b) := sel25519 s.a s.b r
  let (c, d) := sel25519 s.c s.d r
  let s ← ladderArithmetic x a b c d
  let (a, b) := sel25519 s.a s.b r
  let (c, d) := sel25519 s.c s.d r
  some ⟨a, b, c, d, s.e, s.f⟩

/-- The loop of `crypto_scalarmult`. -/
def ladderLoop (x : Gf) (z : Vector UInt8 32) : Option LadderState :=
  Loops.tryFoldRev 255 (fun i hi s => ladderStep x (scalarBit z i (Nat.lt_succ_of_lt hi)) s)
    ⟨gf1, x, gf0, gf1, gf0, gf0⟩

/-- The bytes that `crypto_scalarmult` computes. -/
def scalarmultBytes (n p : Vector UInt8 32) : Option (Vector UInt8 32) := do
  let s ← ladderLoop (unpack25519 p) (clampScalar n)
  let c ← inv25519 s.c
  let a ← callM s.a c
  pack25519 a

end Ladder

section Points

/-- `neq25519`. -/
def neq25519 (a b : Gf) : Option Int32 := do
  let c ← pack25519 a
  let d ← pack25519 b
  some (vn c d)

/-- `par25519`. -/
def par25519 (a : Gf) : Option UInt8 := do
  let d ← pack25519 a
  some (d.nth 0 &&& 1)

/-- `add`. -/
def add (p q : GfPoint) : Option GfPoint := do
  let a ← Z p.y p.x
  let t ← Z q.y q.x
  let a ← callM a t
  let b ← A p.x p.y
  let t ← A q.x q.y
  let b ← callM b t
  let c ← callM p.t q.t
  let c ← callM c Gf.D2
  let d ← callM p.z q.z
  let d ← A d d
  let e ← Z b a
  let f ← Z d c
  let g ← A d c
  let h ← A b a
  let x ← callM e f
  let y ← callM h g
  let z ← callM g f
  let t ← callM e h
  some ⟨x, y, z, t⟩

/-- `pack`. -/
def pack (p : GfPoint) : Option (Vector UInt8 32) := do
  let zi ← inv25519 p.z
  let tx ← callM p.x zi
  let ty ← callM p.y zi
  let r ← pack25519 ty
  let parity ← par25519 tx
  some (r.put 31 (r.nth 31 ^^^ (parity <<< 7)))

/-- A pass of the loop of `scalarmult`. -/
def scalarmultStep (b : Int32) (p q : GfPoint) : Option (GfPoint × GfPoint) := do
  let (p, q) := Ed25519.cswap p q b
  let q ← add q p
  let p ← add p p
  some (Ed25519.cswap p q b)

/-- `scalarmult`. -/
def scalarmult (q : GfPoint) (s : Vector UInt8 32) : Option GfPoint := do
  let r ← Loops.tryFoldRev 256 (fun i hi r => scalarmultStep (scalarBit s i hi) r.1 r.2)
    (⟨set25519 gf0, set25519 gf1, set25519 gf1, set25519 gf0⟩, q)
  some r.1

/-- `scalarbase`. -/
def scalarbase (s : Vector UInt8 32) : Option GfPoint := do
  let t ← callM Gf.X Gf.Y
  scalarmult ⟨set25519 Gf.X, set25519 Gf.Y, set25519 gf1, t⟩ s

/-- The candidate for the `x` coordinate in `unpackneg`. -/
def rootCandidate (num den : Gf) : Option Gf := do
  let den2 ← S den
  let den4 ← S den2
  let den6 ← callM den4 den2
  let t ← callM den6 num
  let t ← callM t den
  let t ← pow2523 t
  let t ← callM t num
  let t ← callM t den
  let t ← callM t den
  callM t den

/-- `unpackneg`: its result −1 is `none`. -/
def unpackneg (p : Vector UInt8 32) : Option (Option GfPoint) := do
  let z := set25519 gf1
  let y := unpack25519 p
  let num ← S y
  let den ← callM num Gf.D
  let num ← Z num z
  let den ← A z den
  let x ← rootCandidate num den
  let chk ← S x
  let chk ← callM chk den
  let differs ← neq25519 chk num
  let x ← (if differs ≠ 0 then callM x Gf.I else some x)
  let chk ← S x
  let chk ← callM chk den
  let differs ← neq25519 chk num
  if differs ≠ 0 then some none
  else do
    let parity ← par25519 x
    let x ← (if parity = p.nth 31 >>> 7 then Z gf0 x else some x)
    let t ← callM x y
    some (some ⟨x, y, z, t⟩)

end Points

section Programs

/-- A program over the memory that can also stop. -/
abbrev CheckedExec := StateT Mem (ExceptT Fault Option)

/-- A program without field arithmetic. -/
def ofExec {α : Type} (x : Exec α) : CheckedExec α := fun m => ExceptT.mk (some (x m))

/-- A computation on local arrays. -/
def ofArith {α : Type} (r : Option α) : CheckedExec α :=
  fun m => ExceptT.mk (r.map fun a => .ok (a, m))

/-- `crypto_scalarmult`. -/
def cryptoScalarmult (q n p : Ptr) : CheckedExec Int32 :=
  match q, n, p with
  | some q, some n, some p => do
    let n ← ofExec (loadVec n 32)
    let p ← ofExec (loadVec p 32)
    let bytes ← ofArith (scalarmultBytes n p)
    ofExec (storeVec q bytes)
    pure 0
  | _, _, _ => pure (-1)

variable (hash : List UInt8 → Vector UInt8 64)

/-- `crypto_sign_keypair`. -/
def cryptoSignKeypair (rng : RngAnswer 32) (pk sk : Ptr) : CheckedExec Int32 :=
  match pk, sk with
  | some pk, some sk => do
    let ret ← ofExec (randombytesSafe rng sk)
    if ret ≠ 0 then pure (-1)
    else do
      let d ← ofExec (hashOf hash sk 32)
      let d := clampHash d
      let p ← ofArith (scalarbase (Ed25519.low32 d))
      let bytes ← ofArith (pack p)
      ofExec (storeVec pk bytes)
      ofExec (copy (sk + 32) pk 32)
      pure 0
  | _, _ => pure (-1)

/-- `crypto_sign`. -/
def cryptoSign (sm mlen m : Ptr) (n : UInt64) (sk : Ptr) : CheckedExec Int32 :=
  match sm, mlen, m, sk with
  | some sm, some mlen, some m, some sk =>
    if n > sizeMax - 64 then pure (-1)
    else do
      let d ← ofExec (hashOf hash sk 32)
      let d := clampHash d
      ofExec (storeU64 mlen (n + 64))
      ofExec (copy (sm + 64) m n.toNat)
      ofExec (forN 32 fun i => store (sm + 32 + i) (d.getD (32 + i) 0))
      let r ← ofExec (hashOf hash (sm + 32) (n + 32).toNat)
      let r := Ed25519.reduce r
      let p ← ofArith (scalarbase (Ed25519.low32 r))
      let bytes ← ofArith (pack p)
      ofExec (storeVec sm bytes)
      ofExec (copy (sm + 32) (sk + 32) 32)
      let h ← ofExec (hashOf hash sm (n + 64).toNat)
      let h := Ed25519.reduce h
      ofExec (storeVec (sm + 32) (Ed25519.modL (Ed25519.mulAdd r h d)))
      pure 0
  | _, _, _, _ => pure (-1)

/-- `crypto_sign_open` from the copy of the signed message on. -/
def signOpenBody (m mlen sm : Addr) (n : UInt64) (pk : Addr) (q : GfPoint) : CheckedExec Int32 := do
  ofExec (copy m sm n.toNat)
  ofExec (copy (m + 32) pk 32)
  let h ← ofExec (hashOf hash m n.toNat)
  let h := Ed25519.reduce h
  let p ← ofArith (scalarmult q (Ed25519.low32 h))
  let s ← ofExec (loadVec (sm + 32) 32)
  let q ← ofArith (scalarbase s)
  let p ← ofArith (add p q)
  let t ← ofArith (pack p)
  let r ← ofExec (loadVec sm 32)
  let failed : UInt8 := if vn r t ≠ 0 then 1 else 0
  let mask := -failed
  ofExec (forN (n - 64).toNat fun i => do
    let src ← load (sm + 64 + i)
    store (m + i) (src &&& ~~~mask))
  if failed = 0 then do
    ofExec (storeU64 mlen (n - 64))
    pure 0
  else do
    ofExec (storeU64 mlen 0)
    pure (-1)

/-- `crypto_sign_open`. -/
def cryptoSignOpen (m mlen sm : Ptr) (n : UInt64) (pk : Ptr) : CheckedExec Int32 :=
  match m, mlen, sm, pk with
  | some m, some mlen, some sm, some pk =>
    if n > sizeMax - 64 then pure (-1)
    else if n < 64 then pure (-1)
    else do
      let key ← ofExec (loadVec pk 32)
      let point ← ofArith (unpackneg key)
      match point with
      | none => pure (-1)
      | some q => signOpenBody hash m mlen sm n pk q
  | _, _, _, _ => pure (-1)

end Programs

section Yields

/-- A computation does not stop: its result is the one of the code, with limbs at most `b`. -/
structure Yields (r : Option Gf) (b : ℤ) (v : Gf) : Prop where
  eq : r = some v
  bounded : v.Bounded b

variable {m n : ℤ} {a b : Gf}

/-- What follows a computation that does not stop. -/
theorem bind_of_eq {α β : Type} {r : Option α} {v : α} (h : r = some v) (f : α → Option β) :
    (r >>= f) = f v := by
  rw [h]
  rfl

/-- A computation that does not stop hands its result on. -/
theorem Yields.bind {β : Type} {r : Option Gf} (h : Yields r m a) (f : Gf → Option β) :
    (r >>= f) = f a :=
  bind_of_eq h.eq f

/-- A looser bound holds as well. -/
theorem Yields.mono {r : Option Gf} (h : Yields r m a) (hmn : m ≤ n) : Yields r n a :=
  ⟨h.eq, h.bounded.mono hmn⟩

/-- Both branches of a condition do not stop. -/
theorem Yields.ite {p : Prop} [Decidable p] {r r' : Option Gf} (ha : Yields r m a)
    (hb : Yields r' m b) :
    Yields (if p then r else r') m (if p then a else b) := by
  split
  · exact ha
  · exact hb

/-- `M` of bounded operands does not stop, and carries. -/
theorem callM_yields (ha : a.Bounded m) (hb : b.Bounded n) (hm : m < 2 ^ 26 := by norm_num)
    (hn : n < 2 ^ 26 := by norm_num) : Yields (callM a b) (2 ^ 17) (Gf.M a b) := by
  have ha' := ha.mono hm.le
  have hb' := hb.mono hn.le
  refine ⟨?_, (Gf.M_tight ha' hb').bounded⟩
  rw [callM, if_pos ⟨ha.operand hm, hb.operand hn⟩, M_eq ha' hb']

/-- `S` of a bounded operand does not stop, and carries. -/
theorem S_yields (ha : a.Bounded m) (hm : m < 2 ^ 26 := by norm_num) :
    Yields (S a) (2 ^ 17) (Gf.S a) :=
  callM_yields ha ha hm hm

/-- `A` of bounded operands does not stop. -/
theorem A_yields (ha : a.Bounded m) (hb : b.Bounded n) (hmn : m + n < 2 ^ 63 := by norm_num) :
    Yields (A a b) (m + n) (Gf.A a b) := ⟨A_eq ha hb hmn, ha.A hb hmn⟩

/-- `Z` of bounded operands does not stop. -/
theorem Z_yields (ha : a.Bounded m) (hb : b.Bounded n) (hmn : m + n < 2 ^ 63 := by norm_num) :
    Yields (Z a b) (m + n) (Gf.Z a b) := ⟨Z_eq ha hb hmn, ha.Z hb hmn⟩

/-- A pass of an exponentiation, with the multiplication or without it. -/
theorem pass_yields {i c : Gf} (p : Prop) [Decidable p] (hi : i.Bounded m) (hc : c.Bounded n)
    (hm : m < 2 ^ 26) (hn : n < 2 ^ 26) :
    Yields ((S c).bind fun c => if p then callM c i else some c) (2 ^ 17)
      (if p then Gf.M (Gf.S c) i else Gf.S c) := by
  have hsquare := S_yields hc hn
  rw [hsquare.eq, Option.bind_some]
  exact (callM_yields hsquare.bounded hi (by norm_num) hm).ite ⟨rfl, hsquare.bounded⟩

/-- A loop of passes does not stop. -/
theorem chain_eq {i : Gf} (hi : i.Bounded m) (hm : m < 2 ^ 26) (k : ℕ) (p : ℕ → Prop)
    [DecidablePred p] :
    Loops.tryFoldRev k (fun a _ c => (S c).bind fun c => if p a then callM c i else some c) i =
      some (Nat.foldRev k (fun a _ c => if p a then Gf.M (Gf.S c) i else Gf.S c) i) := by
  have hpass : ∀ a {c : Gf}, c.Bounded (2 ^ 26 - 1) →
    Yields ((S c).bind fun c => if p a then callM c i else some c)
      (2 ^ 17) (if p a then Gf.M (Gf.S c) i else Gf.S c) :=
      fun a _ hc => pass_yields (p a) hi hc hm (by norm_num)
  exact Loops.tryFoldRev_eq (fun _ c => c.Bounded (2 ^ 26 - 1)) (hi.mono (by omega))
    (fun a _ _ hc => (hpass a hc).bounded.mono (by norm_num)) fun a _ _ hc => (hpass a hc).eq

/-- `inv25519` of a bounded operand does not stop. -/
theorem inv25519_yields {i : Gf} (hi : i.Bounded m) (hm : m < 2 ^ 26 := by norm_num) :
    Yields (inv25519 i) (2 ^ 17) (TweetNacl.inv25519 i) := by
  refine ⟨?_, (hi.mono hm.le).denotes.inv25519.bounded⟩
  rw [inv25519, TweetNacl.inv25519, set25519_eq]
  exact chain_eq hi hm 254 fun a => a ≠ 2 ∧ a ≠ 4

/-- `pow2523` of a bounded operand does not stop. -/
theorem pow2523_yields {i : Gf} (hi : i.Bounded m) (hm : m < 2 ^ 26 := by norm_num) :
    Yields (pow2523 i) (2 ^ 17) (TweetNacl.pow2523 i) := by
  refine ⟨?_, (hi.mono hm.le).denotes.pow2523.bounded⟩
  rw [pow2523, TweetNacl.pow2523, set25519_eq]
  exact chain_eq hi hm 251 fun a => a ≠ 1

/-- `pack25519` of a bounded element does not stop. -/
theorem pack25519_eq {c : Gf} (hc : c.Bounded m) (hm : m ≤ 2 ^ 62 := by norm_num) :
    pack25519 c = some (TweetNacl.pack25519 c) := by
  have hone := hc.mono hm
  have htwo := car25519_bounded hone
  have hthree := car25519_bounded htwo
  simp only [pack25519, set25519_eq, car25519_eq hone, car25519_eq htwo, car25519_eq hthree,
    Option.bind_eq_bind, Option.bind_some]
  rw [TweetNacl.pack25519, set25519_eq]
  rfl

/-- `neq25519` of bounded elements does not stop. -/
theorem neq25519_eq (ha : a.Bounded m) (hb : b.Bounded n) (hm : m ≤ 2 ^ 62 := by norm_num)
    (hn : n ≤ 2 ^ 62 := by norm_num) : neq25519 a b = some (Ed25519.neq25519 a b) := by
  rw [neq25519, pack25519_eq ha hm, pack25519_eq hb hn]
  rfl

/-- `par25519` of a bounded element does not stop. -/
theorem par25519_eq (ha : a.Bounded m) (hm : m ≤ 2 ^ 62 := by norm_num) :
    par25519 a = some (Ed25519.par25519 a) := by
  rw [par25519, pack25519_eq ha hm]
  rfl

end Yields

section Ladder

/-- The working elements of the ladder that the next pass reads are in the range of products. -/
structure Carried (s : LadderState) : Prop where
  a : s.a.Bounded (2 ^ 17)
  b : s.b.Bounded (2 ^ 17)
  c : s.c.Bounded (2 ^ 17)
  d : s.d.Bounded (2 ^ 17)

variable {x : Gf} {s : LadderState}

/-- Between the exchanges no sum of products comes near the bound of `M`. -/
theorem ladderArithmetic_eq (hx : x.Bounded (2 ^ 16)) (hs : Carried s) :
    ladderArithmetic x s.a s.b s.c s.d = some (TweetNacl.ladderStep x 0 s) ∧
      Carried (TweetNacl.ladderStep x 0 s) := by
  have he := A_yields hs.a hs.c
  have ha := Z_yields hs.a hs.c
  have hc := A_yields hs.b hs.d
  have hb := Z_yields hs.b hs.d
  have hd := S_yields he.bounded
  have hf := S_yields ha.bounded
  have ha₂ := callM_yields hc.bounded ha.bounded
  have hc₂ := callM_yields hb.bounded he.bounded
  have he₂ := A_yields ha₂.bounded hc₂.bounded
  have ha₃ := Z_yields ha₂.bounded hc₂.bounded
  have hb₂ := S_yields ha₃.bounded
  have hc₃ := Z_yields hd.bounded hf.bounded
  have ha₄ := callM_yields hc₃.bounded c121665_denotes.bounded
  have ha₅ := A_yields ha₄.bounded hd.bounded
  have hc₄ := callM_yields hc₃.bounded ha₅.bounded
  have ha₆ := callM_yields hd.bounded hf.bounded
  have hd₂ := callM_yields hb₂.bounded hx
  have hb₃ := S_yields he₂.bounded
  constructor
  · rw [ladderArithmetic, he.bind, ha.bind, hc.bind, hb.bind, hd.bind, hf.bind, ha₂.bind, hc₂.bind,
      he₂.bind, ha₃.bind, hb₂.bind, hc₃.bind, ha₄.bind, ha₅.bind, hc₄.bind, ha₆.bind,
      hd₂.bind, hb₃.bind]
    simp only [TweetNacl.ladderStep, sel25519_zero]
  · simp only [TweetNacl.ladderStep, sel25519_zero]
    exact ⟨ha₆.bounded, hb₃.bounded, hc₄.bounded, hd₂.bounded⟩

/-- A pass of the ladder does not stop, and leaves products. -/
theorem ladderStep_eq (hx : x.Bounded (2 ^ 16)) (hs : Carried s) (bit : Bool) :
    ladderStep x (if bit then 1 else 0) s = some (TweetNacl.ladderStep x (if bit then 1 else 0) s) ∧
      Carried (TweetNacl.ladderStep x (if bit then 1 else 0) s) := by
  cases bit with
  | false =>
    obtain ⟨hpass, hcarried⟩ := ladderArithmetic_eq hx hs
    refine ⟨?_, hcarried⟩
    simp only [Bool.false_eq_true, if_false, ladderStep, sel25519_zero, bind_of_eq hpass]
  | true =>
    have hswap : Carried s.swap := ⟨hs.b, hs.a, hs.d, hs.c⟩
    obtain ⟨hpass, hcarried⟩ := ladderArithmetic_eq hx hswap
    simp only [LadderState.swap] at hpass
    simp only [if_true, ladderStep, sel25519_one, bind_of_eq hpass, ladderStep_one]
    exact ⟨rfl, hcarried.b, hcarried.a, hcarried.d, hcarried.c⟩

/-- The ladder does not stop. -/
theorem ladderLoop_eq (hx : x.Bounded (2 ^ 16)) (z : Vector UInt8 32) :
    ladderLoop x z = some (TweetNacl.ladderLoop x z) ∧ Carried (TweetNacl.ladderLoop x z) := by
  have hstart : Carried ⟨gf1, x, gf0, gf1, gf0, gf0⟩ :=
    ⟨gf1_denotes.bounded.mono (by norm_num), hx.mono (by norm_num),
      gf0_denotes.bounded.mono (by norm_num), gf1_denotes.bounded.mono (by norm_num)⟩
  have hpass : ∀ i (hi : i < 256) {s : LadderState}, Carried s →
      ladderStep x (scalarBit z i hi) s = some (TweetNacl.ladderStep x (scalarBit z i hi) s) ∧
        Carried (TweetNacl.ladderStep x (scalarBit z i hi) s) := fun i hi s hs => by
    rw [scalarBit_eq z hi]
    exact ladderStep_eq hx hs _
  rw [ladderLoop, TweetNacl.ladderLoop]
  constructor
  · exact Loops.tryFoldRev_eq (fun _ => Carried) hstart (fun i hi _ hs => (hpass i (by omega) hs).2)
      fun i hi _ hs => (hpass i (by omega) hs).1
  · exact Loops.foldRev_invariant (fun _ => Carried) hstart fun i hi _ hs =>
      (hpass i (by omega) hs).2

/-- The computation of `crypto_scalarmult` does not stop on any bytes. -/
theorem scalarmultBytes_eq (n p : Vector UInt8 32) :
    scalarmultBytes n p = some (TweetNacl.scalarmultBytes n p) := by
  obtain ⟨hloop, hcarried⟩ := ladderLoop_eq (unpack25519_denotes p).bounded (clampScalar n)
  have hc := inv25519_yields hcarried.c
  have ha := callM_yields hcarried.a hc.bounded
  rw [scalarmultBytes, bind_of_eq hloop, hc.bind, ha.bind]
  exact pack25519_eq ha.bounded

end Ladder

section Points

/-- The coordinates are in the range of products. -/
structure CarriedPoint (p : GfPoint) : Prop where
  x : p.x.Bounded (2 ^ 17)
  y : p.y.Bounded (2 ^ 17)
  z : p.z.Bounded (2 ^ 17)
  t : p.t.Bounded (2 ^ 17)

variable {p q : GfPoint}

/-- `add` does not stop, and leaves products. -/
theorem add_eq (hp : CarriedPoint p) (hq : CarriedPoint q) :
    add p q = some (Ed25519.add p q) ∧ CarriedPoint (Ed25519.add p q) := by
  have ha := Z_yields hp.y hp.x
  have ht := Z_yields hq.y hq.x
  have ha₂ := callM_yields ha.bounded ht.bounded
  have hb := A_yields hp.x hp.y
  have ht₂ := A_yields hq.x hq.y
  have hb₂ := callM_yields hb.bounded ht₂.bounded
  have hc := callM_yields hp.t hq.t
  have hc₂ := callM_yields hc.bounded Ed25519.D2_denotes.bounded
  have hd := callM_yields hp.z hq.z
  have hd₂ := A_yields hd.bounded hd.bounded
  have he := Z_yields hb₂.bounded ha₂.bounded
  have hf := Z_yields hd₂.bounded hc₂.bounded
  have hg := A_yields hd₂.bounded hc₂.bounded
  have hh := A_yields hb₂.bounded ha₂.bounded
  have hx := callM_yields he.bounded hf.bounded
  have hy := callM_yields hh.bounded hg.bounded
  have hz := callM_yields hg.bounded hf.bounded
  have ht₃ := callM_yields he.bounded hh.bounded
  refine ⟨?_, hx.bounded, hy.bounded, hz.bounded, ht₃.bounded⟩
  rw [add, ha.bind, ht.bind, ha₂.bind, hb.bind, ht₂.bind, hb₂.bind, hc.bind, hc₂.bind, hd.bind,
    hd₂.bind, he.bind, hf.bind, hg.bind, hh.bind, hx.bind, hy.bind, hz.bind, ht₃.bind]
  rfl

/-- `pack` of a point in range does not stop. -/
theorem pack_eq (hp : CarriedPoint p) : pack p = some (Ed25519.pack p) := by
  have hzi := inv25519_yields hp.z
  have htx := callM_yields hp.x hzi.bounded
  have hty := callM_yields hp.y hzi.bounded
  rw [pack, hzi.bind, htx.bind, hty.bind, bind_of_eq (pack25519_eq hty.bounded),
    bind_of_eq (par25519_eq htx.bounded)]
  rfl

/-- A pass of `scalarmult` does not stop, and leaves products. -/
theorem scalarmultStep_eq (hp : CarriedPoint p) (hq : CarriedPoint q) (bit : Bool) :
    scalarmultStep (if bit then 1 else 0) p q =
      some (Ed25519.scalarmultStep (if bit then 1 else 0) p q) ∧
      CarriedPoint (Ed25519.scalarmultStep (if bit then 1 else 0) p q).1 ∧
      CarriedPoint (Ed25519.scalarmultStep (if bit then 1 else 0) p q).2 := by
  cases bit with
  | false =>
    obtain ⟨hsum, hcarried⟩ := add_eq hq hp
    obtain ⟨hdouble, hcarried'⟩ := add_eq hp hp
    have hkeep : ∀ p q, Ed25519.cswap p q 0 = (p, q) := fun p q => Ed25519.cswap_bit p q false
    simp only [Bool.false_eq_true, if_false, scalarmultStep, Ed25519.scalarmultStep, hkeep,
      bind_of_eq hsum, bind_of_eq hdouble]
    exact ⟨trivial, hcarried', hcarried⟩
  | true =>
    obtain ⟨hsum, hcarried⟩ := add_eq hp hq
    obtain ⟨hdouble, hcarried'⟩ := add_eq hq hq
    have hswap : ∀ p q, Ed25519.cswap p q 1 = (q, p) := fun p q => Ed25519.cswap_bit p q true
    simp only [if_true, scalarmultStep, Ed25519.scalarmultStep, hswap, bind_of_eq hsum,
      bind_of_eq hdouble]
    exact ⟨trivial, hcarried, hcarried'⟩

/-- `scalarmult` does not stop. -/
theorem scalarmult_eq (hq : CarriedPoint q) (s : Vector UInt8 32) :
    scalarmult q s = some (Ed25519.scalarmult q s) ∧ CarriedPoint (Ed25519.scalarmult q s) := by
  have hzero : CarriedPoint ⟨set25519 gf0, set25519 gf1, set25519 gf1, set25519 gf0⟩ := by
    simp only [set25519_eq]
    exact ⟨gf0_denotes.bounded.mono (by norm_num), gf1_denotes.bounded.mono (by norm_num),
      gf1_denotes.bounded.mono (by norm_num), gf0_denotes.bounded.mono (by norm_num)⟩
  have hpass : ∀ i (hi : i < 256) (r : GfPoint × GfPoint), CarriedPoint r.1 ∧ CarriedPoint r.2 →
      scalarmultStep (scalarBit s i hi) r.1 r.2 =
      some (Ed25519.scalarmultStep (scalarBit s i hi) r.1 r.2) ∧
        CarriedPoint (Ed25519.scalarmultStep (scalarBit s i hi) r.1 r.2).1 ∧
        CarriedPoint (Ed25519.scalarmultStep (scalarBit s i hi) r.1 r.2).2 := fun i hi r hr => by
    rw [scalarBit_eq s hi]
    exact scalarmultStep_eq hr.1 hr.2 _
  have hstart :
    CarriedPoint (GfPoint.mk (set25519 gf0) (set25519 gf1) (set25519 gf1) (set25519 gf0), q).1 ∧
      CarriedPoint q := ⟨hzero, hq⟩
  constructor
  · have hloop := Loops.tryFoldRev_eq (fun _ r => CarriedPoint r.1 ∧ CarriedPoint r.2) hstart
      (fun i hi r hr => (hpass i hi r hr).2) fun i hi r hr => (hpass i hi r hr).1
    rw [scalarmult, hloop]
    rfl
  · have hloop := Loops.foldRev_invariant (fun _ r => CarriedPoint r.1 ∧ CarriedPoint r.2) hstart
      fun i hi r hr => (hpass i hi r hr).2
    exact hloop.1

/-- `scalarbase` does not stop, and leaves products. -/
theorem scalarbase_eq (s : Vector UInt8 32) :
    scalarbase s = some (Ed25519.scalarbase s) ∧ CarriedPoint (Ed25519.scalarbase s) := by
  have hX := Ed25519.X_denotes.bounded
  have hY := Ed25519.Y_denotes.bounded
  have ht := callM_yields hX hY
  have hbase : CarriedPoint ⟨set25519 Gf.X, set25519 Gf.Y, set25519 gf1, Gf.M Gf.X Gf.Y⟩ := by
    simp only [set25519_eq]
    exact ⟨hX.mono (by norm_num), hY.mono (by norm_num),
      gf1_denotes.bounded.mono (by norm_num), ht.bounded⟩
  rw [scalarbase, ht.bind]
  exact scalarmult_eq hbase s

/-- The exponentiation of `unpackneg` does not stop. -/
theorem rootCandidate_yields {num den : Gf} {m n : ℤ} (hnum : num.Bounded m) (hden : den.Bounded n)
    (hm : m < 2 ^ 26 := by norm_num) (hn : n < 2 ^ 26 := by norm_num) :
    Yields (rootCandidate num den) (2 ^ 17) (Ed25519.rootCandidate num den) := by
  have hden2 := S_yields hden hn
  have hden4 := S_yields hden2.bounded
  have hden6 := callM_yields hden4.bounded hden2.bounded
  have ht := callM_yields hden6.bounded hnum (by norm_num) hm
  have ht₂ := callM_yields ht.bounded hden (by norm_num) hn
  have hpow := pow2523_yields ht₂.bounded
  have ht₃ := callM_yields hpow.bounded hnum (by norm_num) hm
  have ht₄ := callM_yields ht₃.bounded hden (by norm_num) hn
  have ht₅ := callM_yields ht₄.bounded hden (by norm_num) hn
  have hx := callM_yields ht₅.bounded hden (by norm_num) hn
  refine ⟨?_, hx.bounded⟩
  rw [rootCandidate, hden2.bind, hden4.bind, hden6.bind, ht.bind, ht₂.bind, hpow.bind, ht₃.bind,
    ht₄.bind, ht₅.bind, hx.eq]
  rfl

/-- `unpackneg` does not stop on any bytes. -/
theorem unpackneg_eq (p : Vector UInt8 32) : unpackneg p = some (Ed25519.unpackneg p) := by
  have hy := (unpack25519_denotes p).bounded
  have hone := gf1_denotes.bounded
  have hsq := S_yields hy
  have hden := callM_yields hsq.bounded Ed25519.D_denotes.bounded
  have hnum := Z_yields hsq.bounded hone
  have hden₂ := A_yields hone hden.bounded
  have hroot := rootCandidate_yields hnum.bounded hden₂.bounded
  rw [unpackneg, set25519_eq, hsq.bind, hden.bind, hnum.bind, hden₂.bind, hroot.bind]
  simp only [Ed25519.unpackneg, set25519_eq]
  have hx := hroot.bounded
  clear hroot hden hsq
  replace hnum := hnum.bounded
  replace hden₂ := hden₂.bounded
  generalize Gf.Z (Gf.S (unpack25519 p)) gf1 = num at hnum hx ⊢
  generalize Gf.A gf1 (Gf.M (Gf.S (unpack25519 p)) Gf.D) = den at hden₂ hx ⊢
  generalize Ed25519.rootCandidate num den = x at hx ⊢
  -- the two checks are made alike
  have hcheck : ∀ {x : Gf} (f : Int32 → Option (Option GfPoint)), x.Bounded (2 ^ 17) →
      (do
        let chk ← S x
        let chk ← callM chk den
        let differs ← neq25519 chk num
        f differs) = f (Ed25519.neq25519 (Gf.M (Gf.S x) den) num) := fun f hx => by
    have hsquare := S_yields hx
    have hchk := callM_yields hsquare.bounded hden₂
    rw [hsquare.bind, hchk.bind, bind_of_eq (neq25519_eq hchk.bounded hnum)]
  have hchosen := Yields.ite (p := Ed25519.neq25519 (Gf.M (Gf.S x) den) num ≠ 0)
    (callM_yields hx Ed25519.I_denotes.bounded) ⟨rfl, hx⟩
  rw [hcheck _ hx, hchosen.bind, hcheck _ hchosen.bounded]
  replace hchosen := hchosen.bounded
  generalize (if Ed25519.neq25519 (Gf.M (Gf.S x) den) num ≠ 0 then Gf.M x Gf.I else x) =
    x at hchosen ⊢
  split
  · rfl
  · have hsigned := Yields.ite (p := Ed25519.par25519 x = p.nth 31 >>> 7)
      ((Z_yields gf0_denotes.bounded hchosen).mono (by norm_num : 0 + (2 : ℤ) ^ 17 ≤ 2 ^ 17))
      ⟨rfl, hchosen⟩
    have ht := callM_yields hsigned.bounded hy
    rw [bind_of_eq (par25519_eq hchosen), hsigned.bind, ht.bind]

/-- The point that `unpackneg` decodes. -/
theorem unpackneg_carried {p : Vector UInt8 32} {q : GfPoint} (h : Ed25519.unpackneg p = some q) :
    CarriedPoint q := by
  obtain ⟨P, -, e, hholds, -⟩ := Ed25519.unpackneg_some h
  exact ⟨hholds.x.bounded, hholds.y.bounded, hholds.z.bounded, hholds.t.bounded⟩

end Points

section Programs

variable {α β : Type}

/-- A computation that does not stop is its result. -/
theorem ofArith_of_eq {r : Option α} {a : α} (h : r = some a) : ofArith r = pure a := by
  rw [h]
  rfl

/-- A result needs no memory. -/
theorem ofExec_pure (a : α) : ofExec (pure a) = pure a := rfl

/-- A program stops where a part of it does, and its parts without field arithmetic do not. -/
theorem ofExec_bind (x : Exec α) (f : α → Exec β) :
    ofExec (x >>= f) = ofExec x >>= fun a => ofExec (f a) := by
  funext m
  have hleft : ofExec (x >>= f) m = ExceptT.mk (some (x m >>= fun r => f r.1 r.2)) := rfl
  have hright : (ofExec x >>= fun a => ofExec (f a)) m =
      ExceptT.bind (ExceptT.mk (some (x m))) fun r => ExceptT.mk (some (f r.1 r.2)) := rfl
  rw [hleft, hright]
  cases x m <;> rfl

/-- A condition is decided before or after the translation. -/
theorem ofExec_ite (p : Prop) [Decidable p] (x y : Exec α) :
    ofExec (if p then x else y) = if p then ofExec x else ofExec y :=
  apply_ite ofExec p x y

/-- `crypto_scalarmult` does not stop, on any arguments. -/
theorem cryptoScalarmult_eq (q n p : Ptr) :
    cryptoScalarmult q n p = ofExec (TweetNacl.cryptoScalarmult q n p) := by
  cases q with
  | none => rfl
  | some q =>
    cases n with
    | none => rfl
    | some n =>
      cases p with
      | none => rfl
      | some p =>
        simp only [cryptoScalarmult, TweetNacl.cryptoScalarmult, ofExec_bind, ofExec_pure,
          fun n p => ofArith_of_eq (scalarmultBytes_eq n p), pure_bind]

variable (hash : List UInt8 → Vector UInt8 64)

/-- A scalar times the base point, encoded. -/
theorem ofArith_scalarbase (s : Vector UInt8 32) (f : Vector UInt8 32 → CheckedExec β) :
    (do
      let p ← ofArith (scalarbase s)
      let bytes ← ofArith (pack p)
      f bytes) = f (Ed25519.pack (Ed25519.scalarbase s)) := by
  obtain ⟨hbase, hcarried⟩ := scalarbase_eq s
  rw [ofArith_of_eq hbase, pure_bind, ofArith_of_eq (pack_eq hcarried), pure_bind]

/-- `crypto_sign_keypair` does not stop, on any arguments. -/
theorem cryptoSignKeypair_eq (rng : RngAnswer 32) (pk sk : Ptr) :
    cryptoSignKeypair hash rng pk sk = ofExec (TweetNacl.cryptoSignKeypair hash rng pk sk) := by
  cases pk with
  | none => rfl
  | some pk =>
    cases sk with
    | none => rfl
    | some sk =>
      simp only [cryptoSignKeypair, TweetNacl.cryptoSignKeypair, ofExec_bind, ofExec_ite,
        ofExec_pure, ofArith_scalarbase]

/-- `crypto_sign` does not stop, on any arguments. -/
theorem cryptoSign_eq (sm mlen m : Ptr) (n : UInt64) (sk : Ptr) :
    cryptoSign hash sm mlen m n sk = ofExec (TweetNacl.cryptoSign hash sm mlen m n sk) := by
  match sm, mlen, m, sk with
  | none, _, _, _ => rfl
  | some _, none, _, _ => rfl
  | some _, some _, none, _ => rfl
  | some _, some _, some _, none => rfl
  | some sm, some mlen, some m, some sk =>
    simp only [cryptoSign, TweetNacl.cryptoSign, ofExec_bind, ofExec_ite, ofExec_pure,
      ofArith_scalarbase]

/-- The body of `crypto_sign_open` does not stop on a decoded key. -/
theorem signOpenBody_eq (m mlen sm : Addr) (n : UInt64) (pk : Addr) {q : GfPoint}
    (hq : CarriedPoint q) :
    signOpenBody hash m mlen sm n pk q = ofExec (TweetNacl.signOpenBody hash m mlen sm n pk q) := by
  have hrecover : ∀ h s, ∀ f : Vector UInt8 32 → CheckedExec Int32, (do
      let b ← ofArith (scalarbase s)
      let p ← ofArith (add (Ed25519.scalarmult q h) b)
      let t ← ofArith (pack p)
      f t) = f (Ed25519.pack (Ed25519.add (Ed25519.scalarmult q h) (Ed25519.scalarbase s))) :=
          fun h s f => by
    obtain ⟨hbase, hcarried⟩ := scalarbase_eq s
    obtain ⟨hsum, hsummed⟩ := add_eq (scalarmult_eq hq h).2 hcarried
    rw [ofArith_of_eq hbase, pure_bind, ofArith_of_eq hsum, pure_bind,
      ofArith_of_eq (pack_eq hsummed), pure_bind]
  simp only [signOpenBody, TweetNacl.signOpenBody, ofExec_bind, ofExec_ite, ofExec_pure,
    fun h => ofArith_of_eq (scalarmult_eq hq h).1, pure_bind, hrecover]

/-- `crypto_sign_open` does not stop, on any arguments. -/
theorem cryptoSignOpen_eq (m mlen sm : Ptr) (n : UInt64) (pk : Ptr) :
    cryptoSignOpen hash m mlen sm n pk = ofExec (TweetNacl.cryptoSignOpen hash m mlen sm n pk) := by
  match m, mlen, sm, pk with
  | none, _, _, _ => rfl
  | some _, none, _, _ => rfl
  | some _, some _, none, _ => rfl
  | some _, some _, some _, none => rfl
  | some m, some mlen, some sm, some pk =>
    simp only [cryptoSignOpen, TweetNacl.cryptoSignOpen, ofExec_bind, ofExec_ite, ofExec_pure,
      fun key => ofArith_of_eq (unpackneg_eq key), pure_bind]
    congr 3
    funext key
    cases hkey : Ed25519.unpackneg key with
    | none => rfl
    | some q => exact signOpenBody_eq hash m mlen sm n pk (unpackneg_carried hkey)

end Programs

end Checked

/-- The integers of two arrays of limbs are congruent if the arrays stand for the same field
element. -/
theorem Gf.value_modEq {a : Gf} {z : ℤ} (h : a.toField = (z : Fp)) :
    a.value ≡ z [ZMOD 2 ^ 255 - 19] :=
  intCast_eq_iff.mp h

/-- `M` on operands within its bound multiplies without an overflow, whichever of its three arrays
are the same. In the runs of the four functions no operand of `M` is out of the bound, since the
programs that stop there never do. -/
theorem field_multiplication :
    (∀ {ι : Type} [DecidableEq ι] (s : ι → Gf) (o a b : ι), (s a).Operand → (s b).Operand →
      Checked.MArrays o a b s = some (Function.update s o (Gf.M (s a) (s b))) ∧
      (Gf.M (s a) (s b)).Tight ∧
        (Gf.M (s a) (s b)).value ≡ (s a).value * (s b).value [ZMOD 2 ^ 255 - 19]) ∧
    (∀ q n p, Checked.cryptoScalarmult q n p = Checked.ofExec (cryptoScalarmult q n p)) ∧
    ∀ hash : List UInt8 → Vector UInt8 64,
      (∀ rng pk sk, Checked.cryptoSignKeypair hash rng pk sk = Checked.ofExec
        (cryptoSignKeypair hash rng pk sk)) ∧
      (∀ sm mlen m n sk, Checked.cryptoSign hash sm mlen m n sk = Checked.ofExec
        (cryptoSign hash sm mlen m n sk)) ∧
      ∀ m mlen sm n pk,
        Checked.cryptoSignOpen hash m mlen sm n pk = Checked.ofExec
        (cryptoSignOpen hash m mlen sm n pk) := by
  refine ⟨fun s o a b ha hb => ⟨?_, Gf.M_tight ha.bounded hb.bounded, ?_⟩,
      Checked.cryptoScalarmult_eq, fun hash =>
    ⟨Checked.cryptoSignKeypair_eq hash, Checked.cryptoSign_eq hash, Checked.cryptoSignOpen_eq hash⟩⟩
  · rw [Checked.MArrays_eq, Checked.M_eq ha.bounded hb.bounded, Option.map_some]
  · apply Gf.value_modEq
    rw [Gf.M_toField ha.bounded hb.bounded, Int.cast_mul]
    rfl

/-- The square of the coefficient of the curve, in place. -/
theorem field_multiplication_D :
    Checked.MArrays 0 0 0 (fun _ : Fin 1 => Gf.D) =
        some (Function.update (fun _ : Fin 1 => Gf.D) 0 (Gf.M Gf.D Gf.D)) ∧
      (Gf.M Gf.D Gf.D).Tight ∧
        (Gf.M Gf.D Gf.D).value ≡ Gf.D.value * Gf.D.value [ZMOD 2 ^ 255 - 19] :=
  field_multiplication.1 (fun _ : Fin 1 => Gf.D) 0 0 0 (by decide) (by decide)

end TweetNacl
