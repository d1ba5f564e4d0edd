import TweetNacl.Gf
import TweetNacl.Lib.Indexing
import TweetNacl.ScalarMult
import TweetNacl.Verify

/-!
# The point code of Ed25519

A point is `gf p[4]`, extended coordinates on the twisted Edwards curve. This file
transcribes `add` to `scalarbase` and `unpackneg`. The functions that update `p` and `q`
in place return the updated points; `add` has read all of `p` and `q` before it writes.
-/

namespace TweetNacl

/-- `gf p[4]`. -/
structure GfPoint where
  x : Gf
  y : Gf
  z : Gf
  t : Gf

namespace Ed25519

/-- `neq25519`. -/
def neq25519 (a b : Gf) : Int32 := vn (pack25519 a) (pack25519 b)

/-- `par25519`. -/
def par25519 (a : Gf) : UInt8 := (pack25519 a).nth 0 &&& 1

/-- `add`: the sum of `p` and `q`, which the code writes to `p`. -/
def add (p q : GfPoint) : GfPoint :=
  let a := Gf.Z p.y p.x
  let t := Gf.Z q.y q.x
  let a := Gf.M a t
  let b := Gf.A p.x p.y
  let t := Gf.A q.x q.y
  let b := Gf.M b t
  let c := Gf.M p.t q.t
  let c := Gf.M c Gf.D2
  let d := Gf.M p.z q.z
  let d := Gf.A d d
  let e := Gf.Z b a
  let f := Gf.Z d c
  let g := Gf.A d c
  let h := Gf.A b a
  ⟨Gf.M e f, Gf.M h g, Gf.M g f, Gf.M e h⟩

/-- `cswap`. -/
def cswap (p q : GfPoint) (b : Int32) : GfPoint × GfPoint :=
  let (px, qx) := sel25519 p.x q.x b
  let (py, qy) := sel25519 p.y q.y b
  let (pz, qz) := sel25519 p.z q.z b
  let (pt, qt) := sel25519 p.t q.t b
  (⟨px, py, pz, pt⟩, ⟨qx, qy, qz, qt⟩)

/-- `pack`. -/
def pack (p : GfPoint) : Vector UInt8 32 :=
  let zi := inv25519 p.z
  let tx := Gf.M p.x zi
  let ty := Gf.M p.y zi
  let r := pack25519 ty
  r.put 31 (r.nth 31 ^^^ (par25519 tx <<< 7))

/-- One pass of the loop of `scalarmult`. -/
def scalarmultStep (b : Int32) (p q : GfPoint) : GfPoint × GfPoint :=
  let (p, q) := cswap p q b
  let q := add q p
  let p := add p p
  cswap p q b

/-- `scalarmult`: the values of `p` and `q` after the loop. -/
def scalarmultLoop (q : GfPoint) (s : Vector UInt8 32) : GfPoint × GfPoint :=
  Nat.foldRev 256 (fun i hi (p, q) => scalarmultStep (scalarBit s i hi) p q)
    (⟨set25519 gf0, set25519 gf1, set25519 gf1, set25519 gf0⟩, q)

/-- The point `scalarmult` leaves in `p`. -/
def scalarmult (q : GfPoint) (s : Vector UInt8 32) : GfPoint := (scalarmultLoop q s).1

/-- `scalarbase`. -/
def scalarbase (s : Vector UInt8 32) : GfPoint :=
  scalarmult ⟨set25519 Gf.X, set25519 Gf.Y, set25519 gf1, Gf.M Gf.X Gf.Y⟩ s

/-- The candidate for the `x` coordinate in `unpackneg`, up to a factor `I`. -/
def rootCandidate (num den : Gf) : Gf :=
  let den2 := Gf.S den
  let den4 := Gf.S den2
  let den6 := Gf.M den4 den2
  let t := Gf.M den6 num
  let t := Gf.M t den
  let t := pow2523 t
  let t := Gf.M t num
  let t := Gf.M t den
  let t := Gf.M t den
  Gf.M t den

/-- `unpackneg`: the negative of the point an encoding denotes, `none` for the result −1. -/
def unpackneg (p : Vector UInt8 32) : Option GfPoint :=
  let z := set25519 gf1
  let y := unpack25519 p
  let num := Gf.S y
  let den := Gf.M num Gf.D
  let num := Gf.Z num z
  let den := Gf.A z den
  let x := rootCandidate num den
  let chk := Gf.M (Gf.S x) den
  let x := if neq25519 chk num ≠ 0 then Gf.M x Gf.I else x
  let chk := Gf.M (Gf.S x) den
  if neq25519 chk num ≠ 0 then none
  else
    let x := if par25519 x = p.nth 31 >>> 7 then Gf.Z gf0 x else x
    some ⟨x, y, z, Gf.M x y⟩

end Ed25519

end TweetNacl
