import TweetNacl.Ed25519Correct

/-!
# The point functions on arrays

`add`, `cswap` and `scalarmult` of the code work in place on arrays `gf p[4]`, and `scalarmult`
calls `add` with one array for both arguments. On an assignment of contents to arrays they have the
effect of the functions on values. An array holds a point if its limbs are small enough for `add`
and its four coordinates satisfy the equations of extended coordinates.
-/

namespace TweetNacl

open Edwards Limbs

namespace Ed25519

section Code

variable {ι : Type*} [DecidableEq ι]

/-- The contents of the arrays `gf p[4]`. -/
abbrev Arrays (ι : Type*) := ι → GfPoint

/-- Write `p[0]`. -/
def setX (p : ι) (a : Gf) (s : Arrays ι) : Arrays ι := Function.update s p { s p with x := a }

/-- Write `p[1]`. -/
def setY (p : ι) (a : Gf) (s : Arrays ι) : Arrays ι := Function.update s p { s p with y := a }

/-- Write `p[2]`. -/
def setZ (p : ι) (a : Gf) (s : Arrays ι) : Arrays ι := Function.update s p { s p with z := a }

/-- Write `p[3]`. -/
def setT (p : ι) (a : Gf) (s : Arrays ι) : Arrays ι := Function.update s p { s p with t := a }

/-- `add`, which may be called with one array for `p` and `q`. -/
def addArrays (p q : ι) (s : Arrays ι) : Arrays ι :=
  let a := Gf.Z (s p).y (s p).x
  let t := Gf.Z (s q).y (s q).x
  let a := Gf.M a t
  let b := Gf.A (s p).x (s p).y
  let t := Gf.A (s q).x (s q).y
  let b := Gf.M b t
  let c := Gf.M (s p).t (s q).t
  let c := Gf.M c Gf.D2
  let d := Gf.M (s p).z (s q).z
  let d := Gf.A d d
  let e := Gf.Z b a
  let f := Gf.Z d c
  let g := Gf.A d c
  let h := Gf.A b a
  let s := setX p (Gf.M e f) s
  let s := setY p (Gf.M h g) s
  let s := setZ p (Gf.M g f) s
  setT p (Gf.M e h) s

/-- `cswap`, one coordinate after the other. -/
def cswapArrays (p q : ι) (b : Int32) (s : Arrays ι) : Arrays ι :=
  let (px, qx) := sel25519 (s p).x (s q).x b
  let s := setX q qx (setX p px s)
  let (py, qy) := sel25519 (s p).y (s q).y b
  let s := setY q qy (setY p py s)
  let (pz, qz) := sel25519 (s p).z (s q).z b
  let s := setZ q qz (setZ p pz s)
  let (pt, qt) := sel25519 (s p).t (s q).t b
  setT q qt (setT p pt s)

/-- One pass of the loop of `scalarmult`. -/
def scalarmultPass (p q : ι) (b : Int32) (s : Arrays ι) : Arrays ι :=
  let s := cswapArrays p q b s
  let s := addArrays q p s
  let s := addArrays p p s
  cswapArrays p q b s

/-- `scalarmult`. -/
def scalarmultArrays (p q : ι) (n : Vector UInt8 32) (s : Arrays ι) : Arrays ι :=
  let s := setX p (set25519 gf0) s
  let s := setY p (set25519 gf1) s
  let s := setZ p (set25519 gf1) s
  let s := setT p (set25519 gf0) s
  Nat.foldRev 256 (fun i hi s => scalarmultPass p q (scalarBit n i hi) s) s

end Code

section Values

variable {ι : Type*} [DecidableEq ι] {p q : ι} (s : Arrays ι)

/-- All four coordinates are written after everything has been read, so the arrays may be the
same. -/
theorem addArrays_eq (p q : ι) : addArrays p q s = Function.update s p (add (s p) (s q)) := by
  simp only [addArrays, setX, setY, setZ, setT, Function.update_idem, Function.update_self, add]

/-- The assignment with new contents of two arrays. -/
def putBoth (p q : ι) (a b : GfPoint) (s : Arrays ι) : Arrays ι :=
  Function.update (Function.update s p a) q b

/-- The first array, if it is another than the second. -/
theorem putBoth_left (hpq : p ≠ q) (a b : GfPoint) : putBoth p q a b s p = a := by
  rw [putBoth, Function.update_of_ne hpq, Function.update_self]

/-- The second array. -/
theorem putBoth_right (p q : ι) (a b : GfPoint) : putBoth p q a b s q = b := Function.update_self ..

/-- Writing back what the arrays hold changes nothing. -/
theorem putBoth_self (p q : ι) : putBoth p q (s p) (s q) s = s := by
  rw [putBoth, Function.update_eq_self, Function.update_eq_self]

/-- A write to the first of the two arrays. -/
theorem update_putBoth_left (hpq : p ≠ q) (a a' b : GfPoint) :
    Function.update (putBoth p q a b s) p a' = putBoth p q a' b s := by
  rw [putBoth, putBoth, Function.update_comm hpq.symm, Function.update_idem]

/-- A write to the second of the two arrays. -/
theorem update_putBoth_right (p q : ι) (a b b' : GfPoint) :
    Function.update (putBoth p q a b s) q b' = putBoth p q a b' s :=
  Function.update_idem ..

/-- `cswap` on two arrays of the assignment. -/
theorem cswapArrays_putBoth (hpq : p ≠ q) (b : Int32) (P Q : GfPoint) :
    cswapArrays p q b (putBoth p q P Q s) = putBoth p q (cswap P Q b).1 (cswap P Q b).2 s := by
  simp only [cswapArrays, setX, setY, setZ, setT, putBoth_left s hpq, putBoth_right,
    update_putBoth_left s hpq, update_putBoth_right, cswap]

/-- A pass of the loop on two arrays is a pass on their values. -/
theorem scalarmultPass_putBoth (hpq : p ≠ q) (b : Int32) (P Q : GfPoint) :
    scalarmultPass p q b (putBoth p q P Q s) = putBoth p q (scalarmultStep b P Q).1
      (scalarmultStep b P Q).2 s := by
  simp only [scalarmultPass, cswapArrays_putBoth s hpq, addArrays_eq, putBoth_left s hpq,
    putBoth_right, update_putBoth_left s hpq, update_putBoth_right, scalarmultStep]

/-- `scalarmult` leaves its result in `p`, and has used `q` for its second working point. -/
theorem scalarmultArrays_eq (hpq : p ≠ q) (n : Vector UInt8 32) :
    scalarmultArrays p q n s = putBoth p q (scalarmultLoop (s q) n).1
      (scalarmultLoop (s q) n).2 s := by
  have hstart :
    setT p (set25519 gf0)
    (setZ p (set25519 gf1) (setY p (set25519 gf1) (setX p (set25519 gf0) s))) =
      putBoth p q ⟨set25519 gf0, set25519 gf1, set25519 gf1, set25519 gf0⟩ (s q) s := by
    conv_lhs => rw [← putBoth_self s p q]
    simp only [setX, setY, setZ, setT, putBoth_left s hpq, update_putBoth_left s hpq]
  rw [scalarmultArrays, scalarmultLoop]
  simp only [hstart]
  exact Loops.foldRev_simulation
    (fun (σ : Arrays ι) (v : GfPoint × GfPoint) => σ = putBoth p q v.1 v.2 s) rfl
    fun i hi σ v h => by rw [h, scalarmultPass_putBoth s hpq]

end Values

section Invariant

/-- The coordinates an array holds. -/
def coordinates (p : GfPoint) : Extended Fp := ⟨p.x.toField, p.y.toField, p.z.toField, p.t.toField⟩

/-- The array holds extended coordinates of a point: `Z` is not zero, `X / Z` and `Y / Z` are on the
curve and `X Y = Z T`. The sum of two limbs is within the bound of `M`. -/
structure OnCurve (p : GfPoint) : Prop where
  within : p.Within (2 ^ 25) (coordinates p)
  z_ne_zero : p.z.toField ≠ 0
  on_curve : (p.y.toField ^ 2 - p.x.toField ^ 2) * p.z.toField ^ 2 =
    p.z.toField ^ 4 + d25519 * p.x.toField ^ 2 * p.y.toField ^ 2
  segre : p.x.toField * p.y.toField = p.z.toField * p.t.toField

/-- The point. -/
def OnCurve.point {p : GfPoint} (h : OnCurve p) : EdPoint where
  x := p.x.toField / p.z.toField
  y := p.y.toField / p.z.toField
  on_curve := by
    have hz := h.z_ne_zero
    field_simp
    linear_combination h.on_curve

variable {p q : GfPoint} {P Q : EdPoint}

/-- The coordinates represent the point. -/
theorem OnCurve.represents (h : OnCurve p) : (coordinates p).Represents h.point := by
  have hz := h.z_ne_zero
  have ht := h.segre
  refine ⟨hz, ?_, ?_, ?_⟩
  · simp only [coordinates, OnCurve.point]
    field_simp
  · simp only [coordinates, OnCurve.point]
    field_simp
  · simp only [coordinates, OnCurve.point]
    field_simp
    linear_combination -ht

/-- The array holds the point. -/
def HoldsPoint (p : GfPoint) (P : EdPoint) : Prop := ∃ h : OnCurve p, h.point = P

/-- Small limbs that represent a point hold it. -/
theorem HoldsPoint.of_represents {e : Extended Fp} (hb : p.Within (2 ^ 25) e)
    (he : e.Represents P) :
    HoldsPoint p P := by
  obtain rfl : coordinates p = e :=
    Extended.ext hb.x.toField_eq hb.y.toField_eq hb.z.toField_eq hb.t.toField_eq
  obtain ⟨hz, hx, hy, ht⟩ := he
  simp only [coordinates] at hz hx hy ht
  have hP := P.on_curve
  have hcurve : OnCurve p := by
    refine ⟨hb, hz, ?_, ?_⟩
    · rw [hx, hy]
      linear_combination p.z.toField ^ 4 * hP
    · rw [hx, hy, ht]
      ring
  refine ⟨hcurve, Point.ext ?_ ?_⟩
  · exact (div_eq_iff hz).mpr hx
  · exact (div_eq_iff hz).mpr hy

/-- Limbs that hold a point are within the bound of `M` and represent it. -/
theorem HoldsPoint.within (h : HoldsPoint p P) :
    p.Within (2 ^ 25) (coordinates p) ∧ (coordinates p).Represents P := by
  obtain ⟨h, rfl⟩ := h
  exact ⟨h.within, h.represents⟩

/-- Limbs that denote a point hold it. -/
theorem HoldsPoint.of_denotes (h : p.Denotes P) : HoldsPoint p P := by
  obtain ⟨e, hp, he⟩ := h
  exact .of_represents (hp.within.mono (by norm_num)) he

/-- `add` adds points. -/
theorem HoldsPoint.add (hp : HoldsPoint p P) (hq : HoldsPoint q Q) :
    HoldsPoint (add p q) (P + Q) := by
  obtain ⟨hp, heP⟩ := hp.within
  obtain ⟨hq, heQ⟩ := hq.within
  exact .of_represents ((add_within hp hq).mono (by norm_num)) (heP.add heQ)

/-- `scalarmult` multiplies points. -/
theorem HoldsPoint.scalarmult (hq : HoldsPoint q Q) (n : Vector UInt8 32) :
    HoldsPoint (scalarmult q n) (leNat n • Q) :=
  scalarmult_of_add HoldsPoint.add (.of_denotes neutral_denotes) hq n

end Invariant

section Arithmetic

variable {ι : Type*} [DecidableEq ι] {s : Arrays ι} {p q : ι}

/-- The base point in the array that `scalarbase` sets up. -/
theorem base_holdsPoint : HoldsPoint ⟨Gf.X, Gf.Y, gf1, Gf.M Gf.X Gf.Y⟩ B := by
  refine .of_represents (e := ⟨B.x, B.y, 1, B.x * B.y⟩) ?_ (Extended.represents_affine B)
  exact ⟨X_denotes.mono (by norm_num), Y_denotes.mono (by norm_num), gf1_denotes.mono (by norm_num),
    ((X_denotes.mono (by norm_num)).M (Y_denotes.mono (by norm_num))).mono (by norm_num)⟩

/-- `add` adds the points of two arrays, the same array included, and changes no other array.
`scalarmult` multiplies the point of an array by the number of a scalar. -/
theorem edwards_arithmetic (hq : OnCurve (s q)) :
    (∀ p, ∀ hp : OnCurve (s p), (∃ h : OnCurve (addArrays p q s p), h.point = hp.point + hq.point) ∧
      ∀ r, r ≠ p → addArrays p q s r = s r) ∧
    ∀ p, p ≠ q → ∀ n, (∃ h : OnCurve (scalarmultArrays p q n s p), h.point = leNat n • hq.point) ∧
      ∀ r, r ≠ p → r ≠ q → scalarmultArrays p q n s r = s r := by
  refine ⟨fun p hp => ⟨?_, fun r hr => ?_⟩, fun p hpq n => ⟨?_, fun r hr hr' => ?_⟩⟩
  · rw [addArrays_eq, Function.update_self]
    exact HoldsPoint.add ⟨hp, rfl⟩ ⟨hq, rfl⟩
  · rw [addArrays_eq, Function.update_of_ne hr]
  · rw [scalarmultArrays_eq s hpq, putBoth_left s hpq]
    exact HoldsPoint.scalarmult ⟨hq, rfl⟩ n
  · rw [scalarmultArrays_eq s hpq, putBoth, Function.update_of_ne hr', Function.update_of_ne hr]

/-- One array with the base point is doubled, and another one becomes a multiple of it, by the
scalar of 32 bytes 1. -/
theorem edwards_arithmetic_base :
    HoldsPoint (addArrays 0 0 (fun _ : Fin 2 => ⟨Gf.X, Gf.Y, gf1, Gf.M Gf.X Gf.Y⟩) 0) (B + B) ∧
      HoldsPoint (scalarmultArrays 1 0 (Vector.replicate 32 1)
        (fun _ : Fin 2 => ⟨Gf.X, Gf.Y, gf1, Gf.M Gf.X Gf.Y⟩) 1)
        (leNat (Vector.replicate 32 1) • B) := by
  obtain ⟨hB, hpoint⟩ := base_holdsPoint
  obtain ⟨hadd, hmult⟩ := edwards_arithmetic
    (s := fun _ : Fin 2 => (⟨Gf.X, Gf.Y, gf1, Gf.M Gf.X Gf.Y⟩ : GfPoint)) (q := 0) hB
  obtain ⟨⟨hsum, hsum'⟩, -⟩ := hadd 0 hB
  obtain ⟨⟨hprod, hprod'⟩, -⟩ := hmult 1 (by decide) (Vector.replicate 32 1)
  exact ⟨⟨hsum, by rw [hsum', hpoint]⟩, ⟨hprod, by rw [hprod', hpoint]⟩⟩

end Arithmetic

section Decompression

/-- What `unpackneg` makes of a point's 32 bytes: coordinates of the negative point, with `Z = 1`
and `T = X Y`. -/
structure Decompresses (bytes : Vector UInt8 32) (P : EdPoint) (r : GfPoint) : Prop where
  succeeds : unpackneg bytes = some r
  point : HoldsPoint r P
  z_eq_one : r.z.toField = 1
  t_eq : r.t.toField = r.x.toField * r.y.toField

/-- `unpackneg` decodes an encoding to the negated point. -/
theorem unpackneg_of_encode {P : EdPoint} {bytes : Vector UInt8 32} (h : leNat bytes = encode P) :
    ∃ r, Decompresses bytes (-P) r := by
  obtain ⟨r, hr, hdenotes⟩ := unpackneg_encode h
  obtain ⟨x, hx, heq⟩ := unpackneg_eq bytes
  obtain ⟨t, ht, -⟩ := signed_denotes hx bytes
  rw [hr] at heq
  split at heq
  next =>
    have hT := (ht.mono (by norm_num)).M ((unpack25519_denotes bytes).mono (by norm_num))
    cases heq
    refine ⟨_, hr, .of_denotes hdenotes, gf1_denotes.toField_eq, ?_⟩
    rw [hT.toField_eq, ht.toField_eq, (unpack25519_denotes bytes).toField_eq]
  next => cases heq

/-- `unpackneg` undoes `pack`, up to the sign, for every point and for every result of
`scalarmult`. -/
theorem unpackneg_pack {p : GfPoint} (hp : OnCurve p) :
    (∃ r, Decompresses (pack p) (-hp.point) r) ∧
      ∀ n, ∃ h : OnCurve (scalarmult p n), h.point = leNat n • hp.point ∧
        ∃ r, Decompresses (pack (scalarmult p n)) (-h.point) r := by
  have hpack : ∀ {p : GfPoint} (hp : OnCurve p), ∃ r,
      Decompresses (pack p) (-hp.point) r := fun hp =>
    unpackneg_of_encode (leNat_pack_of_within hp.within hp.represents)
  refine ⟨hpack hp, fun n => ?_⟩
  obtain ⟨h, hpoint⟩ := HoldsPoint.scalarmult ⟨hp, rfl⟩ n
  exact ⟨h, hpoint, hpack h⟩

/-- The bytes of the base point yield the negative of the base point. -/
theorem unpackneg_pack_base :
    ∃ r, Decompresses (pack ⟨Gf.X, Gf.Y, gf1, Gf.M Gf.X Gf.Y⟩) (-B) r := by
  obtain ⟨hB, hpoint⟩ := base_holdsPoint
  obtain ⟨hr, -⟩ := unpackneg_pack hB
  rwa [hpoint] at hr

end Decompression

end Ed25519

end TweetNacl
