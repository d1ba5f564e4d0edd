import TweetNacl.GfMul
import TweetNacl.Lib.CheckedInt
import TweetNacl.Lib.Loops

/-!
# Field arithmetic without overflow

The field functions once more, with operations that stop where the exact result is no signed 64-bit
word, and `M` on arrays that may be the same. On operands within the bound of `M` nothing stops, and
the results are those of the wrapping arithmetic.
-/

namespace TweetNacl

open Limbs MachineInt

namespace Checked

section Code

/-- A pass of the loop of `car25519`. The source makes the last shift and the last subtraction in
unsigned words, where nothing can overflow; here they are checked as well. -/
def carryStep (i : ℕ) (hi : i < 16) (o : Gf) : Option Gf := do
  let oi ← CheckedInt.add o[i] ((1 : Int64) <<< 16)
  let o := o.set i oi
  let c := o[i] >>> 16
  let q ← CheckedInt.sub c 1
  let w ← CheckedInt.mul 37 q
  let w ← CheckedInt.mul w (if i = 15 then 1 else 0)
  let w ← CheckedInt.add q w
  have := carryTarget_lt i
  let ot ← CheckedInt.add o[carryTarget i] w
  let o := o.set (carryTarget i) ot
  let u ← CheckedInt.shiftLeft c 16
  let oi ← CheckedInt.sub o[i] u
  some (o.set i oi)

/-- `car25519`. -/
def car25519 (o : Gf) : Option Gf := Loops.tryFold 16 carryStep o

/-- `A`. -/
def A (a b : Gf) : Option Gf := Vector.ofFnM fun i => CheckedInt.add (a.get i) (b.get i)

/-- `Z`. -/
def Z (a b : Gf) : Option Gf := Vector.ofFnM fun i => CheckedInt.sub (a.get i) (b.get i)

/-- A pass of the inner loop over the products of limbs in `M`. -/
def productStep (a b : Gf) (i : ℕ) (hi : i < 16) (j : ℕ) (hj : j < 16) (t : Vector Int64 31) :
    Option (Vector Int64 31) := do
  have := column_lt hi hj
  let p ← CheckedInt.mul a[i] b[j]
  let tk ← CheckedInt.add t[i + j] p
  some (t.set (i + j) tk)

/-- The column sums of `M`. -/
def product (a b : Gf) : Option (Vector Int64 31) :=
  Loops.tryFold 16 (fun i hi t => Loops.tryFold 16 (productStep a b i hi) t) (Vector.replicate 31 0)

/-- A pass of the loop that folds the upper columns in `M`. -/
def foldStep (i : ℕ) (hi : i < 15) (t : Vector Int64 31) : Option (Vector Int64 31) := do
  have := lowerColumn_lt hi
  have := upperColumn_lt hi
  let p ← CheckedInt.mul 38 t[i + 16]
  let ti ← CheckedInt.add t[i] p
  some (t.set i ti)

/-- The second loop of `M`, which folds the upper columns. -/
def foldColumns (t : Vector Int64 31) : Option (Vector Int64 31) := Loops.tryFold 15 foldStep t

/-- The lower columns are among the columns of a product. -/
theorem sixteen_le : 16 ≤ 31 := by decide

/-- The sixteen lower columns. -/
def lowerColumns (t : Vector Int64 31) : Gf := Vector.ofFn fun i => t.get (i.castLE sixteen_le)

/-- `M`. -/
def M (a b : Gf) : Option Gf := do
  let t ← product a b
  let t ← foldColumns t
  let o ← car25519 (lowerColumns t)
  car25519 o

variable {ι : Type} [DecidableEq ι]

/-- The copy of the columns to the output array of `M`. -/
def copyArrays (o : ι) (t : Vector Int64 31) (s : ι → Gf) : ι → Gf :=
  Nat.fold 16 (fun i _ s => Function.update s o ((s o).set i t[i])) s

/-- `car25519`, in place. -/
def carryArrays (o : ι) (s : ι → Gf) : Option (ι → Gf) :=
  Loops.tryFold 16 (fun i hi s => (carryStep i hi (s o)).map (Function.update s o)) s

/-- `M`, which may be called with one array for its output and its operands. -/
def MArrays (o a b : ι) (s : ι → Gf) : Option (ι → Gf) := do
  let t ← product (s a) (s b)
  let t ← foldColumns t
  let s ← carryArrays o (copyArrays o t s)
  carryArrays o s

end Code

section Exact

/-- A carry step does not overflow on limbs in range. -/
theorem carryStep_eq {i : ℕ} (hi : i < 16) {o : Gf} (ho : |o.limbs i| ≤ 2 ^ 62 + 2 ^ 47)
    (ht : |o.limbs (carryTarget i)| ≤ 2 ^ 62) :
    carryStep i hi o = some (TweetNacl.carryStep i hi o) := by
  have htarget := carryTarget_ne i
  have hlt := carryTarget_lt i
  have hwords := carryWords hi ho ht
  have hone : ((1 : Int64) <<< 16).toInt = 2 ^ 16 := by decide
  have hraise := CheckedInt.add_exact (Gf.limbs_getElem o hi).symm hone hwords.raised
  have hquotient := CheckedInt.sub_exact hwords.carry (show (1 : Int64).toInt = 1 from rfl)
    (by rw [hwords.quotient, add_sub_cancel_right])
  have h37 :=
    CheckedInt.mul_exact (show (37 : Int64).toInt = 37 from rfl) hwords.quotient hwords.times37
  have hwrap := CheckedInt.mul_exact (y := if i = 15 then 1 else 0) hwords.times37
    (by split <;> rfl) hwords.wrapped
  have hadd := CheckedInt.add_exact hwords.quotient hwords.wrapped (by
    rw [hwords.added, carryFactor]
    split <;> ring)
  have htake := CheckedInt.add_exact (Gf.limbs_getElem o hlt).symm hwords.added (hwords.target hlt)
  have hshift := CheckedInt.shiftLeft_exact hwords.carry hwords.shifted
  have hrest := CheckedInt.sub_exact hwords.raised hwords.shifted (by
    rw [hwords.rest]
    omega)
  simp only [carryStep, hraise, Option.bind_eq_bind, Option.bind_some]
  -- one operation after the other; under the binders of the program the kernel takes seconds
  rw [Vector.getElem_set_self, hquotient, Option.bind_some, h37, Option.bind_some, hwrap,
    Option.bind_some, hadd, Option.bind_some, Vector.getElem_set_ne _ _ htarget.symm, htake,
    Option.bind_some, hshift, Option.bind_some, Vector.getElem_set_ne _ _ htarget,
    Vector.getElem_set_self, hrest, Option.bind_some, TweetNacl.carryStep]
  rw [Vector.getElem_set_self, Vector.getElem_set_ne _ _ htarget.symm,
    Vector.getElem_set_ne _ _ htarget, Vector.getElem_set_self]

/-- `car25519` does not overflow on limbs up to `2 ^ 62`. -/
theorem car25519_eq {o : Gf} (ho : o.Bounded (2 ^ 62)) :
    car25519 o = some (TweetNacl.car25519 o) := by
  rw [car25519_eq_fold]
  refine Loops.tryFold_eq (fun i s => i < 16 → PartialCarry o.limbs i s) (fun _ => .start o) ?_ ?_
  · exact fun i hi s hs hnext => (hs hi).step ho (by omega)
  · intro i hi s hs
    obtain ⟨hcur, htarget⟩ := (hs hi).bounds ho hi
    exact carryStep_eq hi hcur htarget

section Sum

variable {m n : ℤ} {a b : Gf} (ha : a.Bounded m) (hb : b.Bounded n) (hmn : m + n < 2 ^ 63)
include ha hb hmn

/-- `A` of bounded operands does not overflow. -/
theorem A_eq : A a b = some (Gf.A a b) := by
  have hlimb : ∀ i : Fin 16, CheckedInt.add (a.get i) (b.get i) = some (a[i] + b[i]) := fun i => by
    have h := (ha.sum_limb hb hmn i i.isLt).1
    rw [Gf.A, Gf.limbs_ofFn _ i.isLt] at h
    exact CheckedInt.add_exact (Gf.limbs_getElem a i.isLt).symm (Gf.limbs_getElem b i.isLt).symm h
  simp only [A, hlimb]
  exact Vector.ofFnM_pure

/-- `Z` of bounded operands does not overflow. -/
theorem Z_eq : Z a b = some (Gf.Z a b) := by
  have hlimb : ∀ i : Fin 16, CheckedInt.sub (a.get i) (b.get i) = some (a[i] - b[i]) := fun i => by
    have h := (ha.difference_limb hb hmn i i.isLt).1
    rw [Gf.Z, Gf.limbs_ofFn _ i.isLt] at h
    exact CheckedInt.sub_exact (Gf.limbs_getElem a i.isLt).symm (Gf.limbs_getElem b i.isLt).symm h
  simp only [Z, hlimb]
  exact Vector.ofFnM_pure

end Sum

section Product

variable {a b : Gf} (ha : a.Bounded (2 ^ 26)) (hb : b.Bounded (2 ^ 26))
include ha hb

/-- A step of a product row does not overflow. -/
theorem productStep_eq {i j : ℕ} (hi : i < 16) (hj : j < 16) {t s : Vector Int64 31}
    (h : ProductRow a b i t j s) :
    productStep a b i hi j hj s = some (TweetNacl.productStep a b i hi j hj s) := by
  have hij := column_lt hi hj
  obtain ⟨hprod, -⟩ := limb_product ha hb hi hj
  obtain ⟨hsum, -⟩ := h.words ha hb hi hj hij
  have hmul := CheckedInt.mul_exact (Gf.limbs_getElem a hi).symm (Gf.limbs_getElem b hj).symm hprod
  have hadd := CheckedInt.add_exact (entries_of_lt Int64.toInt s hij).symm hprod hsum
  simp only [productStep, hmul, hadd, Option.bind_eq_bind, Option.bind_some, TweetNacl.productStep]

/-- The column sums do not overflow. -/
theorem product_eq : product a b = some (Gf.product a b) := by
  rw [product, Gf.product_eq_rows]
  refine Loops.tryFold_eq (ProductRows a b) (.start a b) (fun _ hi _ ht => ht.step ha hb hi)
    fun i hi t ht => ?_
  exact Loops.tryFold_eq (ProductRow a b i t) (.start a b ht.bound)
    (fun _ hj _ hs => hs.step ha hb hi hj) fun _ hj _ hs => productStep_eq ha hb hi hj hs

omit ha hb in
/-- Folding columns of a product does not overflow. -/
theorem foldColumns_eq {t : Vector Int64 31} (ht : ∀ k < 31, |columns t k| ≤ 2 ^ 56) :
    foldColumns t = some (Gf.foldColumns t) := by
  rw [foldColumns, Gf.foldColumns_eq]
  refine Loops.tryFold_eq (Folded t) (.start t) (fun _ hi _ hs => hs.step ht hi) fun i hi s hs => ?_
  obtain ⟨hprod, hsum⟩ := hs.words ht (lowerColumn_lt hi) (upperColumn_lt hi)
  have hhigh := hs (i + 16) (by omega)
  have hlow := hs i (by omega)
  rw [if_neg (by omega), mul_zero, add_zero, columns, entries_of_lt _ _ (by omega)] at hhigh hlow
  have hmul := CheckedInt.mul_exact (show (38 : Int64).toInt = 38 from rfl) hhigh hprod
  have hadd := CheckedInt.add_exact hlow hprod hsum
  simp only [foldStep, hmul, hadd, Option.bind_eq_bind, Option.bind_some, TweetNacl.foldStep]

/-- What is left of `M` after its loops over the columns. -/
theorem M_eq_carries : M a b = (car25519 (foldedLimbs a b)).bind car25519 := by
  have hcolumns := foldColumns_eq (Gf.product_spec ha hb).2
  simp only [M, product_eq ha hb, hcolumns, Option.bind_eq_bind, Option.bind_some]
  rfl

/-- `M` does not overflow on operands within its bound. -/
theorem M_eq : M a b = some (Gf.M a b) := by
  have hfolded := foldedLimbs_bounded ha hb
  rw [M_eq_carries ha hb, car25519_eq hfolded, Option.bind_some,
    car25519_eq (car25519_bounded hfolded), Gf.M_eq]

end Product

end Exact

section Arrays

variable {ι : Type} [DecidableEq ι]

/-- A loop that writes the limbs of an array one after the other. A limb that is written next is
still the old one. -/
theorem writeLimbs_eq {o : ι} {s : ι → Gf} {v : Gf} {f : (i : ℕ) → i < 16 → (ι → Gf) → Int64}
    (hf : ∀ i (hi : i < 16) (w : Gf), w[i] = (s o)[i] → f i hi (Function.update s o w) = v[i]) :
    Nat.fold 16 (fun i hi s => Function.update s o ((s o).set i (f i hi s))) s =
      Function.update s o v := by
  have h := Loops.fold_invariant (n := 16)
    (f := fun i hi (s : ι → Gf) => Function.update s o ((s o).set i (f i hi s))) (s := s)
    (fun k s' => ∃ w : Gf, s' = Function.update s o w ∧
      ∀ i (_ : i < 16), w[i] = if i < k then v[i] else (s o)[i])
    ⟨s o, (Function.update_eq_self o s).symm, fun i _ => (if_neg (Nat.not_lt_zero i)).symm⟩ ?_
  · obtain ⟨w, hw, hwritten⟩ := h
    rw [hw, Vector.ext fun i hi => (hwritten i hi).trans (if_pos hi)]
  · rintro k hk s' ⟨w, rfl, hwritten⟩
    have hvalue := hf k hk w ((hwritten k hk).trans (if_neg (Nat.lt_irrefl k)))
    refine ⟨w.set k v[k],
      by rw [Function.update_self, Function.update_idem, hvalue], fun i hi => ?_⟩
    by_cases hki : k = i
    · subst hki
      rw [Vector.getElem_set_self, if_pos (Nat.lt_succ_self k)]
    · rw [Vector.getElem_set_ne _ _ hki, hwritten i hi]
      exact if_congr (by omega) rfl rfl

/-- The copy writes the lower columns to the output array. -/
theorem copyArrays_eq (o : ι) (t : Vector Int64 31) (s : ι → Gf) :
    copyArrays o t s = Function.update s o (lowerColumns t) :=
  writeLimbs_eq fun i hi w _ => by
    rw [lowerColumns, Vector.getElem_ofFn]
    rfl

/-- `car25519` in place is `car25519` on the contents of its array. -/
theorem carryArrays_update (o : ι) (s : ι → Gf) (v : Gf) :
    carryArrays o (Function.update s o v) = (car25519 v).map (Function.update s o) := by
  refine Loops.tryFold_map (Function.update s o) (fun i hi v => ?_) v
  have hrep : Function.update (Function.update s o v) o = Function.update s o :=
    funext fun w => Function.update_idem ..
  rw [Function.update_self, hrep]

/-- The operands have been read when the output is written, so the arrays may be the same. -/
theorem MArrays_eq (o a b : ι) (s : ι → Gf) :
    MArrays o a b s = (M (s a) (s b)).map (Function.update s o) := by
  simp only [MArrays, M, Option.bind_eq_bind, Option.map_bind, Function.comp_def, copyArrays_eq,
    carryArrays_update, Option.bind_map]

end Arrays

end Checked

end TweetNacl
