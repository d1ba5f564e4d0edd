import TweetNacl.OperandBounds

/-!
# The exponentiation chains on arrays

`inv25519` and `pow2523` copy their operand to a local array, run their loop on it and copy it to
the output array, which may be the array of the operand. The calls of `M` are those that stop at an
overflow.
-/

namespace TweetNacl

open Limbs

namespace Checked

section Code

variable {ι : Type} [DecidableEq ι]

/-- The loop that copies the limbs of an array to another one. -/
def copyLimbs (o i : ι) (s : ι → Gf) : ι → Gf :=
  Nat.fold 16 (fun a _ s => Function.update s o ((s o).set a (s i)[a])) s

/-- The arrays of a function with a local array of some contents, which is `none`. -/
def enter (c : Gf) (s : ι → Gf) : Option ι → Gf
  | none => c
  | some k => s k

/-- The arrays when the function returns. -/
def leave (s : Option ι → Gf) : ι → Gf := fun k => s (some k)

/-- `S`. -/
def SArrays (o a : ι) (s : ι → Gf) : Option (ι → Gf) := MArrays o a a s

/-- The loop of `inv25519` and `pow2523`, from the counter value `n - 1` down to 0, with the
condition of its multiplication. -/
def chainArrays (n : ℕ) (multiplies : ℕ → Prop) [DecidablePred multiplies] (i : ι)
    (s : Option ι → Gf) :
    Option (Option ι → Gf) :=
  Loops.tryFoldRev n (fun a _ s => do
    let s ← SArrays none none s
    if multiplies a then MArrays none none (some i) s else some s) s

/-- `inv25519`, whose local array has the contents `c` at first. -/
def inv25519Arrays (c : Gf) (o i : ι) (s : ι → Gf) : Option (ι → Gf) := do
  let s := copyLimbs none (some i) (enter c s)
  let s ← chainArrays 254 (fun a => a ≠ 2 ∧ a ≠ 4) i s
  some (leave (copyLimbs (some o) none s))

/-- `pow2523`, whose local array has the contents `c` at first. -/
def pow2523Arrays (c : Gf) (o i : ι) (s : ι → Gf) : Option (ι → Gf) := do
  let s := copyLimbs none (some i) (enter c s)
  let s ← chainArrays 251 (fun a => a ≠ 1) i s
  some (leave (copyLimbs (some o) none s))

end Code

/-- A product is within the bound of the operands of `M` again. -/
theorem product_bounded {a b : Gf} (ha : a.Bounded (2 ^ 26)) (hb : b.Bounded (2 ^ 26)) :
    (Gf.M a b).Bounded (2 ^ 26) := (Gf.M_tight ha hb).bounded.mono (by norm_num)

/-- A pass of the loop, with the multiplication or without it, keeps the bound. -/
theorem chainPass_bounded {c x : Gf} (hc : c.Bounded (2 ^ 26)) (hx : x.Bounded (2 ^ 26)) (p : Prop)
    [Decidable p] :
    (if p then Gf.M (Gf.S c) x else Gf.S c).Bounded (2 ^ 26) := by
  have hsquare := product_bounded hc hc
  split
  · exact product_bounded hsquare hx
  · exact hsquare

section Arrays

variable {ι : Type} [DecidableEq ι]

/-- A copy overwrites the array, with the contents it has if the arrays are the same. -/
theorem copyLimbs_eq (o i : ι) (s : ι → Gf) : copyLimbs o i s = Function.update s o (s i) :=
  writeLimbs_eq fun a ha w hold => by
    by_cases hio : i = o
    · rw [hio, Function.update_self, hold]
    · rw [Function.update_of_ne hio]

omit [DecidableEq ι] in
/-- The local array of a call has the given contents. -/
@[simp] theorem enter_local (c : Gf) (s : ι → Gf) : enter c s none = c := rfl

omit [DecidableEq ι] in
/-- The other arrays are the caller's. -/
@[simp] theorem enter_some (c : Gf) (s : ι → Gf) (k : ι) : enter c s (some k) = s k := rfl

/-- A write to the local array. -/
@[simp] theorem update_enter (c v : Gf) (s : ι → Gf) :
    Function.update (enter c s) none v = enter v s := by
  funext k
  cases k with
  | none => rw [Function.update_self, enter_local]
  | some k => rw [Function.update_of_ne (by simp), enter_some, enter_some]

/-- A write to an array of the caller. -/
theorem leave_update (c v : Gf) (o : ι) (s : ι → Gf) :
    leave (Function.update (enter c s) (some o) v) = Function.update s o v := by
  funext k
  by_cases hk : k = o
  · rw [hk, leave, Function.update_self, Function.update_self]
  · rw [leave, Function.update_of_ne (by simpa using hk), Function.update_of_ne hk, enter_some]

/-- `M` into the local array. -/
theorem MArrays_enter {c x : Gf} (hc : c.Bounded (2 ^ 26)) (hx : x.Bounded (2 ^ 26)) {b : Option ι}
    {s : ι → Gf} (hb : enter c s b = x) :
    MArrays none none b (enter c s) = some (enter (Gf.M c x) s) := by
  rw [MArrays_eq, enter_local, hb, M_eq hc hx, Option.map_some, update_enter]

variable {c : Gf} (hc : c.Bounded (2 ^ 26)) {i : ι} {s : ι → Gf} (hi : (s i).Bounded (2 ^ 26))
include hc hi

/-- A pass of the loop on arrays. -/
theorem chainPass_eq (p : Prop) [Decidable p] :
    ((SArrays none none (enter c s)).bind fun s => if p then MArrays none none
      (some i) s else some s) = some (enter (if p then Gf.M (Gf.S c) (s i) else Gf.S c) s) := by
  rw [SArrays, MArrays_enter hc hc (enter_local c s), Option.bind_some]
  split
  · exact MArrays_enter (product_bounded hc hc) hi (enter_some _ s i)
  · rfl

/-- The loop leaves the power in the local array and no other array changed. -/
theorem chainArrays_eq (n : ℕ) (p : ℕ → Prop) [DecidablePred p] : chainArrays n p i (enter c s) =
    some (enter (Nat.foldRev n (fun a _ c => if p a then Gf.M (Gf.S c) (s i) else Gf.S c) c) s) :=
  Loops.tryFoldRev_rep (fun c => enter c s) (fun _ c => c.Bounded (2 ^ 26)) hc
    (fun a _ _ hc => chainPass_bounded hc hi (p a)) fun a _ _ hc => chainPass_eq hc hi (p a)

omit hc in
/-- `inv25519` on arrays, whichever of them are the same and whatever the local array holds at
first. -/
theorem inv25519Arrays_eq (c : Gf) (o : ι) :
    inv25519Arrays c o i s = some (Function.update s o (TweetNacl.inv25519 (s i))) := by
  rw [inv25519Arrays, copyLimbs_eq, enter_some, update_enter]
  refine (bind_of_eq (chainArrays_eq hi hi 254 fun a => a ≠ 2 ∧ a ≠ 4) _).trans ?_
  rw [copyLimbs_eq, enter_local, leave_update, TweetNacl.inv25519, set25519_eq]

omit hc in
/-- On arrays `pow2523` writes its result, whichever array it goes to. -/
theorem pow2523Arrays_eq (c : Gf) (o : ι) :
    pow2523Arrays c o i s = some (Function.update s o (TweetNacl.pow2523 (s i))) := by
  rw [pow2523Arrays, copyLimbs_eq, enter_some, update_enter]
  refine (bind_of_eq (chainArrays_eq hi hi 251 fun a => a ≠ 1) _).trans ?_
  rw [copyLimbs_eq, enter_local, leave_update, TweetNacl.pow2523, set25519_eq]

end Arrays

end Checked

section Powers

variable {i : Gf} (hi : i.Bounded (2 ^ 26))
include hi

/-- `inv25519` raises to the power `p - 2`. -/
theorem inv25519_modEq : (inv25519 i).value ≡ i.value ^ (2 ^ 255 - 21) [ZMOD 2 ^ 255 - 19] := by
  apply Gf.value_modEq
  rw [hi.denotes.inv25519_pow.toField_eq, Int.cast_pow]
  rfl

/-- `pow2523` raises to the power `(p - 5) / 8`. -/
theorem pow2523_modEq : (pow2523 i).value ≡ i.value ^ (2 ^ 252 - 3) [ZMOD 2 ^ 255 - 19] := by
  apply Gf.value_modEq
  rw [hi.denotes.pow2523.toField_eq, Int.cast_pow]
  rfl

/-- `inv25519` inverts what is not congruent to zero. -/
theorem inv25519_inverse (hne : ¬ i.value ≡ 0 [ZMOD 2 ^ 255 - 19]) :
    i.value * (inv25519 i).value ≡ 1 [ZMOD 2 ^ 255 - 19] := by
  have hunit : i.toField ≠ 0 := fun h => hne (Gf.value_modEq (by rw [h, Int.cast_zero]))
  apply intCast_eq_iff.mp
  rw [Int.cast_mul, Int.cast_one]
  change i.toField * (inv25519 i).toField = 1
  rw [hi.denotes.inv25519.toField_eq, mul_inv_cancel₀ hunit]

/-- The inverse of zero is zero. -/
theorem inv25519_zero (hzero : i.value ≡ 0 [ZMOD 2 ^ 255 - 19]) :
    (inv25519 i).value ≡ 0 [ZMOD 2 ^ 255 - 19] := by
  have hfield : i.toField = 0 := by
    rw [Gf.toField, intCast_eq_iff.mpr hzero, Int.cast_zero]
  apply Gf.value_modEq
  rw [hi.denotes.inv25519.toField_eq, hfield, inv_zero, Int.cast_zero]

end Powers

/-- On every operand of `M` the chains compute their powers without an overflow, also in place, and
the first one inverts. -/
theorem exponent_chains {ι : Type} [DecidableEq ι] (s : ι → Gf) (c : Gf) (o i : ι)
    (hi : (s i).Operand) :
    (Checked.inv25519Arrays c o i s = some (Function.update s o (inv25519 (s i))) ∧
      (inv25519 (s i)).value ≡ (s i).value ^ (2 ^ 255 - 21) [ZMOD 2 ^ 255 - 19] ∧
      (¬ (s i).value ≡ 0 [ZMOD 2 ^ 255 - 19] →
        (s i).value * (inv25519 (s i)).value ≡ 1 [ZMOD 2 ^ 255 - 19]) ∧
      ((s i).value ≡ 0 [ZMOD 2 ^ 255 - 19] → (inv25519 (s i)).value ≡ 0 [ZMOD 2 ^ 255 - 19])) ∧
    Checked.pow2523Arrays c o i s = some (Function.update s o (pow2523 (s i))) ∧
      (pow2523 (s i)).value ≡ (s i).value ^ (2 ^ 252 - 3) [ZMOD 2 ^ 255 - 19] :=
  ⟨⟨Checked.inv25519Arrays_eq hi.bounded c o, inv25519_modEq hi.bounded,
    inv25519_inverse hi.bounded,
    inv25519_zero hi.bounded⟩, Checked.pow2523Arrays_eq hi.bounded c o, pow2523_modEq hi.bounded⟩

/-- The coefficient of the curve, in place. -/
theorem exponent_chains_D :
    Checked.inv25519Arrays gf0 0 0 (fun _ : Fin 1 => Gf.D) =
        some (Function.update (fun _ : Fin 1 => Gf.D) 0 (inv25519 Gf.D)) ∧
      Checked.pow2523Arrays gf0 0 0 (fun _ : Fin 1 => Gf.D) =
        some (Function.update (fun _ : Fin 1 => Gf.D) 0 (pow2523 Gf.D)) :=
  ⟨(exponent_chains (fun _ : Fin 1 => Gf.D) gf0 0 0 (by decide)).1.1,
    (exponent_chains (fun _ : Fin 1 => Gf.D) gf0 0 0 (by decide)).2.1⟩

end TweetNacl
