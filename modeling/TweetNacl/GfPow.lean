import TweetNacl.GfMul

/-!
# The exponentiation chains

`inv25519` and `pow2523` run square-and-multiply loops whose exponents are fixed by the
positions at which the multiplication is skipped. The loops are simulated on exponents:
a state that stands for `x ^ e` goes to one that stands for `x ^ (2 * e)` or
`x ^ (2 * e + 1)`. By Fermat's theorem the first chain inverts.
-/

namespace TweetNacl

/-- The exponent computed by a downward square-and-multiply loop that skips some positions. -/
def chainExponent (n : ℕ) (skip : ℕ → Bool) : ℕ :=
  Nat.foldRev n (fun a _ e => if skip a then 2 * e else 2 * e + 1) 1

/-- The exponent of the chain in `inv25519`. -/
theorem chainExponent_inv : chainExponent 254 (fun a => a == 2 || a == 4) = 2 ^ 255 - 21 := by
  decide +kernel

/-- The exponent of the chain in `pow2523`. -/
theorem chainExponent_pow : chainExponent 251 (fun a => a == 1) = 2 ^ 252 - 3 := by
  decide +kernel

/-- One position of a chain doubles the exponent, and adds one unless the position is skipped. -/
private theorem chain_step {i c : Gf} {x : Fp} (hi : Gf.Denotes (2 ^ 26) i x) {e : ℕ}
    (hc : Gf.Denotes (2 ^ 26) c (x ^ e)) (skip : Bool) :
    Gf.Denotes (2 ^ 17) (if skip then Gf.S c else Gf.M (Gf.S c) i)
      (x ^ if skip then 2 * e else 2 * e + 1) := by
  have hsquare : Gf.Denotes (2 ^ 17) (Gf.S c) (x ^ (2 * e)) := by
    have h := hc.S
    rwa [← pow_add, ← two_mul] at h
  cases skip with
  | true => simpa using hsquare
  | false => simpa [pow_succ] using (hsquare.mono (by norm_num)).M hi

/-- A chain of at least one position computes the power, in the tight range. -/
theorem chain_denotes {i : Gf} {x : Fp} (hi : Gf.Denotes (2 ^ 26) i x) (n : ℕ) (skip : ℕ → Bool) :
    Gf.Denotes (2 ^ 17)
      (Nat.foldRev (n + 1) (fun a _ c => if skip a then Gf.S c else Gf.M (Gf.S c) i) i)
      (x ^ chainExponent (n + 1) skip) := by
  rw [chainExponent, Nat.foldRev_succ, Nat.foldRev_succ]
  refine Loops.foldRev_simulation (fun c e => Gf.Denotes (2 ^ 17) c (x ^ e)) ?_ ?_
  · exact chain_step hi (by simpa using hi) (skip n)
  · exact fun a _ c e hc => chain_step hi (hc.mono (by norm_num)) (skip a)

/-- `inv25519` raises to the power `2 ^ 255 - 21`. -/
theorem Gf.Denotes.inv25519_pow {i : Gf} {x : Fp} (hi : Gf.Denotes (2 ^ 26) i x) :
    Gf.Denotes (2 ^ 17) (inv25519 i) (x ^ (2 ^ 255 - 21)) := by
  have hloop : inv25519 i = Nat.foldRev 254 (fun a _ c =>
      if (a == 2 || a == 4) then Gf.S c else Gf.M (Gf.S c) i) i := by
    rw [inv25519, set25519_eq]
    congr 1
    funext a _ c
    by_cases h2 : a = 2 <;> by_cases h4 : a = 4 <;> simp [h2, h4]
  rw [hloop, ← chainExponent_inv]
  exact chain_denotes hi 253 _

/-- `pow2523` raises to the power `2 ^ 252 - 3`. -/
theorem Gf.Denotes.pow2523 {i : Gf} {x : Fp} (hi : Gf.Denotes (2 ^ 26) i x) :
    Gf.Denotes (2 ^ 17) (pow2523 i) (x ^ (2 ^ 252 - 3)) := by
  have hloop : TweetNacl.pow2523 i = Nat.foldRev 251 (fun a _ c =>
      if a == 1 then Gf.S c else Gf.M (Gf.S c) i) i := by
    rw [TweetNacl.pow2523, set25519_eq]
    congr 1
    funext a _ c
    by_cases h1 : a = 1 <;> simp [h1]
  rw [hloop, ← chainExponent_pow]
  exact chain_denotes hi 250 _

/-- The power `p - 2` is the inverse, and sends zero to zero. -/
theorem pow_p_sub_two (x : Fp) : x ^ (2 ^ 255 - 21) = x⁻¹ := by
  have hexp : 2 ^ 255 - 21 = p25519 - 2 := by rw [p25519_eq]; norm_num
  rw [hexp]
  by_cases hx : x = 0
  · rw [hx, inv_zero, zero_pow (by rw [p25519_eq]; norm_num)]
  · rw [eq_comm, inv_eq_iff_eq_inv, ← one_div, eq_div_iff (pow_ne_zero _ hx), ← pow_succ']
    rw [show p25519 - 2 + 1 = p25519 - 1 by rw [p25519_eq]]
    exact ZMod.pow_card_sub_one_eq_one hx

/-- `inv25519` inverts. -/
theorem Gf.Denotes.inv25519 {i : Gf} {x : Fp} (hi : Gf.Denotes (2 ^ 26) i x) :
    Gf.Denotes (2 ^ 17) (inv25519 i) x⁻¹ := by
  rw [← pow_p_sub_two]
  exact hi.inv25519_pow

end TweetNacl
