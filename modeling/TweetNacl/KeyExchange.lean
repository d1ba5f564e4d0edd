import TweetNacl.WeakSecrets

/-!
# Key exchange beyond two parties

Each multiplication of `crypto_scalarmult` is by a multiple of eight on the curve or on its twist,
whatever the 32 bytes of the point are. So the parties of an exchange may act in any order, and the
scalars that take a point to the same result are the two of opposite sign.
-/

namespace TweetNacl

open Limbs Memory Montgomery

section Groups

variable {G : Type*} [AddCommGroup G] {Q : G} {l k k' : ℕ}

/-- Multiples of an element of order `l` by numbers up to `l` agree up to sign if the numbers are
equal or add up to `l`. -/
theorem nsmul_eq_or_eq_neg_iff (hl : addOrderOf Q = l) (hpos : 0 < k) (hk : k < l) (hk' : k' < l) :
    k • Q = k' • Q ∨ k • Q = -(k' • Q) ↔ k = k' ∨ k + k' = l := by
  refine or_congr ?_ ?_
  · rw [nsmul_inj_mod, hl, Nat.mod_eq_of_lt hk, Nat.mod_eq_of_lt hk']
  · rw [eq_neg_iff_add_eq_zero, ← add_smul, ← addOrderOf_dvd_iff_nsmul_eq_zero, hl]
    refine ⟨fun h => ?_, fun h => ⟨1, by rw [h, mul_one]⟩⟩
    obtain ⟨c, hc⟩ := h
    obtain rfl : c = 1 := by
      have hlow : 0 < c := Nat.pos_of_ne_zero fun h => by
        rw [h, mul_zero] at hc
        omega
      have hhigh : c < 2 := Nat.lt_of_mul_lt_mul_left (a := l) (by omega)
      omega
    rw [hc, mul_one]

/-- The coordinate determines a point up to sign. -/
theorem uCoord_eq_iff {F : Type*} [Field F] [DecidableEq F] {W : WeierstrassCurve.Affine F} {δ : F}
    (hδ : δ ≠ 0) {P P' : W.Point} (hP : P ≠ 0) (hP' : P' ≠ 0) : uCoord δ P = uCoord δ P' ↔ P = P' ∨
    P = -P' := by
  refine ⟨fun h => ?_, ?_⟩
  · cases P with
    | zero => exact absurd rfl hP
    | some x y hxy =>
      cases P' with
      | zero => exact absurd rfl hP'
      | some x' y' hxy' =>
        obtain rfl : x = x' := by
          rwa [uCoord, uCoord, div_left_inj' hδ] at h
        rcases WeierstrassCurve.Affine.Y_eq_of_X_eq hxy.1 hxy'.1 rfl with rfl | hy
        · exact .inl rfl
        · exact .inr (by subst hy; rfl)
  · rintro (rfl | rfl)
    · rfl
    · exact uCoord_neg P'

end Groups

section Points

/-- The constants of the curve and of its twist. -/
theorem twist_ne_zero : ((1 : ℕ) : Fp) ≠ 0 ∧ ((2 : ℕ) : Fp) ≠ 0 :=
  ne_zero_of_not_isSquare not_isSquare_one_mul_two

/-- Every element of the field is the coordinate of a point of the curve or of the twist. -/
theorem exists_uCoord_eq (u : Fp) :
    (∃ P : (twist 486662 ((1 : ℕ) : Fp)).Point, uCoord ((1 : ℕ) : Fp) P = u) ∨
    ∃ P : (twist 486662 ((2 : ℕ) : Fp)).Point, uCoord ((2 : ℕ) : Fp) P = u := by
  by_cases hu : u = 0
  · exact .inl ⟨0, hu.symm⟩
  · refine exists_point two_ne_zero_fp not_isSquare_one_mul_two ?_
    rw [cubic, show u ^ 3 + 486662 * u ^ 2 + u = u * (u ^ 2 + 486662 * u + 1) by ring]
    exact mul_ne_zero hu (quadratic_ne_zero u)

variable {δ : Fp} {P : (twist 486662 δ).Point} {p : Vector UInt8 32}

/-- The computed bytes encode the coordinate of a multiple. -/
theorem fieldOfBytes_scalarmultBytes_uCoord (hδ : δ ≠ 0) (hp : uCoord δ P = fieldOfBytes p)
    (n : Vector UInt8 32) :
    fieldOfBytes (scalarmultBytes n p) = uCoord δ (decodeScalar25519 n • P) := by
  rw [fieldOfBytes_scalarmultBytes, x25519, ← hp,
    x25519Ladder_uCoord rfl hδ (decodeScalar25519_lt n)]

/-- The computed bytes are determined by the element they encode. -/
theorem scalarmultBytes_eq_iff_field (n n' p p' : Vector UInt8 32) :
    scalarmultBytes n p = scalarmultBytes n' p' ↔
    fieldOfBytes (scalarmultBytes n p) = fieldOfBytes (scalarmultBytes n' p') := by
  rw [fieldOfBytes_scalarmultBytes, fieldOfBytes_scalarmultBytes, ← leInt_injective.eq_iff,
    leInt_scalarmultBytes, leInt_scalarmultBytes, Nat.cast_inj]
  exact (ZMod.val_injective _).eq_iff

/-- Two multiplications commute, for every point. -/
theorem scalarmultBytes_comm (a b p : Vector UInt8 32) :
    scalarmultBytes a (scalarmultBytes b p) = scalarmultBytes b (scalarmultBytes a p) := by
  have hcomm : ∀ {δ : Fp} (P : (twist 486662 δ).Point), δ ≠ 0 → uCoord δ P = fieldOfBytes p →
      scalarmultBytes a (scalarmultBytes b p) = scalarmultBytes b (scalarmultBytes a p) :=
      fun P hδ hp => by
    have hmul : ∀ n, uCoord _ (decodeScalar25519 n • P) = fieldOfBytes (scalarmultBytes n p) :=
        fun n =>
      (fieldOfBytes_scalarmultBytes_uCoord hδ hp n).symm
    rw [scalarmultBytes_eq_iff_field, fieldOfBytes_scalarmultBytes_uCoord hδ (hmul b),
      fieldOfBytes_scalarmultBytes_uCoord hδ (hmul a), ← mul_smul, ← mul_smul, mul_comm]
  rcases exists_uCoord_eq (fieldOfBytes p) with ⟨P, hP⟩ | ⟨P, hP⟩
  · exact hcomm P twist_ne_zero.1 hP
  · exact hcomm P twist_ne_zero.2 hP

/-- The scalars that take a point to one coordinate, if the point is not of low order and `8 l`
annihilates it. -/
theorem uCoord_smul_eq_iff {l : ℕ} (hδ : δ ≠ 0) (hl : (8 * l) • P = 0) (hprime : l.Prime)
    (hlarge : 2 ^ 252 ≤ l) (hP : uCoord δ P ∉ lowOrderCoordinates) (n n' : Vector UInt8 32) :
    uCoord δ (decodeScalar25519 n • P) = uCoord δ (decodeScalar25519 n' • P) ↔
      decodeScalar25519 n = decodeScalar25519 n' ∨
      decodeScalar25519 n + decodeScalar25519 n' = 8 * l := by
  have hQ : 8 • P ≠ 0 := fun h => hP ((eight_smul_eq_zero_iff rfl hδ P).mp h)
  have : Fact l.Prime := ⟨hprime⟩
  have horder : addOrderOf (8 • P) = l := addOrderOf_eq_prime (by rw [← mul_smul, mul_comm, hl]) hQ
  obtain ⟨k, hk, hpos, hlt⟩ := exists_eight_mul n
  obtain ⟨k', hk', hpos', hlt'⟩ := exists_eight_mul n'
  have hne : ∀ {k}, 0 < k → k < 2 ^ 252 → k • 8 • P ≠ 0 := fun hpos hlt h =>
    absurd (Nat.le_of_dvd hpos (horder ▸ addOrderOf_dvd_of_nsmul_eq_zero h)) (by omega)
  rw [hk, hk', mul_comm 8 k, mul_comm 8 k', mul_smul, mul_smul,
    uCoord_eq_iff hδ (hne hpos hlt) (hne hpos' hlt'),
    nsmul_eq_or_eq_neg_iff horder hpos (by omega) (by omega)]
  omega

/-- A coordinate of the curve has a square right-hand side. -/
theorem isSquare_cubic_uCoord (P : (twist 486662 ((1 : ℕ) : Fp)).Point) :
    IsSquare (cubic 486662 (uCoord ((1 : ℕ) : Fp) P)) := by
  cases P with
  | zero => exact ⟨0, by simp [uCoord, cubic]⟩
  | some x y hxy =>
    have hcurve := twist_equation.mp hxy.1
    refine ⟨y, ?_⟩
    rw [uCoord, cubic, ← pow_two, hcurve, Nat.cast_one, div_one]
    ring

/-- A coordinate of the twist that is not zero does not. -/
theorem not_isSquare_cubic_uCoord {P : (twist 486662 ((2 : ℕ) : Fp)).Point}
    (hP : uCoord ((2 : ℕ) : Fp) P ≠ 0) :
    ¬ IsSquare (cubic 486662 (uCoord ((2 : ℕ) : Fp) P)) := by
  cases P with
  | zero => exact absurd rfl hP
  | some x y hxy =>
    rintro ⟨s, hs⟩
    have hcurve := twist_equation.mp hxy.1
    have hx : x = 2 * uCoord ((2 : ℕ) : Fp) (.some x y hxy) := by
      rw [uCoord, Nat.cast_ofNat, mul_div_cancel₀ x two_ne_zero_fp]
    generalize uCoord ((2 : ℕ) : Fp) (.some x y hxy) = u at hP hs hx
    have hs0 : s ≠ 0 := by
      rintro rfl
      refine mul_ne_zero hP (quadratic_ne_zero u) ?_
      rw [cubic] at hs
      linear_combination hs
    -- then 2 would be a square
    refine not_isSquare_one_mul_two ⟨y / (2 * s), ?_⟩
    have hroot : y ^ 2 = 2 * (2 * s) ^ 2 := by
      rw [hcurve, hx, Nat.cast_ofNat]
      rw [cubic] at hs
      linear_combination 8 * hs
    have hdenom : 2 * s ≠ 0 := mul_ne_zero two_ne_zero_fp hs0
    rw [Nat.cast_one, one_mul, Nat.cast_ofNat, div_mul_div_comm, ← pow_two, hroot, ← pow_two,
      mul_div_cancel_right₀ _ (pow_ne_zero 2 hdenom)]

/-- Two scalars have the same clamped bytes exactly if they decode to the same number. -/
theorem clampScalar_eq_iff (n n' : Vector UInt8 32) :
    clampScalar n = clampScalar n' ↔ decodeScalar25519 n = decodeScalar25519 n' := by
  rw [← leNat_clampScalar, ← leNat_clampScalar]
  refine ⟨fun h => by rw [h], fun h => leInt_injective ?_⟩
  rw [← leNat_cast, ← leNat_cast, h]

/-- Two scalars take a point that is not of low order to the same bytes exactly if they are equal
once clamped, or if they add up to eight times the prime order of the group of the point. -/
theorem scalarmultBytes_eq_iff (hp : fieldOfBytes p ∉ lowOrderCoordinates)
    (n n' : Vector UInt8 32) :
    (IsSquare (cubic 486662 (fieldOfBytes p)) → (scalarmultBytes n p = scalarmultBytes n' p ↔
      clampScalar n = clampScalar n' ∨ decodeScalar25519 n + decodeScalar25519 n' = 8 * L)) ∧
    (¬ IsSquare (cubic 486662 (fieldOfBytes p)) → (scalarmultBytes n p = scalarmultBytes n' p ↔
      clampScalar n = clampScalar n' ∨
      decodeScalar25519 n + decodeScalar25519 n' = 8 * twistL)) := by
  rw [clampScalar_eq_iff, scalarmultBytes_eq_iff_field]
  have hzero : fieldOfBytes p ≠ 0 := fun h => hp (by rw [h]; exact List.mem_cons_self)
  rcases exists_uCoord_eq (fieldOfBytes p) with ⟨P, hP⟩ | ⟨P, hP⟩
  · refine ⟨fun _ => ?_, fun h => absurd (hP ▸ isSquare_cubic_uCoord P) h⟩
    rw [fieldOfBytes_scalarmultBytes_uCoord twist_ne_zero.1 hP,
      fieldOfBytes_scalarmultBytes_uCoord twist_ne_zero.1 hP]
    exact uCoord_smul_eq_iff twist_ne_zero.1 (smul_curve_eq_zero P) L_prime (by decide)
      (hP ▸ hp) n n'
  · refine ⟨fun h => absurd h (hP ▸ not_isSquare_cubic_uCoord (hP ▸ hzero)), fun _ => ?_⟩
    rw [fieldOfBytes_scalarmultBytes_uCoord twist_ne_zero.2 hP,
      fieldOfBytes_scalarmultBytes_uCoord twist_ne_zero.2 hP]
    exact uCoord_smul_eq_iff twist_ne_zero.2 (smul_twist_eq_zero P) twistL_prime (by decide)
      (hP ▸ hp) n n'

/-- A clamped multiple of a point that is not of low order is not of low order. -/
theorem uCoord_smul_not_mem {l : ℕ} (hδ : δ ≠ 0) (hl : (8 * l) • P = 0) (hprime : l.Prime)
    (hlarge : 2 ^ 252 ≤ l) (hP : uCoord δ P ∉ lowOrderCoordinates) (n : Vector UInt8 32) :
    uCoord δ (decodeScalar25519 n • P) ∉ lowOrderCoordinates := by
  rw [← eight_smul_eq_zero_iff rfl hδ] at hP ⊢
  obtain ⟨k, hk, hpos, hlt⟩ := exists_eight_mul n
  have hcoprime : l.Coprime (8 * k) := by
    rw [show 8 * k = 4 * (2 * k) by ring]
    refine Nat.Coprime.mul_right ?_ (coprime_of_prime hprime hpos hlt hlarge)
    exact hprime.coprime_iff_not_dvd.mpr fun h => absurd (Nat.le_of_dvd (by norm_num) h) (by omega)
  rwa [← mul_smul, hk, smul_eq_zero_iff_of_coprime hl hcoprime]

/-- Whether a point is of low order is not changed by a multiplication. -/
theorem lowOrder_scalarmultBytes_iff (n p : Vector UInt8 32) :
    fieldOfBytes (scalarmultBytes n p) ∈ lowOrderCoordinates ↔
      fieldOfBytes p ∈ lowOrderCoordinates := by
  constructor
  · intro h
    by_contra hp
    refine absurd h ?_
    rcases exists_uCoord_eq (fieldOfBytes p) with ⟨P, hP⟩ | ⟨P, hP⟩
    · rw [fieldOfBytes_scalarmultBytes_uCoord twist_ne_zero.1 hP]
      exact uCoord_smul_not_mem twist_ne_zero.1 (smul_curve_eq_zero P) L_prime
        (by decide) (hP ▸ hp) n
    · rw [fieldOfBytes_scalarmultBytes_uCoord twist_ne_zero.2 hP]
      exact uCoord_smul_not_mem twist_ne_zero.2 (smul_twist_eq_zero P) twistL_prime
        (by decide) (hP ▸ hp) n
  · intro hp
    rw [fieldOfBytes_scalarmultBytes, (x25519_eq_zero_iff n p).mpr hp]
    exact List.mem_cons_self

/-- The base point is on the curve, and not of low order. -/
theorem basePoint9_not_lowOrder : fieldOfBytes basePoint9 ∉ lowOrderCoordinates := by
  have hne : ∀ {k : ℕ}, k < 2 ^ 255 - 19 → 9 < k → (9 : Fp) ≠ (k : Fp) := fun {k} hk hlt h => by
    refine natCast_ne_zero (n := k - 9) (by omega) (by omega) ?_
    rw [Nat.cast_sub hlt.le, ← h, Nat.cast_ofNat, sub_self]
  have hzero : (9 : Fp) ≠ 0 := by exact_mod_cast natCast_ne_zero (n := 9) (by decide) (by decide)
  have hone : (9 : Fp) ≠ 1 := fun h => by
    refine natCast_ne_zero (n := 8) (by decide) (by decide) ?_
    push_cast
    linear_combination h
  have hnegOne : (9 : Fp) ≠ -1 := fun h => by
    refine natCast_ne_zero (n := 10) (by decide) (by decide) ?_
    push_cast
    linear_combination h
  have hfield : fieldOfBytes basePoint9 = 9 := fieldOfBytes_basePoint9
  rw [hfield]
  simp only [lowOrderCoordinates, List.mem_cons, List.not_mem_nil, or_false, not_or]
  exact ⟨hzero, hone, hnegOne, hne (by decide) (by decide), hne (by decide) (by decide)⟩

/-- The exact condition at the base point, for two scalars. -/
theorem scalarmultBytes_eq_iff_base : fieldOfBytes basePoint9 ∉ lowOrderCoordinates ∧
    let n := Vector.replicate 32 0
    let n' := Vector.replicate 32 1
    (IsSquare (cubic 486662 (fieldOfBytes basePoint9)) →
      (scalarmultBytes n basePoint9 = scalarmultBytes n' basePoint9 ↔
        clampScalar n = clampScalar n' ∨ decodeScalar25519 n + decodeScalar25519 n' = 8 * L)) ∧
    (¬ IsSquare (cubic 486662 (fieldOfBytes basePoint9)) →
      (scalarmultBytes n basePoint9 = scalarmultBytes n' basePoint9 ↔
        clampScalar n = clampScalar n' ∨
        decodeScalar25519 n + decodeScalar25519 n' = 8 * twistL)) :=
  ⟨basePoint9_not_lowOrder, scalarmultBytes_eq_iff basePoint9_not_lowOrder _ _⟩

end Points

section Exchange

/-- The parties with the given scalars multiply what is in `q`, one after the other. -/
def exchange (q : Addr) : List Addr → Exec Unit
  | [] => pure ()
  | n :: keys => do
    let _ ← cryptoScalarmult (some q) (some n) (some q)
    exchange q keys

/-- The bytes that some scalars take those of a point to. -/
def multiplyAll (p : Vector UInt8 32) (ns : List (Vector UInt8 32)) : Vector UInt8 32 :=
  ns.foldl (fun p n => scalarmultBytes n p) p

/-- The first key of a sequence is multiplied first. -/
theorem multiplyAll_cons (p n : Vector UInt8 32) (ns : List (Vector UInt8 32)) :
    multiplyAll p (n :: ns) = multiplyAll (scalarmultBytes n p) ns := by
  rw [multiplyAll, List.foldl_cons, multiplyAll]

/-- The order of the keys does not matter. -/
theorem multiplyAll_perm {ns ns' : List (Vector UInt8 32)} (h : ns.Perm ns') (p : Vector UInt8 32) :
    multiplyAll p ns = multiplyAll p ns' := by
  have hcomm : RightCommutative fun p n : Vector UInt8 32 => scalarmultBytes n p :=
    ⟨fun p a b => scalarmultBytes_comm b a p⟩
  exact h.foldl_eq p

/-- However many scalars there are, the result is all zero exactly if the point is of low order. -/
theorem multiplyAll_eq_zero_iff (p n : Vector UInt8 32) (ns : List (Vector UInt8 32)) :
    multiplyAll p (n :: ns) = Vector.replicate 32 0 ↔ fieldOfBytes p ∈ lowOrderCoordinates := by
  induction ns generalizing n p with
  | nil => exact scalarmultBytes_eq_zero_iff n p
  | cons n' ns ih => rw [multiplyAll_cons, ih, lowOrder_scalarmultBytes_iff]

/-- Several parties multiply the shared buffer in turn, and nothing else changes. -/
theorem exchange_runs {mem : Mem} {q : Addr} {keys : List Addr} (hq : mem.Valid q 32)
    (hkeys : ∀ n ∈ keys, mem.Valid n 32 ∧ Disjoint n 32 q 32) :
    ∃ mem', Runs (exchange q keys) mem () mem' ∧
      mem'.vec q 32 = multiplyAll (mem.vec q 32) (keys.map fun n => mem.vec n 32) ∧
      mem.Frame mem' q 32 := by
  induction keys generalizing mem with
  | nil => exact ⟨mem, Runs.pure _ _, rfl, Mem.Frame.refl _ _ _⟩
  | cons n keys ih =>
    obtain ⟨hn, -⟩ := hkeys n List.mem_cons_self
    obtain ⟨mem₁, hmem₁⟩ :
      ∃ mem₁, mem₁ = mem.writeVec q (scalarmultBytes (mem.vec n 32) (mem.vec q 32)) := ⟨_, rfl⟩
    have hstep := cryptoScalarmult_runs hq hn hq
    have hframe := Mem.frame_writeVec mem q (scalarmultBytes (mem.vec n 32) (mem.vec q 32))
    have hvec := Mem.vec_writeVec mem q (scalarmultBytes (mem.vec n 32) (mem.vec q 32))
    rw [← hmem₁] at hstep hframe hvec
    have hrest : ∀ n ∈ keys, mem.Valid n 32 ∧ Disjoint n 32 q 32 :=
      fun n hn => hkeys n (List.mem_cons_of_mem _ hn)
    obtain ⟨mem', hrun, hresult, hframe'⟩ := ih (hframe.valid hq) fun n hn =>
      ⟨hframe.valid (hrest n hn).1, (hrest n hn).2⟩
    refine ⟨mem', hstep.bind hrun, ?_, hframe.trans hframe'⟩
    have hsame : keys.map (fun n => mem₁.vec n 32) = keys.map fun n => mem.vec n 32 :=
      List.map_congr_left fun n hn => hframe.vec_of_disjoint (hrest n hn).2
    rw [hresult, hvec, hsame, List.map_cons, multiplyAll_cons]

/-- The parties of an exchange from any point may act in any order: `q` holds the same bytes in the
end, and nothing else is written. -/
theorem exchange_perm {mem : Mem} {q : Addr} {keys keys' : List Addr} (hperm : keys.Perm keys')
    (hq : mem.Valid q 32) (hkeys : ∀ n ∈ keys, mem.Valid n 32 ∧ Disjoint n 32 q 32) :
    ∃ mem₁ mem₂, Runs (exchange q keys) mem () mem₁ ∧ Runs (exchange q keys') mem () mem₂ ∧
      mem₁.vec q 32 = mem₂.vec q 32 ∧ mem.Frame mem₁ q 32 ∧ mem.Frame mem₂ q 32 := by
  obtain ⟨mem₁, hrun, hresult, hframe⟩ := exchange_runs hq hkeys
  obtain ⟨mem₂, hrun', hresult', hframe'⟩ :=
    exchange_runs hq fun n hn => hkeys n (hperm.mem_iff.mpr hn)
  refine ⟨mem₁, mem₂, hrun, hrun', ?_, hframe, hframe'⟩
  rw [hresult, hresult', multiplyAll_perm (hperm.map _)]

/-- Three different secrets, in the order 1, 2, 3 and in the order 3, 1, 2, from the base point. -/
theorem exchange_perm_three :
    let mem := Mem.ofBytes [9 :: List.replicate 31 0, numberedBytes 1 32, numberedBytes 33 32,
      numberedBytes 65 32]
    [(⟨1, 0⟩ : Addr), ⟨2, 0⟩, ⟨3, 0⟩].Perm [⟨3, 0⟩, ⟨1, 0⟩, ⟨2, 0⟩] ∧ mem.Valid ⟨0, 0⟩ 32 ∧
    ∃ mem₁ mem₂, Runs (exchange ⟨0, 0⟩ [⟨1, 0⟩, ⟨2, 0⟩, ⟨3, 0⟩]) mem () mem₁ ∧
      Runs (exchange ⟨0, 0⟩ [⟨3, 0⟩, ⟨1, 0⟩, ⟨2, 0⟩]) mem () mem₂ ∧
      mem₁.vec ⟨0, 0⟩ 32 = mem₂.vec ⟨0, 0⟩ 32 ∧
      mem.Frame mem₁ ⟨0, 0⟩ 32 ∧ mem.Frame mem₂ ⟨0, 0⟩ 32 := by
  have hperm : [(⟨1, 0⟩ : Addr), ⟨2, 0⟩, ⟨3, 0⟩].Perm [⟨3, 0⟩, ⟨1, 0⟩, ⟨2, 0⟩] := by decide
  refine ⟨hperm, by decide, exchange_perm hperm (by decide) fun n hn => ?_⟩
  simp only [List.mem_cons, List.not_mem_nil, or_false] at hn
  rcases hn with rfl | rfl | rfl <;> exact ⟨by decide, Disjoint.of_obj_ne (by decide) _ _⟩

/-- However many parties take part, the result is all zero exactly if the point they started from is
of low order. -/
theorem exchange_eq_zero_iff {mem : Mem} {q : Addr} {keys : List Addr} (hne : keys ≠ [])
    (hq : mem.Valid q 32) (hkeys : ∀ n ∈ keys, mem.Valid n 32 ∧ Disjoint n 32 q 32) :
    ∃ mem', Runs (exchange q keys) mem () mem' ∧
      (mem'.vec q 32 = Vector.replicate 32 0 ↔
        fieldOfBytes (mem.vec q 32) ∈ lowOrderCoordinates) := by
  obtain ⟨mem', hrun, hresult, -⟩ := exchange_runs hq hkeys
  refine ⟨mem', hrun, ?_⟩
  rw [hresult]
  cases keys with
  | nil => exact absurd rfl hne
  | cons n keys => rw [List.map_cons, multiplyAll_eq_zero_iff]

/-- Two parties on a buffer that holds the base point. -/
theorem exchange_eq_zero_iff_two :
    let mem := (Mem.ofSizes [32, 32, 32]).writeVec ⟨0, 0⟩ basePoint9
    [(⟨1, 0⟩ : Addr), ⟨2, 0⟩] ≠ [] ∧ mem.Valid ⟨0, 0⟩ 32 ∧
    ∃ mem', Runs (exchange ⟨0, 0⟩ [⟨1, 0⟩, ⟨2, 0⟩]) mem () mem' ∧
      (mem'.vec ⟨0, 0⟩ 32 = Vector.replicate 32 0 ↔
        fieldOfBytes (mem.vec ⟨0, 0⟩ 32) ∈ lowOrderCoordinates) := by
  have hvalid : ∀ a, (Mem.ofSizes [32, 32, 32]).Valid a 32 →
      ((Mem.ofSizes [32, 32, 32]).writeVec ⟨0, 0⟩ basePoint9).Valid a 32 := fun _ ha => ha
  refine ⟨by decide, hvalid _ (by decide), exchange_eq_zero_iff (by decide) (hvalid _
    (by decide)) fun n hn => ?_⟩
  simp only [List.mem_cons, List.not_mem_nil, or_false] at hn
  rcases hn with rfl | rfl <;> exact ⟨hvalid _ (by decide), Disjoint.of_obj_ne (by decide) _ _⟩

end Exchange

end TweetNacl
