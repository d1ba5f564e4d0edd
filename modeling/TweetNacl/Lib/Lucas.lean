import Mathlib.NumberTheory.LucasPrimality
import TweetNacl.Lib.Loops

/-!
# Lucas' test from a listed factorization

`lucas_primality` asks for a condition at every prime divisor of `p - 1`. When `p - 1` is
given as a product of primes, it is enough to check that condition at the listed primes. The
conditions are powers modulo `p`, which `lucasTest` computes on natural numbers.
-/

/-- `a ^ n` modulo `m`, by squaring over the bits of `n`. -/
def powMod (m bits a n : ℕ) : ℕ :=
  Loops.countdown (fun i s => if n.testBit i then s * s % m * a % m else s * s % m) bits 1

/-- The modular power is the power in the residue ring. -/
theorem powMod_cast (m a : ℕ) {bits n : ℕ} (hn : n < 2 ^ bits) :
    ((powMod m bits a n : ℕ) : ZMod m) = (a : ZMod m) ^ n := by
  rw [powMod, ← Loops.foldRev_eq_countdown]
  refine Loops.foldRev_bits (fun n s => ((s : ℕ) : ZMod m) = (a : ZMod m) ^ n) hn ?_
    fun i _ k s hs => ?_
  · rw [Nat.cast_one, pow_zero]
  · cases n.testBit i with
    | false =>
      change ((s * s % m : ℕ) : ZMod m) = _
      rw [ZMod.natCast_mod, Nat.cast_mul, hs, ← pow_add, Bool.toNat_false, add_zero, two_mul]
    | true =>
      change ((s * s % m * a % m : ℕ) : ZMod m) = _
      rw [ZMod.natCast_mod, Nat.cast_mul, ZMod.natCast_mod, Nat.cast_mul, hs, ← pow_add, ← pow_succ,
        Bool.toNat_true, two_mul]

/-- `p` is prime if `a` has order `p - 1`, tested at the primes of a factorization of `p - 1`. -/
theorem prime_of_lucas (p a : ℕ) (factors : List ℕ) (hprime : ∀ q ∈ factors, q.Prime)
    (hprod : factors.prod = p - 1) (hone : (a : ZMod p) ^ (p - 1) = 1)
    (hne : ∀ q ∈ factors, (a : ZMod p) ^ ((p - 1) / q) ≠ 1) : p.Prime := by
  refine lucas_primality p a hone fun q hq hdvd => ?_
  rw [← hprod] at hdvd
  obtain ⟨r, hr, hqr⟩ := (Prime.dvd_prod_iff hq.prime).mp hdvd
  obtain rfl := (Nat.prime_dvd_prime_iff_eq hq (hprime r hr)).mp hqr
  exact hne q hr

/-- The conditions of `prime_of_lucas` on natural numbers. -/
def lucasTest (p a : ℕ) (factors : List ℕ) : Bool :=
  1 < p && factors.prod == p - 1 && powMod p (p.log2 + 1) a (p - 1) % p == 1 &&
    factors.all fun q => powMod p (p.log2 + 1) a ((p - 1) / q) % p != 1

/-- A passed test proves the primality of `p` from that of the listed factors. -/
theorem prime_of_lucasTest {p : ℕ} (a : ℕ) (factors : List ℕ) (hprime : ∀ q ∈ factors, q.Prime)
    (htest : lucasTest p a factors = true) : p.Prime := by
  simp only [lucasTest, Bool.and_eq_true, decide_eq_true_eq, beq_iff_eq, bne_iff_ne,
    List.all_eq_true] at htest
  obtain ⟨⟨⟨hp, hprod⟩, hone⟩, hne⟩ := htest
  have hpow : ∀ n ≤ p - 1, (a : ZMod p) ^ n = 1 ↔ powMod p (p.log2 + 1) a n % p = 1 :=
      fun n hn => by
    have hbits : n < 2 ^ (p.log2 + 1) := lt_of_le_of_lt (by omega) Nat.lt_log2_self
    have hcast := ZMod.natCast_eq_natCast_iff' (powMod p (p.log2 + 1) a n) 1 p
    rwa [powMod_cast p a hbits, Nat.cast_one, Nat.mod_eq_of_lt hp] at hcast
  refine prime_of_lucas p a factors hprime hprod ((hpow _ le_rfl).mpr hone) fun q hq h => ?_
  exact hne q hq ((hpow _ (Nat.div_le_self _ _)).mp h)

/-- A number, the base of its test and the factorization of its predecessor. -/
structure LucasEntry where
  p : ℕ
  base : ℕ
  factors : List ℕ

/-- Every entry passes its test, and its factors are known to be prime by then. -/
def certifies (known : List ℕ) : List LucasEntry → Bool
  | [] => true
  | entry :: entries => entry.factors.all (known.contains ·) &&
      lucasTest entry.p entry.base entry.factors && certifies (entry.p :: known) entries

/-- Every number of a checked chain of certificates is prime. -/
theorem prime_of_certifies {known : List ℕ} {entries : List LucasEntry}
    (hknown : ∀ q ∈ known, q.Prime)
    (hcheck : certifies known entries = true) : ∀ p ∈ entries.map LucasEntry.p, p.Prime := by
  induction entries generalizing known with
  | nil => simp
  | cons entry entries ih =>
    rw [certifies, Bool.and_eq_true, Bool.and_eq_true] at hcheck
    obtain ⟨⟨hfactors, htest⟩, hrest⟩ := hcheck
    have hprime : entry.p.Prime := by
      refine prime_of_lucasTest entry.base entry.factors (fun q hq => ?_) htest
      exact hknown q (List.contains_iff_mem.mp (List.all_eq_true.mp hfactors q hq))
    rw [List.map_cons, List.forall_mem_cons]
    exact ⟨hprime, ih (List.forall_mem_cons.mpr ⟨hprime, hknown⟩) hrest⟩
