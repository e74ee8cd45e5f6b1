import Mathlib.NumberTheory.LucasPrimality
import Mathlib.Data.List.Prime
import Mathlib.Tactic.NormNum.Prime

/-!
Lucas certificates for primes that are too large for trial division.

A number `p` is prime as soon as some `a` has order `p - 1` modulo `p`. The
order is checked from the factorisation of `p - 1`, whose factors are small or
have been certified before. The powers are evaluated by the kernel, so they are
computed by repeated squaring on a fixed number of exponent bits.
-/

namespace PeerToPeer.Lib

/-- `a ^ e % m` by repeated squaring, for exponents of at most `bits` bits. -/
def powMod (m a : ℕ) : ℕ → ℕ → ℕ
  | 0, _ => 1 % m
  | bits + 1, e =>
      if e % 2 = 1 then powMod m a bits (e / 2) ^ 2 % m * a % m
      else powMod m a bits (e / 2) ^ 2 % m

theorem powMod_eq (m a bits e : ℕ) (he : e < 2 ^ bits) :
    powMod m a bits e = a ^ e % m := by
  induction bits generalizing e with
  | zero =>
      have : e = 0 := by simpa using he
      simp [powMod, this]
  | succ bits ih =>
      have hhalf : e / 2 < 2 ^ bits := by rw [pow_succ] at he; omega
      have hsq : (a ^ (e / 2) % m) ^ 2 % m = a ^ (2 * (e / 2)) % m := by
        rw [← Nat.pow_mod, ← pow_mul, mul_comm]
      rw [powMod, ih _ hhalf, hsq]
      split
      · rename_i hodd
        rw [Nat.mod_mul_mod, ← pow_succ, show 2 * (e / 2) + 1 = e by omega]
      · rw [show 2 * (e / 2) = e by omega]

/-- Lucas's test with the prime factors of `p - 1` listed with multiplicity. -/
def lucasCheck (bits p a : ℕ) (factors : List ℕ) : Bool :=
  decide (1 < p) && decide (p ≤ 2 ^ bits) && factors.prod == p - 1 &&
    powMod p a bits (p - 1) == 1 &&
    factors.all fun q => powMod p a bits ((p - 1) / q) != 1

theorem natCast_pow_eq_one_iff {p : ℕ} (hp : 1 < p) (a e : ℕ) :
    (a : ZMod p) ^ e = 1 ↔ a ^ e % p = 1 := by
  rw [← Nat.cast_pow, ← Nat.cast_one, ZMod.natCast_eq_natCast_iff',
    Nat.mod_eq_of_lt hp]

theorem prime_of_lucasCheck {bits p a : ℕ} {factors : List ℕ}
    (hprimes : ∀ q ∈ factors, q.Prime)
    (hcheck : lucasCheck bits p a factors = true) : p.Prime := by
  simp only [lucasCheck, Bool.and_eq_true, decide_eq_true_eq, beq_iff_eq,
    List.all_eq_true, bne_iff_ne] at hcheck
  obtain ⟨⟨⟨⟨hp, hbits⟩, hprod⟩, hfull⟩, hproper⟩ := hcheck
  have hfits : ∀ e ≤ p - 1, e < 2 ^ bits := fun e he => by omega
  apply lucas_primality p (a : ZMod p)
  · rw [natCast_pow_eq_one_iff hp, ← powMod_eq _ _ _ _ (hfits _ le_rfl)]
    exact hfull
  · intro q hq hdvd
    rw [← hprod] at hdvd
    -- a prime that divides the product of the listed primes is one of them
    obtain ⟨r, hr, hqr⟩ := (Prime.dvd_prod_iff hq.prime).mp hdvd
    obtain rfl := (Nat.prime_dvd_prime_iff_eq hq (hprimes r hr)).mp hqr
    rw [Ne, natCast_pow_eq_one_iff hp,
      ← powMod_eq _ _ _ _ (hfits _ (Nat.div_le_self _ _))]
    exact hproper q hr

/-- One prime of a certificate: its size in bits, the prime, a generator, and the
prime factors of its predecessor. -/
structure PrattEntry where
  bits : ℕ
  prime : ℕ
  generator : ℕ
  factors : List ℕ

/-- A chain of entries, each of which may use the known primes and those before
it. -/
def prattCheck (known : List ℕ) : List PrattEntry → Bool
  | [] => true
  | e :: es =>
      e.factors.all (known.contains ·) && lucasCheck e.bits e.prime e.generator e.factors &&
        prattCheck (e.prime :: known) es

theorem prime_of_prattCheck {known : List ℕ} {es : List PrattEntry}
    (hknown : ∀ q ∈ known, q.Prime) (h : prattCheck known es = true) :
    ∀ e ∈ es, e.prime.Prime := by
  induction es generalizing known with
  | nil => simp
  | cons e es ih =>
      simp only [prattCheck, Bool.and_eq_true, List.all_eq_true, List.contains_iff_mem] at h
      obtain ⟨⟨hfactors, hlucas⟩, hrest⟩ := h
      have hprime : e.prime.Prime :=
        prime_of_lucasCheck (fun q hq => hknown q (hfactors q hq)) hlucas
      rw [List.forall_mem_cons]
      exact ⟨hprime, ih (List.forall_mem_cons.mpr ⟨hprime, hknown⟩) hrest⟩

end PeerToPeer.Lib
