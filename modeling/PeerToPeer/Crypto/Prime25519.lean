import PeerToPeer.Lib.Pratt
import Mathlib.NumberTheory.LegendreSymbol.Basic

/-!
The prime `2^255 - 19` and the two facts about its residues that the curve
code relies on: `-1` is a square, and the constant `d = -121665/121666` of the
twisted Edwards curve is not.
-/

namespace PeerToPeer.Crypto

open PeerToPeer.Lib

/-- The characteristic of `field_25519`. -/
def p25519 : ℕ := 2 ^ 255 - 19

/-- Exact arithmetic modulo `2^255 - 19`. -/
abbrev Fp := ZMod p25519

/-! ### Primality

The certificate follows the factorisation of `p - 1` down to primes that
`norm_num` decides by trial division. -/

def smallPrimes : List ℕ :=
  [2, 3, 5, 7, 13, 19, 31, 47, 103, 107, 127, 223, 353, 991, 2437, 4153, 57467, 65147, 75707,
    132049, 430751, 569003, 1923133]

theorem prime_of_mem_smallPrimes : ∀ q ∈ smallPrimes, q.Prime := by
  simp only [smallPrimes, List.forall_mem_cons, List.not_mem_nil, false_imp_iff, implies_true]
  norm_num

def certificate25519 : List PrattEntry :=
  [⟨32, 2773320623, 5, [2, 2437, 569003]⟩,
    ⟨40, 72106336199, 7, [2, 13, 2773320623]⟩,
    ⟨32, 8574133, 2, [2, 2, 3, 7, 103, 991]⟩,
    ⟨64, 1919519569386763, 2, [2, 3, 7, 19, 47, 47, 127, 8574133]⟩,
    ⟨128, 75445702479781427272750846543864801, 7,
      [2, 2, 2, 2, 2, 3, 3, 5, 5, 75707, 72106336199, 1919519569386763]⟩,
    ⟨64, 31757755568855353, 10, [2, 2, 2, 3, 31, 107, 223, 4153, 430751]⟩,
    ⟨256, 74058212732561358302231226437062788676166966415465897661863160754340907, 2,
      [2, 3, 353, 57467, 132049, 1923133, 31757755568855353,
        75445702479781427272750846543864801]⟩,
    ⟨256, p25519, 2,
      [2, 2, 3, 65147,
        74058212732561358302231226437062788676166966415465897661863160754340907]⟩]

theorem p25519_prime : p25519.Prime :=
  prime_of_prattCheck prime_of_mem_smallPrimes
    (by decide +kernel : prattCheck smallPrimes certificate25519 = true)
    ⟨256, p25519, 2, _⟩ (List.mem_of_getElem? (i := 7) rfl)

instance : Fact p25519.Prime := ⟨p25519_prime⟩

theorem p25519_eq :
    p25519 = 57896044618658097711785492504343953926634992332820282019728792003956564819949 := by
  norm_num [p25519]

theorem two_ne_zero_fp : (2 : Fp) ≠ 0 := by
  intro h
  have hdvd : p25519 ∣ 2 := (ZMod.natCast_eq_zero_iff 2 p25519).mp (by exact_mod_cast h)
  have := Nat.le_of_dvd (by norm_num) hdvd
  norm_num [p25519] at this

/-! ### Residues -/

/-- A power of a numeral of `Fp`, evaluated on natural numbers. -/
theorem natCast_pow_fp (a e r : ℕ) (he : e < 2 ^ 256)
    (h : powMod p25519 a 256 e = r) : (a : Fp) ^ e = (r : Fp) := by
  rw [← Nat.cast_pow, ZMod.natCast_eq_natCast_iff', ← h, powMod_eq _ _ _ _ he, Nat.mod_mod]

theorem natCast_ne_zero_fp {n : ℕ} (h0 : 0 < n) (h : n < p25519) : (n : Fp) ≠ 0 := by
  intro hz
  exact absurd (Nat.le_of_dvd h0 ((ZMod.natCast_eq_zero_iff n p25519).mp hz)) (by omega)

theorem natCast_pred_fp : ((p25519 - 1 : ℕ) : Fp) = -1 := by
  rw [Nat.cast_sub (by norm_num [p25519]), ZMod.natCast_self]
  simp

theorem neg_one_ne_one_fp : (-1 : Fp) ≠ 1 := by
  intro h
  apply two_ne_zero_fp
  linear_combination -h

/-- The numbers whose powers decide that two and the constant of the curve are
not squares. -/
theorem powMod_half :
    powMod p25519 2 256 (p25519 / 2) = p25519 - 1 ∧
      powMod p25519 ((p25519 - 121665) * 121666) 256 (p25519 / 2) = p25519 - 1 := by
  decide +kernel

/-- Two is not a square, so its power `(p - 1) / 4` is a root of minus one. -/
theorem two_pow_half : (2 : Fp) ^ (p25519 / 2) = -1 := by
  have h := natCast_pow_fp 2 (p25519 / 2) (p25519 - 1) (by norm_num [p25519]) powMod_half.1
  rwa [natCast_pred_fp] at h

theorem pow_half_sq {z : Fp} (hz : z ≠ 0) : z ^ (p25519 / 2) * z ^ (p25519 / 2) = 1 := by
  rw [← pow_add, show p25519 / 2 + p25519 / 2 = p25519 - 1 by norm_num [p25519]]
  exact ZMod.pow_card_sub_one_eq_one hz

theorem pow_half_of_isSquare {z : Fp} (hz : z ≠ 0) (h : IsSquare z) :
    z ^ (p25519 / 2) = 1 := by
  obtain ⟨r, rfl⟩ := h
  rw [mul_pow]
  apply pow_half_sq
  rintro rfl
  simp at hz

theorem not_isSquare_of_pow_half {z : Fp} (h : z ^ (p25519 / 2) = -1) : ¬IsSquare z := by
  intro hsq
  by_cases hz : z = 0
  · rw [hz, zero_pow (by norm_num [p25519])] at h
    exact one_ne_zero (neg_eq_zero.mp h.symm)
  · exact neg_one_ne_one_fp (h.symm.trans (pow_half_of_isSquare hz hsq))

/-- The constant of the curve is `-121665/121666`; times the square of its
denominator it is the number tested here. -/
theorem edwardsD_not_isSquare : ¬IsSquare (-121665 / 121666 : Fp) := by
  have hden : (121666 : Fp) ≠ 0 := by
    exact_mod_cast natCast_ne_zero_fp (n := 121666) (by norm_num) (by norm_num [p25519])
  have hpow : (((p25519 - 121665) * 121666 : ℕ) : Fp) ^ (p25519 / 2) = -1 := by
    have h := natCast_pow_fp ((p25519 - 121665) * 121666) (p25519 / 2) (p25519 - 1)
      (by norm_num [p25519]) powMod_half.2
    rwa [natCast_pred_fp] at h
  have hcast : (((p25519 - 121665) * 121666 : ℕ) : Fp) = -121665 * 121666 := by
    rw [Nat.cast_mul, Nat.cast_sub (by norm_num [p25519]), ZMod.natCast_self]
    norm_num
  rintro ⟨r, hr⟩
  apply not_isSquare_of_pow_half hpow
  rw [hcast]
  refine ⟨r * 121666, ?_⟩
  rw [show r * 121666 * (r * 121666) = r * r * 121666 * 121666 by ring, ← hr]
  field_simp

end PeerToPeer.Crypto
