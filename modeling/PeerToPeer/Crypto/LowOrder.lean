import PeerToPeer.Crypto.MontgomerySpec
import Mathlib.FieldTheory.IsAlgClosed.AlgebraicClosure

/-!
Public keys of low order give no shared secret.

Whether `u` belongs to the curve or to its twist, it is the `x`-coordinate of a
point `P` over the algebraic closure, and the ladder computes multiples of `P` there.
Clamped scalars are multiples of eight, so they annihilate every `P` that three
doublings annihilate.
-/

namespace PeerToPeer.Crypto

open PeerToPeer.Lib

namespace MontgomeryPoint

/-- The doubling formula of the ladder. -/
def double {F : Type} [Field25519Ops F] (P : MontgomeryPoint F) : MontgomeryPoint F :=
  let A := P.x + P.z
  let AA := Field25519Ops.square A
  let B := P.x - P.z
  let BB := Field25519Ops.square B
  let E := AA - BB
  ⟨AA * BB, E * (AA + Field25519Ops.addWord 0 121665 * E)⟩

section Extension

open Montgomery

variable {K : Type*} [Field K] [DecidableEq K] (φ : Fp →+* K)

theorem double_xRep {P : MontgomeryPoint Fp} {Q : (montgomeryCurve (486662 : K)).Point}
    (h : XRep (φ P.x) (φ P.z) Q) : XRep (φ (double P).x) (φ (double P).z) (Q + Q) := by
  have hdouble :=
    XRep.double (two_ne_zero_map φ) (coefficient_sq_ne_map φ) coefficient_eq h
  simp only [double, Exact.square_eq, addWord_a24, map_mul, map_add, map_sub, map_ofNat]
  simpa only [pow_two] using hdouble

theorem iterate_double_xRep {P : MontgomeryPoint Fp} {Q : (montgomeryCurve (486662 : K)).Point}
    (h : XRep (φ P.x) (φ P.z) Q) (k : ℕ) :
    XRep (φ (double^[k] P).x) (φ (double^[k] P).z) (2 ^ k • Q) := by
  induction k with
  | zero => simpa using h
  | succ k ih =>
      rw [Function.iterate_succ_apply', pow_succ, mul_nsmul, two_nsmul]
      exact double_xRep φ ih

omit [DecidableEq K] in
theorem eq_zero_of_xRep {X : K} {Q : (montgomeryCurve (486662 : K)).Point} (h : XRep X 0 Q) :
    Q = 0 := by
  cases Q with
  | zero => rfl
  | some x y hxy => exact absurd rfl h.1

/-- A multiple of eight annihilates what three doublings annihilate. -/
theorem nsmul_eq_zero {Q : (montgomeryCurve (486662 : K)).Point} {k n : ℕ} (hk : k ≤ 3)
    (hn : 8 ∣ n) (h : 2 ^ k • Q = 0) : n • Q = 0 := by
  obtain ⟨m, rfl⟩ : 2 ^ k ∣ n := dvd_trans (pow_dvd_pow 2 hk) hn
  rw [mul_nsmul, h, nsmul_zero]

end Extension

/-- Every `u` is the `x`-coordinate of a point over the algebraic closure. -/
theorem exists_nonsingular (u : Fp) : ∃ v : AlgebraicClosure Fp,
    (montgomeryCurve (486662 : AlgebraicClosure Fp)).Nonsingular
      (algebraMap Fp (AlgebraicClosure Fp) u) v := by
  set φ := algebraMap Fp (AlgebraicClosure Fp)
  obtain ⟨v, hv⟩ := IsAlgClosed.exists_pow_nat_eq (φ u ^ 3 + 486662 * φ u ^ 2 + φ u) two_pos
  exact ⟨v, Montgomery.nonsingular_of_equation (two_ne_zero_map φ) (coefficient_sq_ne_map φ) hv⟩

open Montgomery in
open scoped Classical in
/-- The ladder ends at infinity when the point has low order and the scalar is a
multiple of eight. -/
theorem mul_z_eq_zero {u : Fp} (hu : u ≠ 0) {k : ℕ} (hk : k ≤ 3)
    (hlow : (double^[k] (fromAffine u)).z = 0) {s : FieldQ} (hs : s.Raw) (hs8 : 8 ∣ s.value) :
    ((fromAffine u).mul s).z = 0 := by
  set φ := algebraMap Fp (AlgebraicClosure Fp)
  obtain ⟨v, hv⟩ := exists_nonsingular u
  have hP : XRep (φ (fromAffine u).x) (φ (fromAffine u).z)
      (.some (φ u) v hv : (montgomeryCurve (486662 : AlgebraicClosure Fp)).Point) := by
    simp only [fromAffine, map_one]
    exact ⟨one_ne_zero, (mul_one _).symm⟩
  have hdouble := iterate_double_xRep φ hP k
  rw [hlow, map_zero] at hdouble
  have hmul : XRep (φ ((fromAffine u).mul s).x) (φ ((fromAffine u).mul s).z)
      (s.value • (.some (φ u) v hv : (montgomeryCurve (486662 : AlgebraicClosure Fp)).Point)) :=
    mul_xRep φ hu hs
  rw [nsmul_eq_zero hk hs8 (eq_zero_of_xRep hdouble)] at hmul
  exact (map_eq_zero φ).mp hmul.1

end MontgomeryPoint

namespace X25519

open MontgomeryPoint

/-- The `u`-coordinate of a public key becomes the point at infinity after at most
three doublings. -/
def LowOrder (pk : Bytes 32) : Prop :=
  ∃ k ≤ 3, (double^[k] (fromAffine (Field25519Ops.fromBytes pk : Fp))).z = 0

theorem eight_dvd_scalar (sk : Bytes 32) : 8 ∣ (scalar sk).value := by
  rw [(scalar_spec sk).2]
  exact dvd_add (dvd_mul_left _ _) (by norm_num)

/-- No private key gets a secret from a public key of low order. -/
theorem exchange_lowOrder {pk : Bytes 32} (h : LowOrder pk) (sk : Bytes 32) :
    (exchange Fp sk pk).toOption = none := by
  obtain ⟨k, hk, hlow⟩ := h
  have hraw := (scalar_spec sk).1
  have hresult : ((fromAffine (Field25519Ops.fromBytes pk : Fp)).mul (scalar sk)).toAffine = 0 := by
    by_cases hu : (Field25519Ops.fromBytes pk : Fp) = 0
    · rw [hu, mul_zero_toAffine hraw.toLow]
    · rw [toAffine, mul_z_eq_zero hu hk hlow hraw (eight_dvd_scalar sk), Exact.invert_eq, inv_zero,
        mul_zero]
  rw [exchange, hresult]
  simp [CtOptional.toOption]

/-- The point of order four. -/
theorem exchange_lowOrder_one : LowOrder (leVector 32 1) ∧
    (exchange Fp (leVector 32 0) (leVector 32 1)).toOption = none :=
  have h : LowOrder (leVector 32 1) := ⟨2, by norm_num, by decide +kernel⟩
  ⟨h, exchange_lowOrder h _⟩

end X25519

end PeerToPeer.Crypto
