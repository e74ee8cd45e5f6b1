import Mathlib.AlgebraicGeometry.EllipticCurve.Affine.Point
import Mathlib.Tactic.FieldSimp
import Mathlib.Tactic.LinearCombination

/-!
Arithmetic on the `x`-coordinates of a Montgomery curve `y² = x³ + A x² + x`.

The curve is a Weierstrass curve, so its points form the group of Mathlib's
elliptic curve library. A pair `(X : Z)` represents a point when `Z = 0`
stands for the point at infinity and `X / Z` is the `x`-coordinate otherwise.
Doubling and differential addition act on these pairs; the differential
addition needs the known `x`-coordinate of the difference to be non-zero.
-/

namespace PeerToPeer.Lib

open WeierstrassCurve WeierstrassCurve.Affine

variable {K : Type*} [Field K]

/-- The Montgomery curve with coefficient `A`, in Weierstrass form. -/
def montgomeryCurve (A : K) : Affine K := ⟨0, A, 0, 1, 0⟩

namespace Montgomery

variable {A : K}

theorem equation_iff' {x y : K} :
    (montgomeryCurve A).Equation x y ↔ y ^ 2 = x ^ 3 + A * x ^ 2 + x := by
  rw [equation_iff]
  simp [montgomeryCurve]

@[simp] theorem negY_eq (x y : K) : (montgomeryCurve A).negY x y = -y := by
  simp [negY, montgomeryCurve]

/-- The pair `(X : Z)` represents the point. -/
def XRep (X Z : K) : (montgomeryCurve A).Point → Prop
  | .zero => Z = 0 ∧ X ≠ 0
  | .some x _ _ => Z ≠ 0 ∧ X = x * Z

@[simp] theorem xRep_zero {X Z : K} :
    XRep X Z (0 : (montgomeryCurve A).Point) ↔ Z = 0 ∧ X ≠ 0 := Iff.rfl

@[simp] theorem xRep_some {X Z x y : K} {h : (montgomeryCurve A).Nonsingular x y} :
    XRep X Z (.some x y h) ↔ Z ≠ 0 ∧ X = x * Z := Iff.rfl

section

variable (h2 : (2 : K) ≠ 0) (hA : A ^ 2 ≠ 4)

include h2 in
theorem ne_neg_iff {y : K} : y ≠ -y ↔ y ≠ 0 := by
  constructor
  · rintro h rfl
    simp at h
  · intro hy h
    apply mul_ne_zero h2 hy
    linear_combination h

include h2 hA in
theorem nonsingular_of_equation {x y : K} (h : y ^ 2 = x ^ 3 + A * x ^ 2 + x) :
    (montgomeryCurve A).Nonsingular x y := by
  rw [nonsingular_iff]
  refine ⟨equation_iff'.mpr h, ?_⟩
  simp only [montgomeryCurve]
  by_contra hs
  push Not at hs
  obtain ⟨hdx, hdy⟩ := hs
  have hy : y = 0 := by
    by_contra hy
    exact (ne_neg_iff h2).mpr hy (by simpa using hdy)
  subst hy
  -- a singular point is a double root of `x (x² + A x + 1)`
  have hroot : x * (x ^ 2 + A * x + 1) = 0 := by linear_combination -h
  rcases mul_eq_zero.mp hroot with hx | hx
  · subst hx
    simp at hdx
  · have hlin : x * (2 * x + A) = 0 := by linear_combination -hdx - hx
    rcases mul_eq_zero.mp hlin with hx' | hx'
    · subst hx'
      simp at hx
    · apply hA
      linear_combination (2 * x + A) * hx' - 4 * hx

end

variable [DecidableEq K]

/-- The `x`-coordinate of a sum of points with distinct `x`-coordinates. -/
theorem add_some_of_ne {x₁ y₁ x₂ y₂ : K} (h₁ : (montgomeryCurve A).Nonsingular x₁ y₁)
    (h₂ : (montgomeryCurve A).Nonsingular x₂ y₂) (hx : x₁ ≠ x₂) :
    ∃ y h, (Point.some x₁ y₁ h₁ + Point.some x₂ y₂ h₂ : (montgomeryCurve A).Point) =
      .some (((y₁ - y₂) / (x₁ - x₂)) ^ 2 - A - x₁ - x₂) y h := by
  rw [Point.add_of_X_ne hx]
  have haddX : (montgomeryCurve A).addX x₁ x₂
      ((montgomeryCurve A).slope x₁ x₂ y₁ y₂) =
      ((y₁ - y₂) / (x₁ - x₂)) ^ 2 - A - x₁ - x₂ := by
    rw [slope_of_X_ne hx]
    simp [addX, montgomeryCurve]
  refine ⟨_, haddX ▸ nonsingular_add h₁ h₂ fun hxy => hx hxy.left, ?_⟩
  simp only [haddX]

/-- The `x`-coordinate of the double of a point that is not 2-torsion. -/
theorem add_self_some {x y : K} (h : (montgomeryCurve A).Nonsingular x y)
    (hy : y ≠ -y) :
    ∃ y' h', (Point.some x y h + Point.some x y h : (montgomeryCurve A).Point) =
      .some (((3 * x ^ 2 + 2 * A * x + 1) / (y + y)) ^ 2 - A - x - x) y' h' := by
  have hy' : y ≠ (montgomeryCurve A).negY x y := by rwa [negY_eq]
  rw [Point.add_self_of_Y_ne hy']
  have haddX : (montgomeryCurve A).addX x x
      ((montgomeryCurve A).slope x x y y) =
      ((3 * x ^ 2 + 2 * A * x + 1) / (y + y)) ^ 2 - A - x - x := by
    rw [slope_of_Y_ne rfl hy']
    simp [addX, montgomeryCurve, negY]
  refine ⟨_, haddX ▸ nonsingular_add h h fun hxy => hy' hxy.right, ?_⟩
  simp only [haddX]

section

variable (h2 : (2 : K) ≠ 0) (hA : A ^ 2 ≠ 4)

include h2 hA in
/-- The doubling formula. -/
theorem XRep.double {X Z a24 : K} (ha : 4 * a24 = A - 2)
    {P : (montgomeryCurve A).Point} (h : XRep X Z P) :
    XRep ((X + Z) ^ 2 * (X - Z) ^ 2)
      (((X + Z) ^ 2 - (X - Z) ^ 2) *
        ((X + Z) ^ 2 + a24 * ((X + Z) ^ 2 - (X - Z) ^ 2))) (P + P) := by
  have hz : ((X + Z) ^ 2 - (X - Z) ^ 2) *
      ((X + Z) ^ 2 + a24 * ((X + Z) ^ 2 - (X - Z) ^ 2)) =
      4 * X * Z * (X ^ 2 + A * X * Z + Z ^ 2) := by
    linear_combination 4 * X * Z * X * Z * ha
  rw [hz]
  cases P with
  | zero =>
      obtain ⟨rfl, hX⟩ := h
      have hsum : (Point.zero + Point.zero : (montgomeryCurve A).Point) = 0 := add_zero 0
      rw [hsum, xRep_zero]
      constructor
      · ring
      · simpa using hX
  | some x y hxy =>
      obtain ⟨hZ, rfl⟩ := h
      have heq : y ^ 2 = x ^ 3 + A * x ^ 2 + x := equation_iff'.mp hxy.1
      by_cases hy : y = 0
      · subst hy
        rw [Point.add_self_of_Y_eq (by rw [negY_eq, neg_zero]), xRep_zero]
        constructor
        · linear_combination -4 * Z ^ 4 * heq
        · -- `x² = 1` at a 2-torsion point would make the curve singular
          intro h0
          have hx1 : x ^ 2 = 1 := by
            have : (x ^ 2 - 1) ^ 2 * Z ^ 4 = 0 := by linear_combination h0
            have := (mul_eq_zero.mp this).resolve_right (pow_ne_zero 4 hZ)
            have := pow_eq_zero_iff (two_ne_zero) |>.mp this
            linear_combination this
          apply hA
          have hA' : A = -2 * x := by linear_combination -heq - (x + A) * hx1
          rw [hA']
          linear_combination 4 * hx1
      · obtain ⟨y', h', hsum⟩ := add_self_some hxy ((ne_neg_iff h2).mpr hy)
        rw [hsum, xRep_some]
        have hden : x * (x ^ 2 + A * x + 1) ≠ 0 := by
          rw [show x * (x ^ 2 + A * x + 1) = y ^ 2 by linear_combination -heq]
          exact pow_ne_zero 2 hy
        constructor
        · rw [show 4 * (x * Z) * Z * ((x * Z) ^ 2 + A * (x * Z) * Z + Z ^ 2) =
              2 * 2 * (x * (x ^ 2 + A * x + 1)) * Z ^ 4 by ring]
          exact mul_ne_zero (mul_ne_zero (mul_ne_zero h2 h2) hden) (pow_ne_zero 4 hZ)
        · have hyy : y + y ≠ 0 := by
            rw [← two_mul]
            exact mul_ne_zero h2 hy
          rw [div_pow, sub_sub, sub_sub, eq_comm, sub_mul, sub_eq_iff_eq_add,
            div_mul_eq_mul_div, div_eq_iff (pow_ne_zero 2 hyy)]
          rw [show (y + y) ^ 2 = 4 * (x ^ 3 + A * x ^ 2 + x) by linear_combination 4 * heq]
          ring

omit [DecidableEq K] in
/-- The `x`-coordinates of the sum and the difference of two points. -/
theorem add_mul_sub {x₁ y₁ x₂ y₂ : K} (h₁ : y₁ ^ 2 = x₁ ^ 3 + A * x₁ ^ 2 + x₁)
    (h₂ : y₂ ^ 2 = x₂ ^ 3 + A * x₂ ^ 2 + x₂) (hx : x₁ ≠ x₂) :
    (((y₁ - y₂) / (x₁ - x₂)) ^ 2 - A - x₁ - x₂) *
      (((-y₁ - y₂) / (x₁ - x₂)) ^ 2 - A - x₁ - x₂) * (x₁ - x₂) ^ 2 =
      (x₁ * x₂ - 1) ^ 2 := by
  have hne : x₁ - x₂ ≠ 0 := sub_ne_zero.mpr hx
  -- both factors have the common part `w`, and differ in the sign of `2 y₁ y₂`
  have hw : ∀ s : K, s ^ 2 = 1 → (((s * y₁ - y₂) / (x₁ - x₂)) ^ 2 - A - x₁ - x₂) *
      (x₁ - x₂) ^ 2 = (x₁ + x₂) * (x₁ * x₂ + 1) + 2 * A * x₁ * x₂ - 2 * s * y₁ * y₂ := by
    intro s hs
    have hsq : ((s * y₁ - y₂) / (x₁ - x₂)) ^ 2 * (x₁ - x₂) ^ 2 = (s * y₁ - y₂) ^ 2 := by
      rw [div_pow, div_mul_cancel₀ _ (pow_ne_zero 2 hne)]
    linear_combination hsq + y₁ ^ 2 * hs + h₁ + h₂
  have hsum := hw 1 (by ring)
  have hdiff := hw (-1) (by ring)
  simp only [one_mul, neg_mul, mul_one, mul_neg, sub_neg_eq_add] at hsum hdiff
  apply mul_right_cancel₀ (pow_ne_zero 2 hne)
  have hprod : ((x₁ + x₂) * (x₁ * x₂ + 1) + 2 * A * x₁ * x₂ - 2 * y₁ * y₂) *
      ((x₁ + x₂) * (x₁ * x₂ + 1) + 2 * A * x₁ * x₂ + 2 * y₁ * y₂) =
      (x₁ * x₂ - 1) ^ 2 * (x₁ - x₂) ^ 2 := by
    linear_combination -4 * y₂ ^ 2 * h₁ - 4 * (x₁ ^ 3 + A * x₁ ^ 2 + x₁) * h₂
  rw [← hprod, ← hsum, ← hdiff]
  ring

include h2 in
/-- The differential addition formula: from `P`, `Q = P + D` and the
`x`-coordinate `u` of the difference `D`. -/
theorem XRep.diffAdd {X₁ Z₁ X₂ Z₂ u v : K} {P Q : (montgomeryCurve A).Point}
    {hD : (montgomeryCurve A).Nonsingular u v} (hu : u ≠ 0)
    (hP : XRep X₁ Z₁ P) (hQ : XRep X₂ Z₂ Q) (hPQ : Q = P + .some u v hD) :
    XRep (((X₂ - Z₂) * (X₁ + Z₁) + (X₂ + Z₂) * (X₁ - Z₁)) ^ 2)
      (u * ((X₂ - Z₂) * (X₁ + Z₁) - (X₂ + Z₂) * (X₁ - Z₁)) ^ 2) (P + Q) := by
  have h4 : (4 : K) ≠ 0 := by
    rw [show (4 : K) = 2 * 2 by norm_num]
    exact mul_ne_zero h2 h2
  rw [show ((X₂ - Z₂) * (X₁ + Z₁) + (X₂ + Z₂) * (X₁ - Z₁)) ^ 2 =
      4 * (X₁ * X₂ - Z₁ * Z₂) ^ 2 by ring,
    show u * ((X₂ - Z₂) * (X₁ + Z₁) - (X₂ + Z₂) * (X₁ - Z₁)) ^ 2 =
      4 * u * (X₁ * Z₂ - X₂ * Z₁) ^ 2 by ring]
  have hdiff : .some u v hD = Q + -P := by rw [hPQ]; abel
  cases P with
  | zero =>
      obtain ⟨rfl, hX₁⟩ := hP
      have hQD : Q = .some u v hD := by rw [hPQ]; exact zero_add _
      have hsum : Point.zero + Q = Q := zero_add Q
      rw [hsum, hQD, xRep_some]
      rw [hQD, xRep_some] at hQ
      obtain ⟨hZ₂, rfl⟩ := hQ
      constructor
      · rw [mul_zero, sub_zero]
        exact mul_ne_zero (mul_ne_zero h4 hu) (pow_ne_zero 2 (mul_ne_zero hX₁ hZ₂))
      · ring
  | some x₁ y₁ h₁ =>
      obtain ⟨hZ₁, rfl⟩ := hP
      have e₁ : y₁ ^ 2 = x₁ ^ 3 + A * x₁ ^ 2 + x₁ := equation_iff'.mp h₁.1
      cases Q with
      | zero =>
          obtain ⟨rfl, hX₂⟩ := hQ
          have hPD : .some u v hD = -Point.some x₁ y₁ h₁ := by
            rw [hdiff]; exact zero_add _
          rw [Point.neg_some, Point.some.injEq] at hPD
          have hsum : Point.some x₁ y₁ h₁ + Point.zero = Point.some x₁ y₁ h₁ := add_zero _
          rw [hsum, xRep_some, ← hPD.1]
          constructor
          · rw [mul_zero, zero_sub, neg_sq]
            exact mul_ne_zero (mul_ne_zero h4 hu) (pow_ne_zero 2 (mul_ne_zero hX₂ hZ₁))
          · ring
      | some x₂ y₂ h₂ =>
          obtain ⟨hZ₂, rfl⟩ := hQ
          have e₂ : y₂ ^ 2 = x₂ ^ 3 + A * x₂ ^ 2 + x₂ := equation_iff'.mp h₂.1
          rw [Point.neg_some] at hdiff
          simp only [negY_eq] at hdiff
          by_cases hx : x₁ = x₂
          · subst hx
            -- the points are opposite, since equal ones differ by infinity
            rcases Y_eq_of_X_eq h₁.1 h₂.1 rfl with hy | hy
            · subst hy
              rw [Point.add_of_Y_eq rfl (by rw [negY_eq, neg_neg])] at hdiff
              exact absurd hdiff (Point.some_ne_zero hD)
            · rw [negY_eq] at hy
              subst hy
              rw [Point.add_of_Y_eq rfl (by rw [negY_eq]), xRep_zero]
              refine ⟨by ring, ?_⟩
              have hy₂ : y₂ ≠ 0 := by
                rintro rfl
                rw [Point.add_of_Y_eq rfl (by rw [negY_eq, neg_zero, neg_zero, neg_zero])] at hdiff
                exact Point.some_ne_zero hD hdiff
              simp only [neg_neg] at hdiff
              obtain ⟨y', h', hdbl⟩ := add_self_some h₂ ((ne_neg_iff h2).mpr hy₂)
              rw [hdbl, Point.some.injEq] at hdiff
              intro h0
              apply hu
              have hyy : y₂ + y₂ ≠ 0 := by
                rw [← two_mul]
                exact mul_ne_zero h2 hy₂
              have hx1 : x₁ ^ 2 - 1 = 0 := by
                have : 4 * (Z₁ * Z₂) ^ 2 * (x₁ ^ 2 - 1) ^ 2 = 0 := by linear_combination h0
                have := (mul_eq_zero.mp this).resolve_left
                  (mul_ne_zero h4 (pow_ne_zero 2 (mul_ne_zero hZ₁ hZ₂)))
                exact pow_eq_zero_iff two_ne_zero |>.mp this
              have hmul : u * (y₂ + y₂) ^ 2 = (x₁ ^ 2 - 1) ^ 2 := by
                rw [hdiff.1, div_pow, sub_sub, sub_sub, sub_mul,
                  div_mul_cancel₀ _ (pow_ne_zero 2 hyy)]
                linear_combination -4 * (A + (x₁ + x₁)) * e₂
              rw [hx1, zero_pow two_ne_zero] at hmul
              exact (mul_eq_zero.mp hmul).resolve_right (pow_ne_zero 2 hyy)
          · obtain ⟨y₃, h₃, hsum⟩ := add_some_of_ne h₁ h₂ hx
            have h₁' : (montgomeryCurve A).Nonsingular x₁ (-y₁) := by
              have := (nonsingular_neg x₁ y₁).mpr h₁
              rwa [negY_eq] at this
            obtain ⟨y₄, h₄, hsub⟩ := add_some_of_ne h₁' h₂ hx
            rw [add_comm, hsub, Point.some.injEq] at hdiff
            rw [hsum, xRep_some]
            have hprod := add_mul_sub e₁ e₂ hx
            rw [← hdiff.1] at hprod
            constructor
            · rw [show x₁ * Z₁ * Z₂ - x₂ * Z₂ * Z₁ = (x₁ - x₂) * (Z₁ * Z₂) by ring]
              exact mul_ne_zero (mul_ne_zero h4 hu) (pow_ne_zero 2
                (mul_ne_zero (sub_ne_zero.mpr hx) (mul_ne_zero hZ₁ hZ₂)))
            · linear_combination -4 * (Z₁ * Z₂) ^ 2 * hprod

end

end Montgomery

end PeerToPeer.Lib
