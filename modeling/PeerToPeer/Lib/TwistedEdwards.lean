import Mathlib.Algebra.Field.Basic
import Mathlib.Algebra.Group.Even
import Mathlib.Algebra.Order.BigOperators.Group.Finset
import Mathlib.SetTheory.Cardinal.Finite
import Mathlib.Tactic.FieldSimp
import Mathlib.Tactic.LinearCombination
import Mathlib.Tactic.Ring

/-!
The group of a complete twisted Edwards curve `-x² + y² = 1 + d x² y²`.

When `-1` is a square and `d` is not, the denominators of the addition law
never vanish, so one formula adds every pair of points: equal, opposite and
of small order alike. Associativity is the identity of the two triple sums
modulo the three curve equations.
-/

namespace PeerToPeer.Lib

/-- The parameters of a complete twisted Edwards curve with `a = -1`. -/
structure EdwardsCurve (K : Type*) [Field K] where
  d : K
  i : K
  i_sq : i ^ 2 = -1
  d_not_square : ¬IsSquare d
  two_ne_zero : (2 : K) ≠ 0

namespace EdwardsCurve

variable {K : Type*} [Field K] (E : EdwardsCurve K)

/-- The affine curve equation. -/
def OnCurve (x y : K) : Prop := y ^ 2 - x ^ 2 = 1 + E.d * x ^ 2 * y ^ 2

/-- An affine point of the curve. -/
@[ext] structure Point where
  x : K
  y : K
  onCurve : E.OnCurve x y

variable {E}

/-! ### Completeness of the addition law -/

theorem i_ne_zero : E.i ≠ 0 := by
  intro h
  have := E.i_sq
  simp [h] at this

theorem two_i_ne_zero : 2 * E.i ≠ 0 := mul_ne_zero E.two_ne_zero i_ne_zero

/-- A denominator that vanishes exhibits `d` as a square: with
`δ = d x₁ x₂ y₁ y₂ = ±1` both `d (x₂ y₂ (i x₁ ± δ y₁))²` are squares, and the
two bases cannot vanish together. -/
theorem delta_sq_ne_one {x₁ y₁ x₂ y₂ : K} (h₁ : E.OnCurve x₁ y₁)
    (h₂ : E.OnCurve x₂ y₂) : (E.d * x₁ * x₂ * y₁ * y₂) ^ 2 ≠ 1 := by
  intro hδ
  unfold OnCurve at h₁ h₂
  have hi := E.i_sq
  have hne : x₁ ≠ 0 ∧ x₂ ≠ 0 ∧ y₁ ≠ 0 ∧ y₂ ≠ 0 := by
    refine ⟨?_, ?_, ?_, ?_⟩ <;> rintro rfl <;> simp at hδ
  obtain ⟨hx₁, hx₂, hy₁, hy₂⟩ := hne
  have hplus : E.d * (x₂ * y₂ * (E.i * x₁ + E.d * x₁ * x₂ * y₁ * y₂ * y₁)) ^ 2 =
      (y₂ + E.i * x₂) ^ 2 := by
    linear_combination (E.d * (x₂ * y₂) ^ 2 * x₁ ^ 2 - x₂ ^ 2) * hi +
      (E.d * (x₂ * y₂) ^ 2 * y₁ ^ 2 + 2 * E.i * (x₂ * y₂) + 1) * hδ +
      E.d * (x₂ * y₂) ^ 2 * h₁ - h₂
  have hminus : E.d * (x₂ * y₂ * (E.i * x₁ - E.d * x₁ * x₂ * y₁ * y₂ * y₁)) ^ 2 =
      (y₂ - E.i * x₂) ^ 2 := by
    linear_combination (E.d * (x₂ * y₂) ^ 2 * x₁ ^ 2 - x₂ ^ 2) * hi +
      (E.d * (x₂ * y₂) ^ 2 * y₁ ^ 2 - 2 * E.i * (x₂ * y₂) + 1) * hδ +
      E.d * (x₂ * y₂) ^ 2 * h₁ - h₂
  have square_of : ∀ s t : K, s ≠ 0 → E.d * s ^ 2 = t ^ 2 → IsSquare E.d := by
    intro s t hs h
    refine ⟨t / s, ?_⟩
    field_simp
    linear_combination h
  by_cases hzero : E.i * x₁ + E.d * x₁ * x₂ * y₁ * y₂ * y₁ = 0
  · apply E.d_not_square
    refine square_of _ _ ?_ hminus
    refine mul_ne_zero (mul_ne_zero hx₂ hy₂) ?_
    intro hzero'
    have : 2 * E.i * x₁ = 0 := by linear_combination hzero + hzero'
    exact mul_ne_zero two_i_ne_zero hx₁ this
  · exact E.d_not_square (square_of _ _ (mul_ne_zero (mul_ne_zero hx₂ hy₂) hzero) hplus)

theorem one_add_delta_ne_zero {x₁ y₁ x₂ y₂ : K} (h₁ : E.OnCurve x₁ y₁)
    (h₂ : E.OnCurve x₂ y₂) : 1 + E.d * x₁ * x₂ * y₁ * y₂ ≠ 0 := by
  intro h
  apply delta_sq_ne_one h₁ h₂
  rw [show E.d * x₁ * x₂ * y₁ * y₂ = -1 by linear_combination h]
  ring

theorem one_sub_delta_ne_zero {x₁ y₁ x₂ y₂ : K} (h₁ : E.OnCurve x₁ y₁)
    (h₂ : E.OnCurve x₂ y₂) : 1 - E.d * x₁ * x₂ * y₁ * y₂ ≠ 0 := by
  intro h
  apply delta_sq_ne_one h₁ h₂
  rw [show E.d * x₁ * x₂ * y₁ * y₂ = 1 by linear_combination -h]
  ring

theorem onCurve_add {x₁ y₁ x₂ y₂ : K} (h₁ : E.OnCurve x₁ y₁)
    (h₂ : E.OnCurve x₂ y₂) :
    E.OnCurve ((x₁ * y₂ + y₁ * x₂) / (1 + E.d * x₁ * x₂ * y₁ * y₂))
      ((y₁ * y₂ + x₁ * x₂) / (1 - E.d * x₁ * x₂ * y₁ * y₂)) := by
  have hp := one_add_delta_ne_zero h₁ h₂
  have hm := one_sub_delta_ne_zero h₁ h₂
  unfold OnCurve at h₁ h₂ ⊢
  have key : (y₁ * y₂ + x₁ * x₂) ^ 2 * (1 + E.d * x₁ * x₂ * y₁ * y₂) ^ 2 -
      (x₁ * y₂ + y₁ * x₂) ^ 2 * (1 - E.d * x₁ * x₂ * y₁ * y₂) ^ 2 =
      (1 + E.d * x₁ * x₂ * y₁ * y₂) ^ 2 * (1 - E.d * x₁ * x₂ * y₁ * y₂) ^ 2 +
        E.d * (x₁ * y₂ + y₁ * x₂) ^ 2 * (y₁ * y₂ + x₁ * x₂) ^ 2 := by
    clear hp hm
    grind
  generalize 1 + E.d * x₁ * x₂ * y₁ * y₂ = s at hp key ⊢
  generalize 1 - E.d * x₁ * x₂ * y₁ * y₂ = t at hm key ⊢
  field_simp
  linear_combination key

/-- The denominator of `x²` at a given `y` never vanishes: otherwise `d` would be a square. -/
theorem d_mul_sq_add_one_ne_zero (y : K) : E.d * (y * y) + 1 ≠ 0 := by
  intro h
  have hi := E.i_sq
  have hy : y ≠ 0 := by
    rintro rfl
    simp at h
  apply E.d_not_square
  refine ⟨E.i / y, ?_⟩
  rw [div_mul_div_comm, ← pow_two, hi, eq_div_iff (mul_ne_zero hy hy)]
  linear_combination h

/-! ### The group -/

namespace Point

instance : Zero E.Point := ⟨0, 1, by simp [OnCurve]⟩

instance : Neg E.Point := ⟨fun P => ⟨-P.x, P.y, by
  have h := P.onCurve
  unfold OnCurve at h ⊢
  linear_combination h⟩⟩

instance : Add E.Point := ⟨fun P Q =>
  ⟨(P.x * Q.y + P.y * Q.x) / (1 + E.d * P.x * Q.x * P.y * Q.y),
    (P.y * Q.y + P.x * Q.x) / (1 - E.d * P.x * Q.x * P.y * Q.y),
    onCurve_add P.onCurve Q.onCurve⟩⟩

@[simp] theorem zero_x : (0 : E.Point).x = 0 := rfl

@[simp] theorem zero_y : (0 : E.Point).y = 1 := rfl

@[simp] theorem neg_x (P : E.Point) : (-P).x = -P.x := rfl

@[simp] theorem neg_y (P : E.Point) : (-P).y = P.y := rfl

theorem add_x (P Q : E.Point) : (P + Q).x =
    (P.x * Q.y + P.y * Q.x) / (1 + E.d * P.x * Q.x * P.y * Q.y) := rfl

theorem add_y (P Q : E.Point) : (P + Q).y =
    (P.y * Q.y + P.x * Q.x) / (1 - E.d * P.x * Q.x * P.y * Q.y) := rfl

theorem add_comm' (P Q : E.Point) : P + Q = Q + P := by
  ext
  · rw [add_x, add_x]
    congr 1 <;> ring
  · rw [add_y, add_y]
    congr 1 <;> ring

theorem zero_add' (P : E.Point) : 0 + P = P := by
  ext <;> simp [add_x, add_y]

theorem neg_add_cancel' (P : E.Point) : -P + P = 0 := by
  have hm := one_sub_delta_ne_zero (-P).onCurve P.onCurve
  have h := P.onCurve
  unfold OnCurve at h
  simp only [neg_x, neg_y] at hm
  ext
  · simp only [add_x, neg_x, neg_y, zero_x]
    rw [show -P.x * P.y + P.y * P.x = 0 by ring, zero_div]
  · simp only [add_y, neg_x, neg_y, zero_y]
    rw [div_eq_one_iff_eq hm]
    linear_combination h

/-- Over its two inner denominators, a triple sum is the sum of numerators. -/
theorem add_add_x (P Q R : E.Point) :
    (P + Q + R).x * (1 - (E.d * P.x * Q.x * P.y * Q.y) ^ 2 +
      E.d * (P.x * Q.y + P.y * Q.x) * (P.y * Q.y + P.x * Q.x) * R.x * R.y) =
    (P.x * Q.y + P.y * Q.x) * R.y * (1 - E.d * P.x * Q.x * P.y * Q.y) +
      (P.y * Q.y + P.x * Q.x) * R.x * (1 + E.d * P.x * Q.x * P.y * Q.y) := by
  have hp := one_add_delta_ne_zero P.onCurve Q.onCurve
  have hm := one_sub_delta_ne_zero P.onCurve Q.onCurve
  have ho := one_add_delta_ne_zero (P + Q).onCurve R.onCurve
  have hprod : (1 + E.d * P.x * Q.x * P.y * Q.y) * (1 - E.d * P.x * Q.x * P.y * Q.y) =
      1 - (E.d * P.x * Q.x * P.y * Q.y) ^ 2 := by ring
  have hx := div_mul_cancel₀ (P.x * Q.y + P.y * Q.x) hp
  have hy := div_mul_cancel₀ (P.y * Q.y + P.x * Q.x) hm
  rw [← add_x] at hx
  rw [← add_y] at hy
  have hsum := div_mul_cancel₀ ((P + Q).x * R.y + (P + Q).y * R.x) ho
  rw [← add_x] at hsum
  rw [← hprod, ← hx, ← hy]
  linear_combination (1 + E.d * P.x * Q.x * P.y * Q.y) *
    (1 - E.d * P.x * Q.x * P.y * Q.y) * hsum

theorem add_add_x_den_ne_zero (P Q R : E.Point) :
    1 - (E.d * P.x * Q.x * P.y * Q.y) ^ 2 +
      E.d * (P.x * Q.y + P.y * Q.x) * (P.y * Q.y + P.x * Q.x) * R.x * R.y ≠ 0 := by
  have hp := one_add_delta_ne_zero P.onCurve Q.onCurve
  have hm := one_sub_delta_ne_zero P.onCurve Q.onCurve
  have ho := one_add_delta_ne_zero (P + Q).onCurve R.onCurve
  have hx := div_mul_cancel₀ (P.x * Q.y + P.y * Q.x) hp
  have hy := div_mul_cancel₀ (P.y * Q.y + P.x * Q.x) hm
  rw [← add_x] at hx
  rw [← add_y] at hy
  have hden := mul_ne_zero ho (mul_ne_zero hp hm)
  intro h
  apply hden
  rw [← hx, ← hy] at h
  linear_combination h

theorem add_assoc_x (P Q R : E.Point) : (P + Q + R).x = (P + (Q + R)).x := by
  rw [add_comm' P (Q + R)]
  have h₁ := P.onCurve
  have h₂ := Q.onCurve
  have h₃ := R.onCurve
  unfold OnCurve at h₁ h₂ h₃
  have hl := add_add_x P Q R
  have hr := add_add_x Q R P
  have hdl := add_add_x_den_ne_zero P Q R
  have hdr := add_add_x_den_ne_zero Q R P
  apply mul_right_cancel₀ (mul_ne_zero hdl hdr)
  rw [← mul_assoc, hl, mul_comm (1 - _ + _) (1 - _ + _), ← mul_assoc, hr]
  clear hl hr hdl hdr
  grind

/-- The sum with the point `(i, 0)` of order four exchanges the coordinates. -/
def rotate (P : E.Point) : E.Point :=
  ⟨E.i * P.y, E.i * P.x, by
    have h := P.onCurve
    have hi := E.i_sq
    unfold OnCurve at h ⊢
    linear_combination h + (P.x ^ 2 - P.y ^ 2 - E.d * P.x ^ 2 * P.y ^ 2 * (E.i ^ 2 - 1)) * hi⟩

theorem rotate_x (P : E.Point) : (rotate P).x = E.i * P.y := rfl

theorem rotate_y (P : E.Point) : (rotate P).y = E.i * P.x := rfl

theorem add_rotate (P Q : E.Point) : P + rotate Q = rotate (P + Q) := by
  have hδ : E.d * P.x * (E.i * Q.y) * P.y * (E.i * Q.x) = -(E.d * P.x * Q.x * P.y * Q.y) := by
    linear_combination E.d * P.x * Q.x * P.y * Q.y * E.i_sq
  ext
  · rw [add_x, rotate_x, rotate_x, rotate_y, add_y, hδ, ← sub_eq_add_neg, mul_div_assoc']
    congr 1
    ring
  · rw [add_y, rotate_y, rotate_x, rotate_y, add_x, hδ, sub_neg_eq_add, mul_div_assoc']
    congr 1
    ring

/-- The second coordinates of two points are the first ones of their rotations. -/
theorem add_assoc' (P Q R : E.Point) : P + Q + R = P + (Q + R) := by
  ext
  · exact add_assoc_x P Q R
  · have h := add_assoc_x P Q (rotate R)
    rw [add_rotate, add_rotate, add_rotate, rotate_x, rotate_x] at h
    exact mul_left_cancel₀ i_ne_zero h

instance : AddCommGroup E.Point where
  add_assoc := add_assoc'
  zero_add := zero_add'
  add_zero P := by rw [add_comm', zero_add']
  add_comm := add_comm'
  neg_add_cancel := neg_add_cancel'
  nsmul := nsmulRec
  zsmul := zsmulRec

/-! ### The number of points -/

/-- Two points with the same `y` are equal or opposite. -/
theorem eq_or_eq_neg_of_y_eq {P Q : E.Point} (h : P.y = Q.y) : P = Q ∨ P = -Q := by
  have hP := P.onCurve
  have hQ := Q.onCurve
  unfold OnCurve at hP hQ
  rw [← h] at hQ
  have hsq : P.x * P.x = Q.x * Q.x := by
    apply mul_right_cancel₀ (d_mul_sq_add_one_ne_zero (E := E) P.y)
    linear_combination hQ - hP
  rcases mul_self_eq_mul_self_iff.mp hsq with hx | hx
  · exact .inl (Point.ext hx h)
  · exact .inr (Point.ext hx h)

instance [Finite K] : Finite E.Point :=
  Finite.of_injective (fun P : E.Point => (P.x, P.y)) fun _ _ h =>
    Point.ext (congrArg Prod.fst h) (congrArg Prod.snd h)

/-- There are at most two points for each `y`. -/
theorem card_le [Finite K] : Nat.card E.Point ≤ 2 * Nat.card K := by
  classical
  have := Fintype.ofFinite K
  have := Fintype.ofFinite E.Point
  rw [Nat.card_eq_fintype_card, Nat.card_eq_fintype_card, ← Finset.card_univ, ← Finset.card_univ]
  refine Finset.card_le_mul_card_image_of_maps_to (f := fun P : E.Point => P.y)
    (fun _ _ => Finset.mem_univ _) 2 fun y _ => ?_
  by_cases hy : ∃ Q : E.Point, Q.y = y
  · obtain ⟨Q, rfl⟩ := hy
    refine (Finset.card_le_card fun P hP => ?_).trans (Finset.card_le_two (a := Q) (b := -Q))
    rw [Finset.mem_filter] at hP
    simpa using eq_or_eq_neg_of_y_eq hP.2
  · rw [Finset.filter_false_of_mem fun P _ hP => hy ⟨P, hP⟩]
    simp

end Point

end EdwardsCurve

end PeerToPeer.Lib
