import PeerToPeer.Crypto.FieldQCodec
import PeerToPeer.Crypto.MontgomeryPoint
import PeerToPeer.Lib.Montgomery

/-!
What the ladder of `montgomery_point` computes.

Undoing the pending swap, a turn of the loop replaces the pair `(R₀, R₁)` by
`(2 R₀, R₀ + R₁)` or `(R₀ + R₁, 2 R₁)`. In exact arithmetic the pair represents
`j P` and `(j + 1) P` for the bits `j` read so far, so the result is the
`x`-coordinate of `n P`. Two parties that exchange the `x`-coordinates of
multiples of one base point therefore agree.
-/

namespace PeerToPeer.Crypto

open PeerToPeer.Lib Field25519Ops

/-- The pair, swapped on demand. -/
def swapIf {α : Type} (b : Bool) (xs : α × α) : α × α := if b then xs.swap else xs

@[simp] theorem swapIf_false {α : Type} (xs : α × α) : swapIf false xs = xs := rfl

@[simp] theorem swapIf_true {α : Type} (xs : α × α) : swapIf true xs = xs.swap := rfl

theorem swapIf_swapIf {α : Type} (b c : Bool) (xs : α × α) :
    swapIf b (swapIf c xs) = swapIf (b ^^ c) xs := by
  cases b <;> cases c <;> rfl

namespace MontgomeryPoint

section Generic

variable {F : Type} [Field25519Ops F]

theorem ctSwap_eq (a b : MontgomeryPoint F) (c : Choice) :
    ctSwap a b c = swapIf c.unwrapPublic (a, b) := by
  simp only [ctSwap, Field25519Ops.ctSwap_eq]
  cases c.unwrapPublic <;> rfl

/-- The two points with the pending swap undone. -/
def Ladder.points (l : Ladder F) : MontgomeryPoint F × MontgomeryPoint F :=
  swapIf l.previousBit.unwrapPublic (l.x0, l.x1)

/-- One turn, with its swap done and undone. -/
def turn (u : F) (b : Bool) (xs : MontgomeryPoint F × MontgomeryPoint F) :
    MontgomeryPoint F × MontgomeryPoint F :=
  swapIf b (step u (swapIf b xs))

theorem ladderTurn_points (u : F) (s : FieldQ) (i : ℕ) (l : Ladder F) :
    (ladderTurn u s i l).points =
      turn u (s.getBitI (UInt8.ofNat i)).unwrapPublic l.points := by
  rw [turn, Ladder.points, Ladder.points, ladderTurn, ladderSwap, ctSwap_eq, swapIf_swapIf,
    Choice.unwrapPublic_xor]

/-- The product as a loop over the bits of the number that the scalar holds. -/
theorem mul_eq_loop (P : MontgomeryPoint F) {s : FieldQ} (hs : s.Low) :
    P.mul s = (loopDown (fun i => turn P.x (s.value.testBit i)) 256 (⟨1, 0⟩, P)).1 := by
  have hpoints := loopDown_rel (R := fun (l : Ladder F) xs => l.points = xs) (n := 256)
    (f := ladderTurn P.x s) (g := fun i => turn P.x (s.value.testBit i))
    (a := ladderInit P) (b := (⟨1, 0⟩, P)) rfl (by
      intro k hk l xs hl
      rw [ladderTurn_points, hl, FieldQ.getBitI_eq hs hk])
  rw [mul, ctSwap_eq, ← hpoints]
  rfl

end Generic

/-! ### Exact arithmetic -/

/-- Curve25519. -/
abbrev curve25519 : WeierstrassCurve.Affine Fp := montgomeryCurve 486662

theorem coefficient_sq_ne : (486662 : Fp) ^ 2 ≠ 4 := by
  have h := natCast_ne_zero_fp (n := 486662 ^ 2 - 4) (by norm_num) (by norm_num [p25519])
  intro heq
  apply h
  push_cast
  norm_num at heq ⊢
  linear_combination heq

theorem coefficient_eq {K : Type*} [Field K] : 4 * (121665 : K) = 486662 - 2 := by norm_num

theorem addWord_a24 : addWord (0 : Fp) 121665 = 121665 := by
  simp

/-! The points may lie over an extension `K` of the field: whatever `u` is, there is a
`v` in some extension. -/

section Extension

open Montgomery

variable {K : Type*} [Field K] [DecidableEq K] (φ : Fp →+* K)

omit [DecidableEq K] in
include φ in
theorem two_ne_zero_map : (2 : K) ≠ 0 := by
  rw [← map_ofNat φ 2]
  exact (map_ne_zero φ).mpr two_ne_zero_fp

omit [DecidableEq K] in
include φ in
theorem coefficient_sq_ne_map : (486662 : K) ^ 2 ≠ 4 := by
  intro h
  apply coefficient_sq_ne
  apply φ.injective
  rw [map_pow, map_ofNat, map_ofNat]
  exact h

/-- One step doubles the first point and adds the two. -/
theorem step_xRep {u : Fp} {v : K} {hD : (montgomeryCurve (486662 : K)).Nonsingular (φ u) v}
    (xs : MontgomeryPoint Fp × MontgomeryPoint Fp) (hu : u ≠ 0)
    {P₀ P₁ : (montgomeryCurve (486662 : K)).Point}
    (h₀ : XRep (φ xs.1.x) (φ xs.1.z) P₀) (h₁ : XRep (φ xs.2.x) (φ xs.2.z) P₁)
    (hdiff : P₁ = P₀ + .some (φ u) v hD ∨ P₀ = P₁ + .some (φ u) v hD) :
    XRep (φ (step u xs).1.x) (φ (step u xs).1.z) (P₀ + P₀) ∧
      XRep (φ (step u xs).2.x) (φ (step u xs).2.z) (P₀ + P₁) := by
  have h2 := two_ne_zero_map φ
  have hu' : φ u ≠ 0 := (map_ne_zero φ).mpr hu
  simp only [step, Exact.square_eq, addWord_a24, map_mul, map_add, map_sub, map_ofNat]
  constructor
  · have h := XRep.double h2 (coefficient_sq_ne_map φ) coefficient_eq h₀
    simpa only [pow_two] using h
  · rcases hdiff with hd | hd
    · have h := XRep.diffAdd h2 hu' h₀ h₁ hd
      simpa only [pow_two] using h
    · have h := XRep.diffAdd h2 hu' h₁ h₀ hd
      rw [add_comm P₀ P₁]
      convert h using 1 <;> ring

theorem turn_xRep {u : Fp} {v : K} {hD : (montgomeryCurve (486662 : K)).Nonsingular (φ u) v}
    (hu : u ≠ 0) (b : Bool) {xs : MontgomeryPoint Fp × MontgomeryPoint Fp} {j : ℕ}
    (h₀ : XRep (φ xs.1.x) (φ xs.1.z) (j • (.some (φ u) v hD : (montgomeryCurve _).Point)))
    (h₁ : XRep (φ xs.2.x) (φ xs.2.z) ((j + 1) • (.some (φ u) v hD : (montgomeryCurve _).Point))) :
    XRep (φ (turn u b xs).1.x) (φ (turn u b xs).1.z)
        ((2 * j + b.toNat) • (.some (φ u) v hD : (montgomeryCurve _).Point)) ∧
      XRep (φ (turn u b xs).2.x) (φ (turn u b xs).2.z)
        ((2 * j + b.toNat + 1) • (.some (φ u) v hD : (montgomeryCurve _).Point)) := by
  set D : (montgomeryCurve (486662 : K)).Point := .some (φ u) v hD with hDdef
  have hsucc : (j + 1) • D = j • D + D := succ_nsmul D j
  cases b with
  | false =>
      obtain ⟨hd, ha⟩ := step_xRep φ xs hu h₀ h₁ (.inl hsucc)
      rw [← add_nsmul] at hd ha
      simp only [turn, swapIf_false, Bool.toNat_false, add_zero]
      rw [show 2 * j = j + j by ring]
      exact ⟨hd, ha⟩
  | true =>
      obtain ⟨hd, ha⟩ := step_xRep φ xs.swap hu h₁ h₀ (.inr hsucc)
      rw [← add_nsmul] at hd ha
      simp only [turn, swapIf_true, Bool.toNat_true, Prod.fst_swap, Prod.snd_swap]
      rw [show 2 * j + 1 = j + 1 + j by ring, show j + 1 + j + 1 = j + 1 + (j + 1) by ring]
      exact ⟨ha, hd⟩

/-- The product represents the multiple. -/
theorem mul_xRep {u : Fp} {v : K} {hD : (montgomeryCurve (486662 : K)).Nonsingular (φ u) v}
    (hu : u ≠ 0) {s : FieldQ} (hs : s.Raw) :
    XRep (φ ((fromAffine u).mul s).x) (φ ((fromAffine u).mul s).z)
      (s.value • (.some (φ u) v hD : (montgomeryCurve _).Point)) := by
  rw [mul_eq_loop _ hs.toLow]
  have hinv := loopDown_bits
    (f := fun i => turn (fromAffine u).x (s.value.testBit i)) (m := s.value) (n := 256)
    (a := (⟨1, 0⟩, fromAffine u))
    (R := fun j xs =>
      XRep (φ xs.1.x) (φ xs.1.z) (j • (.some (φ u) v hD : (montgomeryCurve _).Point)) ∧
        XRep (φ xs.2.x) (φ xs.2.z) ((j + 1) • (.some (φ u) v hD : (montgomeryCurve _).Point)))
    hs.value_lt ?_ ?_
  · exact hinv.1
  · rw [zero_nsmul, zero_add, one_nsmul]
    simp only [fromAffine, map_one, map_zero]
    exact ⟨⟨rfl, one_ne_zero⟩, ⟨one_ne_zero, (mul_one _).symm⟩⟩
  · rintro k - j xs ⟨h₀, h₁⟩
    exact turn_xRep φ hu _ h₀ h₁

end Extension

/-- The `x`-coordinate of a point, with zero for the point at infinity. -/
def xCoord : curve25519.Point → Fp
  | .zero => 0
  | .some x _ _ => x

open Montgomery in
theorem toAffine_eq_of_xRep {Q : MontgomeryPoint Fp} {P : curve25519.Point}
    (h : XRep Q.x Q.z P) : Q.toAffine = xCoord P := by
  rw [toAffine, Exact.invert_eq]
  cases P with
  | zero => rw [h.1, inv_zero, mul_zero, xCoord]
  | some x y hxy =>
      obtain ⟨hz, hx⟩ := h
      rw [hx, mul_inv_cancel_right₀ hz, xCoord]

/-- Over `u = 0` every second coordinate vanishes after one turn. -/
theorem turn_zero_z {b : Bool} {xs : MontgomeryPoint Fp × MontgomeryPoint Fp}
    (h₀ : xs.1.x * xs.1.z = 0) (h₁ : xs.2.x * xs.2.z = 0) :
    (turn 0 b xs).1.x * (turn 0 b xs).1.z = 0 ∧
      (turn 0 b xs).2.x * (turn 0 b xs).2.z = 0 := by
  have hstep : ∀ ys : MontgomeryPoint Fp × MontgomeryPoint Fp, ys.1.x * ys.1.z = 0 →
      (step 0 ys).1.z = 0 ∧ (step 0 ys).2.z = 0 := by
    intro ys hy
    have hE : (ys.1.x + ys.1.z) * (ys.1.x + ys.1.z) -
        (ys.1.x - ys.1.z) * (ys.1.x - ys.1.z) = 0 := by
      linear_combination 4 * hy
    simp only [step, Exact.square_eq, hE, zero_mul, and_self]
  cases b with
  | false => simp only [turn, swapIf_false, hstep xs h₀, mul_zero, and_self]
  | true =>
      simp only [turn, swapIf_true, Prod.fst_swap, Prod.snd_swap, hstep xs.swap h₁, mul_zero,
        and_self]

/-- Over `u = 0` the ladder gives zero. -/
theorem loop_zero_toAffine (m n : ℕ) :
    (loopDown (fun i => turn (0 : Fp) (m.testBit i)) n
      (⟨1, 0⟩, fromAffine 0)).1.toAffine = 0 := by
  have hinv := loopDown_induction (f := fun i => turn (0 : Fp) (m.testBit i))
    (n := n) (a := (⟨1, 0⟩, fromAffine 0))
    (P := fun _ xs => xs.1.x * xs.1.z = 0 ∧ xs.2.x * xs.2.z = 0)
    ⟨by simp, by simp [fromAffine]⟩ (fun k _ xs h => turn_zero_z h.1 h.2)
  rw [toAffine, Exact.invert_eq]
  rcases mul_eq_zero.mp hinv.1 with h | h <;> simp [h]

theorem mul_zero_toAffine {s : FieldQ} (hs : s.Low) :
    ((fromAffine (0 : Fp)).mul s).toAffine = 0 := by
  rw [mul_eq_loop _ hs]
  exact loop_zero_toAffine s.value 256

/-- Multiples of the point of order two. -/
theorem xCoord_nsmul_of_zero {v : Fp} {h : curve25519.Nonsingular 0 v} (n : ℕ) :
    xCoord (n • (.some 0 v h : curve25519.Point)) = 0 := by
  have hv : v = 0 := by
    have := Montgomery.equation_iff'.mp h.1
    simpa using this
  have htwo : (.some 0 v h : curve25519.Point) + .some 0 v h = 0 := by
    apply WeierstrassCurve.Affine.Point.add_self_of_Y_eq
    rw [Montgomery.negY_eq, hv, neg_zero]
  rcases Nat.even_or_odd' n with ⟨k, rfl | rfl⟩
  · rw [mul_comm, mul_nsmul, two_nsmul, ← nsmul_add, htwo, nsmul_zero]
    rfl
  · rw [succ_nsmul, mul_comm, mul_nsmul, two_nsmul, ← nsmul_add, htwo, nsmul_zero, zero_add]
    rfl

open Montgomery in
/-- The ladder computes the `x`-coordinate of a multiple. -/
theorem mul_toAffine_eq_xCoord {u v : Fp} {h : curve25519.Nonsingular u v} {s : FieldQ}
    (hs : s.Raw) : ((fromAffine u).mul s).toAffine =
      xCoord (s.value • (.some u v h : curve25519.Point)) := by
  by_cases hu : u = 0
  · subst hu
    rw [mul_zero_toAffine hs.toLow, xCoord_nsmul_of_zero]
  · exact toAffine_eq_of_xRep (mul_xRep (RingHom.id Fp) hu hs)

/-! ### The base point -/

theorem basePoint_equation :
    (14781619447589544791020593568409986887264606134616475288964881837755586237401 : Fp) ^ 2 =
      9 ^ 3 + 486662 * 9 ^ 2 + 9 := by
  have h : ((14781619447589544791020593568409986887264606134616475288964881837755586237401 ^ 2 :
      ℕ) : Fp) = ((9 ^ 3 + 486662 * 9 ^ 2 + 9 : ℕ) : Fp) := by
    rw [ZMod.natCast_eq_natCast_iff']
    decide +kernel
  exact_mod_cast h

/-- The ladder on the `x`-coordinate of any point of the curve, by a scalar that holds
`n`, computes the `x`-coordinate of the sum of `n` copies. -/
theorem ladder_eq_xCoord {u v : Fp} (h : v ^ 2 = u ^ 3 + 486662 * u ^ 2 + u) {n : ℕ}
    {s : FieldQ} (hs : s.Raw) (hn : s.value = n) :
    ((fromAffine u).mul s).toAffine = xCoord (n • (.some u v
      (Montgomery.nonsingular_of_equation two_ne_zero_fp coefficient_sq_ne h) :
        curve25519.Point)) := by
  subst hn
  exact mul_toAffine_eq_xCoord hs

theorem ladder_eq_xCoord_nine :
    ((fromAffine (9 : Fp)).mul ⟨0, 0, 0, 0, 0x800000000000⟩).toAffine =
      xCoord (2 ^ 255 • (.some 9 _ (Montgomery.nonsingular_of_equation two_ne_zero_fp
        coefficient_sq_ne basePoint_equation) : curve25519.Point)) :=
  ladder_eq_xCoord basePoint_equation ⟨⟨by decide, by decide, by decide, by decide⟩, by decide⟩
    (by decide)

/-- The point whose `x`-coordinate is nine. -/
def generator : curve25519.Point :=
  .some 9 14781619447589544791020593568409986887264606134616475288964881837755586237401
    (Montgomery.nonsingular_of_equation two_ne_zero_fp coefficient_sq_ne basePoint_equation)

theorem basePoint_eq : (basePoint : MontgomeryPoint Fp) = fromAffine 9 := by
  rw [basePoint, Exact.addWord_eq]
  congr 1

end MontgomeryPoint

namespace X25519

open MontgomeryPoint

theorem scalar_spec (sk : Bytes 32) :
    (scalar sk).Raw ∧ (scalar sk).value = leNat sk.toList % 2 ^ 254 / 8 * 8 + 2 ^ 254 := by
  obtain ⟨hraw, hval⟩ := FieldQ.fromBytes_spec sk
  rw [← hval]
  exact FieldQ.clamp_spec hraw

theorem derivePublic_eq (sk : Bytes 32) :
    derivePublic Fp sk = toBytes (xCoord ((scalar sk).value • generator)) := by
  rw [derivePublic, basePoint_eq, mul_toAffine_eq_xCoord (scalar_spec sk).1]
  rfl

/-- Multiplying the `x`-coordinate of a point that may be at infinity. -/
theorem mul_xCoord {s : FieldQ} (hs : s.Raw) (P : curve25519.Point) :
    ((fromAffine (xCoord P)).mul s).toAffine = xCoord (s.value • P) := by
  cases P with
  | zero =>
      rw [xCoord, mul_zero_toAffine hs.toLow]
      change 0 = xCoord (s.value • (0 : curve25519.Point))
      rw [nsmul_zero]
      rfl
  | some u v h => exact mul_toAffine_eq_xCoord hs

theorem exchange_derivePublic (a b : Bytes 32) :
    exchange Fp a (derivePublic Fp b) =
      CtOptional.fromChoice
        (toBytes (xCoord (((scalar a).value * (scalar b).value) • generator)))
        (isZero (xCoord (((scalar a).value * (scalar b).value) • generator))).not := by
  simp only [exchange, derivePublic_eq, Exact.fromBytes_toBytes, mul_xCoord (scalar_spec a).1,
    ← mul_nsmul']

/-- Both parties compute the same optional secret. -/
theorem exchange_comm (a b : Bytes 32) :
    exchange Fp a (derivePublic Fp b) = exchange Fp b (derivePublic Fp a) := by
  rw [exchange_derivePublic, exchange_derivePublic, mul_comm]

/-- Two parties agree on whether there is a secret, and on the secret. -/
theorem exchange_agreement (a b : Bytes 32) :
    (exchange Fp a (derivePublic Fp b)).toOption =
      (exchange Fp b (derivePublic Fp a)).toOption :=
  congrArg CtOptional.toOption (exchange_comm a b)

end X25519

end PeerToPeer.Crypto
