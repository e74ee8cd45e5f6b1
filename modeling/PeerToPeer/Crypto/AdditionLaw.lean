import PeerToPeer.Crypto.EdwardsSpec

/-!
The formulas of `edwards_point` have no exceptional inputs.

Four coordinates stand for a point of the curve when `Z` does not vanish, `X Y = Z T`
and `(X/Z, Y/Z)` is on the curve. Sums and doubles keep the three conditions and are
the twisted Edwards sums of the affine points, for equal, opposite and small-order
points too; scalar multiplication then is repeated addition.
-/

namespace PeerToPeer.Crypto.EdwardsPoint

open PeerToPeer.Lib

/-- The conditions under which coordinates stand for a point. -/
structure Valid (P : EdwardsPoint Fp) : Prop where
  z_ne : P.z ≠ 0
  xy_eq : P.x * P.y = P.z * P.t
  onCurve : ed25519.OnCurve (P.x / P.z) (P.y / P.z)

/-- The affine coordinates `(X/Z, Y/Z)`. -/
def affine (P : EdwardsPoint Fp) : Fp × Fp := (P.x / P.z, P.y / P.z)

/-- The product that the denominators of a sum are one plus and one minus of. -/
def delta (p q : Fp × Fp) : Fp := ed25519.d * p.1 * q.1 * p.2 * q.2

/-- The twisted Edwards sum of two affine points. -/
def affineAdd (p q : Fp × Fp) : Fp × Fp :=
  ((p.1 * q.2 + p.2 * q.1) / (1 + delta p q), (p.2 * q.2 + p.1 * q.1) / (1 - delta p q))

variable {P Q : EdwardsPoint Fp}

/-- The point that valid coordinates stand for. -/
def Valid.point (h : P.Valid) : ed25519.Point := ⟨P.x / P.z, P.y / P.z, h.onCurve⟩

theorem Valid.rep (h : P.Valid) : Rep P h.point := by
  have hz := h.z_ne
  have hxy := h.xy_eq
  refine ⟨hz, (div_mul_cancel₀ _ hz).symm, (div_mul_cancel₀ _ hz).symm, ?_⟩
  simp only [Valid.point]
  field_simp
  rw [mul_comm, hxy]

theorem Rep.affine_eq {A : ed25519.Point} (h : Rep P A) : P.affine = (A.x, A.y) := by
  rw [affine, h.x_eq, h.y_eq, mul_div_cancel_right₀ _ h.z_ne, mul_div_cancel_right₀ _ h.z_ne]

theorem Rep.valid {A : ed25519.Point} (h : Rep P A) : P.Valid := by
  refine ⟨h.z_ne, ?_, ?_⟩
  · rw [h.x_eq, h.y_eq, h.t_eq]
    ring
  · have haffine := h.affine_eq
    rw [affine, Prod.mk.injEq] at haffine
    rw [haffine.1, haffine.2]
    exact A.onCurve

theorem affine_eq_iff {A B : ed25519.Point} (hP : Rep P A) (hQ : Rep Q B) :
    P.affine = Q.affine ↔ A = B := by
  rw [hP.affine_eq, hQ.affine_eq, Prod.mk.injEq]
  exact (EdwardsCurve.Point.ext_iff).symm

/-- `operator+` and `dbl` keep the conditions and add the affine points; `operator==`
compares them. -/
theorem add_dbl_complete (hP : P.Valid) (hQ : Q.Valid) :
    (P.add Q).Valid ∧ P.dbl.Valid ∧
      1 + delta P.affine Q.affine ≠ 0 ∧ 1 - delta P.affine Q.affine ≠ 0 ∧
      (P.add Q).affine = affineAdd P.affine Q.affine ∧
      P.dbl.affine = (P.add P).affine ∧
      ((P.equal Q).unwrapPublic = true ↔ P.affine = Q.affine) := by
  have hadd := hP.rep.add hQ.rep
  have hdbl := hP.rep.dbl
  refine ⟨hadd.valid, hdbl.valid, EdwardsCurve.one_add_delta_ne_zero hP.onCurve hQ.onCurve,
    EdwardsCurve.one_sub_delta_ne_zero hP.onCurve hQ.onCurve, ?_, ?_, ?_⟩
  · rw [hadd.affine_eq, EdwardsCurve.Point.add_x, EdwardsCurve.Point.add_y]
    rfl
  · rw [affine_eq_iff hdbl (hP.rep.add hP.rep)]
  · rw [hP.rep.equal_iff hQ.rep, affine_eq_iff hP.rep hQ.rep]

/-- The base point and its double. -/
theorem add_dbl_complete_basePoint :
    ((basePoint : EdwardsPoint Fp).add basePoint.dbl).Valid ∧
      ((basePoint : EdwardsPoint Fp).add basePoint.dbl).affine =
        affineAdd basePoint.affine (basePoint : EdwardsPoint Fp).dbl.affine ∧
      (basePoint : EdwardsPoint Fp).dbl.affine =
        ((basePoint : EdwardsPoint Fp).add basePoint).affine := by
  obtain ⟨hvalid, -, -, -, hadd, hdbl, -⟩ :=
    add_dbl_complete rep_basePoint.valid rep_basePoint.dbl.valid
  exact ⟨hvalid, hadd, hdbl⟩

/-! ### Scalar multiplication -/

/-- `operator*` by a scalar that holds `n` represents the sum of `n` copies. For a point
whose order divides `L` only `n` modulo `L` matters. -/
theorem mul_represents (hP : P.Valid) {n : ℕ} {s : FieldQ} (hs : s.Raw) (hn : s.value = n) :
    Rep (P.mul s) (n • hP.point) ∧
      (addOrderOf hP.point ∣ FieldQ.order → ∀ s' : FieldQ, s'.Raw →
        s'.value ≡ n [MOD FieldQ.order] → (P.mul s').affine = (P.mul s).affine) := by
  subst hn
  refine ⟨hP.rep.mul hs, ?_⟩
  intro hdvd s' hs' hmod
  rw [affine_eq_iff (hP.rep.mul hs') (hP.rep.mul hs)]
  exact nsmul_eq_nsmul_iff_modEq.mpr (hmod.of_dvd hdvd)

theorem mul_represents_order :
    Rep ((basePoint : EdwardsPoint Fp).mul FieldQ.p)
      (FieldQ.order • rep_basePoint.valid.point) :=
  (mul_represents rep_basePoint.valid p_raw FieldQ.value_p).1

end PeerToPeer.Crypto.EdwardsPoint
