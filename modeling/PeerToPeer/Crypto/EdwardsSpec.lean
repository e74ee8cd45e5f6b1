import PeerToPeer.Crypto.EdwardsPoint
import PeerToPeer.Crypto.FieldQCodec
import PeerToPeer.Lib.TwistedEdwards

/-!
What `edwards_point` computes in exact arithmetic.

Extended coordinates represent a point of the curve when `Z` does not vanish
and `X`, `Y`, `T` are `x Z`, `y Z`, `x y Z`. The operations of the code keep
this relation, without exceptional inputs, so a product by a scalar represents
the multiple by the number that the scalar holds.
-/

namespace PeerToPeer.Crypto

open PeerToPeer.Lib Field25519Ops

/-- The curve of Ed25519. -/
def ed25519 : EdwardsCurve Fp where
  d := -121665 / 121666
  i := i
  i_sq := Exact.i_sq
  d_not_square := edwardsD_not_isSquare
  two_ne_zero := two_ne_zero_fp

namespace EdwardsPoint

@[simp] theorem getD_eq : (getD : Fp) = ed25519.d := by
  have h121665 : addWord (0 : Fp) 121665 = 121665 := by simp
  have h121666 : addWord (0 : Fp) 121666 = 121666 := by simp
  simp only [getD, Exact.invert_eq, h121665, h121666, zero_sub, ed25519, div_eq_mul_inv]

theorem get2d_eq : (get2d : Fp) = 2 * ed25519.d := by
  rw [get2d, getD_eq, two_mul]

/-- The coordinates represent the point. -/
structure Rep (Q : EdwardsPoint Fp) (P : ed25519.Point) : Prop where
  z_ne : Q.z ≠ 0
  x_eq : Q.x = P.x * Q.z
  y_eq : Q.y = P.y * Q.z
  t_eq : Q.t = P.x * P.y * Q.z

theorem rep_identity : Rep identity 0 :=
  ⟨one_ne_zero, by simp [identity], by simp [identity], by simp [identity]⟩

theorem rep_affine (P : ed25519.Point) : Rep ⟨P.x, P.y, 1, P.x * P.y⟩ P :=
  ⟨one_ne_zero, by simp, by simp, by simp⟩

theorem Rep.add {Q₁ Q₂ : EdwardsPoint Fp} {P₁ P₂ : ed25519.Point} (h₁ : Rep Q₁ P₁)
    (h₂ : Rep Q₂ P₂) : Rep (Q₁.add Q₂) (P₁ + P₂) := by
  obtain ⟨hz₁, hx₁, hy₁, ht₁⟩ := h₁
  obtain ⟨hz₂, hx₂, hy₂, ht₂⟩ := h₂
  have hp := EdwardsCurve.one_add_delta_ne_zero P₁.onCurve P₂.onCurve
  have hm := EdwardsCurve.one_sub_delta_ne_zero P₁.onCurve P₂.onCurve
  set δ := ed25519.d * P₁.x * P₂.x * P₁.y * P₂.y with hδ
  -- the four intermediate values of the code, up to the factor `2 Z₁ Z₂`
  have hE : (Q₁.y + Q₁.x) * (Q₂.y + Q₂.x) - (Q₁.y - Q₁.x) * (Q₂.y - Q₂.x) =
      2 * Q₁.z * Q₂.z * (P₁.x * P₂.y + P₁.y * P₂.x) := by
    rw [hx₁, hy₁, hx₂, hy₂]
    ring
  have hH : (Q₁.y + Q₁.x) * (Q₂.y + Q₂.x) + (Q₁.y - Q₁.x) * (Q₂.y - Q₂.x) =
      2 * Q₁.z * Q₂.z * (P₁.y * P₂.y + P₁.x * P₂.x) := by
    rw [hx₁, hy₁, hx₂, hy₂]
    ring
  have hF : Q₁.z * (Q₂.z + Q₂.z) - Q₁.t * get2d * Q₂.t = 2 * Q₁.z * Q₂.z * (1 - δ) := by
    rw [ht₁, ht₂, get2d_eq, hδ]
    ring
  have hG : Q₁.z * (Q₂.z + Q₂.z) + Q₁.t * get2d * Q₂.t = 2 * Q₁.z * Q₂.z * (1 + δ) := by
    rw [ht₁, ht₂, get2d_eq, hδ]
    ring
  have hx : (P₁ + P₂).x * (1 + δ) = P₁.x * P₂.y + P₁.y * P₂.x := by
    rw [EdwardsCurve.Point.add_x, div_mul_cancel₀ _ hp]
  have hy : (P₁ + P₂).y * (1 - δ) = P₁.y * P₂.y + P₁.x * P₂.x := by
    rw [EdwardsCurve.Point.add_y, div_mul_cancel₀ _ hm]
  have h2 : 2 * Q₁.z * Q₂.z ≠ 0 := mul_ne_zero (mul_ne_zero two_ne_zero_fp hz₁) hz₂
  rw [← hx] at hE
  rw [← hy] at hH
  constructor
  · simp only [EdwardsPoint.add, hF, hG]
    exact mul_ne_zero (mul_ne_zero h2 hm) (mul_ne_zero h2 hp)
  all_goals
    simp only [EdwardsPoint.add, hE, hF, hG, hH]
    ring

theorem Rep.dbl {Q : EdwardsPoint Fp} {P : ed25519.Point} (h : Rep Q P) :
    Rep Q.dbl (P + P) := by
  obtain ⟨hz, hx, hy, ht⟩ := h
  have hcurve := P.onCurve
  have hp := EdwardsCurve.one_add_delta_ne_zero P.onCurve P.onCurve
  have hm := EdwardsCurve.one_sub_delta_ne_zero P.onCurve P.onCurve
  unfold EdwardsCurve.OnCurve at hcurve
  set δ := ed25519.d * P.x * P.x * P.y * P.y with hδ
  have hG : Q.x * Q.x - Q.y * Q.y = -(Q.z * Q.z * (1 + δ)) := by
    rw [hx, hy, hδ]
    linear_combination -(Q.z * Q.z) * hcurve
  have hF : Q.z * Q.z + Q.z * Q.z + (Q.x * Q.x - Q.y * Q.y) = Q.z * Q.z * (1 - δ) := by
    rw [hG]
    ring
  have hE : Q.x * Q.x + Q.y * Q.y - (Q.x + Q.y) * (Q.x + Q.y) =
      -(Q.z * Q.z * (P.x * P.y + P.y * P.x)) := by
    rw [hx, hy]
    ring
  have hH : Q.x * Q.x + Q.y * Q.y = Q.z * Q.z * (P.y * P.y + P.x * P.x) := by
    rw [hx, hy]
    ring
  have hx' : (P + P).x * (1 + δ) = P.x * P.y + P.y * P.x := by
    rw [EdwardsCurve.Point.add_x, div_mul_cancel₀ _ hp]
  have hy' : (P + P).y * (1 - δ) = P.y * P.y + P.x * P.x := by
    rw [EdwardsCurve.Point.add_y, div_mul_cancel₀ _ hm]
  have hzz : Q.z * Q.z ≠ 0 := mul_ne_zero hz hz
  simp only [EdwardsPoint.dbl, Exact.square_eq]
  rw [hF, hG, hE, hH, ← hx', ← hy']
  constructor
  · exact mul_ne_zero (mul_ne_zero hzz hm) (neg_ne_zero.mpr (mul_ne_zero hzz hp))
  all_goals
    simp only
    ring

theorem Rep.dbl_dbl {Q : EdwardsPoint Fp} {P : ed25519.Point} (h : Rep Q P) :
    Rep Q.dbl.dbl (4 • P) := by
  have hfour : 4 • P = P + P + (P + P) := by
    rw [← two_nsmul, ← two_nsmul, ← mul_nsmul]
  rw [hfour]
  exact h.dbl.dbl

theorem Rep.dbl_dbl_dbl {Q : EdwardsPoint Fp} {P : ed25519.Point} (h : Rep Q P) :
    Rep Q.dbl.dbl.dbl (8 • P) := by
  have height : 8 • P = 4 • P + 4 • P := by
    rw [← two_nsmul, ← mul_nsmul]
  rw [height]
  exact h.dbl_dbl.dbl

/-- A product represents the multiple by the number that the scalar holds. -/
theorem Rep.mul {Q : EdwardsPoint Fp} {P : ed25519.Point} (h : Rep Q P) {s : FieldQ}
    (hs : s.Raw) : Rep (Q.mul s) (s.value • P) := by
  refine loopDown_bits (n := 256) (m := s.value) (R := fun j res => Rep res (j • P))
    hs.value_lt (by rw [zero_nsmul]; exact rep_identity) ?_
  intro k hk j res hres
  have hdbl := hres.dbl
  have hadd := hdbl.add h
  simp only [CtSelect.ctSelect_eq, FieldQ.getBitI_eq hs.toLow hk]
  rw [← add_nsmul, ← two_mul] at hdbl hadd
  cases s.value.testBit k with
  | false => simpa using hdbl
  | true => simpa [succ_nsmul] using hadd

/-- `operator==` compares the points represented. -/
theorem Rep.equal_iff {Q₁ Q₂ : EdwardsPoint Fp} {P₁ P₂ : ed25519.Point} (h₁ : Rep Q₁ P₁)
    (h₂ : Rep Q₂ P₂) : (Q₁.equal Q₂).unwrapPublic = true ↔ P₁ = P₂ := by
  obtain ⟨hz₁, hx₁, hy₁, -⟩ := h₁
  obtain ⟨hz₂, hx₂, hy₂, -⟩ := h₂
  have hzz : Q₁.z * Q₂.z ≠ 0 := mul_ne_zero hz₁ hz₂
  simp only [EdwardsPoint.equal, Choice.unwrapPublic_and, Exact.equal_eq,
    Choice.unwrapPublic_ofBool, Bool.and_eq_true, decide_eq_true_eq, hx₁, hx₂, hy₁, hy₂]
  rw [show P₁.x * Q₁.z * Q₂.z = P₁.x * (Q₁.z * Q₂.z) by ring,
    show P₂.x * Q₂.z * Q₁.z = P₂.x * (Q₁.z * Q₂.z) by ring,
    show P₁.y * Q₁.z * Q₂.z = P₁.y * (Q₁.z * Q₂.z) by ring,
    show P₂.y * Q₂.z * Q₁.z = P₂.y * (Q₁.z * Q₂.z) by ring,
    mul_left_inj' hzz, mul_left_inj' hzz]
  exact (EdwardsCurve.Point.ext_iff).symm

/-! ### The base point -/

/-- The curve equation without a denominator. -/
theorem onCurve_of_eq {x y : Fp}
    (h : 121666 * y ^ 2 + 121665 * x ^ 2 * y ^ 2 = 121666 + 121666 * x ^ 2) :
    ed25519.OnCurve x y := by
  have hden : (121666 : Fp) ≠ 0 := by
    exact_mod_cast natCast_ne_zero_fp (n := 121666) (by norm_num) (by norm_num [p25519])
  simp only [EdwardsCurve.OnCurve, ed25519]
  apply mul_left_cancel₀ hden
  field_simp
  linear_combination h

theorem generator_onCurve : ed25519.OnCurve
    15112221349535400772501151409588531511454012693041857206046113283949847762202
    46316835694926478169428394003475163141307993866256225615783033603165251855960 :=
  onCurve_of_eq (by decide +kernel)

/-- The point with `y = 4/5` and even `x`. -/
def generator : ed25519.Point where
  x := 15112221349535400772501151409588531511454012693041857206046113283949847762202
  y := 46316835694926478169428394003475163141307993866256225615783033603165251855960
  onCurve := generator_onCurve

theorem basePoint_xy :
    (basePoint : EdwardsPoint Fp).x = generator.x ∧
      (basePoint : EdwardsPoint Fp).y = generator.y := by
  change _ = (15112221349535400772501151409588531511454012693041857206046113283949847762202 : Fp) ∧
    _ = (46316835694926478169428394003475163141307993866256225615783033603165251855960 : Fp)
  decide +kernel

theorem rep_basePoint : Rep basePoint generator := by
  have hz : (basePoint : EdwardsPoint Fp).z = 1 := by
    simp only [basePoint]
  have ht : (basePoint : EdwardsPoint Fp).t =
      (basePoint : EdwardsPoint Fp).x * (basePoint : EdwardsPoint Fp).y := by
    simp only [basePoint]
  constructor
  · rw [hz]
    exact one_ne_zero
  · rw [hz, mul_one, basePoint_xy.1]
  · rw [hz, mul_one, basePoint_xy.2]
  · rw [hz, mul_one, ht, basePoint_xy.1, basePoint_xy.2]

theorem p_raw : FieldQ.p.Raw := ⟨FieldQ.low_p, by decide⟩

/-- The group order annihilates the base point. -/
theorem order_nsmul_generator : FieldQ.order • generator = 0 := by
  rw [← FieldQ.value_p]
  apply ((rep_affine generator).mul p_raw |>.equal_iff rep_identity).mp
  decide +kernel

theorem mod_order_nsmul_generator (n : ℕ) : (n % FieldQ.order) • generator = n • generator := by
  conv_rhs => rw [← Nat.mod_add_div n FieldQ.order, add_nsmul, mul_nsmul,
    order_nsmul_generator, nsmul_zero, add_zero]

/-! ### The codec -/

/-- The lowest bit of the encoding is the parity of the residue. -/
theorem signBit_eq (x : Fp) : (signBit x).toNat = x.val % 2 := by
  have h0 : (Field25519Ops.toBytes x)[0] = UInt8.ofNat x.val := by
    simp only [Exact.toBytes_eq, leVector]
    rfl
  rw [signBit, h0, UInt8.toNat_and, UInt8.toNat_ofNat', UInt8.toNat_one, Nat.and_one_is_mod]
  omega

theorem testBit_byte31 (b : Bytes 32) {m : ℕ} (hm : m < 8) :
    b[31].toNat.testBit m = (leNat b.toList).testBit (248 + m) := by
  rw [testBit_leNat, show (248 + m) / 8 = 31 by omega, show (248 + m) % 8 = m by omega]
  congr 2
  rw [List.getD_eq_getElem _ _ (by rw [Vector.length_toList]; norm_num), Vector.getElem_toList]

/-- Clearing the sign leaves the low 255 bits. -/
theorem leNat_clearSign (b : Bytes 32) :
    leNat (clearSign b).toList = leNat b.toList % 2 ^ 255 := by
  apply Nat.eq_of_testBit_eq
  intro j
  have hmask : (0x7F : UInt8).toNat = 2 ^ 7 - 1 := by decide
  have hlen : 31 < b.toList.length := by
    rw [Vector.length_toList]
    norm_num
  rw [clearSign, Vector.toList_set, testBit_leNat_set hlen, Nat.testBit_mod_two_pow,
    UInt8.toNat_and, hmask, Nat.testBit_and, Nat.testBit_two_pow_sub_one,
    testBit_byte31 b (Nat.mod_lt j (by norm_num))]
  split_ifs with hj
  · rw [show 248 + j % 8 = j by omega, Bool.and_comm]
    congr 1
    rw [decide_eq_decide]
    omega
  · by_cases hlt : j < 255
    · simp [hlt]
    · have : (leNat b.toList).testBit j = false :=
        Nat.testBit_lt_two_pow (lt_of_lt_of_le (FieldQ.leNat_lt_two_pow_256 b)
          (Nat.pow_le_pow_right (by norm_num) (by omega)))
      simp [this]

/-- Setting the sign adds bit 255. -/
theorem leNat_orSign (b : Bytes 32) (hb : leNat b.toList < 2 ^ 255) {s : UInt8}
    (hs : s.toNat < 2) :
    leNat (b.set 31 (b[31] ||| (s <<< 7))).toList = 2 ^ 255 * s.toNat + leNat b.toList := by
  apply Nat.eq_of_testBit_eq
  intro j
  have hlen : 31 < b.toList.length := by
    rw [Vector.length_toList]
    norm_num
  have hshift : (s <<< 7).toNat = 2 ^ 7 * s.toNat := by
    rw [UInt8.toNat_shiftLeft, show (7 : UInt8).toNat % 8 = 7 by decide, Nat.shiftLeft_eq]
    omega
  rw [Vector.toList_set, testBit_leNat_set hlen, UInt8.toNat_or, hshift, Nat.testBit_or,
    testBit_byte31 b (Nat.mod_lt j (by norm_num)), Nat.testBit_two_pow_mul_add _ hb,
    Nat.testBit_two_pow_mul]
  have hhigh : 255 ≤ j → (leNat b.toList).testBit j = false := fun h =>
    Nat.testBit_lt_two_pow (lt_of_lt_of_le hb (Nat.pow_le_pow_right (by norm_num) h))
  have hs1 : ∀ k, 0 < k → s.toNat.testBit k = false := fun k hk =>
    Nat.testBit_lt_two_pow (lt_of_lt_of_le hs (by
      calc 2 = 2 ^ 1 := rfl
        _ ≤ 2 ^ k := Nat.pow_le_pow_right (by norm_num) hk))
  split_ifs with hj hlt hlt
  · rw [show 248 + j % 8 = j by omega]
    simp [show ¬7 ≤ j % 8 by omega]
  · rw [show 248 + j % 8 = j by omega, hhigh (by omega), show j - 255 = 0 by omega]
    simp [show 7 ≤ j % 8 by omega, show j % 8 - 7 = 0 by omega]
  · rfl
  · rw [hhigh (by omega), hs1 _ (by omega)]

theorem signOf_eq (b : Bytes 32) {i : ℕ} (hi : i < 32) (h31 : i = 31) :
    ((b[i] >>> 7) &&& 1).toNat = leNat b.toList / 2 ^ 255 := by
  subst h31
  have hlt := FieldQ.leNat_lt_two_pow_256 b
  have h := testBit_byte31 b (m := 7) (by norm_num)
  rw [Nat.testBit_eq_decide_div_mod_eq, Nat.testBit_eq_decide_div_mod_eq, decide_eq_decide] at h
  rw [UInt8.toNat_and, UInt8.toNat_shiftRight, show (7 : UInt8).toNat % 8 = 7 by decide,
    UInt8.toNat_one, Nat.and_one_is_mod, Nat.shiftRight_eq_div_pow]
  omega

/-- The RFC 8032 encoding of a point. -/
def encode (P : ed25519.Point) : Bytes 32 := leVector 32 (2 ^ 255 * (P.x.val % 2) + P.y.val)

theorem leNat_encode (P : ed25519.Point) :
    leNat (encode P).toList = 2 ^ 255 * (P.x.val % 2) + P.y.val := by
  have h := Exact.val_lt P.y
  rw [encode, leNat_leVector (by omega)]

theorem Rep.toBytes_eq {Q : EdwardsPoint Fp} {P : ed25519.Point} (h : Rep Q P) :
    Q.toBytes = encode P := by
  have hx : Q.x * invert Q.z = P.x := by
    rw [Exact.invert_eq, h.x_eq, mul_inv_cancel_right₀ h.z_ne]
  have hy : Q.y * invert Q.z = P.y := by
    rw [Exact.invert_eq, h.y_eq, mul_inv_cancel_right₀ h.z_ne]
  have hval := Exact.val_lt P.y
  have hle := Exact.leNat_toBytes P.y
  apply bytes_ext
  rw [leNat_encode]
  simp only [EdwardsPoint.toBytes, hx, hy]
  rw [leNat_orSign _ (by rwa [hle]) (by rw [signBit_eq]; omega), signBit_eq, hle]

theorem xSquared_eq (P : ed25519.Point) : xSquared P.y = P.x * P.x := by
  have h := P.onCurve
  have hne := EdwardsCurve.d_mul_sq_add_one_ne_zero (E := ed25519) P.y
  unfold EdwardsCurve.OnCurve at h
  simp only [xSquared, Exact.square_eq, getD_eq, Exact.invert_eq]
  rw [← div_eq_mul_inv, div_eq_iff hne]
  linear_combination h

/-- Negation changes the parity of a residue other than zero. -/
theorem val_neg_mod_two {x : Fp} (hx : x ≠ 0) : (-x).val % 2 ≠ x.val % 2 := by
  have hlt := ZMod.val_lt x
  have hval : (-x).val = p25519 - x.val := by
    rw [ZMod.neg_val, if_neg hx]
  have hodd : p25519 % 2 = 1 := by norm_num [p25519]
  omega

theorem clearSign_encode (P : ed25519.Point) :
    clearSign (encode P) = Field25519Ops.toBytes P.y := by
  have hval := Exact.val_lt P.y
  apply bytes_ext
  rw [leNat_clearSign, leNat_encode, Exact.leNat_toBytes]
  omega

theorem sign_encode (P : ed25519.Point) {i : ℕ} (hi : i < 32) (h31 : i = 31) :
    (((encode P)[i] >>> 7) &&& 1).toNat = P.x.val % 2 := by
  have hval := Exact.val_lt P.y
  rw [signOf_eq _ hi h31, leNat_encode]
  omega

/-- Of the two roots the one with the encoded sign is taken. -/
theorem ctSelect_sign {r x : Fp} {s : UInt8} (hr : r * r = x * x) (hs : s.toNat = x.val % 2) :
    CtSelect.ctSelect r (-r) (Choice.fromEqual (signBit r).toUInt64 s.toUInt64) = x := by
  have hiff : (signBit r).toUInt64 = s.toUInt64 ↔ r.val % 2 = x.val % 2 := by
    rw [← UInt64.toNat_inj, UInt8.toNat_toUInt64, UInt8.toNat_toUInt64, signBit_eq, hs]
  simp only [Exact.ctSelect_fp, Choice.unwrapPublic_fromEqual, decide_eq_true_eq, hiff]
  rcases mul_self_eq_mul_self_iff.mp hr with rfl | rfl
  · rw [if_pos rfl]
  · by_cases hx : x = 0
    · simp [hx]
    · rw [if_neg (val_neg_mod_two hx), neg_neg]

/-- Decoding the encoding of a point gives the point back. -/
theorem fromBytes_encode (P : ed25519.Point) :
    fromBytes (encode P) = CtOptional.some ⟨P.x, P.y, 1, P.x * P.y⟩ := by
  have hsome : (sqrt (xSquared P.y)).isSomePublic = true := by
    rw [Exact.sqrt_isSome_iff, xSquared_eq]
    exact ⟨P.x, rfl⟩
  have hroot := Exact.sqrt_value_sq hsome
  generalize hr : (sqrt (xSquared P.y)).value = r at hroot
  rw [xSquared_eq] at hroot
  have hsign := sign_encode P (by norm_num) rfl
  have hsel := ctSelect_sign hroot hsign
  have hzero : ¬((r = 0) ∧ (((encode P)[31] >>> 7) &&& 1) = 1) := by
    rintro ⟨rfl, h1⟩
    have hx : P.x = 0 := by
      rw [zero_mul] at hroot
      exact mul_self_eq_zero.mp hroot.symm
    rw [h1, hx, ZMod.val_zero] at hsign
    exact absurd hsign (by decide)
  simp only [fromBytes, clearSign_encode, Exact.fromBytes_toBytes, ne_eq, not_true_eq_false,
    if_false, hsome, CtOptional.valueOr_of_isSome, hr, Exact.isZero_eq,
    Choice.unwrapPublic_ofBool, Bool.and_eq_true, decide_eq_true_eq, beq_iff_eq, hzero, hsel]

theorem encode_injective : Function.Injective encode := by
  intro P Q h
  have hdecoded : (CtOptional.some ⟨P.x, P.y, 1, P.x * P.y⟩ : CtOptional (EdwardsPoint Fp)) =
      CtOptional.some ⟨Q.x, Q.y, 1, Q.x * Q.y⟩ := by
    rw [← fromBytes_encode, h, fromBytes_encode]
  have hvalue := congrArg CtOptional.value hdecoded
  exact EdwardsCurve.Point.ext (congrArg EdwardsPoint.x hvalue) (congrArg EdwardsPoint.y hvalue)

end EdwardsPoint

end PeerToPeer.Crypto
