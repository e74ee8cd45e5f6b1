import PeerToPeer.Crypto.Represents
import PeerToPeer.Crypto.SmallOrder

/-!
The encoding of points, on the words of the code.

`from_bytes` makes three subtractions: a constant is taken from zero, one from `y²`,
and the root may be negated. None of them borrows, and only products are compared,
tested for zero or written out, so it follows exact arithmetic on every input.
-/

namespace PeerToPeer.Crypto.EdwardsPoint

open PeerToPeer.Lib Field25519

/-! ### Words for the coordinates -/

/-- Words for the coordinates of a point. -/
structure Represents (P : EdwardsPoint Field25519) (Q : EdwardsPoint Fp) : Prop where
  x : P.x.LooselyRepresents Q.x
  y : P.y.LooselyRepresents Q.y
  z : P.z.LooselyRepresents Q.z
  t : P.t.LooselyRepresents Q.t

theorem represents_identity : Represents identity identity :=
  ⟨represents_zero.loosely, represents_one.loosely, represents_one.loosely,
    represents_zero.loosely⟩

theorem represents_getD : Field25519.Represents getD getD := by
  have hborrow : ¬Borrows 0 (Field25519Ops.addWord 0 121665) := by decide
  have hnum := represents_zero.sub (represents_addWord_zero (by decide)) hborrow
  have hden := represents_addWord_zero (w := 121666) (by decide)
  exact hnum.mul hden.invert.loosely

/-- Limb 0 of one is too small to borrow. -/
theorem not_borrows_one (x : Field25519) : ¬Borrows x 1 := by
  have hone : (1 : Field25519).value % p25519 % 2 ^ 51 = 1 := rfl
  rw [borrows_iff (b := 1) tight_one, hone]
  omega

theorem represents_xSquared {y : Field25519} {a : Fp} (hy : y.Represents a) :
    (xSquared y).Represents (xSquared a) := by
  have hu := hy.square.sub represents_one (not_borrows_one _)
  have hv := (represents_getD.mul hy.square).add represents_one
  exact hu.mul hv.invert.loosely

theorem signBit_eq_of_represents {x : Field25519} {a : Fp} (hx : x.Represents a) :
    signBit x = signBit a := by
  rw [signBit, hx.toBytes_eq, signBit]

/-- `to_bytes` follows exact arithmetic; it does not read `t`. -/
theorem toBytes_eq_of_represents {P : EdwardsPoint Field25519} {Q : EdwardsPoint Fp}
    (hx : P.x.LooselyRepresents Q.x) (hy : P.y.LooselyRepresents Q.y)
    (hz : P.z.LooselyRepresents Q.z) : P.toBytes = Q.toBytes := by
  have hinv := hz.invert.loosely
  rw [toBytes, toBytes, (hy.mul hinv).toBytes_eq, signBit_eq_of_represents (hx.mul hinv)]

/-- `from_bytes` follows exact arithmetic. -/
theorem fromBytes_represents (b : Bytes 32) :
    Represents (fromBytes b).value (fromBytes b).value ∧
      (fromBytes b : CtOptional (EdwardsPoint Field25519)).valid =
        (fromBytes b : CtOptional (EdwardsPoint Fp)).valid := by
  have hy := represents_fromBytes (clearSign b)
  obtain ⟨hroot, hvalid⟩ := (represents_xSquared hy).sqrt
  rw [fromBytes, fromBytes]
  simp only
  generalize (Field25519Ops.fromBytes (clearSign b) : Field25519) = y at *
  generalize (Field25519Ops.fromBytes (clearSign b) : Fp) = a at *
  generalize Field25519Ops.sqrt (xSquared y) = o at *
  generalize Field25519Ops.sqrt (xSquared a) = o' at *
  have hsome : o.isSomePublic = o'.isSomePublic := congrArg Choice.unwrapPublic hvalid
  have hx : (o.valueOr 0).Represents (o'.valueOr 0) := by
    rw [CtOptional.valueOr, CtOptional.valueOr, hvalid]
    exact hroot.select represents_zero o'.valid
  simp only [hy.toBytes_eq, hsome, hx.isZero_eq, signBit_eq_of_represents hx]
  split_ifs
  · exact ⟨represents_identity, rfl⟩
  · exact ⟨represents_identity, rfl⟩
  · have hsel := hx.loosely.select hx.neg
    exact ⟨⟨hsel _, hy.loosely, represents_one.loosely, ((hsel _).mul hy.loosely).loosely⟩, rfl⟩
  · exact ⟨represents_identity, rfl⟩

/-! ### What is accepted -/

/-- Of a number other than zero and its negative, one has a given parity. -/
theorem exists_parity {x y : Fp} (h : ed25519.OnCurve x y) {s : ℕ} (hs : s < 2)
    (hzero : ¬(x = 0 ∧ s = 1)) : ∃ P : ed25519.Point, P.y = y ∧ P.x.val % 2 = s := by
  by_cases hparity : x.val % 2 = s
  · exact ⟨⟨x, y, h⟩, rfl, hparity⟩
  · have hx : x ≠ 0 := by
      rintro rfl
      rw [ZMod.val_zero] at hparity
      exact hzero ⟨rfl, by omega⟩
    have hneg : ed25519.OnCurve (-x) y := by
      unfold EdwardsCurve.OnCurve at h ⊢
      linear_combination h
    have hne := val_neg_mod_two hx
    exact ⟨⟨-x, y, hneg⟩, rfl, by dsimp only; omega⟩

theorem leNat_encode_mod (P : ed25519.Point) : leNat (encode P).toList % 2 ^ 255 = P.y.val := by
  have hlt := Exact.val_lt P.y
  rw [leNat_encode]
  omega

theorem leNat_encode_div (P : ed25519.Point) :
    leNat (encode P).toList / 2 ^ 255 = P.x.val % 2 := by
  have hlt := Exact.val_lt P.y
  rw [leNat_encode]
  omega

/-- The encodings of points, as numbers. -/
theorem exists_eq_encode_iff (b : Bytes 32) : (∃ P, b = encode P) ↔
    leNat b.toList % 2 ^ 255 < p25519 ∧
      ∃ x : Fp, ed25519.OnCurve x ((leNat b.toList % 2 ^ 255 : ℕ) : Fp) ∧
        ¬(x = 0 ∧ leNat b.toList / 2 ^ 255 = 1) := by
  constructor
  · rintro ⟨P, rfl⟩
    rw [leNat_encode_mod, leNat_encode_div, ZMod.natCast_zmod_val]
    refine ⟨ZMod.val_lt P.y, P.x, P.onCurve, ?_⟩
    rintro ⟨hx, hodd⟩
    rw [hx, ZMod.val_zero] at hodd
    omega
  · rintro ⟨hlt, x, hcurve, hzero⟩
    have hb := FieldQ.leNat_lt_two_pow_256 b
    obtain ⟨P, hy, hx⟩ := exists_parity hcurve (s := leNat b.toList / 2 ^ 255) (by omega) hzero
    refine ⟨P, bytes_ext ?_⟩
    rw [leNat_encode, hx, hy, ZMod.val_natCast_of_lt hlt]
    omega

theorem isSomePublic_iff (b : Bytes 32) :
    (fromBytes b : CtOptional (EdwardsPoint Field25519)).isSomePublic = true ↔
      ∃ P, b = encode P := by
  have hsome := congrArg Choice.unwrapPublic (fromBytes_represents b).2
  rw [CtOptional.isSomePublic, hsome]
  constructor
  · exact exists_eq_encode
  · rintro ⟨P, rfl⟩
    rw [fromBytes_encode]
    rfl

/-- `from_bytes` of the encoding of a point, on words. -/
theorem fromBytes_encode_words (P : ed25519.Point) :
    ∃ Q, (fromBytes (encode P) : CtOptional (EdwardsPoint Field25519)).toOption = some Q ∧
      Represents Q ⟨P.x, P.y, 1, P.x * P.y⟩ := by
  obtain ⟨hvalue, hvalid⟩ := fromBytes_represents (encode P)
  rw [fromBytes_encode] at hvalue hvalid
  have hsome : (fromBytes (encode P) : CtOptional (EdwardsPoint Field25519)).isSomePublic = true :=
    congrArg Choice.unwrapPublic hvalid
  exact ⟨_, if_pos hsome, hvalue⟩

/-- `from_bytes` accepts exactly the canonical encodings of points and decodes them to
the point with the encoded `y` and sign; `to_bytes` gives the encoding back. Every point
of the curve is decoded from its own encoding. -/
theorem decoding_exact :
    (∀ b : Bytes 32,
      ((fromBytes b : CtOptional (EdwardsPoint Field25519)).isSomePublic = true ↔
        leNat b.toList % 2 ^ 255 < p25519 ∧
          ∃ x : Fp, ed25519.OnCurve x ((leNat b.toList % 2 ^ 255 : ℕ) : Fp) ∧
            ¬(x = 0 ∧ leNat b.toList / 2 ^ 255 = 1)) ∧
      ∀ Q : EdwardsPoint Field25519, (fromBytes b).toOption = some Q →
        residue Q.y = (leNat b.toList % 2 ^ 255 : ℕ) ∧
          ed25519.OnCurve (residue Q.x) (residue Q.y) ∧
          (residue Q.x).val % 2 = leNat b.toList / 2 ^ 255 ∧
          residue Q.z = 1 ∧ residue Q.t = residue Q.x * residue Q.y ∧ Q.toBytes = b) ∧
    ∀ P : EdwardsPoint Field25519, P.x.Fits 54 → P.y.Fits 54 → P.z.Fits 54 →
      residue P.z ≠ 0 →
      ed25519.OnCurve (residue P.x / residue P.z) (residue P.y / residue P.z) →
      ∃ Q : EdwardsPoint Field25519, (fromBytes P.toBytes).toOption = some Q ∧
        residue Q.x = residue P.x / residue P.z ∧ residue Q.y = residue P.y / residue P.z ∧
        residue Q.z = 1 ∧ residue Q.t = residue Q.x * residue Q.y := by
  refine ⟨fun b => ⟨?_, ?_⟩, ?_⟩
  · rw [← exists_eq_encode_iff, isSomePublic_iff]
  · intro Q hQ
    have hsome : (fromBytes b : CtOptional (EdwardsPoint Field25519)).isSomePublic = true := by
      by_contra hnone
      rw [CtOptional.toOption, if_neg hnone] at hQ
      cases hQ
    obtain ⟨P, rfl⟩ := (isSomePublic_iff b).mp hsome
    obtain ⟨Q', hQ', hrep⟩ := fromBytes_encode_words P
    cases hQ.symm.trans hQ'
    have hbytes := toBytes_eq_of_represents hrep.x hrep.y hrep.z
    rw [(rep_affine P).toBytes_eq] at hbytes
    rw [leNat_encode_mod, leNat_encode_div, ZMod.natCast_zmod_val, hrep.x.residue_eq,
      hrep.y.residue_eq]
    exact ⟨rfl, P.onCurve, rfl, hrep.z.residue_eq, hrep.t.residue_eq, hbytes⟩
  · intro P hx hy hz hne hcurve
    let A : ed25519.Point := ⟨_, _, hcurve⟩
    -- the coordinates of `P`, with the `t` that belongs to them
    have hrep : Rep ⟨residue P.x, residue P.y, residue P.z, A.x * A.y * residue P.z⟩ A :=
      ⟨hne, (div_mul_cancel₀ _ hne).symm, (div_mul_cancel₀ _ hne).symm, rfl⟩
    have hbytes : P.toBytes = encode A := by
      rw [← hrep.toBytes_eq]
      exact toBytes_eq_of_represents hx.looselyRepresents hy.looselyRepresents
        hz.looselyRepresents
    obtain ⟨Q, hQ, hQrep⟩ := fromBytes_encode_words A
    rw [hbytes]
    refine ⟨Q, hQ, hQrep.x.residue_eq, hQrep.y.residue_eq, hQrep.z.residue_eq, ?_⟩
    rw [hQrep.x.residue_eq, hQrep.y.residue_eq]
    exact hQrep.t.residue_eq

end PeerToPeer.Crypto.EdwardsPoint
