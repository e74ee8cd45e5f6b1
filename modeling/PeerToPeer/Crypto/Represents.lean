import PeerToPeer.Crypto.Field25519Spec

/-!
Words of `field_25519` that stand for elements of the field.

Products of words stand for products, so the addition chains of `invert`, `i` and
`sqrt` on words stand for the same chains in exact arithmetic. A sum or a difference
may enter a product, but only products and negations may be compared.
-/

namespace PeerToPeer.Crypto.Field25519

open PeerToPeer.Lib

/-- What products are returned as, and what sums and differences take. -/
structure Represents (x : Field25519) (a : Fp) : Prop where
  tight : x.Tight
  residue_eq : residue x = a

/-- What products take. -/
structure LooselyRepresents (x : Field25519) (a : Fp) : Prop where
  fits : x.Fits 54
  residue_eq : residue x = a

instance (x : Field25519) (a : Fp) : Decidable (x.Represents a) :=
  decidable_of_iff ((x.l0.toNat < 2 ^ 51 ∧ x.l1.toNat < 2 ^ 51 ∧ x.l2.toNat < 2 ^ 51 ∧
      x.l3.toNat < 2 ^ 51 ∧ x.l4.toNat ≤ 2 ^ 51) ∧ residue x = a)
    ⟨fun ⟨⟨h0, h1, h2, h3, h4⟩, h⟩ => ⟨⟨h0, h1, h2, h3, h4⟩, h⟩,
      fun ⟨⟨h0, h1, h2, h3, h4⟩, h⟩ => ⟨⟨h0, h1, h2, h3, h4⟩, h⟩⟩

theorem Tight.represents {x : Field25519} (h : x.Tight) : x.Represents (residue x) := ⟨h, rfl⟩

theorem Fits.looselyRepresents {x : Field25519} (h : x.Fits 54) :
    x.LooselyRepresents (residue x) :=
  ⟨h, rfl⟩

namespace Represents

variable {x y : Field25519} {a b : Fp}

theorem loosely (h : x.Represents a) : x.LooselyRepresents a := ⟨h.tight.fits, h.residue_eq⟩

theorem add (hx : x.Represents a) (hy : y.Represents b) : LooselyRepresents (x + y) (a + b) := by
  refine ⟨(add_spec hx.tight hy.tight).1, ?_⟩
  rw [← hx.residue_eq, ← hy.residue_eq]
  exact residue_add hx.tight hy.tight

theorem sub (hx : x.Represents a) (hy : y.Represents b) (h : ¬Borrows x y) :
    LooselyRepresents (x - y) (a - b) := by
  refine ⟨(sub_spec hx.tight hy.tight h).1, ?_⟩
  rw [← hx.residue_eq, ← hy.residue_eq]
  exact residue_sub hx.tight hy.tight h

theorem neg (hx : x.Represents a) : LooselyRepresents (-x) (-a) := by
  refine ⟨(neg_spec hx.tight).1.fits, ?_⟩
  rw [← hx.residue_eq]
  exact residue_neg hx.tight

theorem equal_eq (hx : x.Represents a) (hy : y.Represents b) :
    Field25519Ops.equal x y = Field25519Ops.equal a b := by
  rw [← hx.residue_eq, ← hy.residue_eq]
  exact equal_eq_residue hx.tight.reducible hy.tight.reducible

theorem equal_neg_eq (hx : x.Represents a) (hy : y.Represents b) :
    Field25519Ops.equal x (-y) = Field25519Ops.equal a (-b) := by
  rw [← hx.residue_eq, ← hy.residue_eq, ← residue_neg hy.tight]
  exact equal_eq_residue hx.tight.reducible (neg_spec hy.tight).1

theorem isZero_eq (hx : x.Represents a) : Field25519Ops.isZero x = Field25519Ops.isZero a := by
  rw [← hx.residue_eq]
  exact isZero_eq_residue hx.tight

theorem toBytes_eq (hx : x.Represents a) :
    Field25519Ops.toBytes x = Field25519Ops.toBytes a := by
  rw [← hx.residue_eq]
  exact toBytes_eq_residue hx.tight

theorem select (hx : x.Represents a) (hy : y.Represents b) (c : Choice) :
    Represents (CtSelect.ctSelect x y c) (CtSelect.ctSelect a b c) := by
  rw [CtSelect.ctSelect_eq, CtSelect.ctSelect_eq]
  split
  · exact hx
  · exact hy

end Represents

namespace LooselyRepresents

variable {x y : Field25519} {a b : Fp}

theorem mul (hx : x.LooselyRepresents a) (hy : y.LooselyRepresents b) :
    Represents (x * y) (a * b) := by
  refine ⟨(mul_spec hx.fits hy.fits).1, ?_⟩
  rw [← hx.residue_eq, ← hy.residue_eq]
  exact residue_mul hx.fits hy.fits

theorem square (hx : x.LooselyRepresents a) : Represents (Field25519Ops.square x) (a * a) := by
  have h := hx.mul hx
  rwa [show x * x = Field25519Ops.square x from (square_eq_mul x).symm] at h

theorem select (hx : x.LooselyRepresents a) (hy : y.LooselyRepresents b) (c : Choice) :
    LooselyRepresents (CtSelect.ctSelect x y c) (CtSelect.ctSelect a b c) := by
  rw [CtSelect.ctSelect_eq, CtSelect.ctSelect_eq]
  split
  · exact hx
  · exact hy

end LooselyRepresents

theorem represents_zero : Represents 0 0 := ⟨tight_zero, rfl⟩

theorem represents_one : Represents 1 1 := ⟨tight_one, rfl⟩

theorem represents_addWord_zero {w : UInt64} (hw : w.toNat < 2 ^ 51) :
    Represents (Field25519Ops.addWord 0 w) (Field25519Ops.addWord 0 w) := by
  obtain ⟨hfits, hval⟩ := addWord_zero_spec hw
  rw [UInt64.ofNat_toNat] at hfits hval
  refine ⟨hfits.tight, ?_⟩
  rw [Exact.addWord_eq, zero_add, ← hval]
  rfl

theorem represents_fromBytes (b : Bytes 32) :
    Represents (Field25519Ops.fromBytes b) (Field25519Ops.fromBytes b) :=
  ⟨(fromBytes_spec b).1.tight, residue_fromBytes b⟩

/-! ### The addition chains -/

theorem Represents.mul {x y : Field25519} {a b : Fp} (hx : x.Represents a)
    (hy : y.Represents b) : Represents (x * y) (a * b) :=
  hx.loosely.mul hy.loosely

theorem Represents.square {x : Field25519} {a : Fp} (hx : x.Represents a) :
    Represents (Field25519Ops.square x) (Field25519Ops.square a) :=
  hx.loosely.square

theorem Represents.sqN {x : Field25519} {a : Fp} (hx : x.Represents a) (n : ℕ) :
    Represents (Field25519Ops.sqN x n) (Field25519Ops.sqN a n) := by
  induction n with
  | zero => exact hx
  | succ n ih => exact ih.square

theorem LooselyRepresents.chain250 {x : Field25519} {a : Fp} (hx : x.LooselyRepresents a) :
    Represents (Field25519Ops.chain250 x).1 (Field25519Ops.chain250 a).1 ∧
      Represents (Field25519Ops.chain250 x).2 (Field25519Ops.chain250 a).2 := by
  have h2 := hx.square
  have h9 := (h2.sqN 2).loosely.mul hx
  have h11 := h9.mul h2
  have h5 := h11.square.mul h9
  have h10 := (h5.sqN 5).mul h5
  have h20 := (h10.sqN 10).mul h10
  have h40 := (h20.sqN 20).mul h20
  have h50 := (h40.sqN 10).mul h10
  have h100 := (h50.sqN 50).mul h50
  have h200 := (h100.sqN 100).mul h100
  exact ⟨(h200.sqN 50).mul h50, h11⟩

theorem LooselyRepresents.invert {x : Field25519} {a : Fp} (hx : x.LooselyRepresents a) :
    Represents (Field25519Ops.invert x) (Field25519Ops.invert a) :=
  (hx.chain250.1.sqN 5).mul hx.chain250.2

theorem Represents.invert {x : Field25519} {a : Fp} (hx : x.Represents a) :
    Represents (Field25519Ops.invert x) (Field25519Ops.invert a) :=
  hx.loosely.invert

/-- `i` starts from a sum, which is not tight. -/
theorem represents_i : Represents Field25519Ops.i Field25519Ops.i := by
  have htwo := represents_one.add represents_one
  exact ((htwo.chain250.1.sqN 3).loosely.mul htwo).mul htwo.square

/-- Root and choice of `sqrt` follow exact arithmetic. -/
theorem Represents.sqrt {x : Field25519} {a : Fp} (hx : x.Represents a) :
    Represents (Field25519Ops.sqrt x).value (Field25519Ops.sqrt a).value ∧
      (Field25519Ops.sqrt x).valid = (Field25519Ops.sqrt a).valid := by
  have hroot := (hx.loosely.chain250.1.sqN 2).mul hx.square
  have hequal := hroot.square.equal_eq hx
  have hequalNeg := hroot.square.equal_neg_eq hx
  simp only [Field25519Ops.sqrt, CtOptional.fromChoice, hequal, hequalNeg, and_true]
  exact hroot.select (hroot.mul represents_i) _

/-! ### Inverses and square roots of words -/

theorem residue_eq_zero_iff (x : Field25519) : residue x = 0 ↔ p25519 ∣ x.value :=
  ZMod.natCast_eq_zero_iff _ _

/-- `invert` takes everything that products take, and zero to zero. -/
theorem mul_invert_modEq {z : Field25519} (hz : z.Fits 54) :
    (¬p25519 ∣ z.value → (z * Field25519Ops.invert z).value ≡ 1 [MOD p25519]) ∧
      (p25519 ∣ z.value → (Field25519Ops.invert z).value ≡ 0 [MOD p25519]) := by
  have hinv := hz.looselyRepresents.invert
  have hmul := hz.looselyRepresents.mul hinv.loosely
  rw [Exact.invert_eq] at hinv hmul
  rw [← residue_eq_zero_iff]
  constructor
  · intro hne
    rw [mul_inv_cancel₀ hne] at hmul
    exact (ZMod.natCast_eq_natCast_iff _ 1 p25519).mp (by rw [Nat.cast_one]; exact hmul.residue_eq)
  · intro hzero
    rw [hzero, inv_zero] at hinv
    exact (ZMod.natCast_eq_natCast_iff _ 0 p25519).mp (by rw [Nat.cast_zero]; exact hinv.residue_eq)

/-- The largest element that products take. -/
theorem mul_invert_modEq_largest : (⟨0x3FFFFFFFFFFFFF, 0x3FFFFFFFFFFFFF, 0x3FFFFFFFFFFFFF,
      0x3FFFFFFFFFFFFF, 0x3FFFFFFFFFFFFF⟩ * Field25519Ops.invert ⟨0x3FFFFFFFFFFFFF,
        0x3FFFFFFFFFFFFF, 0x3FFFFFFFFFFFFF, 0x3FFFFFFFFFFFFF, 0x3FFFFFFFFFFFFF⟩ :
          Field25519).value ≡ 1 [MOD p25519] :=
  (mul_invert_modEq ⟨by decide, by decide, by decide, by decide, by decide⟩).1 (by decide)

/-- `sqrt` of a product finds a root whenever there is one. -/
theorem sqrt_modEq {z : Field25519} (hz : z.Tight) :
    ((Field25519Ops.sqrt z).isSomePublic = true ↔ ∃ r : ℕ, r ^ 2 ≡ z.value [MOD p25519]) ∧
      ((Field25519Ops.sqrt z).isSomePublic = true →
        (Field25519Ops.sqrt z).value.value ^ 2 ≡ z.value [MOD p25519]) := by
  obtain ⟨hvalue, hvalid⟩ := hz.represents.sqrt
  have hsome : (Field25519Ops.sqrt z).isSomePublic =
      (Field25519Ops.sqrt (residue z)).isSomePublic := by
    rw [CtOptional.isSomePublic, hvalid, CtOptional.isSomePublic]
  have hroot : (Field25519Ops.sqrt z).isSomePublic = true →
      (Field25519Ops.sqrt z).value.value ^ 2 ≡ z.value [MOD p25519] := by
    intro h
    have hsq := Exact.sqrt_value_sq (hsome ▸ h)
    rw [← hvalue.residue_eq, ← pow_two] at hsq
    apply (ZMod.natCast_eq_natCast_iff _ _ p25519).mp
    rw [Nat.cast_pow]
    exact hsq
  refine ⟨⟨fun h => ⟨_, hroot h⟩, ?_⟩, hroot⟩
  rintro ⟨r, hr⟩
  rw [hsome, Exact.sqrt_isSome_iff]
  have hcast := (ZMod.natCast_eq_natCast_iff _ _ p25519).mpr hr
  rw [Nat.cast_pow, pow_two] at hcast
  exact ⟨(r : Fp), hcast.symm⟩

theorem sqrt_modEq_four : (Field25519Ops.sqrt (⟨4, 0, 0, 0, 0⟩ : Field25519)).isSomePublic = true :=
  (sqrt_modEq ⟨by decide, by decide, by decide, by decide, by decide⟩).1.mpr ⟨2, rfl⟩

end PeerToPeer.Crypto.Field25519
