import PeerToPeer.Crypto.FieldQ
import PeerToPeer.Lib.Word

/-!
What `field_q` computes: a scalar holds the number `value`, reduction takes it
modulo the group order `L`, and addition and multiplication are those of the
integers modulo `L`.
-/

namespace PeerToPeer.Crypto.FieldQ

open PeerToPeer.Lib

/-- The number a scalar holds. -/
def value (x : FieldQ) : ℕ :=
  x.l0.toNat + 2 ^ 52 * x.l1.toNat + 2 ^ 104 * x.l2.toNat + 2 ^ 156 * x.l3.toNat +
    2 ^ 208 * x.l4.toNat

/-- Limbs 0 to 3 are below their base. -/
structure Low (x : FieldQ) : Prop where
  l0 : x.l0.toNat < 2 ^ 52
  l1 : x.l1.toNat < 2 ^ 52
  l2 : x.l2.toNat < 2 ^ 52
  l3 : x.l3.toNat < 2 ^ 52

/-- The representation that every arithmetic operation returns. -/
structure Reduced (x : FieldQ) : Prop extends Low x where
  lt : x.value < order

theorem order_eq : order =
    7237005577332262213973186563042994240857116359379907606001950938285454250989 := by
  norm_num [order]

@[simp] theorem value_p : p.value = order := by decide

@[simp] theorem value_zero : zero.value = 0 := by decide

@[simp] theorem value_one : one.value = 1 := by decide

theorem reduced_zero : zero.Reduced :=
  ⟨⟨by decide, by decide, by decide, by decide⟩, by decide⟩

theorem reduced_one : one.Reduced :=
  ⟨⟨by decide, by decide, by decide, by decide⟩, by decide⟩

theorem Low.value_lt {x : FieldQ} (h : x.Low) : x.value < 2 ^ 208 * (x.l4.toNat + 1) := by
  obtain ⟨h0, h1, h2, h3⟩ := h
  unfold value
  omega

theorem Low.le_value (x : FieldQ) : 2 ^ 208 * x.l4.toNat ≤ x.value := by
  unfold value
  omega

theorem Reduced.l4_lt {x : FieldQ} (h : x.Reduced) : x.l4.toNat < 2 ^ 45 := by
  have hlt := h.lt
  have := Low.le_value x
  rw [order_eq] at hlt
  omega

/-- Two scalars below their bases that hold the same number are equal. -/
theorem Low.ext {x y : FieldQ} (hx : x.Low) (hy : y.Low) (h : x.value = y.value) : x = y := by
  obtain ⟨hx0, hx1, hx2, hx3⟩ := hx
  obtain ⟨hy0, hy1, hy2, hy3⟩ := hy
  unfold value at h
  cases x
  cases y
  simp only [mk.injEq, ← UInt64.toNat_inj]
  simp only at *
  omega

/-! ### Carries -/

theorem toNat_and_base52 (a : UInt64) : (a &&& (base52 - 1)).toNat = a.toNat % 2 ^ 52 :=
  toNat_and_mask a _ (by decide)

theorem toNat_shiftRight_52 (a : UInt64) : (a >>> 52).toNat = a.toNat / 2 ^ 52 :=
  toNat_shiftRight_word a 52

theorem toNat_add_carry (a b : UInt64) (h : a.toNat + b.toNat / 2 ^ 52 < 2 ^ 64) :
    (a + b >>> 52).toNat = a.toNat + b.toNat / 2 ^ 52 := by
  rw [← toNat_shiftRight_52] at h ⊢
  exact toNat_add_of_lt h

/-- Room for the carries of `normalize_low`. -/
structure Room (x : FieldQ) : Prop where
  l0 : x.l0.toNat < 2 ^ 63
  l1 : x.l1.toNat < 2 ^ 63
  l2 : x.l2.toNat < 2 ^ 63
  l3 : x.l3.toNat < 2 ^ 63
  l4 : x.l4.toNat < 2 ^ 63

theorem normalizeLow_spec {x : FieldQ} (h : x.Room) :
    (normalizeLow x).Low ∧ (normalizeLow x).value = x.value := by
  obtain ⟨h0, h1, h2, h3, h4⟩ := h
  have e1 := toNat_add_carry x.l1 x.l0 (by omega)
  have e2 := toNat_add_carry x.l2 (x.l1 + x.l0 >>> 52) (by omega)
  have e3 := toNat_add_carry x.l3 (x.l2 + (x.l1 + x.l0 >>> 52) >>> 52) (by omega)
  have e4 := toNat_add_carry x.l4 (x.l3 + (x.l2 + (x.l1 + x.l0 >>> 52) >>> 52) >>> 52)
    (by omega)
  constructor
  · constructor <;> simp only [normalizeLow, toNat_and_base52] <;> exact Nat.mod_lt _ (by norm_num)
  · simp only [normalizeLow, value, toNat_and_base52]
    omega

theorem normalizeLow_of_low {x : FieldQ} (h : x.Low) (h4 : x.l4.toNat < 2 ^ 63) :
    normalizeLow x = x := by
  obtain ⟨h0, h1, h2, h3⟩ := h
  have hroom : x.Room := ⟨by omega, by omega, by omega, by omega, h4⟩
  exact Low.ext (normalizeLow_spec hroom).1 ⟨h0, h1, h2, h3⟩ (normalizeLow_spec hroom).2

/-! ### Conditional subtraction -/

theorem subLimb_of_le {a b : UInt64} (borrow base : UInt64) (h : b.toNat + borrow.toNat ≤ a.toNat) :
    (subLimb a b borrow base).2 = 0 ∧
      (subLimb a b borrow base).1.toNat = a.toNat - b.toNat - borrow.toNat := by
  have hd : ¬((a.toNat : ℤ) - b.toNat - borrow.toNat < 0) := by omega
  have ha := a.toNat_lt
  simp only [subLimb, if_neg hd]
  refine ⟨trivial, ?_⟩
  rw [show base &&& (0 - 0) = 0 by simp, UInt64.add_zero, toNat_ofInt_word]
  omega

theorem subLimb_of_gt {a b borrow base : UInt64} (h : a.toNat < b.toNat + borrow.toNat)
    (hb : b.toNat + borrow.toNat ≤ base.toNat) :
    (subLimb a b borrow base).2 = 1 ∧
      (subLimb a b borrow base).1.toNat = base.toNat + a.toNat - b.toNat - borrow.toNat := by
  have hd : (a.toNat : ℤ) - b.toNat - borrow.toNat < 0 := by omega
  have hbase := base.toNat_lt
  simp only [subLimb, if_pos hd]
  refine ⟨trivial, ?_⟩
  rw [show base &&& (0 - 1) = base by simp, UInt64.toNat_add, toNat_ofInt_word]
  omega

/-- One limb of a subtraction of numbers below the base. -/
theorem subLimb_spec (a b borrow base : UInt64) (hb : b.toNat + borrow.toNat ≤ base.toNat)
    (ha : a.toNat < base.toNat) :
    (subLimb a b borrow base).1.toNat < base.toNat ∧
      (subLimb a b borrow base).2.toNat ≤ 1 ∧
      (subLimb a b borrow base).1.toNat + b.toNat + borrow.toNat =
        a.toNat + base.toNat * (subLimb a b borrow base).2.toNat := by
  by_cases h : b.toNat + borrow.toNat ≤ a.toNat
  · obtain ⟨h2, h1⟩ := subLimb_of_le borrow base h
    rw [h2, h1, UInt64.toNat_zero]
    omega
  · obtain ⟨h2, h1⟩ := subLimb_of_gt (Nat.lt_of_not_le h) hb
    rw [h2, h1, UInt64.toNat_one]
    omega

/-- Subtracting a scalar below its bases: the difference and its last borrow. -/
theorem subLimbs_spec {x y : FieldQ} (hx : x.Low) (hy : y.Low)
    (hx4 : x.l4.toNat < 2 ^ 63) (hy4 : y.l4.toNat < 2 ^ 45) :
    (subLimbs x y).1.Low ∧
      (y.value ≤ x.value → (subLimbs x y).2 = 0 ∧
        (subLimbs x y).1.value = x.value - y.value ∧
        (subLimbs x y).1.l4.toNat ≤ x.l4.toNat) ∧
      (x.value < y.value → (subLimbs x y).2 = 1) := by
  obtain ⟨hx0, hx1, hx2, hx3⟩ := hx
  obtain ⟨hy0, hy1, hy2, hy3⟩ := hy
  have hb52 : base52.toNat = 2 ^ 52 := by decide
  have hb45 : base45.toNat = 2 ^ 45 := by decide
  obtain ⟨a0, b0, c0⟩ := subLimb_spec x.l0 y.l0 0 base52
    (by rw [hb52, UInt64.toNat_zero]; omega) (by rw [hb52]; omega)
  generalize hs0 : subLimb x.l0 y.l0 0 base52 = s0 at a0 b0 c0
  obtain ⟨a1, b1, c1⟩ := subLimb_spec x.l1 y.l1 s0.2 base52 (by rw [hb52]; omega)
    (by rw [hb52]; omega)
  generalize hs1 : subLimb x.l1 y.l1 s0.2 base52 = s1 at a1 b1 c1
  obtain ⟨a2, b2, c2⟩ := subLimb_spec x.l2 y.l2 s1.2 base52 (by rw [hb52]; omega)
    (by rw [hb52]; omega)
  generalize hs2 : subLimb x.l2 y.l2 s1.2 base52 = s2 at a2 b2 c2
  obtain ⟨a3, b3, c3⟩ := subLimb_spec x.l3 y.l3 s2.2 base52 (by rw [hb52]; omega)
    (by rw [hb52]; omega)
  generalize hs3 : subLimb x.l3 y.l3 s2.2 base52 = s3 at a3 b3 c3
  have hsub : subLimbs x y = (⟨s0.1, s1.1, s2.1, s3.1, (subLimb x.l4 y.l4 s3.2 base45).1⟩,
      (subLimb x.l4 y.l4 s3.2 base45).2) := by
    simp only [subLimbs, hs0, hs1, hs2, hs3]
  rw [hsub]
  rw [hb52] at a0 a1 a2 a3 c0 c1 c2 c3
  rw [UInt64.toNat_zero] at c0
  refine ⟨⟨a0, a1, a2, a3⟩, ?_, ?_⟩
  · intro hle
    unfold value at hle
    -- the top limb does not borrow, or the lower limbs could not make up for it
    obtain ⟨h2, h1⟩ := subLimb_of_le s3.2 base45 (a := x.l4) (b := y.l4) (by omega)
    refine ⟨h2, ?_, ?_⟩
    · simp only [value, h1]
      omega
    · simp only [h1]
      omega
  · intro hlt
    unfold value at hlt
    exact (subLimb_of_gt (by omega) (by rw [hb45]; omega)).1

theorem low_p : p.Low := ⟨by decide, by decide, by decide, by decide⟩

/-- One round subtracts `L` once if it can. -/
theorem reduceRound_spec {x : FieldQ} (hx : x.Low) (h4 : x.l4.toNat < 2 ^ 63) :
    (reduceRound x).Low ∧ (reduceRound x).l4.toNat < 2 ^ 63 ∧
      (reduceRound x).value = if order ≤ x.value then x.value - order else x.value := by
  have hsub := subLimbs_spec hx low_p h4 (by decide)
  rw [value_p] at hsub
  obtain ⟨hlow, hge, hlt⟩ := hsub
  simp only [reduceRound, normalizeLow_of_low hx h4, ctSelect_eq]
  split_ifs with hc hord hord
  · obtain ⟨-, hv, hl4⟩ := hge hord
    exact ⟨hlow, by omega, hv⟩
  · rw [hlt (by omega)] at hc
    simp at hc
  · rw [(hge hord).1] at hc
    simp at hc
  · exact ⟨hx, h4, rfl⟩

/-- Sixteen rounds are enough for every number below `17 L`. -/
theorem reduce_spec {x : FieldQ} (hx : x.Room) (hlt : x.value < 17 * order) :
    (reduce x).Reduced ∧ (reduce x).value = x.value % order := by
  obtain ⟨hlow, hval⟩ := normalizeLow_spec hx
  have h4 : (normalizeLow x).l4.toNat < 2 ^ 63 := by
    have := Low.le_value (normalizeLow x)
    rw [order_eq] at hlt
    omega
  have hinv := loopDown_induction (f := fun _ => reduceRound) (n := 16) (a := normalizeLow x)
    (P := fun k y => y.Low ∧ y.l4.toNat < 2 ^ 63 ∧ y.value < (k + 1) * order ∧
      y.value % order = x.value % order)
    ⟨hlow, h4, by rw [hval]; omega, by rw [hval]⟩ (by
      rintro k - y ⟨hy, hy4, hylt, hymod⟩
      obtain ⟨hl, hl4, hv⟩ := reduceRound_spec hy hy4
      refine ⟨hl, hl4, ?_, ?_⟩
      · rw [hv]
        split_ifs with hge
        · have : (k + 1 + 1) * order = (k + 1) * order + order := by ring
          omega
        · have : (k + 1) * order = k * order + order := by ring
          omega
      · rw [hv]
        split_ifs with hge
        · rw [← hymod, ← Nat.mod_eq_sub_mod hge]
        · exact hymod)
  obtain ⟨hy, hy4, hylt, hymod⟩ := hinv
  generalize hloop : loopDown (fun _ => reduceRound) 16 (normalizeLow x) = y at hy hy4 hylt hymod
  have hred : y.Reduced := ⟨hy, by omega⟩
  have hy45 := hred.l4_lt
  obtain ⟨h0, h1, h2, h3⟩ := hy
  have heq : reduce x = y := by
    rw [reduce, hloop, normalizeLow_of_low hred.toLow hy4]
    cases y
    simp only [mk.injEq, ← UInt64.toNat_inj, toNat_and_base52,
      toNat_and_mask _ (base45 - 1) (k := 45) (by decide)]
    simp only at *
    omega
  rw [heq]
  exact ⟨hred, by rw [← hymod, Nat.mod_eq_of_lt hred.lt]⟩

/-! ### Bits -/

/-- A scalar that holds an integer of 256 bits. -/
structure Raw (x : FieldQ) : Prop extends Low x where
  l4 : x.l4.toNat < 2 ^ 48

theorem Reduced.raw {x : FieldQ} (h : x.Reduced) : x.Raw :=
  ⟨h.toLow, lt_trans h.l4_lt (by norm_num)⟩

theorem Raw.value_lt {x : FieldQ} (h : x.Raw) : x.value < 2 ^ 256 := by
  have h4 := h.l4
  have := h.toLow.value_lt
  omega

theorem toNat_ofNat_byte {i : ℕ} (h : i < 256) : (UInt8.ofNat i).toNat = i := by
  rw [UInt8.toNat_ofNat', Nat.mod_eq_of_lt h]

theorem and_bit_ne_zero (l : UInt64) {j : ℕ} (h : j < 64) :
    decide (l &&& (1 : UInt64) <<< UInt64.ofNat j ≠ 0) = l.toNat.testBit j := by
  have hj : (UInt64.ofNat j).toNat = j := by
    rw [UInt64.toNat_ofNat', Nat.mod_eq_of_lt (by omega)]
  have hmask : ((1 : UInt64) <<< UInt64.ofNat j).toNat = 2 ^ j := by
    rw [UInt64.toNat_shiftLeft, hj, UInt64.toNat_one, Nat.shiftLeft_eq, one_mul,
      Nat.mod_eq_of_lt h, Nat.mod_eq_of_lt (Nat.pow_lt_pow_right (by norm_num) h)]
  simp only [ne_eq, ← UInt64.toNat_inj, UInt64.toNat_and, hmask, UInt64.toNat_zero,
    Nat.and_two_pow]
  cases l.toNat.testBit j <;> simp

/-- The bits of a scalar, limb by limb. -/
theorem Low.testBit_value {x : FieldQ} (hx : x.Low) (i : ℕ) :
    x.value.testBit i =
      if i < 52 then x.l0.toNat.testBit i else if i < 104 then x.l1.toNat.testBit (i - 52)
      else if i < 156 then x.l2.toNat.testBit (i - 104)
      else if i < 208 then x.l3.toNat.testBit (i - 156) else x.l4.toNat.testBit (i - 208) := by
  obtain ⟨h0, h1, h2, h3⟩ := hx
  have hval : x.value = 2 ^ 52 * (2 ^ 52 * (2 ^ 52 * (2 ^ 52 * x.l4.toNat + x.l3.toNat) +
      x.l2.toNat) + x.l1.toNat) + x.l0.toNat := by
    unfold value
    ring
  rw [hval, Nat.testBit_two_pow_mul_add _ h0, Nat.testBit_two_pow_mul_add _ h1,
    Nat.testBit_two_pow_mul_add _ h2, Nat.testBit_two_pow_mul_add _ h3]
  simp only [Nat.sub_sub, Nat.reduceAdd, show i - 52 < 52 ↔ i < 104 by omega,
    show i - 104 < 52 ↔ i < 156 by omega, show i - 156 < 52 ↔ i < 208 by omega]

theorem ofNat_byte_lt {i : ℕ} (h : i < 256) (c : UInt8) : UInt8.ofNat i < c ↔ i < c.toNat := by
  rw [UInt8.lt_iff_toNat_lt, toNat_ofNat_byte h]

theorem toUInt64_ofNat_byte_sub {i : ℕ} (h : i < 256) {c : UInt8} (hc : c.toNat ≤ i) :
    (UInt8.ofNat i - c).toUInt64 = UInt64.ofNat (i - c.toNat) := by
  apply UInt64.toNat_inj.mp
  rw [UInt8.toNat_toUInt64, UInt64.toNat_ofNat', UInt8.toNat_sub_of_le, toNat_ofNat_byte h]
  · omega
  · rwa [UInt8.le_iff_toNat_le, toNat_ofNat_byte h]

/-- `get_bit_i` reads the bit of the number held. -/
theorem getBitI_eq {x : FieldQ} (hx : x.Low) {i : ℕ} (hi : i < 256) :
    (x.getBitI (UInt8.ofNat i)).unwrapPublic = x.value.testBit i := by
  have hsub0 : (UInt8.ofNat i).toUInt64 = UInt64.ofNat i := by
    have := toUInt64_ofNat_byte_sub hi (c := 0) (Nat.zero_le i)
    simpa using this
  rw [hx.testBit_value]
  simp only [getBitI, ofNat_byte_lt hi, Choice.unwrapPublic_or, Choice.unwrapPublic_and,
    Choice.unwrapPublic_fromEqual, Choice.unwrapPublic_fromNonzero, Choice.unwrapPublic_false]
  simp only [show (52 : UInt8).toNat = 52 from rfl, show (104 : UInt8).toNat = 104 from rfl,
    show (156 : UInt8).toNat = 156 from rfl, show (208 : UInt8).toNat = 208 from rfl]
  split_ifs with h0 h1 h2 h3
  · rw [hsub0, ← and_bit_ne_zero x.l0 (by omega)]
    simp
  · rw [toUInt64_ofNat_byte_sub hi (c := 52) (Nat.le_of_not_lt h0),
      ← and_bit_ne_zero x.l1 (by omega)]
    simp
  · rw [toUInt64_ofNat_byte_sub hi (c := 104) (Nat.le_of_not_lt h1),
      ← and_bit_ne_zero x.l2 (by omega)]
    simp
  · rw [toUInt64_ofNat_byte_sub hi (c := 156) (Nat.le_of_not_lt h2),
      ← and_bit_ne_zero x.l3 (by omega)]
    simp
  · rw [toUInt64_ofNat_byte_sub hi (c := 208) (Nat.le_of_not_lt h3),
      ← and_bit_ne_zero x.l4 (by omega)]
    simp

/-! ### Arithmetic -/

/-- The sum of a 256-bit integer and a scalar of at most `L`. -/
theorem add_spec_of_le {a b : FieldQ} (ha : a.Raw) (hb : b.Low) (hle : b.value ≤ order) :
    (add a b).Reduced ∧ (add a b).value = (a.value + b.value) % order := by
  have ha4 := ha.l4
  have hb4 : b.l4.toNat < 2 ^ 45 := by
    have htop := Low.le_value b
    rw [order_eq] at hle
    omega
  obtain ⟨a0, a1, a2, a3⟩ := ha.toLow
  obtain ⟨b0, b1, b2, b3⟩ := hb
  have e0 := toNat_add_of_lt (a := b.l0) (b := a.l0) (by omega)
  have e1 := toNat_add_of_lt (a := b.l1) (b := a.l1) (by omega)
  have e2 := toNat_add_of_lt (a := b.l2) (b := a.l2) (by omega)
  have e3 := toNat_add_of_lt (a := b.l3) (b := a.l3) (by omega)
  have e4 := toNat_add_of_lt (a := b.l4) (b := a.l4) (by omega)
  set x : FieldQ := ⟨b.l0 + a.l0, b.l1 + a.l1, b.l2 + a.l2, b.l3 + a.l3, b.l4 + a.l4⟩ with hx
  have hval : x.value = a.value + b.value := by
    simp only [hx, value, e0, e1, e2, e3, e4]
    ring
  have hroom : x.Room := by
    constructor <;> simp only [hx, e0, e1, e2, e3, e4] <;> omega
  have hlt : x.value < 17 * order := by
    have h1 := ha.value_lt
    rw [order_eq] at hle ⊢
    omega
  rw [← hval]
  exact reduce_spec hroom hlt

/-- The sum of a 256-bit integer and a reduced scalar. -/
theorem add_spec {a b : FieldQ} (ha : a.Raw) (hb : b.Reduced) :
    (add a b).Reduced ∧ (add a b).value = (a.value + b.value) % order :=
  add_spec_of_le ha hb.toLow hb.lt.le

theorem add_spec_left {a b : FieldQ} (ha : a.Reduced) (hb : b.Raw) :
    (add a b).Reduced ∧ (add a b).value = (a.value + b.value) % order := by
  have hcomm : add a b = add b a := by
    simp only [add, UInt64.add_comm]
  rw [hcomm, Nat.add_comm]
  exact add_spec hb ha

theorem order_lt_two_pow : order < 2 ^ 253 := by
  norm_num [order]

/-- Reducing a 256-bit integer. -/
theorem reduce_spec_of_raw {x : FieldQ} (hx : x.Raw) :
    (reduce x).Reduced ∧ (reduce x).value = x.value % order := by
  have h4 := hx.l4
  obtain ⟨h0, h1, h2, h3⟩ := hx.toLow
  apply reduce_spec
  · constructor <;> omega
  · have := hx.value_lt
    rw [order_eq]
    omega

theorem Reduced.reduce_eq {x : FieldQ} (hx : x.Reduced) : reduce x = x := by
  obtain ⟨h, hv⟩ := reduce_spec_of_raw hx.raw
  exact Low.ext h.toLow hx.toLow (by rw [hv, Nat.mod_eq_of_lt hx.lt])

/-- Doubling and adding one bit's worth of `a`. -/
theorem double_add_bit {r a : FieldQ} (hr : r.Reduced) (ha : a.Raw) (b : Choice) (j : ℕ)
    (hj : r.value = a.value * j % order) :
    let s := ctSelect (add (add r r) a) (add r r) b
    s.Reduced ∧ s.value = a.value * (2 * j + b.unwrapPublic.toNat) % order := by
  intro s
  obtain ⟨hd, hdv⟩ := add_spec hr.raw hr
  obtain ⟨hs, hsv⟩ := add_spec_left hd ha
  have hdouble : (r.value + r.value) % order = a.value * (2 * j) % order := by
    rw [hj, ← Nat.add_mod, ← two_mul, mul_left_comm]
  simp only [s, ctSelect_eq]
  cases b.unwrapPublic with
  | false =>
      simp only [Bool.false_eq_true, if_false, Bool.toNat_false, add_zero]
      exact ⟨hd, hdv.trans hdouble⟩
  | true =>
      simp only [if_true, Bool.toNat_true]
      refine ⟨hs, ?_⟩
      rw [hsv, hdv, hdouble, Nat.mod_add_mod, mul_add, mul_one]

/-- The product of a 256-bit integer and a reduced scalar. -/
theorem mul_spec {a b : FieldQ} (ha : a.Raw) (hb : b.Reduced) :
    (mul a b).Reduced ∧ (mul a b).value = a.value * b.value % order := by
  refine loopDown_bits (n := 253) (m := b.value)
    (R := fun j (r : FieldQ) => r.Reduced ∧ r.value = a.value * j % order)
    (lt_trans hb.lt order_lt_two_pow) ⟨reduced_zero, by simp⟩ ?_
  rintro k hk j r ⟨hr, hrv⟩
  have hbit := getBitI_eq hb.toLow (show k < 256 by omega)
  have := double_add_bit hr ha (b.getBitI (UInt8.ofNat k)) j hrv
  rw [hbit] at this
  exact this

/-- The bits that `reduce_512` feeds are those of the little-endian number. -/
theorem unwrapPublic_byteBit (bs : List UInt8) (i : ℕ) :
    (Choice.fromNonzero ((bs.getD (i / 8) 0 >>> UInt8.ofNat (i % 8)) &&& 1).toUInt64).unwrapPublic =
      (leNat bs).testBit i := by
  have hi : i % 8 < 8 := Nat.mod_lt i (by norm_num)
  have hshift : ((bs.getD (i / 8) 0 >>> UInt8.ofNat (i % 8)) &&& 1).toUInt64.toNat =
      (bs.getD (i / 8) 0).toNat / 2 ^ (i % 8) % 2 := by
    rw [UInt8.toNat_toUInt64, UInt8.toNat_and, UInt8.toNat_shiftRight,
      toNat_ofNat_byte (by omega), Nat.mod_eq_of_lt hi, Nat.shiftRight_eq_div_pow,
      UInt8.toNat_one, Nat.and_one_is_mod]
  rw [Choice.unwrapPublic_fromNonzero, testBit_leNat, Nat.testBit_eq_decide_div_mod_eq,
    decide_eq_decide, Ne, ← UInt64.toNat_inj, hshift, UInt64.toNat_zero]
  omega

/-- `reduce_512` takes the number of 64 bytes modulo `L`. -/
theorem reduce512_spec (val : Bytes 64) :
    (reduce512 val).Reduced ∧ (reduce512 val).value = leNat val.toList % order := by
  have hlt := leNat_lt_two_pow val.toList
  rw [Vector.length_toList] at hlt
  refine loopDown_bits (n := 8 * 64) (m := leNat val.toList)
    (R := fun j (r : FieldQ) => r.Reduced ∧ r.value = j % order)
    hlt ⟨reduced_zero, by simp⟩ ?_
  rintro k - j r ⟨hr, hrv⟩
  have h := double_add_bit hr reduced_one.raw
    (Choice.fromNonzero ((val.toList.getD (k / 8) 0 >>> UInt8.ofNat (k % 8)) &&& 1).toUInt64) j
    (by rw [value_one, one_mul, hrv])
  rw [unwrapPublic_byteBit, value_one, one_mul] at h
  obtain ⟨hs, hsv⟩ := h
  simp only [hs.reduce_eq]
  exact ⟨hs, hsv⟩

/-- `from_bytes_mod_l` takes the number of 32 bytes modulo `L`. -/
theorem fromBytesModL_spec (b : Bytes 32) :
    (fromBytesModL b).Reduced ∧ (fromBytesModL b).value = leNat b.toList % order := by
  have hpad : leNat (b ++ (Vector.replicate 32 0 : Bytes 32)).toList = leNat b.toList := by
    rw [Vector.toList_append, leNat_append, Vector.toList_replicate, leNat_replicate_zero,
      mul_zero, add_zero]
  have := reduce512_spec (b ++ (Vector.replicate 32 0 : Bytes 32))
  rw [hpad] at this
  exact this

end PeerToPeer.Crypto.FieldQ
