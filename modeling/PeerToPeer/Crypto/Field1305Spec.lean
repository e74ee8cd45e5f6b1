import PeerToPeer.Crypto.Poly1305
import PeerToPeer.Lib.Word

/-!
What `field_1305` computes: an element holds the number `value`, sums and products
are those of the integers modulo `2^130 - 5`, and the canonical form is the
remainder. None of the 64-bit words wraps as long as the limbs of the operands
stay below `2^28`.
-/

namespace PeerToPeer.Crypto

open PeerToPeer.Lib

/-- The characteristic of `field_1305`. -/
def p1305 : ℕ := 2 ^ 130 - 5

theorem p1305_eq : p1305 = 1361129467683753853853498429727072845819 := by
  norm_num [p1305]

namespace Field1305

/-- The number an element holds. -/
def value (x : Field1305) : ℕ :=
  x.l0.toNat + 2 ^ 26 * x.l1.toNat + 2 ^ 52 * x.l2.toNat + 2 ^ 78 * x.l3.toNat +
    2 ^ 104 * x.l4.toNat

/-- All limbs are below `2^k`. -/
structure Fits (k : ℕ) (x : Field1305) : Prop where
  l0 : x.l0.toNat < 2 ^ k
  l1 : x.l1.toNat < 2 ^ k
  l2 : x.l2.toNat < 2 ^ k
  l3 : x.l3.toNat < 2 ^ k
  l4 : x.l4.toNat < 2 ^ k

/-- The form in which `operator*` returns its result. -/
structure Tight (x : Field1305) : Prop where
  l0 : x.l0.toNat < 2 ^ 26
  l1 : x.l1.toNat < 2 ^ 26
  l2 : x.l2.toNat < 2 ^ 26
  l3 : x.l3.toNat < 2 ^ 26
  l4 : x.l4.toNat ≤ 2 ^ 26

theorem Fits.tight {x : Field1305} (h : x.Fits 26) : x.Tight :=
  ⟨h.l0, h.l1, h.l2, h.l3, h.l4.le⟩

theorem tight_zero : zero.Tight := ⟨by decide, by decide, by decide, by decide, by decide⟩

@[simp] theorem value_zero : zero.value = 0 := rfl

/-! ### Carries -/

theorem toNat_and_mask26 (a : UInt64) : (a &&& mask26).toNat = a.toNat % 2 ^ 26 :=
  toNat_and_mask a _ (by decide)

theorem toNat_shiftRight_26 (a : UInt64) : (a >>> 26).toNat = a.toNat / 2 ^ 26 :=
  toNat_shiftRight_word a 26

theorem toNat_add_carry26 (a b : UInt64) (h : a.toNat + b.toNat / 2 ^ 26 < 2 ^ 64) :
    (a + b >>> 26).toNat = a.toNat + b.toNat / 2 ^ 26 := by
  rw [← toNat_shiftRight_26] at h ⊢
  exact toNat_add_of_lt h

/-- The carries keep the number; what does not fit into the limbs below is in
limb 4. -/
theorem carry_spec {x : Field1305} (h : x.Fits 63) :
    (carry x).value = x.value ∧ (carry x).l0.toNat < 2 ^ 26 ∧ (carry x).l1.toNat < 2 ^ 26 ∧
      (carry x).l2.toNat < 2 ^ 26 ∧ (carry x).l3.toNat < 2 ^ 26 := by
  obtain ⟨h0, h1, h2, h3, h4⟩ := h
  have e1 := toNat_add_carry26 x.l1 x.l0 (by omega)
  have e2 := toNat_add_carry26 x.l2 (x.l1 + x.l0 >>> 26) (by omega)
  have e3 := toNat_add_carry26 x.l3 (x.l2 + (x.l1 + x.l0 >>> 26) >>> 26) (by omega)
  have e4 := toNat_add_carry26 x.l4 (x.l3 + (x.l2 + (x.l1 + x.l0 >>> 26) >>> 26) >>> 26)
    (by omega)
  simp only [carry, value, toNat_and_mask26]
  omega

theorem toNat_five : (5 : UInt64).toNat = 5 := rfl

/-- The fold takes `2^130 - 5` off for each `2^130`. -/
theorem foldTop_spec {x : Field1305} (h0 : x.l0.toNat < 2 ^ 26) (h4 : x.l4.toNat < 2 ^ 64) :
    (foldTop x).value + p1305 * (x.l4.toNat / 2 ^ 26) = x.value ∧
      (foldTop x).l0.toNat = x.l0.toNat + 5 * (x.l4.toNat / 2 ^ 26) ∧
      (foldTop x).l4.toNat < 2 ^ 26 := by
  have hmul := toNat_mul_eq (toNat_shiftRight_26 x.l4) toNat_five (by omega)
  have hadd := toNat_add_eq (rfl : x.l0.toNat = _) hmul (by omega)
  simp only [foldTop, value, hadd, toNat_and_mask26, p1305]
  omega

/-- Two rounds of carries with a fold between them: the number is kept modulo
`2^130 - 5`, and only limb 4 can still reach its base. -/
theorem carry_foldTop_carry {x : Field1305} (h : x.Fits 62) :
    ∃ q, (carry (foldTop (carry x))).value + p1305 * q = x.value ∧
      (carry (foldTop (carry x))).Tight := by
  obtain ⟨h0, h1, h2, h3, h4⟩ := h
  obtain ⟨hval, c0, c1, c2, c3⟩ := carry_spec (x := x)
    ⟨by omega, by omega, by omega, by omega, by omega⟩
  have hl4 : (carry x).l4.toNat < 2 ^ 63 := by
    unfold value at hval
    omega
  generalize carry x = y at *
  obtain ⟨hfold, hf0, hf4⟩ := foldTop_spec c0 (by omega)
  have hf1 : (foldTop y).l1 = y.l1 := rfl
  have hf2 : (foldTop y).l2 = y.l2 := rfl
  have hf3 : (foldTop y).l3 = y.l3 := rfl
  obtain ⟨hval', d0, d1, d2, d3⟩ := carry_spec (x := foldTop y)
    ⟨by omega, by rw [hf1]; omega, by rw [hf2]; omega, by rw [hf3]; omega, by omega⟩
  refine ⟨y.l4.toNat / 2 ^ 26, by rw [hval', hfold, hval], d0, d1, d2, d3, ?_⟩
  unfold value at hval'
  rw [hf1, hf2, hf3] at hval'
  omega

/-! ### Products -/

/-- A word that holds a sum of `k` products of limbs below `2^28`. -/
structure Column (k : ℕ) (w : UInt64) (n : ℕ) : Prop where
  eq : w.toNat = n
  lt : n < k * 2 ^ 56

theorem Column.mul {a b : UInt64} (ha : a.toNat < 2 ^ 28) (hb : b.toNat < 2 ^ 28) :
    Column 1 (a * b) (a.toNat * b.toNat) := by
  have hlt : a.toNat * b.toNat < 2 ^ 28 * 2 ^ 28 := Nat.mul_lt_mul'' ha hb
  exact ⟨toNat_mul_of_lt (by omega), by omega⟩

theorem Column.add_mul {k : ℕ} {w : UInt64} {n : ℕ} (h : Column k w n) (hk : k < 100)
    {a b : UInt64} (ha : a.toNat < 2 ^ 28) (hb : b.toNat < 2 ^ 28) :
    Column (k + 1) (w + a * b) (n + a.toNat * b.toNat) := by
  have hmul := Column.mul ha hb
  have hw := h.lt
  have hlt := hmul.lt
  exact ⟨toNat_add_eq h.eq hmul.eq (by omega), by omega⟩

/-- The carry of the column before it counts for less than a product. -/
theorem Column.add_carry {k : ℕ} {w : UInt64} {n : ℕ} (h : Column k w n) (hk : k < 100)
    (d : UInt64) : Column (k + 1) (w + d >>> 26) (n + d.toNat / 2 ^ 26) := by
  have hw := h.lt
  have hd := d.toNat_lt
  exact ⟨toNat_add_eq h.eq (toNat_shiftRight_26 d) (by omega), by omega⟩

/-- The columns of a product. -/
theorem value_mul_value (a b : Field1305) :
    a.value * b.value =
      a.l0.toNat * b.l0.toNat +
      2 ^ 26 * (a.l0.toNat * b.l1.toNat + a.l1.toNat * b.l0.toNat) +
      2 ^ 52 * (a.l0.toNat * b.l2.toNat + a.l1.toNat * b.l1.toNat + a.l2.toNat * b.l0.toNat) +
      2 ^ 78 * (a.l0.toNat * b.l3.toNat + a.l1.toNat * b.l2.toNat + a.l2.toNat * b.l1.toNat +
        a.l3.toNat * b.l0.toNat) +
      2 ^ 104 * (a.l0.toNat * b.l4.toNat + a.l1.toNat * b.l3.toNat + a.l2.toNat * b.l2.toNat +
        a.l3.toNat * b.l1.toNat + a.l4.toNat * b.l0.toNat) +
      2 ^ 130 * (a.l1.toNat * b.l4.toNat + a.l2.toNat * b.l3.toNat + a.l3.toNat * b.l2.toNat +
        a.l4.toNat * b.l1.toNat) +
      2 ^ 156 * (a.l2.toNat * b.l4.toNat + a.l3.toNat * b.l3.toNat + a.l4.toNat * b.l2.toNat) +
      2 ^ 182 * (a.l3.toNat * b.l4.toNat + a.l4.toNat * b.l3.toNat) +
      2 ^ 208 * (a.l4.toNat * b.l4.toNat) := by
  unfold value
  ring

theorem mulDigits_spec {a b : Field1305} (ha : a.Fits 28) (hb : b.Fits 28) :
    (mulDigits a b).1.value + 2 ^ 130 * (mulDigits a b).2.value = a.value * b.value ∧
      (mulDigits a b).1.Fits 26 ∧ (mulDigits a b).2.Fits 57 ∧ (mulDigits a b).2.l4 = 0 := by
  obtain ⟨a0, a1, a2, a3, a4⟩ := ha
  obtain ⟨b0, b1, b2, b3, b4⟩ := hb
  rw [value_mul_value]
  simp only [mulDigits]
  -- one column after the other, each with the carry of the one before
  have c0 := Column.mul a0 b0
  generalize a.l0 * b.l0 = d0 at c0 ⊢
  have c1 := ((Column.mul a0 b1).add_mul (by omega) a1 b0).add_carry (by omega) d0
  generalize a.l0 * b.l1 + a.l1 * b.l0 + d0 >>> 26 = d1 at c1 ⊢
  have c2 := (((Column.mul a0 b2).add_mul (by omega) a1 b1).add_mul (by omega) a2 b0).add_carry
    (by omega) d1
  generalize a.l0 * b.l2 + a.l1 * b.l1 + a.l2 * b.l0 + d1 >>> 26 = d2 at c2 ⊢
  have c3 := ((((Column.mul a0 b3).add_mul (by omega) a1 b2).add_mul (by omega) a2 b1).add_mul
    (by omega) a3 b0).add_carry (by omega) d2
  generalize a.l0 * b.l3 + a.l1 * b.l2 + a.l2 * b.l1 + a.l3 * b.l0 + d2 >>> 26 = d3 at c3 ⊢
  have c4 := (((((Column.mul a0 b4).add_mul (by omega) a1 b3).add_mul (by omega) a2 b2).add_mul
    (by omega) a3 b1).add_mul (by omega) a4 b0).add_carry (by omega) d3
  generalize a.l0 * b.l4 + a.l1 * b.l3 + a.l2 * b.l2 + a.l3 * b.l1 + a.l4 * b.l0 + d3 >>> 26 = d4
    at c4 ⊢
  have c5 := ((((Column.mul a1 b4).add_mul (by omega) a2 b3).add_mul (by omega) a3 b2).add_mul
    (by omega) a4 b1).add_carry (by omega) d4
  generalize a.l1 * b.l4 + a.l2 * b.l3 + a.l3 * b.l2 + a.l4 * b.l1 + d4 >>> 26 = d5 at c5 ⊢
  have c6 := (((Column.mul a2 b4).add_mul (by omega) a3 b3).add_mul (by omega) a4 b2).add_carry
    (by omega) d5
  generalize a.l2 * b.l4 + a.l3 * b.l3 + a.l4 * b.l2 + d5 >>> 26 = d6 at c6 ⊢
  have c7 := ((Column.mul a3 b4).add_mul (by omega) a4 b3).add_carry (by omega) d6
  generalize a.l3 * b.l4 + a.l4 * b.l3 + d6 >>> 26 = d7 at c7 ⊢
  have c8 := (Column.mul a4 b4).add_carry (by omega) d7
  generalize a.l4 * b.l4 + d7 >>> 26 = d8 at c8 ⊢
  have e0 := c0.eq
  have e1 := c1.eq
  have e2 := c2.eq
  have e3 := c3.eq
  have e4 := c4.eq
  have e5 := c5.eq
  have e6 := c6.eq
  have e7 := c7.eq
  have e8 := c8.eq
  have hd8 := c8.lt
  refine ⟨?_, ⟨?_, ?_, ?_, ?_, ?_⟩, ⟨?_, ?_, ?_, ?_, ?_⟩, trivial⟩
  · simp only [value, toNat_and_mask26, UInt64.toNat_zero]
    omega
  all_goals
    simp only [toNat_and_mask26, UInt64.toNat_zero]
    omega

/-- `operator*` is the product modulo `2^130 - 5`. -/
theorem mul_spec {a b : Field1305} (ha : a.Fits 28) (hb : b.Fits 28) :
    (mul a b).Tight ∧ (mul a b).value % p1305 = a.value * b.value % p1305 := by
  obtain ⟨hval, hlo, hhi, hhi4⟩ := mulDigits_spec ha hb
  rw [mul]
  generalize mulDigits a b = d at *
  obtain ⟨lo0, lo1, lo2, lo3, lo4⟩ := hlo
  obtain ⟨hi0, hi1, hi2, hi3, -⟩ := hhi
  have m0 := toNat_mul_eq (rfl : d.2.l0.toNat = _) toNat_five (by omega)
  have m1 := toNat_mul_eq (rfl : d.2.l1.toNat = _) toNat_five (by omega)
  have m2 := toNat_mul_eq (rfl : d.2.l2.toNat = _) toNat_five (by omega)
  have m3 := toNat_mul_eq (rfl : d.2.l3.toNat = _) toNat_five (by omega)
  have s0 := toNat_add_eq (rfl : d.1.l0.toNat = _) m0 (by omega)
  have s1 := toNat_add_eq (rfl : d.1.l1.toNat = _) m1 (by omega)
  have s2 := toNat_add_eq (rfl : d.1.l2.toNat = _) m2 (by omega)
  have s3 := toNat_add_eq (rfl : d.1.l3.toNat = _) m3 (by omega)
  obtain ⟨q, hq, htight⟩ := carry_foldTop_carry (x := ⟨d.1.l0 + d.2.l0 * 5, d.1.l1 + d.2.l1 * 5,
    d.1.l2 + d.2.l2 * 5, d.1.l3 + d.2.l3 * 5, d.1.l4⟩)
    ⟨s0.trans_lt (by omega), s1.trans_lt (by omega), s2.trans_lt (by omega),
      s3.trans_lt (by omega), lo4.trans (by omega)⟩
  refine ⟨htight, ?_⟩
  have hout : a.value * b.value = value ⟨d.1.l0 + d.2.l0 * 5, d.1.l1 + d.2.l1 * 5,
      d.1.l2 + d.2.l2 * 5, d.1.l3 + d.2.l3 * 5, d.1.l4⟩ + p1305 * d.2.value := by
    rw [← hval]
    simp only [value, s0, s1, s2, s3, hhi4, UInt64.toNat_zero, p1305]
    omega
  rw [hout, ← hq, Nat.add_mul_mod_self_left, Nat.add_mul_mod_self_left]

/-- `operator+` keeps the limbs apart. -/
theorem add_spec {a b : Field1305} (ha : a.Tight) (hb : b.Tight) :
    (add a b).Fits 28 ∧ (add a b).value = a.value + b.value := by
  obtain ⟨a0, a1, a2, a3, a4⟩ := ha
  obtain ⟨b0, b1, b2, b3, b4⟩ := hb
  have s0 := toNat_add_of_lt (a := b.l0) (b := a.l0) (by omega)
  have s1 := toNat_add_of_lt (a := b.l1) (b := a.l1) (by omega)
  have s2 := toNat_add_of_lt (a := b.l2) (b := a.l2) (by omega)
  have s3 := toNat_add_of_lt (a := b.l3) (b := a.l3) (by omega)
  have s4 := toNat_add_of_lt (a := b.l4) (b := a.l4) (by omega)
  constructor
  · constructor <;> simp only [add] <;> omega
  · simp only [add, value, s0, s1, s2, s3, s4]
    omega

/-! ### The canonical form -/

theorem pick_zero (c l : UInt64) : (c &&& (0 - 0)) ||| (l &&& ~~~(0 - 0)) = l := by
  simp

theorem pick_one (c l : UInt64) : (c &&& (0 - 1)) ||| (l &&& ~~~(0 - 1)) = c := by
  simp

/-- `reduce_inplace` leaves the remainder modulo `2^130 - 5`. -/
theorem reduce_spec {x : Field1305} (h : x.Fits 62) :
    (reduce x).Fits 26 ∧ (reduce x).value = x.value % p1305 := by
  obtain ⟨q, hq, l0, l1, l2, l3, l4⟩ := carry_foldTop_carry h
  rw [reduce]
  generalize carry (foldTop (carry x)) = l at *
  have e0 := toNat_add_eq (rfl : l.l0.toNat = _) toNat_five (by omega)
  generalize l.l0 + 5 = c0 at e0 ⊢
  have e1 := toNat_add_carry26 l.l1 c0 (by omega)
  generalize l.l1 + c0 >>> 26 = c1 at e1 ⊢
  have e2 := toNat_add_carry26 l.l2 c1 (by omega)
  generalize l.l2 + c1 >>> 26 = c2 at e2 ⊢
  have e3 := toNat_add_carry26 l.l3 c2 (by omega)
  generalize l.l3 + c2 >>> 26 = c3 at e3 ⊢
  have e4 := toNat_add_carry26 l.l4 c3 (by omega)
  generalize l.l4 + c3 >>> 26 = c4 at e4 ⊢
  have hcarry := toNat_shiftRight_26 c4
  have hmod : ∀ {v : ℕ}, v < p1305 → v + p1305 * q = x.value ∨ v + p1305 * (q + 1) = x.value →
      v = x.value % p1305 := by
    rintro v hv (heq | heq) <;> rw [← heq, Nat.add_mul_mod_self_left, Nat.mod_eq_of_lt hv]
  have hp := p1305_eq
  unfold value at hq
  -- the trial addition carries out of limb 4 exactly when the number is not reduced
  by_cases hge : c4.toNat < 2 ^ 26
  · have hbit : c4 >>> 26 = 0 := UInt64.toNat_inj.mp (by rw [hcarry, UInt64.toNat_zero]; omega)
    simp only [hbit, pick_zero]
    change l.Fits 26 ∧ l.value = _
    refine ⟨⟨l0, l1, l2, l3, by omega⟩, hmod ?_ (.inl hq)⟩
    unfold value
    omega
  · have hbit : c4 >>> 26 = 1 := UInt64.toNat_inj.mp (by rw [hcarry, UInt64.toNat_one]; omega)
    simp only [hbit, pick_one]
    refine ⟨?_, hmod ?_ (.inr ?_)⟩
    · constructor <;> simp only [toNat_and_mask26] <;> omega
    · simp only [value, toNat_and_mask26]
      omega
    · simp only [value, toNat_and_mask26, Nat.mul_add]
      omega

/-! ### Bytes -/

/-- Three bytes on top of the bits that are there. -/
theorem toNat_pack {k : ℕ} {x b c d s t u : UInt64} (hx : x.toNat < 2 ^ k) (hs : s.toNat = k)
    (ht : t.toNat = k + 8) (hu : u.toNat = k + 8 + 8) (hb : b.toNat < 2 ^ 8)
    (hc : c.toNat < 2 ^ 8) (hd : d.toNat < 2 ^ 8) (hk : k ≤ 8) :
    (x ||| b <<< s ||| c <<< t ||| d <<< u).toNat =
      x.toNat + b.toNat * 2 ^ k + c.toNat * 2 ^ (k + 8) + d.toNat * 2 ^ (k + 8 + 8) :=
  ((((Holds.of_lt hx).or_shiftLeft hs hb (by omega)).or_shiftLeft ht hc (by omega)).or_shiftLeft
    hu hd (by omega)).eq

theorem pack_fits (w : Fin 17 → UInt64) : (pack w).Fits 26 := by
  constructor <;> simp only [pack, toNat_and_mask26] <;> exact Nat.mod_lt _ (by norm_num)

theorem pack_value {w : Fin 17 → UInt64} (hw : ∀ i, (w i).toNat < 2 ^ 8) :
    (pack w).value = leNat (List.ofFn fun i => (w i).toUInt8) % 2 ^ 130 := by
  have b0 := hw 0; have b1 := hw 1; have b2 := hw 2; have b3 := hw 3; have b4 := hw 4
  have b5 := hw 5; have b6 := hw 6; have b7 := hw 7; have b8 := hw 8; have b9 := hw 9
  have b10 := hw 10; have b11 := hw 11; have b12 := hw 12; have b13 := hw 13
  have b14 := hw 14; have b15 := hw 15; have b16 := hw 16
  have h3 : (w 3 >>> 2).toNat = (w 3).toNat / 2 ^ 2 := toNat_shiftRight_word (w 3) 2
  have h6 : (w 6 >>> 4).toNat = (w 6).toNat / 2 ^ 4 := toNat_shiftRight_word (w 6) 4
  have h9 : (w 9 >>> 6).toNat = (w 9).toNat / 2 ^ 6 := toNat_shiftRight_word (w 9) 6
  have e0 := toNat_pack (k := 8) (s := 8) (t := 16) (u := 24) b0 rfl rfl rfl b1 b2 b3 (by omega)
  have e1 := toNat_pack (k := 6) (x := w 3 >>> 2) (s := 6) (t := 14) (u := 22) (by omega)
    rfl rfl rfl b4 b5 b6 (by omega)
  have e2 := toNat_pack (k := 4) (x := w 6 >>> 4) (s := 4) (t := 12) (u := 20) (by omega)
    rfl rfl rfl b7 b8 b9 (by omega)
  have e3 := toNat_pack (k := 2) (x := w 9 >>> 6) (s := 2) (t := 10) (u := 18) (by omega)
    rfl rfl rfl b10 b11 b12 (by omega)
  have e4 := toNat_pack (k := 8) (s := 8) (t := 16) (u := 24) b13 rfl rfl rfl b14 b15 b16
    (by omega)
  have hbyte : ∀ i, (w i).toUInt8.toNat = (w i).toNat := by
    intro i
    rw [UInt64.toNat_toUInt8, Nat.mod_eq_of_lt (hw i)]
  have hlist : (List.ofFn fun i => (w i).toUInt8) = [(w 0).toUInt8, (w 1).toUInt8,
      (w 2).toUInt8, (w 3).toUInt8, (w 4).toUInt8, (w 5).toUInt8, (w 6).toUInt8, (w 7).toUInt8,
      (w 8).toUInt8, (w 9).toUInt8, (w 10).toUInt8, (w 11).toUInt8, (w 12).toUInt8,
      (w 13).toUInt8, (w 14).toUInt8, (w 15).toUInt8, (w 16).toUInt8] := rfl
  simp only [hlist, leNat_cons, leNat_nil, hbyte, pack, value, toNat_and_mask26, e0, e1, e2, e3,
    e4, h3, h6, h9]
  omega

/-- The first sixteen bytes are taken whole. -/
theorem word_castSucc (bytes : Bytes 17) (i : Fin 16) :
    (word bytes i.castSucc).toUInt8 = bytes[i.castSucc] := by
  rw [word, if_neg (show i.castSucc ≠ 16 from (Fin.castSucc_lt_last i).ne),
    UInt8.toUInt8_toUInt64]

theorem word_lt (bytes : Bytes 17) (i : Fin 17) : (word bytes i).toNat < 2 ^ 8 := by
  rw [word, UInt8.toNat_toUInt64]
  exact UInt8.toNat_lt _

theorem leNat_ofFn_last (f : Fin 17 → UInt8) :
    leNat (List.ofFn f) =
      leNat (List.ofFn fun i : Fin 16 => f i.castSucc) + 2 ^ 128 * (f (Fin.last 16)).toNat := by
  rw [List.ofFn_succ', List.concat_eq_append, leNat_append, List.length_ofFn, leNat_cons, leNat_nil]
  norm_num

/-- `from_bytes` reads 130 bits. -/
theorem fromBytes_spec (bytes : Bytes 17) :
    (fromBytes bytes).Fits 26 ∧ (fromBytes bytes).value = leNat bytes.toList % 2 ^ 130 % p1305 := by
  obtain ⟨h0, h1, h2, h3, h4⟩ := pack_fits (word bytes)
  rw [fromBytes]
  refine (reduce_spec ⟨by omega, by omega, by omega, by omega, by omega⟩).imp_right fun hval => ?_
  have htop : (word bytes (Fin.last 16)).toUInt8.toNat = bytes[Fin.last 16].toNat % 2 ^ 2 := by
    rw [word, if_pos (show Fin.last 16 = 16 from rfl), UInt8.toUInt8_toUInt64, UInt8.toNat_and]
    exact Nat.and_two_pow_sub_one_eq_mod _ 2
  rw [hval, pack_value (word_lt bytes), toList_eq_ofFn, leNat_ofFn_last, leNat_ofFn_last, htop]
  simp only [word_castSucc]
  congr 1
  omega

/-- Numbers below `2^130 - 5` are read unchanged. -/
theorem fromBytes_of_lt {bytes : Bytes 17} (h : leNat bytes.toList < p1305) :
    (fromBytes bytes).Fits 26 ∧ (fromBytes bytes).value = leNat bytes.toList := by
  obtain ⟨hfits, hval⟩ := fromBytes_spec bytes
  have hlt : leNat bytes.toList < 2 ^ 130 := h.trans (by norm_num [p1305])
  rw [Nat.mod_eq_of_lt hlt, Nat.mod_eq_of_lt h] at hval
  exact ⟨hfits, hval⟩

/-- The bytes that `to_bytes` cuts the limbs into. -/
def unpack (l : Field1305) : List UInt8 :=
  let byte (v : UInt64) (shift : UInt64) : UInt8 := ((v >>> shift) &&& 0xFF).toUInt8
  [byte l.l0 0, byte l.l0 8, byte l.l0 16,
    ((l.l0 >>> 24) &&& 0x03).toUInt8 ||| ((l.l1 <<< 2) &&& 0xFF).toUInt8,
    byte l.l1 6, byte l.l1 14,
    ((l.l1 >>> 22) &&& 0x0F).toUInt8 ||| ((l.l2 <<< 4) &&& 0xFF).toUInt8,
    byte l.l2 4, byte l.l2 12,
    ((l.l2 >>> 20) &&& 0x3F).toUInt8 ||| ((l.l3 <<< 6) &&& 0xFF).toUInt8,
    byte l.l3 2, byte l.l3 10, byte l.l3 18,
    byte l.l4 0, byte l.l4 8, byte l.l4 16, ((l.l4 >>> 24) &&& 0x03).toUInt8]

theorem toList_toBytes (x : Field1305) : x.toBytes.toList = unpack (reduce x) := rfl

theorem leNat_unpack {l : Field1305} (h : l.Fits 26) : leNat (unpack l) = l.value := by
  obtain ⟨h0, h1, h2, h3, h4⟩ := h
  have byte : ∀ (v s : UInt64) (j : ℕ), s.toNat % 64 = j →
      ((v >>> s) &&& 0xFF).toUInt8.toNat = v.toNat / 2 ^ j % 2 ^ 8 :=
    fun v s j hs => toNat_byte v s 0xFF hs rfl le_rfl
  simp only [unpack, leNat_cons, leNat_nil, value]
  rw [byte l.l0 0 0 rfl, byte l.l0 8 8 rfl, byte l.l0 16 16 rfl,
    toNat_byte_or l.l0 l.l1 24 0x03 2 (j := 24) (k := 2) rfl rfl rfl (by omega),
    byte l.l1 6 6 rfl, byte l.l1 14 14 rfl,
    toNat_byte_or l.l1 l.l2 22 0x0F 4 (j := 22) (k := 4) rfl rfl rfl (by omega),
    byte l.l2 4 4 rfl, byte l.l2 12 12 rfl,
    toNat_byte_or l.l2 l.l3 20 0x3F 6 (j := 20) (k := 6) rfl rfl rfl (by omega),
    byte l.l3 2 2 rfl, byte l.l3 10 10 rfl, byte l.l3 18 18 rfl,
    byte l.l4 0 0 rfl, byte l.l4 8 8 rfl, byte l.l4 16 16 rfl,
    toNat_byte l.l4 24 0x03 (j := 24) (k := 2) rfl rfl (by omega)]
  -- each limb is the number of its pieces
  have c0 : l.l0.toNat = l.l0.toNat / 2 ^ 0 % 2 ^ 8 + 2 ^ 8 * (l.l0.toNat / 2 ^ 8 % 2 ^ 8) +
      2 ^ 16 * (l.l0.toNat / 2 ^ 16 % 2 ^ 8) + 2 ^ 24 * (l.l0.toNat / 2 ^ 24 % 2 ^ 2) := by omega
  have c1 : l.l1.toNat = l.l1.toNat % 2 ^ (8 - 2) + 2 ^ 6 * (l.l1.toNat / 2 ^ 6 % 2 ^ 8) +
      2 ^ 14 * (l.l1.toNat / 2 ^ 14 % 2 ^ 8) + 2 ^ 22 * (l.l1.toNat / 2 ^ 22 % 2 ^ 4) := by omega
  have c2 : l.l2.toNat = l.l2.toNat % 2 ^ (8 - 4) + 2 ^ 4 * (l.l2.toNat / 2 ^ 4 % 2 ^ 8) +
      2 ^ 12 * (l.l2.toNat / 2 ^ 12 % 2 ^ 8) + 2 ^ 20 * (l.l2.toNat / 2 ^ 20 % 2 ^ 6) := by omega
  have c3 : l.l3.toNat = l.l3.toNat % 2 ^ (8 - 6) + 2 ^ 2 * (l.l3.toNat / 2 ^ 2 % 2 ^ 8) +
      2 ^ 10 * (l.l3.toNat / 2 ^ 10 % 2 ^ 8) + 2 ^ 18 * (l.l3.toNat / 2 ^ 18 % 2 ^ 8) := by omega
  have c4 : l.l4.toNat = l.l4.toNat / 2 ^ 0 % 2 ^ 8 + 2 ^ 8 * (l.l4.toNat / 2 ^ 8 % 2 ^ 8) +
      2 ^ 16 * (l.l4.toNat / 2 ^ 16 % 2 ^ 8) + 2 ^ 24 * (l.l4.toNat / 2 ^ 24 % 2 ^ 2) := by omega
  linear_combination -c0 - 2 ^ 26 * c1 - 2 ^ 52 * c2 - 2 ^ 78 * c3 - 2 ^ 104 * c4

/-- `to_bytes` writes the canonical form. -/
theorem leNat_toBytes {x : Field1305} (h : x.Fits 62) :
    leNat x.toBytes.toList = x.value % p1305 := by
  obtain ⟨hfits, hval⟩ := reduce_spec h
  rw [toList_toBytes, leNat_unpack hfits, hval]

end Field1305

end PeerToPeer.Crypto
