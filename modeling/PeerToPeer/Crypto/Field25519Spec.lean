import PeerToPeer.Crypto.Field25519
import PeerToPeer.Lib.Word

/-!
What `field_25519` computes: an element holds the number `value`, and products,
squares and the canonical form are those of the integers modulo `2^255 - 19`.

Products are returned with limbs below `2^51`, except for the last limb, which may
be `2^51`. On such elements sums are exact. A difference is exact as long as
limb 0 of the subtrahend is not larger than limb 0 of `p` and of the minuend
together: the limbs of `p - b` are formed without a borrow, so in the other case
limb 0 wraps.
-/

namespace PeerToPeer.Crypto.Field25519

open PeerToPeer.Lib

/-- The number an element holds. -/
def value (x : Field25519) : ℕ :=
  x.l0.toNat + 2 ^ 51 * x.l1.toNat + 2 ^ 102 * x.l2.toNat + 2 ^ 153 * x.l3.toNat +
    2 ^ 204 * x.l4.toNat

/-- All limbs are below `2^k`. -/
structure Fits (k : ℕ) (x : Field25519) : Prop where
  l0 : x.l0.toNat < 2 ^ k
  l1 : x.l1.toNat < 2 ^ k
  l2 : x.l2.toNat < 2 ^ k
  l3 : x.l3.toNat < 2 ^ k
  l4 : x.l4.toNat < 2 ^ k

/-- The form in which `operator*` returns its result. -/
structure Tight (x : Field25519) : Prop where
  l0 : x.l0.toNat < 2 ^ 51
  l1 : x.l1.toNat < 2 ^ 51
  l2 : x.l2.toNat < 2 ^ 51
  l3 : x.l3.toNat < 2 ^ 51
  l4 : x.l4.toNat ≤ 2 ^ 51

theorem Fits.tight {x : Field25519} (h : x.Fits 51) : x.Tight :=
  ⟨h.l0, h.l1, h.l2, h.l3, h.l4.le⟩

theorem Fits.mono {j k : ℕ} {x : Field25519} (h : x.Fits j) (hjk : j ≤ k) : x.Fits k := by
  have hle : 2 ^ j ≤ 2 ^ k := Nat.pow_le_pow_right two_pos hjk
  exact ⟨h.l0.trans_le hle, h.l1.trans_le hle, h.l2.trans_le hle, h.l3.trans_le hle,
    h.l4.trans_le hle⟩

theorem Tight.fits {x : Field25519} (h : x.Tight) : x.Fits 54 := by
  obtain ⟨h0, h1, h2, h3, h4⟩ := h
  exact ⟨by omega, by omega, by omega, by omega, by omega⟩

/-- Two elements with limbs below their base that hold the same number are equal. -/
theorem Fits.ext {x y : Field25519} (hx : x.Fits 51) (hy : y.Fits 51) (h : x.value = y.value) :
    x = y := by
  obtain ⟨hx0, hx1, hx2, hx3, hx4⟩ := hx
  obtain ⟨hy0, hy1, hy2, hy3, hy4⟩ := hy
  unfold value at h
  cases x
  cases y
  simp only [mk.injEq, ← UInt64.toNat_inj]
  simp only at *
  omega

theorem tight_zero : zero.Tight := ⟨by decide, by decide, by decide, by decide, by decide⟩

theorem tight_one : one.Tight := ⟨by decide, by decide, by decide, by decide, by decide⟩

theorem toNat_limbs_p : p.l0.toNat = 2 ^ 51 - 19 ∧ p.l1.toNat = 2 ^ 51 - 1 ∧
    p.l2.toNat = 2 ^ 51 - 1 ∧ p.l3.toNat = 2 ^ 51 - 1 ∧ p.l4.toNat = 2 ^ 51 - 1 := by decide

/-! ### The canonical form -/

theorem toNat_and_mask51 (a : UInt64) : (a &&& mask51).toNat = a.toNat % 2 ^ 51 :=
  toNat_and_mask a _ (by decide)

theorem toNat_shiftRight_51 (a : UInt64) : (a >>> 51).toNat = a.toNat / 2 ^ 51 :=
  toNat_shiftRight_word a 51

theorem toNat_add_carry51 (a b : UInt64) (h : a.toNat + b.toNat / 2 ^ 51 < 2 ^ 64) :
    (a + b >>> 51).toNat = a.toNat + b.toNat / 2 ^ 51 := by
  rw [← toNat_shiftRight_51] at h ⊢
  exact toNat_add_of_lt h

/-- The carries keep the number; what does not fit into the limbs below is in
limb 4. -/
theorem carry_spec {x : Field25519} (h : x.Fits 63) :
    (carry x).value = x.value ∧ (carry x).l0.toNat < 2 ^ 51 ∧ (carry x).l1.toNat < 2 ^ 51 ∧
      (carry x).l2.toNat < 2 ^ 51 ∧ (carry x).l3.toNat < 2 ^ 51 := by
  obtain ⟨h0, h1, h2, h3, h4⟩ := h
  have e1 := toNat_add_carry51 x.l1 x.l0 (by omega)
  have e2 := toNat_add_carry51 x.l2 (x.l1 + x.l0 >>> 51) (by omega)
  have e3 := toNat_add_carry51 x.l3 (x.l2 + (x.l1 + x.l0 >>> 51) >>> 51) (by omega)
  have e4 := toNat_add_carry51 x.l4 (x.l3 + (x.l2 + (x.l1 + x.l0 >>> 51) >>> 51) >>> 51)
    (by omega)
  simp only [carry, value, toNat_and_mask51]
  omega

theorem toNat_nineteen : (19 : UInt64).toNat = 19 := rfl

/-- The fold takes `2^255 - 19` off for each `2^255`. -/
theorem foldTop_spec {x : Field25519} (h0 : x.l0.toNat < 2 ^ 51) :
    (foldTop x).value + p25519 * (x.l4.toNat / 2 ^ 51) = x.value ∧
      (foldTop x).l0.toNat = x.l0.toNat + 19 * (x.l4.toNat / 2 ^ 51) ∧
      (foldTop x).l4.toNat = x.l4.toNat % 2 ^ 51 := by
  have h4 := x.l4.toNat_lt
  have hmul := toNat_mul_eq (toNat_shiftRight_51 x.l4) toNat_nineteen (by omega)
  have hadd := toNat_add_eq (rfl : x.l0.toNat = _) hmul (by omega)
  simp only [foldTop, value, hadd, toNat_and_mask51, p25519]
  refine ⟨?_, ?_, trivial⟩ <;> omega

/-- The number that `reduce_inplace` compares with `p, …, p + 18`: what the element
holds, with `2^255 - 19` taken off for each `2^255`. -/
def folded (x : Field25519) : ℕ := x.value % 2 ^ 255 + 19 * (x.value / 2 ^ 255)

theorem folded_add (x : Field25519) : x.folded + p25519 * (x.value / 2 ^ 255) = x.value := by
  rw [folded, p25519]
  omega

theorem folded_mod (x : Field25519) : x.folded % p25519 = x.value % p25519 := by
  rw [← folded_add x, Nat.add_mul_mod_self_left]

/-- The carries and the fold; limb 4 takes what does not fit into the limbs below. -/
theorem carry_foldTop_carry {x : Field25519} (h : x.Fits 54) :
    (carry (foldTop (carry x))).value = x.folded ∧
      (carry (foldTop (carry x))).l0.toNat < 2 ^ 51 ∧
      (carry (foldTop (carry x))).l1.toNat < 2 ^ 51 ∧
      (carry (foldTop (carry x))).l2.toNat < 2 ^ 51 ∧
      (carry (foldTop (carry x))).l3.toNat < 2 ^ 51 := by
  obtain ⟨h0, h1, h2, h3, h4⟩ := h
  obtain ⟨hval, c0, c1, c2, c3⟩ := carry_spec (x := x)
    ⟨by omega, by omega, by omega, by omega, by omega⟩
  have hfolded := folded_add x
  have hv : x.value < 2 ^ 259 := by
    unfold value
    omega
  rw [← hval] at hfolded hv
  generalize carry x = y at *
  have hy4 : y.l4.toNat / 2 ^ 51 = y.value / 2 ^ 255 := by
    unfold value
    omega
  obtain ⟨hfold, hf0, hf4⟩ := foldTop_spec c0
  have hf1 : (foldTop y).l1 = y.l1 := rfl
  have hf2 : (foldTop y).l2 = y.l2 := rfl
  have hf3 : (foldTop y).l3 = y.l3 := rfl
  obtain ⟨hval', hlimbs⟩ := carry_spec (x := foldTop y)
    ⟨by omega, by rw [hf1]; omega, by rw [hf2]; omega, by rw [hf3]; omega, by omega⟩
  rw [hy4] at hfold
  exact ⟨by omega, hlimbs⟩

theorem unwrapPublic_eqRaw (a b : Field25519) : (eqRaw a b).unwrapPublic = decide (a = b) := by
  cases a
  cases b
  simp [eqRaw, Bool.decide_and, Bool.and_assoc]

/-- The elements that the scan compares with. -/
theorem addWord_p_spec {i : ℕ} (hi : i < 19) :
    (addWord p (.ofNat i)).Fits 51 ∧ (addWord p (.ofNat i)).value = p25519 + i := by
  obtain ⟨hl0, hl1, hl2, hl3, hl4⟩ := toNat_limbs_p
  have hword : (UInt64.ofNat i).toNat = i := UInt64.toNat_ofNat_of_lt' (lt_trans hi (by decide))
  have hadd := toNat_add_eq hl0 hword (by omega)
  have hp := p25519_eq
  constructor
  · constructor <;> simp only [addWord] <;> omega
  · simp only [addWord, value]
    omega

/-- The elements that the scan puts in their place. -/
theorem addWord_zero_spec {i : ℕ} (hi : i < 2 ^ 51) :
    (addWord zero (.ofNat i)).Fits 51 ∧ (addWord zero (.ofNat i)).value = i := by
  have hzero : zero.l0.toNat = 0 ∧ zero.l1.toNat = 0 ∧ zero.l2.toNat = 0 ∧ zero.l3.toNat = 0 ∧
      zero.l4.toNat = 0 := by decide
  obtain ⟨hl0, hl1, hl2, hl3, hl4⟩ := hzero
  have hword : (UInt64.ofNat i).toNat = i := UInt64.toNat_ofNat_of_lt' (lt_trans hi (by decide))
  have hadd := toNat_add_eq hl0 hword (by omega)
  constructor
  · constructor <;> simp only [addWord] <;> omega
  · simp only [addWord, value]
    omega

/-- What the scan has found after `n` turns. -/
theorem scan_spec (x : Field25519) (n : ℕ) :
    let s := (List.range n).foldl (scanStep x) (zero, Choice.falseChoice)
    (s.2.unwrapPublic = true ∧
      ∃ i < n, x = addWord p (.ofNat i) ∧ s.1 = addWord zero (.ofNat i)) ∨
    (s.2.unwrapPublic = false ∧ ∀ i < n, x ≠ addWord p (.ofNat i)) := by
  induction n with
  | zero => exact .inr ⟨rfl, fun i hi => absurd hi (Nat.not_lt_zero i)⟩
  | succ n ih =>
      rw [List.range_succ, List.foldl_append, List.foldl_cons, List.foldl_nil]
      generalize (List.range n).foldl (scanStep x) (zero, Choice.falseChoice) = s at ih ⊢
      simp only [scanStep, ctSelect_eq, Choice.unwrapPublic_or, unwrapPublic_eqRaw]
      by_cases hit : x = addWord p (.ofNat n)
      · simp only [hit, decide_true, Bool.or_true, if_true]
        exact .inl ⟨trivial, n, Nat.lt_succ_self n, rfl, rfl⟩
      · simp only [hit, decide_false, Bool.or_false, Bool.false_eq_true, if_false]
        rcases ih with ⟨hs, i, hi, hx, hval⟩ | ⟨hs, hmiss⟩
        · exact .inl ⟨hs, i, Nat.lt_succ_of_lt hi, hx, hval⟩
        · refine .inr ⟨hs, fun i hi => ?_⟩
          rcases Nat.lt_succ_iff_lt_or_eq.mp hi with hlt | rfl
          · exact hmiss i hlt
          · exact hit

/-- Below `2^255`, the scan takes `2^255 - 19` off where it can. -/
theorem canonicalize_spec {x : Field25519} (h : x.Fits 51) :
    (canonicalize x).Fits 51 ∧ (canonicalize x).value = x.value % p25519 := by
  have hlt : x.value < 2 ^ 255 := by
    obtain ⟨h0, h1, h2, h3, h4⟩ := h
    unfold value
    omega
  have hp := p25519_eq
  rw [canonicalize]
  rcases scan_spec x 19 with ⟨hs, i, hi, hx, hval⟩ | ⟨hs, hmiss⟩
  · rw [ctSelect_eq, if_pos hs, hval]
    obtain ⟨hfits, hi'⟩ := addWord_zero_spec (i := i) (by omega)
    refine ⟨hfits, ?_⟩
    rw [hi', hx, (addWord_p_spec hi).2, Nat.add_mod_left, Nat.mod_eq_of_lt (by omega)]
  · rw [ctSelect_eq, if_neg (by rw [hs]; exact Bool.false_ne_true)]
    refine ⟨h, (Nat.mod_eq_of_lt ?_).symm⟩
    by_contra hge
    have hi : x.value - p25519 < 19 := by omega
    obtain ⟨hfits, hval⟩ := addWord_p_spec hi
    exact hmiss _ hi (h.ext hfits (by rw [hval]; omega))

/-- `reduce_inplace` computes the remainder, if one fold is enough. -/
theorem Fits.reduce_spec {x : Field25519} (h : x.Fits 54) (hlt : x.folded < 2 ^ 255) :
    (reduce x).Fits 51 ∧ (reduce x).value = x.value % p25519 := by
  obtain ⟨hval, h0, h1, h2, h3⟩ := carry_foldTop_carry h
  rw [← hval] at hlt
  have h4 : (carry (foldTop (carry x))).l4.toNat < 2 ^ 51 := by
    unfold value at hlt
    omega
  obtain ⟨hfits, hreduce⟩ := canonicalize_spec ⟨h0, h1, h2, h3, h4⟩
  refine ⟨hfits, ?_⟩
  rw [reduce, hreduce, hval, folded_mod]

/-- What `reduce_inplace` brings to the canonical form. -/
structure Reducible (x : Field25519) : Prop where
  fits : x.Fits 54
  le : x.value ≤ 2 * p25519

theorem Tight.reducible {x : Field25519} (h : x.Tight) : x.Reducible := by
  refine ⟨h.fits, ?_⟩
  obtain ⟨h0, h1, h2, h3, h4⟩ := h
  rw [value, p25519]
  omega

theorem Reducible.folded_lt {x : Field25519} (h : x.Reducible) : x.folded < 2 ^ 255 := by
  have hle := h.le
  rw [p25519] at hle
  rw [folded]
  omega

theorem Reducible.reduce_spec {x : Field25519} (h : x.Reducible) :
    (reduce x).Fits 51 ∧ (reduce x).value = x.value % p25519 :=
  h.fits.reduce_spec h.folded_lt

theorem reduce_spec {x : Field25519} (h : x.Tight) :
    (reduce x).Fits 51 ∧ (reduce x).value = x.value % p25519 :=
  h.reducible.reduce_spec

/-! ### Products -/

theorem u128_lt (n : ℕ) : u128 n < 2 ^ 128 := Nat.mod_lt _ (by norm_num)

theorem u128_le (n : ℕ) : u128 n ≤ n := Nat.mod_le _ _

theorem u128_of_lt {n : ℕ} (h : n < 2 ^ 128) : u128 n = n := Nat.mod_eq_of_lt h

/-- The number that the columns of a product hold. -/
def Digits.value (d : Digits) : ℕ :=
  d.d0 + 2 ^ 51 * d.d1 + 2 ^ 102 * d.d2 + 2 ^ 153 * d.d3 + 2 ^ 204 * d.d4 +
    2 ^ 255 * (d.d5 + 2 ^ 51 * d.d6 + 2 ^ 102 * d.d7 + 2 ^ 153 * d.d8)

/-- Room for the carries of `reduce_digits`. -/
structure Digits.Room (d : Digits) : Prop where
  d0 : d.d0 < 2 ^ 111
  d1 : d.d1 < 2 ^ 111
  d2 : d.d2 < 2 ^ 111
  d3 : d.d3 < 2 ^ 111
  d4 : d.d4 < 2 ^ 111
  d5 : d.d5 < 2 ^ 111
  d6 : d.d6 < 2 ^ 111
  d7 : d.d7 < 2 ^ 111
  d8 : d.d8 < 2 ^ 111

/-- Columns 0 to 7 after their carries. -/
structure Digits.Low (d : Digits) : Prop where
  d0 : d.d0 < 2 ^ 51
  d1 : d.d1 < 2 ^ 51
  d2 : d.d2 < 2 ^ 51
  d3 : d.d3 < 2 ^ 51
  d4 : d.d4 < 2 ^ 51
  d5 : d.d5 < 2 ^ 51
  d6 : d.d6 < 2 ^ 51
  d7 : d.d7 < 2 ^ 51
  d8 : d.d8 < 2 ^ 112

theorem carryDigits_spec {d : Digits} (h : d.Room) :
    (carryDigits d).Low ∧ (carryDigits d).value = d.value := by
  obtain ⟨h0, h1, h2, h3, h4, h5, h6, h7, h8⟩ := h
  simp only [carryDigits]
  have e1 := u128_of_lt (n := d.d1 + d.d0 / 2 ^ 51) (by omega)
  generalize u128 (d.d1 + d.d0 / 2 ^ 51) = c1 at e1 ⊢
  have e2 := u128_of_lt (n := d.d2 + c1 / 2 ^ 51) (by omega)
  generalize u128 (d.d2 + c1 / 2 ^ 51) = c2 at e2 ⊢
  have e3 := u128_of_lt (n := d.d3 + c2 / 2 ^ 51) (by omega)
  generalize u128 (d.d3 + c2 / 2 ^ 51) = c3 at e3 ⊢
  have e4 := u128_of_lt (n := d.d4 + c3 / 2 ^ 51) (by omega)
  generalize u128 (d.d4 + c3 / 2 ^ 51) = c4 at e4 ⊢
  have e5 := u128_of_lt (n := d.d5 + c4 / 2 ^ 51) (by omega)
  generalize u128 (d.d5 + c4 / 2 ^ 51) = c5 at e5 ⊢
  have e6 := u128_of_lt (n := d.d6 + c5 / 2 ^ 51) (by omega)
  generalize u128 (d.d6 + c5 / 2 ^ 51) = c6 at e6 ⊢
  have e7 := u128_of_lt (n := d.d7 + c6 / 2 ^ 51) (by omega)
  generalize u128 (d.d7 + c6 / 2 ^ 51) = c7 at e7 ⊢
  have e8 := u128_of_lt (n := d.d8 + c7 / 2 ^ 51) (by omega)
  generalize u128 (d.d8 + c7 / 2 ^ 51) = c8 at e8 ⊢
  constructor
  · constructor <;> simp only <;> omega
  · simp only [Digits.value]
    omega

/-- The number that five words hold. -/
def Wide.value (o : Wide) : ℕ :=
  o.o0 + 2 ^ 51 * o.o1 + 2 ^ 102 * o.o2 + 2 ^ 153 * o.o3 + 2 ^ 204 * o.o4

/-- The upper columns count nineteen times. -/
theorem foldDigits_spec {d : Digits} (h : d.Low) :
    (foldDigits d).value + p25519 * (d.d5 + 2 ^ 51 * d.d6 + 2 ^ 102 * d.d7 + 2 ^ 153 * d.d8) =
        d.value ∧
      (foldDigits d).o0 < 2 ^ 56 ∧ (foldDigits d).o1 < 2 ^ 56 ∧ (foldDigits d).o2 < 2 ^ 56 ∧
      (foldDigits d).o3 < 2 ^ 117 ∧ (foldDigits d).o4 < 2 ^ 51 := by
  obtain ⟨h0, h1, h2, h3, h4, h5, h6, h7, h8⟩ := h
  have m5 := u128_of_lt (n := d.d5 * 19) (by omega)
  have m6 := u128_of_lt (n := d.d6 * 19) (by omega)
  have m7 := u128_of_lt (n := d.d7 * 19) (by omega)
  have m8 := u128_of_lt (n := d.d8 * 19) (by omega)
  have e0 := u128_of_lt (n := d.d0 + d.d5 * 19) (by omega)
  have e1 := u128_of_lt (n := d.d1 + d.d6 * 19) (by omega)
  have e2 := u128_of_lt (n := d.d2 + d.d7 * 19) (by omega)
  have e3 := u128_of_lt (n := d.d3 + d.d8 * 19) (by omega)
  simp only [foldDigits, Wide.value, Digits.value, m5, m6, m7, m8, e0, e1, e2, e3, p25519]
  omega

theorem carryWide_spec {o : Wide} (h0 : o.o0 < 2 ^ 120) (h1 : o.o1 < 2 ^ 120)
    (h2 : o.o2 < 2 ^ 120) (h3 : o.o3 < 2 ^ 120) (h4 : o.o4 < 2 ^ 120) :
    (carryWide o).value = o.value ∧ (carryWide o).o0 < 2 ^ 51 ∧ (carryWide o).o1 < 2 ^ 51 ∧
      (carryWide o).o2 < 2 ^ 51 ∧ (carryWide o).o3 < 2 ^ 51 := by
  simp only [carryWide]
  have e1 := u128_of_lt (n := o.o1 + o.o0 / 2 ^ 51) (by omega)
  generalize u128 (o.o1 + o.o0 / 2 ^ 51) = c1 at e1 ⊢
  have e2 := u128_of_lt (n := o.o2 + c1 / 2 ^ 51) (by omega)
  generalize u128 (o.o2 + c1 / 2 ^ 51) = c2 at e2 ⊢
  have e3 := u128_of_lt (n := o.o3 + c2 / 2 ^ 51) (by omega)
  generalize u128 (o.o3 + c2 / 2 ^ 51) = c3 at e3 ⊢
  have e4 := u128_of_lt (n := o.o4 + c3 / 2 ^ 51) (by omega)
  generalize u128 (o.o4 + c3 / 2 ^ 51) = c4 at e4 ⊢
  simp only [Wide.value]
  omega

/-- Limb 4 takes what the carry of one 128-bit word is worth. -/
theorem carryWide_bounds {o : Wide} (h4 : o.o4 < 2 ^ 51) :
    (carryWide o).o0 < 2 ^ 51 ∧ (carryWide o).o1 < 2 ^ 51 ∧ (carryWide o).o2 < 2 ^ 51 ∧
      (carryWide o).o3 < 2 ^ 51 ∧ (carryWide o).o4 < 2 ^ 78 := by
  have hmod (n : ℕ) : n % 2 ^ 51 < 2 ^ 51 := Nat.mod_lt _ (by norm_num)
  refine ⟨hmod _, hmod _, hmod _, hmod _, ?_⟩
  simp only [carryWide]
  have hlt := u128_lt (o.o3 + u128 (o.o2 + u128 (o.o1 + o.o0 / 2 ^ 51) / 2 ^ 51) / 2 ^ 51)
  generalize u128 (o.o3 + u128 (o.o2 + u128 (o.o1 + o.o0 / 2 ^ 51) / 2 ^ 51) / 2 ^ 51) = c3 at *
  have hle := u128_le (o.o4 + c3 / 2 ^ 51)
  omega

theorem foldWide_spec {o : Wide} (h0 : o.o0 < 2 ^ 51) (h4 : o.o4 < 2 ^ 120) :
    (foldWide o).value + p25519 * (o.o4 / 2 ^ 51) = o.value ∧
      (foldWide o).o0 = o.o0 + 19 * (o.o4 / 2 ^ 51) ∧ (foldWide o).o4 < 2 ^ 51 := by
  have m4 := u128_of_lt (n := o.o4 / 2 ^ 51 * 19) (by omega)
  have e0 := u128_of_lt (n := o.o0 + o.o4 / 2 ^ 51 * 19) (by omega)
  simp only [foldWide, Wide.value, m4, e0, p25519]
  omega

theorem Wide.toLimbs_spec {o : Wide} (h0 : o.o0 < 2 ^ 51) (h1 : o.o1 < 2 ^ 51)
    (h2 : o.o2 < 2 ^ 51) (h3 : o.o3 < 2 ^ 51) (h4 : o.o4 ≤ 2 ^ 51) :
    o.toLimbs.Tight ∧ o.toLimbs.value = o.value := by
  have hword : ∀ {n : ℕ}, n ≤ 2 ^ 51 → (UInt64.ofNat n).toNat = n := fun hn =>
    UInt64.toNat_ofNat_of_lt' (lt_of_le_of_lt hn (by decide))
  have e0 := hword h0.le
  have e1 := hword h1.le
  have e2 := hword h2.le
  have e3 := hword h3.le
  have e4 := hword h4
  constructor
  · constructor <;> simp only [toLimbs] <;> omega
  · simp only [toLimbs, Field25519.value, Wide.value, e0, e1, e2, e3, e4]

/-- The second fold and the last carries, once limbs 0 to 3 are below their base. -/
theorem lastPass_spec {o : Wide} (h0 : o.o0 < 2 ^ 51) (h1 : o.o1 < 2 ^ 51) (h2 : o.o2 < 2 ^ 51)
    (h3 : o.o3 < 2 ^ 51) (h4 : o.o4 < 2 ^ 78) :
    (carryWide (foldWide o)).toLimbs.Tight ∧
      (carryWide (foldWide o)).toLimbs.value % p25519 = o.value % p25519 := by
  obtain ⟨hfold, g0, g4⟩ := foldWide_spec h0 (by omega)
  have g1 : (foldWide o).o1 = o.o1 := rfl
  have g2 : (foldWide o).o2 = o.o2 := rfl
  have g3 : (foldWide o).o3 = o.o3 := rfl
  obtain ⟨hcarry, i0, i1, i2, i3⟩ := carryWide_spec (o := foldWide o) (by omega) (by omega)
    (by omega) (by omega) (by omega)
  have i4 : (carryWide (foldWide o)).o4 ≤ 2 ^ 51 := by
    unfold Wide.value at hcarry
    omega
  obtain ⟨htight, hlimbs⟩ := Wide.toLimbs_spec i0 i1 i2 i3 i4
  refine ⟨htight, ?_⟩
  rw [hlimbs, hcarry, ← hfold, Nat.add_mul_mod_self_left]

/-- `reduce_digits` keeps the number modulo `2^255 - 19`. -/
theorem reduceDigits_spec {d : Digits} (h : d.Room) :
    (reduceDigits d).Tight ∧ (reduceDigits d).value % p25519 = d.value % p25519 := by
  obtain ⟨hlow, hval⟩ := carryDigits_spec h
  obtain ⟨hfold, f0, f1, f2, f3, f4⟩ := foldDigits_spec hlow
  rw [reduceDigits, ← hval, ← hfold, Nat.add_mul_mod_self_left]
  generalize foldDigits (carryDigits d) = o at *
  obtain ⟨hcarry, -⟩ := carryWide_spec (o := o) (by omega) (by omega) (by omega) (by omega)
    (by omega)
  obtain ⟨c0, c1, c2, c3, c4⟩ := carryWide_bounds f4
  rw [← hcarry]
  exact lastPass_spec c0 c1 c2 c3 c4

theorem column_mul {x y : ℕ} (hx : x < 2 ^ 54) (hy : y < 2 ^ 54) : x * y < 1 * 2 ^ 108 := by
  have hlt : x * y < 2 ^ 54 * 2 ^ 54 := Nat.mul_lt_mul'' hx hy
  omega

/-- A column is a sum of at most five products of limbs. -/
theorem column_add_mul {k n x y : ℕ} (h : n < k * 2 ^ 108) (hx : x < 2 ^ 54) (hy : y < 2 ^ 54) :
    n + x * y < (k + 1) * 2 ^ 108 := by
  have hlt := column_mul hx hy
  omega

theorem mulDigits_spec {a b : Field25519} (ha : a.Fits 54) (hb : b.Fits 54) :
    (mulDigits a b).Room ∧ (mulDigits a b).value = a.value * b.value := by
  obtain ⟨a0, a1, a2, a3, a4⟩ := ha
  obtain ⟨b0, b1, b2, b3, b4⟩ := hb
  have c0 := column_mul a0 b0
  have c1 := column_add_mul (column_mul a0 b1) a1 b0
  have c2 := column_add_mul (column_add_mul (column_mul a0 b2) a1 b1) a2 b0
  have c3 := column_add_mul (column_add_mul (column_add_mul (column_mul a0 b3) a1 b2) a2 b1) a3 b0
  have c4 := column_add_mul (column_add_mul (column_add_mul (column_add_mul (column_mul a0 b4)
    a1 b3) a2 b2) a3 b1) a4 b0
  have c5 := column_add_mul (column_add_mul (column_add_mul (column_mul a1 b4) a2 b3) a3 b2) a4 b1
  have c6 := column_add_mul (column_add_mul (column_mul a2 b4) a3 b3) a4 b2
  have c7 := column_add_mul (column_mul a3 b4) a4 b3
  have c8 := column_mul a4 b4
  simp only [mulDigits]
  rw [u128_of_lt (by omega), u128_of_lt (by omega), u128_of_lt (by omega), u128_of_lt (by omega),
    u128_of_lt (by omega), u128_of_lt (by omega), u128_of_lt (by omega), u128_of_lt (by omega),
    u128_of_lt (by omega)]
  constructor
  · constructor <;> simp only <;> omega
  · simp only [Digits.value, value]
    ring

/-- `operator*` is the product modulo `2^255 - 19`. -/
theorem mul_spec {a b : Field25519} (ha : a.Fits 54) (hb : b.Fits 54) :
    (mul a b).Tight ∧ (mul a b).value % p25519 = a.value * b.value % p25519 := by
  obtain ⟨hroom, hval⟩ := mulDigits_spec ha hb
  rw [mul, ← hval]
  exact reduceDigits_spec hroom

theorem u128_u128 (m : ℕ) : u128 (u128 m) = u128 m := Nat.mod_mod _ _

theorem u128_add_left (m n : ℕ) : u128 (u128 m + n) = u128 (m + n) := Nat.mod_add_mod _ _ _

theorem u128_add_right (m n : ℕ) : u128 (m + u128 n) = u128 (m + n) := Nat.add_mod_mod _ _ _

theorem u128_add_middle (m n k : ℕ) : u128 (m + u128 n + k) = u128 (m + n + k) := by
  rw [Nat.add_right_comm, u128_add_right, Nat.add_right_comm]

theorem u128_mul_left (m n : ℕ) : u128 (u128 m * n) = u128 (m * n) := Nat.mod_mul_mod _ _ _

/-- The doubled products are the two equal ones of the schoolbook product. -/
theorem squareDigits_eq (a : Field25519) : squareDigits a = mulDigits a a := by
  simp only [squareDigits, mulDigits, u128_mul_left, u128_u128, u128_add_left, u128_add_right,
    u128_add_middle, Digits.mk.injEq]
  refine ⟨trivial, ?_, ?_, ?_, ?_, ?_, ?_, ?_, trivial⟩ <;> congr 1 <;> ring

theorem square_eq_mul (a : Field25519) : square a = mul a a := by
  rw [square, squareDigits_eq, mul]

/-! ### Sums and differences -/

/-- `operator+` keeps the limbs apart. -/
theorem add_spec {a b : Field25519} (ha : a.Tight) (hb : b.Tight) :
    (add a b).Fits 54 ∧ (add a b).value = a.value + b.value := by
  obtain ⟨a0, a1, a2, a3, a4⟩ := ha
  obtain ⟨b0, b1, b2, b3, b4⟩ := hb
  have s0 := toNat_add_of_lt (a := b.l0) (b := a.l0) (by omega)
  have s1 := toNat_add_of_lt (a := b.l1) (b := a.l1) (by omega)
  have s2 := toNat_add_of_lt (a := b.l2) (b := a.l2) (by omega)
  have s3 := toNat_add_of_lt (a := b.l3) (b := a.l3) (by omega)
  have s4 := toNat_add_of_lt (a := b.l4) (b := a.l4) (by omega)
  constructor
  · constructor <;> simp only [add] <;> omega
  · simp only [add, value, s0, s1, s2, s3, s4]
    omega

/-- Limb 0 of `a - b` would be negative: limb 0 of `p - b` borrows, and adding limb 0
of `a` does not make up for it. -/
def Borrows (a b : Field25519) : Prop := p.l0.toNat + a.l0.toNat < (reduce b).l0.toNat

instance (a b : Field25519) : Decidable (Borrows a b) := inferInstanceAs (Decidable (_ < _))

/-- Limb 0 of the subtrahend, after its reduction. -/
theorem borrows_iff {a b : Field25519} (hb : b.Tight) :
    Borrows a b ↔ 2 ^ 51 - 19 + a.l0.toNat < b.value % p25519 % 2 ^ 51 := by
  obtain ⟨hfits, hval⟩ := reduce_spec hb
  have hmod : (reduce b).value % 2 ^ 51 = (reduce b).l0.toNat := by
    have h0 := hfits.l0
    unfold value
    omega
  rw [Borrows, toNat_limbs_p.1, ← hval, hmod]

/-- A word of `p - b + a`, as long as it is not negative. -/
theorem toNat_sub_add {q x y : UInt64} (h : x.toNat ≤ q.toNat + y.toNat)
    (hlt : q.toNat + y.toNat < 2 ^ 64) : (y + (q - x)).toNat = q.toNat + y.toNat - x.toNat := by
  have hx := x.toNat_lt
  rw [UInt64.toNat_add, UInt64.toNat_sub]
  omega

/-- What `operator-` holds, unless it borrows. -/
theorem sub_value {a b : Field25519} (ha : a.Tight) (hb : b.Tight) (h : ¬Borrows a b) :
    (sub a b).Fits 53 ∧ (sub a b).value + (reduce b).value = a.value + p25519 := by
  obtain ⟨⟨x0, x1, x2, x3, x4⟩, -⟩ := reduce_spec hb
  obtain ⟨a0, a1, a2, a3, a4⟩ := ha
  rw [Borrows, Nat.not_lt] at h
  rw [sub]
  generalize reduce b = x at *
  obtain ⟨hl0, hl1, hl2, hl3, hl4⟩ := toNat_limbs_p
  have s0 := toNat_sub_add (q := p.l0) (x := x.l0) (y := a.l0) h (by omega)
  have s1 := toNat_sub_add (q := p.l1) (x := x.l1) (y := a.l1) (by omega) (by omega)
  have s2 := toNat_sub_add (q := p.l2) (x := x.l2) (y := a.l2) (by omega) (by omega)
  have s3 := toNat_sub_add (q := p.l3) (x := x.l3) (y := a.l3) (by omega) (by omega)
  have s4 := toNat_sub_add (q := p.l4) (x := x.l4) (y := a.l4) (by omega) (by omega)
  constructor
  · constructor <;> simp only [add] <;> omega
  · simp only [add, value, s0, s1, s2, s3, s4, p25519]
    omega

/-- `operator-` is the difference modulo `2^255 - 19`, unless it borrows. -/
theorem sub_spec {a b : Field25519} (ha : a.Tight) (hb : b.Tight) (h : ¬Borrows a b) :
    (sub a b).Fits 54 ∧ ((sub a b).value + b.value) % p25519 = a.value % p25519 := by
  obtain ⟨hfits, hsum⟩ := sub_value ha hb h
  refine ⟨hfits.mono (by norm_num), ?_⟩
  rw [← Nat.add_mod_mod, ← (reduce_spec hb).2, hsum, Nat.add_mod_right]

theorem tight_p : p.Tight := ⟨by decide, by decide, by decide, by decide, by decide⟩

theorem value_p : p.value = p25519 := rfl

/-- Adding `p` once more makes up for any borrow. -/
theorem not_borrows_p {a : Field25519} (h : a.Tight) : ¬Borrows p a := by
  have hlt : a.value % p25519 % 2 ^ 51 < 2 ^ 51 := Nat.mod_lt _ (by norm_num)
  rw [borrows_iff h, toNat_limbs_p.1]
  omega

/-- Unary `operator-` never borrows. -/
theorem neg_spec {a : Field25519} (h : a.Tight) :
    (neg a).Reducible ∧ ((neg a).value + a.value) % p25519 = 0 := by
  obtain ⟨hfits, hsum⟩ := sub_value tight_p h (not_borrows_p h)
  have hmod := (sub_spec tight_p h (not_borrows_p h)).2
  rw [value_p] at hsum hmod
  rw [Nat.mod_self] at hmod
  exact ⟨⟨hfits.mono (by norm_num), by rw [neg]; omega⟩, hmod⟩

/-! ### Bytes -/

/-- The limbs as bytes on top of what is left of the byte before. -/
theorem load_eq (b : Bytes 32) : load b =
    ⟨orShifts (b.get 0).toUInt64 8 ([b.get 1, b.get 2, b.get 3, b.get 4, b.get 5] ++ [b.get 6])
        &&& mask51,
      orShifts ((b.get 6).toUInt64 >>> 3) 5
        ([b.get 7, b.get 8, b.get 9, b.get 10, b.get 11] ++ [b.get 12]) &&& mask51,
      orShifts ((b.get 12).toUInt64 >>> 6) 2
        ([b.get 13, b.get 14, b.get 15, b.get 16, b.get 17, b.get 18] ++ [b.get 19]) &&& mask51,
      orShifts ((b.get 19).toUInt64 >>> 1) 7
        ([b.get 20, b.get 21, b.get 22, b.get 23, b.get 24] ++ [b.get 25]) &&& mask51,
      orShifts ((b.get 25).toUInt64 >>> 4) 4
        ([b.get 26, b.get 27, b.get 28, b.get 29, b.get 30] ++ [b.get 31 &&& 0x7F]) &&& mask51⟩ :=
  rfl

/-- The 31 low bytes of an encoding. -/
def lowBytes (b : Bytes 32) : List UInt8 := b.toList.take 31

theorem lowBytes_eq (b : Bytes 32) :
    lowBytes b = [b.get 0] ++ ([b.get 1, b.get 2, b.get 3, b.get 4, b.get 5, b.get 6] ++
      ([b.get 7, b.get 8, b.get 9, b.get 10, b.get 11, b.get 12] ++
        ([b.get 13, b.get 14, b.get 15, b.get 16, b.get 17, b.get 18, b.get 19] ++
          ([b.get 20, b.get 21, b.get 22, b.get 23, b.get 24, b.get 25] ++
            [b.get 26, b.get 27, b.get 28, b.get 29, b.get 30])))) := by
  rw [lowBytes, toList_eq_ofFn]
  rfl

theorem toList_eq_lowBytes (b : Bytes 32) : b.toList = lowBytes b ++ [b.get 31] := by
  rw [lowBytes_eq, toList_eq_ofFn]
  rfl

theorem length_lowBytes (b : Bytes 32) : (lowBytes b).length = 31 := by simp [lowBytes]

theorem load_fits (b : Bytes 32) : (load b).Fits 51 := by
  rw [load_eq]
  constructor <;> simp only [toNat_and_mask51] <;> exact Nat.mod_lt _ (by norm_num)

/-- What is left of a byte when its low bits have gone to the limb before. -/
theorem holds_shiftRight (b : UInt8) (s : UInt64) {j k : ℕ} (hs : s.toNat % 64 = j)
    (hjk : j + k = 8) : Holds k (b.toUInt64 >>> s) (b.toNat / 2 ^ j) := by
  refine ⟨by rw [toNat_shiftRight_word, hs, UInt8.toNat_toUInt64], ?_⟩
  rw [Nat.div_lt_iff_lt_mul (Nat.two_pow_pos j), ← pow_add, Nat.add_comm, hjk]
  exact b.toNat_lt

/-- The high bits of the last byte of a limb go to the next one. -/
theorem limb_spec {k : ℕ} {w : UInt64} {n : ℕ} (h : Holds k w n) (bs : List UInt8) (c : UInt8)
    {i : ℕ} (hi : k + 8 * bs.length + i = 51) (hi8 : i ≤ 8) :
    (orShifts w k (bs ++ [c]) &&& mask51).toNat + 2 ^ 51 * (c.toNat / 2 ^ i) =
      n + 2 ^ k * leNat (bs ++ [c]) := by
  have hlow : n + 2 ^ k * leNat bs < 2 ^ (k + 8 * bs.length) := by
    have hn := h.lt
    have hbs : leNat bs + 1 ≤ 2 ^ (8 * bs.length) := leNat_lt_two_pow bs
    calc n + 2 ^ k * leNat bs < 2 ^ k * (leNat bs + 1) := by rw [Nat.mul_add]; omega
      _ ≤ 2 ^ k * 2 ^ (8 * bs.length) := Nat.mul_le_mul_left _ hbs
      _ = 2 ^ (k + 8 * bs.length) := (pow_add _ _ _).symm
  have hsplit : n + 2 ^ k * leNat (bs ++ [c]) =
      n + 2 ^ k * leNat bs + 2 ^ (k + 8 * bs.length) * (c.toNat % 2 ^ i) +
        2 ^ 51 * (c.toNat / 2 ^ i) := by
    have hc := Nat.mod_add_div c.toNat (2 ^ i)
    rw [leNat_append, leNat_cons, leNat_nil, ← hi, show (256 : ℕ) = 2 ^ 8 by norm_num, ← pow_mul,
      pow_add _ _ i, pow_add]
    nth_rewrite 1 [← hc]
    ring
  have hmod : n + 2 ^ k * leNat bs + 2 ^ (k + 8 * bs.length) * (c.toNat % 2 ^ i) < 2 ^ 51 := by
    have hc : c.toNat % 2 ^ i + 1 ≤ 2 ^ i := Nat.mod_lt _ (Nat.two_pow_pos i)
    have hle := Nat.mul_le_mul_left (2 ^ (k + 8 * bs.length)) hc
    rw [← pow_add, hi, Nat.mul_add] at hle
    omega
  rw [toNat_and_mask51, h.orShifts _ (by simp; omega), hsplit, Nat.add_mul_mod_self_left,
    Nat.mod_eq_of_lt hmod]

theorem load_value (b : Bytes 32) : (load b).value = leNat b.toList % 2 ^ 255 := by
  have htop : (b.get 31 &&& 0x7F).toNat = (b.get 31).toNat % 2 ^ 7 := by
    rw [UInt8.toNat_and]
    exact Nat.and_two_pow_sub_one_eq_mod _ 7
  have hfirst : Holds 8 (b.get 0).toUInt64 (b.get 0).toNat :=
    ⟨UInt8.toNat_toUInt64 _, UInt8.toNat_lt _⟩
  have c0 := limb_spec hfirst [b.get 1, b.get 2, b.get 3, b.get 4, b.get 5] (b.get 6) (i := 3) rfl
    (by omega)
  have c1 := limb_spec (holds_shiftRight (b.get 6) 3 (j := 3) rfl (k := 5) rfl)
    [b.get 7, b.get 8, b.get 9, b.get 10, b.get 11] (b.get 12) (i := 6) rfl (by omega)
  have c2 := limb_spec (holds_shiftRight (b.get 12) 6 (j := 6) rfl (k := 2) rfl)
    [b.get 13, b.get 14, b.get 15, b.get 16, b.get 17, b.get 18] (b.get 19) (i := 1) rfl (by omega)
  have c3 := limb_spec (holds_shiftRight (b.get 19) 1 (j := 1) rfl (k := 7) rfl)
    [b.get 20, b.get 21, b.get 22, b.get 23, b.get 24] (b.get 25) (i := 4) rfl (by omega)
  have c4 := limb_spec (holds_shiftRight (b.get 25) 4 (j := 4) rfl (k := 4) rfl)
    [b.get 26, b.get 27, b.get 28, b.get 29, b.get 30] (b.get 31 &&& 0x7F) (i := 7) rfl (by omega)
  have hzero : (b.get 31).toNat % 2 ^ 7 / 2 ^ 7 = 0 :=
    Nat.div_eq_of_lt (Nat.mod_lt _ (by norm_num))
  rw [htop, hzero, leNat_append _ [b.get 31 &&& 0x7F], leNat_singleton, htop] at c4
  have hvalue : (load b).value = leNat (lowBytes b) + 2 ^ 248 * ((b.get 31).toNat % 2 ^ 7) := by
    rw [load_eq, value, lowBytes_eq]
    simp only [leNat_append [_], leNat_append (_ :: _ :: _), leNat_singleton, List.length_cons,
      List.length_nil]
    simp only [List.cons_append, List.nil_append, List.length_cons, List.length_nil]
      at c0 c1 c2 c3 c4 ⊢
    linear_combination c0 + 2 ^ 51 * c1 + 2 ^ 102 * c2 + 2 ^ 153 * c3 + 2 ^ 204 * c4
  have hlow := leNat_lt (lowBytes b)
  rw [hvalue, toList_eq_lowBytes, leNat_append, leNat_singleton]
  rw [length_lowBytes] at hlow ⊢
  generalize leNat (lowBytes b) = low at *
  omega

/-- `from_bytes` reads 255 bits. -/
theorem fromBytes_spec (b : Bytes 32) :
    (fromBytes b).Fits 51 ∧ (fromBytes b).value = leNat b.toList % 2 ^ 255 % p25519 := by
  rw [fromBytes, ← load_value]
  exact reduce_spec (load_fits b).tight

/-- The bytes of the limbs. A byte between two limbs has its low bits from one and
its high bits from the other. -/
def unpack (l : Field25519) : List UInt8 :=
  [(l.l0 &&& 0xFF).toUInt8] ++ (cutBytes l.l0 8 5 ++
    ([((l.l0 >>> 48) &&& 0x07).toUInt8 ||| ((l.l1 <<< 3) &&& 0xFF).toUInt8] ++ (cutBytes l.l1 5 5 ++
    ([((l.l1 >>> 45) &&& 0x3F).toUInt8 ||| ((l.l2 <<< 6) &&& 0xFF).toUInt8] ++ (cutBytes l.l2 2 6 ++
    ([((l.l2 >>> 50) &&& 0x01).toUInt8 ||| ((l.l3 <<< 1) &&& 0xFF).toUInt8] ++ (cutBytes l.l3 7 5 ++
    ([((l.l3 >>> 47) &&& 0x0F).toUInt8 ||| ((l.l4 <<< 4) &&& 0xFF).toUInt8] ++ (cutBytes l.l4 4 5 ++
    [((l.l4 >>> 44) &&& 0x7F).toUInt8])))))))))

theorem toList_toBytes (x : Field25519) : x.toBytes.toList = unpack (reduce x) := rfl

/-- What limb 4 holds from bit 51 on is not written. -/
theorem leNat_unpack {l : Field25519} (h0 : l.l0.toNat < 2 ^ 51) (h1 : l.l1.toNat < 2 ^ 51)
    (h2 : l.l2.toNat < 2 ^ 51) (h3 : l.l3.toNat < 2 ^ 51) :
    leNat (unpack l) = l.value % 2 ^ 255 := by
  have hmod : l.value % 2 ^ 255 = l.l0.toNat + 2 ^ 51 * l.l1.toNat + 2 ^ 102 * l.l2.toNat +
      2 ^ 153 * l.l3.toNat + 2 ^ 204 * (l.l4.toNat % 2 ^ 51) := by
    unfold value
    omega
  rw [hmod]
  have hfirst : (l.l0 &&& 0xFF).toUInt8.toNat = l.l0.toNat % 2 ^ 8 := by
    rw [UInt64.toNat_toUInt8, toNat_and_mask _ _ (show (0xFF : UInt64).toNat = 2 ^ 8 - 1 from rfl),
      Nat.mod_mod]
  simp only [unpack, leNat_append, leNat_singleton, length_cutBytes, List.length_singleton]
  rw [hfirst, leNat_cutBytes l.l0 (by omega), leNat_cutBytes l.l1 (by omega),
    leNat_cutBytes l.l2 (by omega), leNat_cutBytes l.l3 (by omega), leNat_cutBytes l.l4 (by omega),
    toNat_byte_or l.l0 l.l1 48 0x07 3 (j := 48) (k := 3) rfl rfl rfl (by omega),
    toNat_byte_or l.l1 l.l2 45 0x3F 6 (j := 45) (k := 6) rfl rfl rfl (by omega),
    toNat_byte_or l.l2 l.l3 50 0x01 1 (j := 50) (k := 1) rfl rfl rfl (by omega),
    toNat_byte_or l.l3 l.l4 47 0x0F 4 (j := 47) (k := 4) rfl rfl rfl (by omega),
    toNat_byte l.l4 44 0x7F (j := 44) (k := 7) rfl rfl (by omega)]
  -- each limb is the number of its pieces
  have c0 : l.l0.toNat = l.l0.toNat % 2 ^ 8 + 2 ^ 8 * (l.l0.toNat / 2 ^ 8 % 256 ^ 5) +
      2 ^ 48 * (l.l0.toNat / 2 ^ 48 % 2 ^ 3) := by omega
  have c1 : l.l1.toNat = l.l1.toNat % 2 ^ (8 - 3) + 2 ^ 5 * (l.l1.toNat / 2 ^ 5 % 256 ^ 5) +
      2 ^ 45 * (l.l1.toNat / 2 ^ 45 % 2 ^ 6) := by omega
  have c2 : l.l2.toNat = l.l2.toNat % 2 ^ (8 - 6) + 2 ^ 2 * (l.l2.toNat / 2 ^ 2 % 256 ^ 6) +
      2 ^ 50 * (l.l2.toNat / 2 ^ 50 % 2 ^ 1) := by omega
  have c3 : l.l3.toNat = l.l3.toNat % 2 ^ (8 - 1) + 2 ^ 7 * (l.l3.toNat / 2 ^ 7 % 256 ^ 5) +
      2 ^ 47 * (l.l3.toNat / 2 ^ 47 % 2 ^ 4) := by omega
  have c4 : l.l4.toNat % 2 ^ 51 = l.l4.toNat % 2 ^ (8 - 4) +
      2 ^ 4 * (l.l4.toNat / 2 ^ 4 % 256 ^ 5) + 2 ^ 44 * (l.l4.toNat / 2 ^ 44 % 2 ^ 7) := by omega
  linear_combination -c0 - 2 ^ 51 * c1 - 2 ^ 102 * c2 - 2 ^ 153 * c3 - 2 ^ 204 * c4

theorem mod_lt_two_pow (n : ℕ) : n % p25519 < 2 ^ 255 :=
  (Nat.mod_lt _ p25519_prime.pos).trans (by norm_num [p25519])

/-- `to_bytes` writes the canonical form. -/
theorem Fits.toBytes_eq {x : Field25519} (h : x.Fits 54) (hlt : x.folded < 2 ^ 255) :
    x.toBytes = leVector 32 (x.value % p25519) := by
  obtain ⟨hfits, hval⟩ := h.reduce_spec hlt
  apply eq_leVector
  rw [toList_toBytes, leNat_unpack hfits.l0 hfits.l1 hfits.l2 hfits.l3, hval,
    Nat.mod_eq_of_lt (mod_lt_two_pow _)]

theorem toBytes_eq {x : Field25519} (h : x.Tight) : x.toBytes = leVector 32 (x.value % p25519) :=
  h.fits.toBytes_eq h.reducible.folded_lt

/-- `is_zero` compares the canonical form with zero. -/
theorem Fits.unwrapPublic_isZero {x : Field25519} (h : x.Fits 54) (hlt : x.folded < 2 ^ 255) :
    x.isZero.unwrapPublic = decide (x.value % p25519 = 0) := by
  obtain ⟨hfits, hval⟩ := h.reduce_spec hlt
  rw [isZero, Choice.unwrapPublic_fromEqual, ← hval, decide_eq_decide, ← UInt64.toNat_inj]
  generalize reduce x = r at *
  simp only [UInt64.toNat_or, UInt64.toNat_zero, Nat.or_eq_zero_iff, value]
  omega

/-- `operator==` compares what `reduce_inplace` returns. -/
theorem unwrapPublic_equal (x y : Field25519) :
    (equal x y).unwrapPublic = decide (reduce y = reduce x) := by
  rw [equal]
  generalize reduce x = a
  generalize reduce y = b
  cases a
  cases b
  simp [Bool.decide_and, Bool.and_assoc]

theorem Fits.unwrapPublic_equal {x y : Field25519} (hx : x.Fits 54) (hx' : x.folded < 2 ^ 255)
    (hy : y.Fits 54) (hy' : y.folded < 2 ^ 255) :
    (equal x y).unwrapPublic = decide (x.value % p25519 = y.value % p25519) := by
  obtain ⟨hfitsx, hvalx⟩ := hx.reduce_spec hx'
  obtain ⟨hfitsy, hvaly⟩ := hy.reduce_spec hy'
  rw [Field25519.unwrapPublic_equal, decide_eq_decide, ← hvalx, ← hvaly]
  exact ⟨fun h => by rw [h], fun h => hfitsy.ext hfitsx h.symm⟩

/-! ### The residue of an element -/

/-- The residue of the number an element holds. -/
def residue (x : Field25519) : Fp := (x.value : Fp)

theorem val_residue (x : Field25519) : (residue x).val = x.value % p25519 := ZMod.val_natCast _ _

theorem residue_mul {a b : Field25519} (ha : a.Fits 54) (hb : b.Fits 54) :
    residue (mul a b) = residue a * residue b := by
  rw [residue, residue, residue, ← Nat.cast_mul]
  exact (ZMod.natCast_eq_natCast_iff' _ _ p25519).mpr (mul_spec ha hb).2

theorem residue_add {a b : Field25519} (ha : a.Tight) (hb : b.Tight) :
    residue (add a b) = residue a + residue b := by
  rw [residue, residue, residue, ← Nat.cast_add, (add_spec ha hb).2]

theorem residue_sub {a b : Field25519} (ha : a.Tight) (hb : b.Tight) (h : ¬Borrows a b) :
    residue (sub a b) = residue a - residue b := by
  rw [eq_sub_iff_add_eq, residue, residue, residue, ← Nat.cast_add]
  exact (ZMod.natCast_eq_natCast_iff' _ _ p25519).mpr (sub_spec ha hb h).2

theorem residue_neg {a : Field25519} (h : a.Tight) : residue (neg a) = -residue a := by
  rw [eq_neg_iff_add_eq_zero, residue, residue, ← Nat.cast_add,
    ZMod.natCast_eq_zero_iff]
  exact Nat.dvd_of_mod_eq_zero (neg_spec h).2

theorem residue_fromBytes (b : Bytes 32) :
    residue (fromBytes b) = Field25519Ops.fromBytes b := by
  rw [residue, (fromBytes_spec b).2, ZMod.natCast_mod, Exact.fromBytes_eq]

theorem toBytes_eq_residue {x : Field25519} (h : x.Tight) :
    toBytes x = Field25519Ops.toBytes (residue x) := by
  rw [toBytes_eq h, Exact.toBytes_eq, val_residue]

theorem isZero_eq_residue {x : Field25519} (h : x.Tight) :
    isZero x = Field25519Ops.isZero (residue x) := by
  rw [Choice.eq_ofBool (isZero x), h.fits.unwrapPublic_isZero h.reducible.folded_lt,
    Exact.isZero_eq, ← val_residue]
  congr 1
  rw [decide_eq_decide]
  exact ZMod.val_eq_zero _

/-- `operator==` compares the canonical forms. -/
theorem equal_eq_residue {x y : Field25519} (hx : x.Reducible) (hy : y.Reducible) :
    equal x y = Field25519Ops.equal (residue x) (residue y) := by
  rw [Choice.eq_ofBool (equal x y), hx.fits.unwrapPublic_equal hx.folded_lt hy.fits hy.folded_lt,
    Exact.equal_eq]
  congr 1
  rw [decide_eq_decide]
  exact (ZMod.natCast_eq_natCast_iff' _ _ p25519).symm

end PeerToPeer.Crypto.Field25519
