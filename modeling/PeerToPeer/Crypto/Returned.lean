import PeerToPeer.Crypto.Field25519Spec

/-!
The elements that `from_bytes`, `operator*` and `square` return, and what becomes of
them in `to_bytes`, in sums and in differences.

A product is weakly reduced whatever its operands are, so that all these elements have
limbs below `2^51`, up to a last limb of `2^51`. Their encodings are exact. Their sums
and differences are not in all cases. `reduce_inplace` folds once before it compares with
`p, …, p + 18`, and one fold leaves `2^255` or more of the nineteen sums right below
`2^256`. A difference borrows in limb 0 for some residues of the subtrahend.
-/

namespace PeerToPeer.Crypto.Field25519

open PeerToPeer.Lib

/-- What `from_bytes`, `operator*` and `square` return. -/
inductive Returned : Field25519 → Prop
  | fromBytes (b : Bytes 32) : Returned (fromBytes b)
  | mul (a b : Field25519) : Returned (mul a b)
  | square (a : Field25519) : Returned (square a)

/-- `reduce_digits` leaves small limbs even where the columns have wrapped. -/
theorem reduceDigits_tight (d : Digits) : (reduceDigits d).Tight := by
  have h4 : (foldDigits (carryDigits d)).o4 < 2 ^ 51 := Nat.mod_lt _ (by norm_num)
  obtain ⟨c0, c1, c2, c3, c4⟩ := carryWide_bounds h4
  exact (lastPass_spec c0 c1 c2 c3 c4).1

theorem Returned.tight {x : Field25519} (h : Returned x) : x.Tight := by
  cases h with
  | fromBytes b =>
      exact (fromBytes_spec b).1.tight
  | mul a b =>
      exact reduceDigits_tight _
  | square a =>
      exact reduceDigits_tight _

/-! ### Encodings -/

theorem mod_lt_256_pow (n : ℕ) : n % p25519 < 256 ^ 32 :=
  (mod_lt_two_pow n).trans (by norm_num)

/-- The codec of the field: what `from_bytes` decodes, what `to_bytes` makes of it, and
that `from_bytes` inverts `to_bytes`. -/
theorem fromBytes_toBytes_codec (b : Bytes 32) :
    (fromBytes b).Fits 51 ∧
      (fromBytes b).value = leNat b.toList % 2 ^ 255 % p25519 ∧
      toBytes (fromBytes b) = leVector 32 (leNat b.toList % 2 ^ 255 % p25519) ∧
      (toBytes (fromBytes b) = b ↔ leNat b.toList < p25519) ∧
      ∀ x, Returned x → (fromBytes (toBytes x)).value ≡ x.value [MOD p25519] := by
  obtain ⟨hfits, hval⟩ := fromBytes_spec b
  have hbytes : toBytes (fromBytes b) = leVector 32 (leNat b.toList % 2 ^ 255 % p25519) := by
    rw [toBytes_eq hfits.tight, hval, Nat.mod_mod]
  refine ⟨hfits, hval, hbytes, ?_, fun x hx => ?_⟩
  · rw [hbytes]
    constructor
    · intro h
      rw [← h, leNat_leVector (mod_lt_256_pow _)]
      exact Nat.mod_lt _ p25519_prime.pos
    · intro h
      have hlt : p25519 < 2 ^ 255 := by norm_num [p25519]
      exact (eq_leVector (by rw [Nat.mod_eq_of_lt (h.trans hlt), Nat.mod_eq_of_lt h])).symm
  · rw [Nat.ModEq, toBytes_eq hx.tight, (fromBytes_spec _).2, leNat_leVector (mod_lt_256_pow _),
      Nat.mod_eq_of_lt (mod_lt_two_pow _), Nat.mod_mod, Nat.mod_mod]

/-! ### Sums -/

/-- When one fold leaves `2^255` or more, none of `p, …, p + 18` is found. -/
theorem Fits.reduce_of_le {x : Field25519} (h : x.Fits 54) (hle : 2 ^ 255 ≤ x.folded) :
    reduce x = carry (foldTop (carry x)) := by
  obtain ⟨hval, -⟩ := carry_foldTop_carry h
  rw [reduce]
  generalize carry (foldTop (carry x)) = y at *
  rw [canonicalize, ctSelect_eq]
  rcases scan_spec y 19 with ⟨-, i, hi, hx, -⟩ | ⟨hs, -⟩
  · have hsum := (addWord_p_spec hi).2
    have hp := p25519_eq
    rw [← hx, hval] at hsum
    omega
  · rw [if_neg (by rw [hs]; exact Bool.false_ne_true)]

/-- `to_bytes` drops the bit of weight `2^255` then, and with it 19 of the residue. -/
theorem Fits.leNat_toBytes_of_le {x : Field25519} (h : x.Fits 54) (hle : 2 ^ 255 ≤ x.folded) :
    leNat x.toBytes.toList = x.folded % 2 ^ 255 := by
  obtain ⟨hval, h0, h1, h2, h3⟩ := carry_foldTop_carry h
  rw [toList_toBytes, h.reduce_of_le hle, leNat_unpack h0 h1 h2 h3, hval]

theorem Tight.value_lt {x : Field25519} (h : x.Tight) : x.value < 2 ^ 255 + 2 ^ 204 := by
  obtain ⟨h0, h1, h2, h3, h4⟩ := h
  unfold value
  omega

/-- One fold brings a sum below `2^255`, unless the sum is one of the nineteen numbers
below `2^256`; from `2^256` on the fold takes `p` off twice. -/
theorem folded_add_lt_iff {a b : Field25519} (ha : a.Tight) (hb : b.Tight) :
    (add a b).folded < 2 ^ 255 ↔
      a.value + b.value < 2 ^ 256 - 19 ∨ 2 ^ 256 ≤ a.value + b.value := by
  have hva := ha.value_lt
  have hvb := hb.value_lt
  rw [folded, (add_spec ha hb).2]
  omega

/-- What `to_bytes`, `is_zero` and `operator==` are to say of a sum. -/
structure SumCanonical (a b : Field25519) : Prop where
  bytes : toBytes (add a b) = leVector 32 ((a.value + b.value) % p25519)
  zero : (isZero (add a b)).unwrapPublic = true ↔ (a.value + b.value) % p25519 = 0
  equal : ∀ c, Returned c → ((equal (add a b) c).unwrapPublic = true ↔
    a.value + b.value ≡ c.value [MOD p25519])

theorem sumCanonical_of_folded_lt {a b : Field25519} (ha : a.Tight) (hb : b.Tight)
    (hlt : (add a b).folded < 2 ^ 255) : SumCanonical a b := by
  obtain ⟨hfits, hval⟩ := add_spec ha hb
  refine ⟨?_, ?_, fun c hc => ?_⟩
  · rw [hfits.toBytes_eq hlt, hval]
  · rw [hfits.unwrapPublic_isZero hlt, hval, decide_eq_true_iff]
  · rw [hfits.unwrapPublic_equal hlt hc.tight.fits hc.tight.reducible.folded_lt, hval,
      decide_eq_true_iff, Nat.ModEq]

/-- Otherwise the encoding is that of 19 less than the residue. -/
theorem toBytes_add_of_le {a b : Field25519} (ha : a.Tight) (hb : b.Tight)
    (hle : 2 ^ 255 ≤ (add a b).folded) :
    leNat (toBytes (add a b)).toList + 19 = (a.value + b.value) % p25519 := by
  obtain ⟨hfits, hval⟩ := add_spec ha hb
  have hgap := mt (folded_add_lt_iff ha hb).mpr (not_lt.mpr hle)
  rw [hfits.leNat_toBytes_of_le hle, folded, hval]
  generalize a.value + b.value = s at hgap ⊢
  obtain ⟨k, rfl⟩ : ∃ k, s = k + 19 + p25519 * 2 := ⟨s - (19 + p25519 * 2), by
    rw [p25519]
    omega⟩
  rw [Nat.add_mul_mod_self_left, Nat.mod_eq_of_lt (a := k + 19)]
  all_goals
    rw [p25519] at *
    omega

/-- Sums are reduced canonically, unless they lie in the gap below `2^256`. -/
theorem sumCanonical_iff {a b : Field25519} (ha : Returned a) (hb : Returned b) :
    SumCanonical a b ↔ a.value + b.value < 2 ^ 256 - 19 ∨ 2 ^ 256 ≤ a.value + b.value := by
  rw [← folded_add_lt_iff ha.tight hb.tight]
  constructor
  · intro h
    by_contra hle
    have hbytes := toBytes_add_of_le ha.tight hb.tight (not_lt.mp hle)
    rw [h.bytes, leNat_leVector (mod_lt_256_pow _)] at hbytes
    omega
  · exact sumCanonical_of_folded_lt ha.tight hb.tight

/-- A product with all bits of its limbs set: two decoded elements, added and multiplied
by one. -/
def fullProduct : Field25519 :=
  mul (add (fromBytes (leVector 32 (p25519 - 1))) (fromBytes (leVector 32 19))) one

theorem value_fullProduct : fullProduct.value = 2 ^ 255 - 1 := by decide +kernel

/-- The sum is 36 modulo `p` and is written as 17. -/
theorem fullProduct_not_sumCanonical :
    Returned fullProduct ∧
      (fullProduct.value + fullProduct.value) % p25519 = 36 ∧
      toBytes (add fullProduct fullProduct) = leVector 32 17 ∧
      ¬SumCanonical fullProduct fullProduct := by
  have hret : Returned fullProduct := .mul _ _
  have hfits := (add_spec hret.tight hret.tight).1
  have hsum : (add fullProduct fullProduct).value = 2 ^ 256 - 2 := by
    rw [(add_spec hret.tight hret.tight).2, value_fullProduct]
    norm_num
  have hle : 2 ^ 255 ≤ (add fullProduct fullProduct).folded := by
    rw [folded, hsum]
    norm_num
  refine ⟨hret, by rw [value_fullProduct]; norm_num [p25519], ?_, fun h => ?_⟩
  · apply eq_leVector
    rw [hfits.leNat_toBytes_of_le hle, folded, hsum]
    norm_num
  · have hbytes := toBytes_add_of_le hret.tight hret.tight hle
    rw [h.bytes, leNat_leVector (mod_lt_256_pow _)] at hbytes
    omega

/-- Twice `p - 1` is reduced canonically. -/
theorem sumCanonical_fromBytes :
    SumCanonical (fromBytes (leVector 32 (p25519 - 1))) (fromBytes (leVector 32 (p25519 - 1))) :=
  (sumCanonical_iff (.fromBytes _) (.fromBytes _)).mpr (.inl (by
    rw [(fromBytes_spec _).2, leNat_leVector (by norm_num [p25519])]
    norm_num [p25519]))

/-! ### Differences -/

/-- When limb 0 borrows, it keeps what the borrow is worth. -/
theorem not_fits_of_borrows {a b : Field25519} (ha : a.Tight) (hb : b.Tight) (h : Borrows a b) :
    ¬(sub a b).Fits 53 := by
  have hb0 := (reduce_spec hb).1.l0
  have ha0 := ha.l0
  rw [Borrows, toNat_limbs_p.1] at h
  intro hfits
  have hs0 := hfits.l0
  rw [sub, add, UInt64.toNat_add, UInt64.toNat_sub, toNat_limbs_p.1] at hs0
  omega

/-- A difference has small limbs and the value it should have, unless limb 0 of the
subtrahend's residue is above limb 0 of `p` and of the minuend together. -/
theorem sub_exact_iff {a b : Field25519} (ha : Returned a) (hb : Returned b) :
    ((sub a b).Fits 53 ∧ ((sub a b).value : ℤ) ≡ a.value - b.value [ZMOD p25519]) ↔
      b.value % p25519 % 2 ^ 51 ≤ 2 ^ 51 - 19 + a.l0.toNat := by
  rw [← not_lt, ← borrows_iff hb.tight]
  constructor
  · rintro ⟨hfits, -⟩ hborrow
    exact not_fits_of_borrows ha.tight hb.tight hborrow hfits
  · intro h
    refine ⟨(sub_value ha.tight hb.tight h).1, ?_⟩
    have hsum := (sub_spec ha.tight hb.tight h).2
    have hmod : ((sub a b).value : ℤ) + b.value ≡ a.value [ZMOD p25519] := by
      exact_mod_cast (Int.natCast_modEq_iff.mpr hsum)
    calc ((sub a b).value : ℤ) = (sub a b).value + b.value - b.value := by ring
      _ ≡ a.value - b.value [ZMOD p25519] := hmod.sub_right _

/-- `0 - (2^51 - 1)` keeps a borrow in limb 0. -/
theorem zero_sub_not_exact :
    ¬((sub (fromBytes (leVector 32 0)) (fromBytes (leVector 32 (2 ^ 51 - 1)))).Fits 53 ∧
      ((sub (fromBytes (leVector 32 0)) (fromBytes (leVector 32 (2 ^ 51 - 1)))).value : ℤ) ≡
        (fromBytes (leVector 32 0)).value - (fromBytes (leVector 32 (2 ^ 51 - 1))).value
          [ZMOD p25519]) := by
  have h : Borrows (fromBytes (leVector 32 0)) (fromBytes (leVector 32 (2 ^ 51 - 1))) := by
    decide +kernel
  exact fun hexact => not_fits_of_borrows (fromBytes_spec _).1.tight (fromBytes_spec _).1.tight h
    hexact.1

/-- `1 - 2` does not borrow. -/
theorem one_sub_two_exact :
    (sub (fromBytes (leVector 32 1)) (fromBytes (leVector 32 2))).Fits 53 ∧
      ((sub (fromBytes (leVector 32 1)) (fromBytes (leVector 32 2))).value : ℤ) ≡
        (fromBytes (leVector 32 1)).value - (fromBytes (leVector 32 2)).value [ZMOD p25519] :=
  (sub_exact_iff (.fromBytes _) (.fromBytes _)).mpr (by
    rw [(fromBytes_spec _).2, leNat_leVector (by norm_num)]
    norm_num [p25519]
    omega)

end PeerToPeer.Crypto.Field25519
