import Mathlib.GroupTheory.OrderOfElement
import PeerToPeer.Crypto.Eddsa

/-!
Which signatures are bound to their messages.

The curve has `8 L` points, so eight times a point is zero or has the prime order `L`.
`verify` multiplies its equation by eight. For a key of small order the message drops
out of it, and a signature that is accepted for one message is accepted for all. For any
other key the equation holds for a single value of the hash scalar.
-/

namespace PeerToPeer.Crypto

open PeerToPeer.Lib

namespace FieldQ

/-! ### Primality of the order -/

def smallPrimesL : List ℕ :=
  [2, 3, 5, 7, 11, 23, 41, 43, 73, 269, 307, 1361, 2851, 5879, 30703, 82163, 132667, 137849,
    409477, 531581, 1224481]

theorem prime_of_mem_smallPrimesL : ∀ q ∈ smallPrimesL, q.Prime := by
  simp only [smallPrimesL, List.forall_mem_cons, List.not_mem_nil, false_imp_iff, implies_true]
  norm_num

def certificateL : List PrattEntry :=
  [⟨24, 14741173, 2, [2, 2, 3, 3, 409477]⟩,
    ⟨26, 58964693, 2, [2, 2, 14741173]⟩,
    ⟨72, 3044861653679985063343, 5, [2, 3, 11, 30703, 82163, 132667, 137849]⟩,
    ⟨108, 198211423230930754013084525763697, 5,
      [2, 2, 2, 2, 3, 23, 58964693, 3044861653679985063343]⟩,
    ⟨29, 292386187, 2, [2, 3, 3, 3, 3, 307, 5879]⟩,
    ⟨38, 213441916511, 13, [2, 5, 73, 292386187]⟩,
    ⟨51, 1257559732178653, 2, [2, 2, 3, 7, 23, 531581, 1224481]⟩,
    ⟨62, 4434155615661930479, 17, [2, 41, 43, 1257559732178653]⟩,
    ⟨88, 172054593956031949258510691, 2, [2, 5, 1361, 2851, 4434155615661930479]⟩,
    ⟨134, 19757330305831588566944191468367130476339, 2,
      [2, 269, 213441916511, 172054593956031949258510691]⟩,
    ⟨138, 276602624281642239937218680557139826668747, 2,
      [2, 7, 19757330305831588566944191468367130476339]⟩,
    ⟨253, order, 2,
      [2, 2, 3, 11, 198211423230930754013084525763697,
        276602624281642239937218680557139826668747]⟩]

theorem order_prime : order.Prime :=
  prime_of_prattCheck prime_of_mem_smallPrimesL
    (by decide +kernel : prattCheck smallPrimesL certificateL = true)
    ⟨253, order, 2, _⟩ (List.mem_of_getElem? (i := 11) rfl)

end FieldQ

namespace EdwardsPoint

/-! ### The number of points -/

theorem addOrderOf_generator : addOrderOf generator = FieldQ.order := by
  have := Fact.mk FieldQ.order_prime
  apply addOrderOf_eq_prime order_nsmul_generator
  intro h
  exact natCast_ne_zero_fp (by norm_num) (by norm_num [p25519]) (congrArg EdwardsCurve.Point.x h)

theorem torsionPoint_onCurve : ed25519.OnCurve
    14399317868200118260347934320527232580618823971194345261214217575416788799818
    55188659117513257062467267217118295137698188065244968500265048394206261417927 :=
  onCurve_of_eq (by decide +kernel)

/-- A point of order eight. -/
def torsionPoint : ed25519.Point where
  x := 14399317868200118260347934320527232580618823971194345261214217575416788799818
  y := 55188659117513257062467267217118295137698188065244968500265048394206261417927
  onCurve := torsionPoint_onCurve

theorem addOrderOf_torsionPoint : addOrderOf torsionPoint = 8 := by
  have hrep := rep_affine torsionPoint
  refine addOrderOf_eq_prime_pow (p := 2) (n := 2) ?_ ?_
  · intro h
    have hequal := (hrep.dbl_dbl.equal_iff rep_identity).mpr h
    revert hequal
    decide +kernel
  · apply (hrep.dbl_dbl_dbl.equal_iff rep_identity).mp
    decide +kernel

/-- The curve has eight times as many points as the base point has multiples. -/
theorem card_point : Nat.card ed25519.Point = 8 * FieldQ.order := by
  have hgenerator := addOrderOf_dvd_natCard generator
  have htorsion := addOrderOf_dvd_natCard torsionPoint
  have hle := EdwardsCurve.Point.card_le (E := ed25519)
  have hpos : 0 < Nat.card ed25519.Point := Nat.card_pos
  rw [addOrderOf_generator] at hgenerator
  rw [addOrderOf_torsionPoint] at htorsion
  rw [Nat.card_zmod] at hle
  have hcoprime : Nat.Coprime 8 FieldQ.order :=
    (Nat.coprime_primes Nat.prime_two FieldQ.order_prime).mpr (by decide) |>.pow_left 3
  obtain ⟨k, hk⟩ := hcoprime.mul_dvd_of_dvd_of_dvd htorsion hgenerator
  -- `16 L` points are more than two for each `y`
  have hlt : 2 * p25519 < 16 * FieldQ.order := by
    rw [p25519_eq, FieldQ.order_eq]
    norm_num
  have hk1 : k = 1 := by
    have hlow : 0 < 8 * FieldQ.order * k := hk ▸ hpos
    have hhigh : 8 * FieldQ.order * k < 8 * FieldQ.order * 2 := by omega
    have := Nat.lt_of_mul_lt_mul_left hhigh
    have := Nat.pos_of_mul_pos_left hlow
    omega
  rw [hk, hk1, mul_one]

/-- Eight times a point has order `L`, or it is zero. -/
theorem nsmul_eight_injective {P : ed25519.Point} (hP : 8 • P ≠ 0) {j k : ℕ}
    (hj : j < FieldQ.order) (hk : k < FieldQ.order) (h : j • 8 • P = k • 8 • P) : j = k := by
  have := Fact.mk FieldQ.order_prime
  have hzero : FieldQ.order • 8 • P = 0 := by
    rw [← mul_nsmul, ← card_point]
    exact card_nsmul_eq_zero'
  have hmod := (nsmul_inj_mod).mp h
  rwa [addOrderOf_eq_prime hzero hP, Nat.mod_eq_of_lt hj, Nat.mod_eq_of_lt hk] at hmod

/-! ### Decoding -/

/-- The root that `from_bytes` takes has the sign of the encoding, unless it is zero and
the sign is set. -/
theorem val_ctSelect_mod_two {r : Fp} {s : UInt8} (hs : s.toNat < 2)
    (hzero : ¬(r = 0 ∧ s = 1)) :
    (CtSelect.ctSelect r (-r)
      (Choice.fromEqual (signBit r).toUInt64 s.toUInt64)).val % 2 = s.toNat := by
  have hiff : (signBit r).toUInt64 = s.toUInt64 ↔ r.val % 2 = s.toNat := by
    rw [← UInt64.toNat_inj, UInt8.toNat_toUInt64, UInt8.toNat_toUInt64, signBit_eq]
  simp only [Exact.ctSelect_fp, Choice.unwrapPublic_fromEqual, decide_eq_true_eq, hiff]
  by_cases hsign : r.val % 2 = s.toNat
  · rw [if_pos hsign, hsign]
  rw [if_neg hsign]
  by_cases hr : r = 0
  · subst hr
    rw [ZMod.val_zero] at hsign
    exact absurd ⟨rfl, UInt8.toNat_inj.mp (show s.toNat = 1 by omega)⟩ hzero
  · have hneg := val_neg_mod_two hr
    omega

/-- A number and its square root at a given `y` make a point. -/
theorem onCurve_of_xSquared {x y : Fp} (h : x * x = xSquared y) : ed25519.OnCurve x y := by
  have hne := EdwardsCurve.d_mul_sq_add_one_ne_zero (E := ed25519) y
  simp only [xSquared, Exact.square_eq, getD_eq, Exact.invert_eq] at h
  rw [← div_eq_mul_inv, eq_div_iff hne] at h
  unfold EdwardsCurve.OnCurve
  linear_combination -h

/-- `from_bytes` accepts nothing but the encodings of points. -/
theorem exists_eq_encode {b : Bytes 32}
    (h : (fromBytes b : CtOptional (EdwardsPoint Fp)).isSomePublic = true) :
    ∃ P, b = encode P := by
  have hsign := signOf_eq b (by norm_num) rfl
  have hlt := FieldQ.leNat_lt_two_pow_256 b
  rw [fromBytes] at h
  simp only at h
  split at h
  · cases h
  rename_i hcanonical
  split at h
  · cases h
  rename_i hsome
  split at h
  · cases h
  rename_i hzero
  rw [not_not] at hcanonical hsome
  have hroot := Exact.sqrt_value_sq hsome
  rw [CtOptional.valueOr_of_isSome hsome] at hzero
  generalize hy : (Field25519Ops.fromBytes (clearSign b) : Fp) = y at *
  generalize (Field25519Ops.sqrt (xSquared y)).value = r at *
  generalize ((b[31] >>> 7) &&& 1) = s at *
  simp only [Exact.isZero_eq, Choice.unwrapPublic_ofBool, Bool.and_eq_true, decide_eq_true_eq,
    beq_iff_eq] at hzero
  have hparity := val_ctSelect_mod_two (by rw [hsign]; omega) hzero
  set x := CtSelect.ctSelect r (-r) (Choice.fromEqual (signBit r).toUInt64 s.toUInt64) with hx
  have hxx : x * x = xSquared y := by
    rw [hx, Exact.ctSelect_fp]
    split
    · exact hroot
    · rw [neg_mul_neg, hroot]
  refine ⟨⟨x, y, onCurve_of_xSquared hxx⟩, ?_⟩
  apply bytes_ext
  have hlow : leNat (clearSign b).toList = y.val := by
    rw [← hcanonical, Exact.leNat_toBytes]
  rw [leNat_encode, hparity, hsign, ← hlow, leNat_clearSign]
  omega

theorem encode_zero : encode 0 = leVector 32 1 := by
  have hone : (1 : Fp).val = 1 := ZMod.val_one p25519
  rw [encode, EdwardsCurve.Point.zero_x, EdwardsCurve.Point.zero_y, ZMod.val_zero, hone,
    Nat.zero_mod, Nat.mul_zero, Nat.zero_add]

end EdwardsPoint

namespace Eddsa

open EdwardsPoint

variable (H : Type) [Hasher H 64]

/-- Two seeds have the same public key when their scalars agree modulo `L`, and only
then. -/
theorem derivePublic_eq_iff (priv priv' : Bytes 32) :
    derivePublic H Fp priv = derivePublic H Fp priv' ↔
      (secretScalar H priv).value % FieldQ.order = (secretScalar H priv').value % FieldQ.order := by
  rw [derivePublic_eq, derivePublic_eq, encode_injective.eq_iff, nsmul_inj_mod,
    addOrderOf_generator]

/-! ### What `verify` accepts -/

/-- `verify` accepts nothing that is not well formed. -/
theorem exists_parsed {pub : Bytes 32} {sig : Bytes 64} {msg : List UInt8}
    (h : (verify H Fp pub msg sig).unwrapPublic = true) : ∃ A R, Parsed pub sig A R := by
  rw [verify] at h
  simp only at h
  split at h
  · cases h
  rename_i hpub
  split at h
  · cases h
  rename_i hr
  split at h
  · cases h
  rename_i hs
  rw [not_not] at hpub hr hs
  obtain ⟨A, hA⟩ := exists_eq_encode hpub
  obtain ⟨R, hR⟩ := exists_eq_encode hr
  exact ⟨A, R, hA, hR, (FieldQ.toBytes_fromBytesModL_iff _).mp hs⟩

/-- A signature that is not bound to any message. Either the key has small order, so that
the message drops out of the equation, and the rest of the equation holds; or the hash is
the same for all messages, and the equation holds for its value. -/
def Unbound (pub : Bytes 32) (sig : Bytes 64) : Prop :=
  ∃ A R, Parsed pub sig A R ∧
    ((8 • A = 0 ∧ 8 • sPoint sig = 8 • R) ∨
      (8 • A ≠ 0 ∧ ∃ k, (∀ msg, hashNat H pub sig msg = k) ∧
        8 • sPoint sig = 8 • (R + k • A)))

theorem forall_accepted_iff (pub : Bytes 32) (sig : Bytes 64) :
    (∀ msg, (verify H Fp pub msg sig).unwrapPublic = true) ↔ Unbound H pub sig := by
  constructor
  · intro h
    obtain ⟨A, R, hparsed⟩ := exists_parsed H (h [])
    have heq := fun msg => (hparsed.verify_iff H msg).mp (h msg)
    refine ⟨A, R, hparsed, ?_⟩
    by_cases hA : 8 • A = 0
    · left
      have hempty := heq []
      rw [nsmul_add, nsmul_left_comm, hA, nsmul_zero, add_zero] at hempty
      exact ⟨hA, hempty⟩
    · right
      refine ⟨hA, hashNat H pub sig [], fun msg => ?_, heq []⟩
      have hsame := (heq msg).symm.trans (heq [])
      rw [nsmul_add, nsmul_add, add_right_inj, nsmul_left_comm, nsmul_left_comm A _ 8] at hsame
      exact nsmul_eight_injective hA (hashNat_lt H pub sig msg) (hashNat_lt H pub sig []) hsame
  · rintro ⟨A, R, hparsed, ⟨hA, hR⟩ | ⟨-, k, hk, hR⟩⟩ msg
    · rw [hparsed.verify_iff H msg, nsmul_add, nsmul_left_comm, hA, nsmul_zero, add_zero]
      exact hR
    · rw [hparsed.verify_iff H msg, hk msg]
      exact hR

/-- A signature is bound to its message, in that some message is rejected, exactly when
it is not one of the unbound ones. -/
theorem exists_rejected_iff (pub : Bytes 32) (sig : Bytes 64) :
    (∃ msg, (verify Sha512 Fp pub msg sig).unwrapPublic = false) ↔ ¬Unbound Sha512 pub sig := by
  rw [← forall_accepted_iff, not_forall]
  simp only [Bool.not_eq_true]

/-- The neutral element for a key, and a signature of the neutral element and zero. -/
theorem not_exists_rejected_zero :
    ¬∃ msg, (verify Sha512 Fp (leVector 32 1) msg
      (leVector 32 1 ++ leVector 32 0)).unwrapPublic = false := by
  have hparsed : Parsed (leVector 32 1) (leVector 32 1 ++ leVector 32 0) 0 0 := by
    refine ⟨encode_zero.symm, ?_, ?_⟩
    · rw [lowHalf_append, encode_zero]
    · rw [highHalf_append, toList_leVector, leNat_leBytes]
      norm_num [FieldQ.order]
  have hzero : sPoint (leVector 32 1 ++ leVector 32 0) = 0 := by
    have hnat : leNat (leVector 32 0).toList = 0 := by decide
    rw [sPoint, highHalf_append, hnat, zero_nsmul]
  rintro ⟨msg, hmsg⟩
  have haccepted : (verify Sha512 Fp (leVector 32 1) msg
      (leVector 32 1 ++ leVector 32 0)).unwrapPublic = true := by
    rw [hparsed.verify_iff Sha512 msg, hzero, nsmul_zero, nsmul_zero, add_zero, nsmul_zero]
  rw [haccepted] at hmsg
  cases hmsg

end Eddsa

end PeerToPeer.Crypto
