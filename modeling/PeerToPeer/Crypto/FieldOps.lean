import PeerToPeer.Crypto.Choice
import PeerToPeer.Crypto.Prime25519
import PeerToPeer.Lib.LittleEndian

/-!
The interface of `field_25519` that the group code is written against.

`edwards_point`, `montgomery_point`, `x25519` and `eddsa` only use the public
operations of `field_25519`. They are modelled once, over any type with these
operations, and read twice: over the five-limb words of the code, and over
exact arithmetic modulo `2^255 - 19`. The addition chains of `invert`, `sqrt`
and `i` consist of squarings and products, so they are part of the shared code.
-/

namespace PeerToPeer.Crypto

open PeerToPeer.Lib

/-- A fixed-size array of bytes. -/
abbrev Bytes (n : ℕ) := Vector UInt8 n

/-- The little-endian array of a number. -/
def leVector (k n : ℕ) : Bytes k := ⟨(leBytes k n).toArray, by simp⟩

@[simp] theorem toList_leVector (k n : ℕ) : (leVector k n).toList = leBytes k n := by
  simp [leVector, Vector.toList]

theorem leVector_inj {k i j : ℕ} (hi : i < 256 ^ k) (hj : j < 256 ^ k)
    (h : leVector k i = leVector k j) : i = j := by
  have hlist := congrArg Vector.toList h
  rw [toList_leVector, toList_leVector] at hlist
  exact leBytes_inj hi hj hlist

/-- Arrays that encode the same number are equal. -/
theorem bytes_ext {k : ℕ} {a b : Bytes k} (h : leNat a.toList = leNat b.toList) : a = b :=
  Vector.toList_inj.mp (leNat_inj (by rw [Vector.length_toList, Vector.length_toList]) h)

theorem leNat_leVector {k n : ℕ} (h : n < 256 ^ k) : leNat (leVector k n).toList = n := by
  rw [toList_leVector, leNat_leBytes_of_lt h]

/-- An array is the encoding of the number that it encodes. -/
theorem eq_leVector {k n : ℕ} {b : Bytes k} (h : leNat b.toList = n) : b = leVector k n := by
  have hbytes := leBytes_leNat b.toList
  rw [Vector.length_toList, h] at hbytes
  rw [← Vector.toList_inj, toList_leVector, hbytes]

theorem toList_eq_ofFn {n : ℕ} (b : Bytes n) : b.toList = List.ofFn fun i : Fin n => b[i] := by
  apply List.ext_getElem
  · simp
  · intro i h h'
    simp

/-- The operations of `field_25519`. -/
class Field25519Ops (F : Type) extends
    Zero F, One F, Add F, Sub F, Mul F, Neg F, CtSelect F where
  /-- `operator+(uint64_t)`. -/
  addWord : F → UInt64 → F
  square : F → F
  isZero : F → Choice
  /-- `operator==`. -/
  equal : F → F → Choice
  fromBytes : Bytes 32 → F
  toBytes : F → Bytes 32
  ctSwap : F → F → Choice → F × F
  ctSwap_eq : ∀ a b c, ctSwap a b c = if c.unwrapPublic then (b, a) else (a, b)

namespace Field25519Ops

variable {F : Type} [Field25519Ops F]

/-- `n` squarings. -/
def sqN (x : F) : ℕ → F
  | 0 => x
  | n + 1 => square (sqN x n)

/-- The common prefix of the addition chains: `z` to the powers `2^50 - 1`,
`2^250 - 1` and `11`. -/
def chain250 (z : F) : F × F :=
  let z2 := square z
  let z9 := sqN z2 2 * z
  let z11 := z9 * z2
  let z2_5 := square z11 * z9
  let z2_10 := sqN z2_5 5 * z2_5
  let z2_20 := sqN z2_10 10 * z2_10
  let z2_40 := sqN z2_20 20 * z2_20
  let z2_50 := sqN z2_40 10 * z2_10
  let z2_100 := sqN z2_50 50 * z2_50
  let z2_200 := sqN z2_100 100 * z2_100
  let z2_250 := sqN z2_200 50 * z2_50
  (z2_250, z11)

/-- `field_25519::invert`: the power `2^255 - 21`. -/
def invert (z : F) : F :=
  sqN (chain250 z).1 5 * (chain250 z).2

/-- `field_25519::i`: the power `2^253 - 5` of two. -/
def i : F :=
  let z : F := 1 + 1
  sqN (chain250 z).1 3 * z * square z

/-- `sqrt`: the power `2^252 - 2`, corrected by `i` when its square is `-z`. -/
def sqrt (z : F) : CtOptional F :=
  let a := sqN (chain250 z).1 2 * square z
  let a_2 := square a
  let areEqual := equal a_2 z
  let areEqualNeg := equal a_2 (-z)
  let aRotated := a * i
  let result := ctSelect a aRotated areEqual
  CtOptional.fromChoice result (areEqual.or areEqualNeg)

end Field25519Ops

/-! ### Exact arithmetic -/

instance : CtSelect Fp where
  ctSelect a b c := if c.unwrapPublic then a else b
  ctSelect_eq _ _ _ := rfl

/-- Reading the operations of `field_25519` as exact arithmetic. -/
instance : Field25519Ops Fp where
  addWord a w := a + (w.toNat : Fp)
  square a := a * a
  isZero a := .ofBool (a = 0)
  equal a b := .ofBool (a = b)
  fromBytes b := ((leNat b.toList % 2 ^ 255 : ℕ) : Fp)
  toBytes a := leVector 32 a.val
  ctSwap a b c := if c.unwrapPublic then (b, a) else (a, b)
  ctSwap_eq _ _ _ := rfl

namespace Exact

open Field25519Ops

@[simp] theorem square_eq (a : Fp) : square a = a * a := rfl

@[simp] theorem addWord_eq (a : Fp) (w : UInt64) : addWord a w = a + (w.toNat : Fp) := rfl

@[simp] theorem isZero_eq (a : Fp) : isZero a = .ofBool (a = 0) := rfl

@[simp] theorem equal_eq (a b : Fp) : equal a b = .ofBool (a = b) := rfl

@[simp] theorem ctSelect_fp (a b : Fp) (c : Choice) :
    ctSelect a b c = if c.unwrapPublic then a else b := rfl

theorem fromBytes_eq (b : Bytes 32) :
    (fromBytes b : Fp) = ((leNat b.toList % 2 ^ 255 : ℕ) : Fp) := rfl

theorem toBytes_eq (a : Fp) : toBytes a = leVector 32 a.val := rfl

theorem val_lt (a : Fp) : a.val < 2 ^ 255 :=
  lt_of_lt_of_le (ZMod.val_lt a) (by norm_num [p25519])

theorem leNat_toBytes (a : Fp) : leNat (toBytes a).toList = a.val := by
  rw [toBytes_eq, leNat_leVector (lt_trans (val_lt a) (by norm_num))]

/-- Canonical encodings are decoded to themselves. -/
@[simp] theorem fromBytes_toBytes (a : Fp) : (fromBytes (toBytes a) : Fp) = a := by
  rw [fromBytes_eq, leNat_toBytes, Nat.mod_eq_of_lt (val_lt a), ZMod.natCast_zmod_val]

/-! ### The addition chains -/

theorem sqN_eq (x : Fp) (n : ℕ) : sqN x n = x ^ 2 ^ n := by
  induction n with
  | zero => simp [sqN]
  | succ n ih => rw [sqN, ih, square_eq, ← pow_add, pow_succ, mul_two]

theorem chain250_fst (z : Fp) : (chain250 z).1 = z ^ (2 ^ 250 - 1) := by
  simp only [chain250, sqN_eq, square_eq, ← pow_two, ← pow_mul, ← pow_succ, ← pow_add]
  congr 1

theorem chain250_snd (z : Fp) : (chain250 z).2 = z ^ 11 := by
  simp only [chain250, sqN_eq, square_eq]
  ring

theorem invert_eq_pow (z : Fp) : invert z = z ^ (p25519 - 2) := by
  rw [invert, chain250_fst, chain250_snd, sqN_eq, ← pow_mul, ← pow_add]
  congr 1

@[simp] theorem invert_eq (z : Fp) : invert z = z⁻¹ := by
  rw [invert_eq_pow]
  by_cases hz : z = 0
  · rw [hz, inv_zero, zero_pow]
    norm_num [p25519]
  · apply eq_inv_of_mul_eq_one_left
    rw [← pow_succ, show p25519 - 2 + 1 = p25519 - 1 by norm_num [p25519]]
    exact ZMod.pow_card_sub_one_eq_one hz

/-! ### Square roots -/

theorem i_eq_pow : (i : Fp) = 2 ^ (p25519 / 4) := by
  simp only [i, chain250_fst, sqN_eq, square_eq, one_add_one_eq_two, ← pow_mul, ← pow_succ,
    ← pow_add, ← pow_two]
  congr 1

theorem i_sq : (i : Fp) ^ 2 = -1 := by
  rw [i_eq_pow, ← pow_mul, show p25519 / 4 * 2 = p25519 / 2 by norm_num [p25519], two_pow_half]

/-- The candidate root: its square is `z` times the power `(p - 1) / 4` of `z`. -/
theorem sqrtCandidate_sq (z : Fp) :
    (sqN (chain250 z).1 2 * (z * z)) * (sqN (chain250 z).1 2 * (z * z)) =
      z * z ^ (p25519 / 4) := by
  simp only [chain250_fst, sqN_eq, ← pow_mul, ← pow_two, ← pow_add, ← pow_succ']
  congr 1

theorem sqrt_value_sq {z : Fp} (h : (sqrt z).isSomePublic = true) :
    (sqrt z).value * (sqrt z).value = z := by
  simp only [sqrt, CtOptional.isSomePublic_fromChoice, Choice.unwrapPublic_or, equal_eq,
    Choice.unwrapPublic_ofBool, square_eq, Bool.or_eq_true, decide_eq_true_eq] at h
  simp only [sqrt, CtOptional.fromChoice, ctSelect_fp, equal_eq, Choice.unwrapPublic_ofBool,
    square_eq, decide_eq_true_eq]
  split_ifs with heq
  · exact heq
  · have hneg := h.resolve_left heq
    have hi := i_sq
    linear_combination (i : Fp) ^ 2 * hneg - z * hi

/-- `sqrt` finds a root whenever there is one. -/
theorem sqrt_isSome_iff (z : Fp) : (sqrt z).isSomePublic = true ↔ IsSquare z := by
  constructor
  · intro h
    exact ⟨_, (sqrt_value_sq h).symm⟩
  · intro h
    simp only [sqrt, CtOptional.isSomePublic_fromChoice, Choice.unwrapPublic_or, equal_eq,
      Choice.unwrapPublic_ofBool, square_eq, Bool.or_eq_true, decide_eq_true_eq,
      sqrtCandidate_sq]
    by_cases hz : z = 0
    · left
      rw [hz, zero_mul]
    · have hq : z ^ (p25519 / 4) * z ^ (p25519 / 4) = 1 := by
        rw [← pow_add, show p25519 / 4 + p25519 / 4 = p25519 / 2 by norm_num [p25519]]
        exact pow_half_of_isSquare hz h
      rcases mul_self_eq_one_iff.mp hq with h1 | h1
      · left
        rw [h1, mul_one]
      · right
        rw [h1, mul_neg_one]

end Exact

end PeerToPeer.Crypto
