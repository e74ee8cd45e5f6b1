import Mathlib.Data.Nat.Bitwise
import Mathlib.Algebra.Order.Ring.Nat
import Mathlib.Tactic.Ring

/-!
Byte strings as numbers, in both byte orders.

`leNat` reads a byte string least significant byte first and `leBytes k` writes
`k` bytes of a number; on strings of one length they are inverse to each other.
The big-endian readings are the little-endian ones of the reversed string.
-/

namespace PeerToPeer.Lib

/-- The number a byte string holds, least significant byte first. -/
def leNat : List UInt8 → ℕ
  | [] => 0
  | b :: bs => b.toNat + 256 * leNat bs

/-- The `k` low bytes of a number, least significant byte first. -/
def leBytes : ℕ → ℕ → List UInt8
  | 0, _ => []
  | k + 1, n => UInt8.ofNat n :: leBytes k (n / 256)

/-- The number a byte string holds, most significant byte first. -/
def beNat (bs : List UInt8) : ℕ := leNat bs.reverse

/-- The `k` low bytes of a number, most significant byte first. -/
def beBytes (k n : ℕ) : List UInt8 := (leBytes k n).reverse

@[simp] theorem leNat_nil : leNat [] = 0 := rfl

@[simp] theorem leNat_cons (b : UInt8) (bs : List UInt8) :
    leNat (b :: bs) = b.toNat + 256 * leNat bs := rfl

theorem leNat_singleton (b : UInt8) : leNat [b] = b.toNat := rfl

@[simp] theorem length_leBytes (k n : ℕ) : (leBytes k n).length = k := by
  induction k generalizing n with
  | zero => rfl
  | succ k ih => simp [leBytes, ih]

@[simp] theorem length_beBytes (k n : ℕ) : (beBytes k n).length = k := by
  simp [beBytes]

theorem leNat_lt (bs : List UInt8) : leNat bs < 256 ^ bs.length := by
  induction bs with
  | nil => simp
  | cons b bs ih =>
      have hb := b.toNat_lt
      rw [leNat_cons, List.length_cons, pow_succ]
      omega

theorem leNat_lt_two_pow (bs : List UInt8) : leNat bs < 2 ^ (8 * bs.length) := by
  rw [pow_mul]
  exact leNat_lt bs

theorem leNat_append (as bs : List UInt8) :
    leNat (as ++ bs) = leNat as + 256 ^ as.length * leNat bs := by
  induction as with
  | nil => simp
  | cons a as ih =>
      rw [List.cons_append, leNat_cons, leNat_cons, ih, List.length_cons, pow_succ]
      ring

theorem leNat_take (k : ℕ) (bs : List UInt8) : leNat (bs.take k) = leNat bs % 256 ^ k := by
  rcases Nat.le_total k bs.length with hle | hle
  · have happend := leNat_append (bs.take k) (bs.drop k)
    have hlt := leNat_lt (bs.take k)
    rw [List.length_take_of_le hle] at happend hlt
    rw [List.take_append_drop] at happend
    rw [happend, Nat.add_mul_mod_self_left, Nat.mod_eq_of_lt hlt]
  · rw [List.take_of_length_le hle, Nat.mod_eq_of_lt]
    exact (leNat_lt bs).trans_le (Nat.pow_le_pow_right (by omega) hle)

/-- The first byte of a number and the others. -/
theorem mod_pow_succ_byte (n k : ℕ) : n % 256 ^ (k + 1) = n % 256 + 256 * (n / 256 % 256 ^ k) := by
  rw [pow_succ']
  exact Nat.mod_mul

theorem leNat_leBytes (k n : ℕ) : leNat (leBytes k n) = n % 256 ^ k := by
  induction k generalizing n with
  | zero => simp [leBytes, Nat.mod_one]
  | succ k ih => rw [leBytes, leNat_cons, ih, UInt8.toNat_ofNat', mod_pow_succ_byte]

theorem leNat_leBytes_of_lt {k n : ℕ} (h : n < 256 ^ k) : leNat (leBytes k n) = n := by
  rw [leNat_leBytes, Nat.mod_eq_of_lt h]

theorem leBytes_inj {k i j : ℕ} (hi : i < 256 ^ k) (hj : j < 256 ^ k)
    (h : leBytes k i = leBytes k j) : i = j := by
  rw [← leNat_leBytes_of_lt hi, h, leNat_leBytes_of_lt hj]

theorem leBytes_leNat (bs : List UInt8) : leBytes bs.length (leNat bs) = bs := by
  induction bs with
  | nil => rfl
  | cons b bs ih =>
      have hb := b.toNat_lt
      rw [List.length_cons, leBytes, leNat_cons,
        show (b.toNat + 256 * leNat bs) / 256 = leNat bs by omega, ih]
      congr 1
      apply UInt8.toNat_inj.mp
      rw [UInt8.toNat_ofNat']
      omega

theorem leNat_inj {as bs : List UInt8} (hlen : as.length = bs.length)
    (h : leNat as = leNat bs) : as = bs := by
  rw [← leBytes_leNat as, ← leBytes_leNat bs, hlen, h]

/-- The bytes only show the number modulo their range. -/
theorem leBytes_eq_of_mod_eq {k i j : ℕ} (h : i % 256 ^ k = j % 256 ^ k) :
    leBytes k i = leBytes k j := by
  apply leNat_inj
  · rw [length_leBytes, length_leBytes]
  · rw [leNat_leBytes, leNat_leBytes, h]

theorem leBytes_append {j n : ℕ} (k m : ℕ) (h : n < 256 ^ j) :
    leBytes j n ++ leBytes k m = leBytes (j + k) (n + 256 ^ j * m) := by
  apply leNat_inj
  · rw [List.length_append, length_leBytes, length_leBytes, length_leBytes]
  · rw [leNat_append, length_leBytes, leNat_leBytes_of_lt h, leNat_leBytes, leNat_leBytes, pow_add,
      Nat.mod_mul, Nat.add_mul_mod_self_left, Nat.mod_eq_of_lt h,
      Nat.add_mul_div_left _ _ (Nat.pow_pos (by omega)), Nat.div_eq_of_lt h, Nat.zero_add]

theorem leNat_replicate_zero (k : ℕ) : leNat (List.replicate k 0) = 0 := by
  induction k with
  | zero => rfl
  | succ k ih => simp [List.replicate_succ, ih]

theorem beNat_beBytes (k n : ℕ) : beNat (beBytes k n) = n % 256 ^ k := by
  rw [beNat, beBytes, List.reverse_reverse, leNat_leBytes]

theorem beBytes_eq_of_mod_eq {k i j : ℕ} (h : i % 256 ^ k = j % 256 ^ k) :
    beBytes k i = beBytes k j :=
  congrArg List.reverse (leBytes_eq_of_mod_eq h)

theorem beBytes_append {j n : ℕ} (k m : ℕ) (h : n < 256 ^ j) :
    beBytes k m ++ beBytes j n = beBytes (j + k) (n + 256 ^ j * m) := by
  rw [beBytes, beBytes, beBytes, ← leBytes_append k m h, List.reverse_append]

theorem beBytes_beNat (bs : List UInt8) : beBytes bs.length (beNat bs) = bs := by
  rw [beBytes, beNat, ← List.length_reverse, leBytes_leNat, List.reverse_reverse]

/-! ### Bits -/

theorem and_byte {a b x y : ℕ} (ha : a < 256) (hb : b < 256) :
    (a + 256 * x) &&& (b + 256 * y) = (a &&& b) + 256 * (x &&& y) := by
  have hab : a &&& b < 2 ^ 8 := lt_of_le_of_lt Nat.and_le_left ha
  apply Nat.eq_of_testBit_eq
  intro j
  rw [show 256 = 2 ^ 8 from rfl] at ha hb ⊢
  rw [Nat.testBit_and, Nat.add_comm a, Nat.add_comm b, Nat.add_comm (a &&& b),
    Nat.testBit_two_pow_mul_add _ ha, Nat.testBit_two_pow_mul_add _ hb,
    Nat.testBit_two_pow_mul_add _ hab]
  split <;> rw [Nat.testBit_and]

/-- The bitwise conjunction, byte by byte. -/
theorem leNat_zipWith_and {as bs : List UInt8} (h : as.length = bs.length) :
    leNat (List.zipWith (· &&& ·) as bs) = leNat as &&& leNat bs := by
  induction as generalizing bs with
  | nil => simp
  | cons a as ih =>
      cases bs with
      | nil => simp at h
      | cons b bs =>
          rw [List.zipWith_cons_cons, leNat_cons, leNat_cons, leNat_cons, ih (by simpa using h),
            UInt8.toNat_and, and_byte a.toNat_lt b.toNat_lt]

/-- Bit `j` of the number is bit `j % 8` of byte `j / 8`. -/
theorem testBit_leNat (bs : List UInt8) (j : ℕ) :
    (leNat bs).testBit j = (bs.getD (j / 8) 0).toNat.testBit (j % 8) := by
  induction bs generalizing j with
  | nil => simp
  | cons b bs ih =>
      have hb := b.toNat_lt
      rw [leNat_cons, show b.toNat + 256 * leNat bs = 2 ^ 8 * leNat bs + b.toNat by ring,
        Nat.testBit_two_pow_mul_add _ hb]
      split
      · rename_i hj
        rw [Nat.div_eq_of_lt hj, Nat.mod_eq_of_lt hj, List.getD_cons_zero]
      · rename_i hj
        rw [ih, show j / 8 = (j - 8) / 8 + 1 by omega, List.getD_cons_succ,
          show (j - 8) % 8 = j % 8 by omega]

theorem testBit_leNat_set {bs : List UInt8} {i : ℕ} (hi : i < bs.length) (b : UInt8) (j : ℕ) :
    (leNat (bs.set i b)).testBit j =
      if j / 8 = i then b.toNat.testBit (j % 8) else (leNat bs).testBit j := by
  rw [testBit_leNat, testBit_leNat, List.getD_eq_getElem?_getD, List.getD_eq_getElem?_getD,
    List.getElem?_set]
  split_ifs <;> first | rfl | omega

end PeerToPeer.Lib
