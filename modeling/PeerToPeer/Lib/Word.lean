import PeerToPeer.Lib.LittleEndian

/-!
Machine words as numbers: shifts are divisions, low masks are remainders, and sums are
exact as long as they stay below `2^64`.
-/

namespace PeerToPeer.Lib

theorem toNat_shiftRight_word (a s : UInt64) :
    (a >>> s).toNat = a.toNat / 2 ^ (s.toNat % 64) := by
  rw [UInt64.toNat_shiftRight, Nat.shiftRight_eq_div_pow]

theorem toNat_and_mask (a m : UInt64) {k : ℕ} (hm : m.toNat = 2 ^ k - 1) :
    (a &&& m).toNat = a.toNat % 2 ^ k := by
  rw [UInt64.toNat_and, hm, Nat.and_two_pow_sub_one_eq_mod]

theorem toNat_add_of_lt {a b : UInt64} (h : a.toNat + b.toNat < 2 ^ 64) :
    (a + b).toNat = a.toNat + b.toNat := by
  rw [UInt64.toNat_add, Nat.mod_eq_of_lt h]

theorem toNat_mul_of_lt {a b : UInt64} (h : a.toNat * b.toNat < 2 ^ 64) :
    (a * b).toNat = a.toNat * b.toNat := by
  rw [UInt64.toNat_mul, Nat.mod_eq_of_lt h]

theorem toNat_add_eq {a b : UInt64} {m n : ℕ} (ha : a.toNat = m) (hb : b.toNat = n)
    (h : m + n < 2 ^ 64) : (a + b).toNat = m + n := by
  subst ha hb
  exact toNat_add_of_lt h

theorem toNat_mul_eq {a b : UInt64} {m n : ℕ} (ha : a.toNat = m) (hb : b.toNat = n)
    (h : m * n < 2 ^ 64) : (a * b).toNat = m * n := by
  subst ha hb
  exact toNat_mul_of_lt h

theorem toNat_ofInt_word (z : ℤ) : (UInt64.ofInt z).toNat = (z % 2 ^ 64).toNat := by
  rw [UInt64.ofInt, UInt64.toNat_ofNat']
  omega

/-- A word whose low `k` bits are free takes a number of `k` bits by `or`. -/
theorem or_eq_add_of_lt {x y k : ℕ} (hx : x < 2 ^ k) : x ||| y * 2 ^ k = x + y * 2 ^ k := by
  rw [Nat.lor_comm, mul_comm, ← Nat.two_pow_add_eq_or_of_lt hx, add_comm]

/-- A word holds a number of at most `k` bits. -/
structure Holds (k : ℕ) (w : UInt64) (n : ℕ) : Prop where
  eq : w.toNat = n
  lt : n < 2 ^ k

theorem Holds.of_lt {k : ℕ} {w : UInt64} (h : w.toNat < 2 ^ k) : Holds k w w.toNat := ⟨rfl, h⟩

/-- The next byte of a word that is put together by shifts. -/
theorem Holds.or_shiftLeft {k : ℕ} {w b s : UInt64} {n : ℕ} (h : Holds k w n) (hs : s.toNat = k)
    (hb : b.toNat < 2 ^ 8) (hk : k + 8 ≤ 64) :
    Holds (k + 8) (w ||| b <<< s) (n + b.toNat * 2 ^ k) := by
  have hn := h.lt
  have hlt : n + b.toNat * 2 ^ k < 2 ^ (k + 8) := by
    have hb' : b.toNat * 2 ^ k ≤ 255 * 2 ^ k := Nat.mul_le_mul_right _ (by omega)
    rw [pow_add]
    omega
  have hle : 2 ^ (k + 8) ≤ 2 ^ 64 := Nat.pow_le_pow_right (by norm_num) hk
  refine ⟨?_, hlt⟩
  rw [UInt64.toNat_or, UInt64.toNat_shiftLeft, hs, Nat.mod_eq_of_lt (show k < 64 by omega),
    Nat.shiftLeft_eq, Nat.mod_eq_of_lt (show b.toNat * 2 ^ k < 2 ^ 64 by omega), h.eq,
    or_eq_add_of_lt hn]

/-- Bytes that are put on top of the low `k` bits of a word, one after the other. -/
def orShifts (w : UInt64) (k : ℕ) : List UInt8 → UInt64
  | [] => w
  | b :: bs => orShifts (w ||| b.toUInt64 <<< .ofNat k) (k + 8) bs

theorem Holds.orShifts {k : ℕ} {w : UInt64} {n : ℕ} (h : Holds k w n) (bs : List UInt8)
    (hk : k + 8 * bs.length ≤ 64) : (orShifts w k bs).toNat = n + 2 ^ k * leNat bs := by
  induction bs generalizing k w n with
  | nil => simpa [Lib.orShifts] using h.eq
  | cons b bs ih =>
      rw [List.length_cons] at hk
      have hb : b.toUInt64.toNat < 2 ^ 8 := by
        rw [UInt8.toNat_toUInt64]
        exact b.toNat_lt
      have hs : (UInt64.ofNat k).toNat = k :=
        UInt64.toNat_ofNat_of_lt' (lt_of_lt_of_le (show k < 64 by omega) (by decide))
      rw [Lib.orShifts, ih (h.or_shiftLeft hs hb (by omega)) (by omega), UInt8.toNat_toUInt64,
        leNat_cons, pow_add]
      ring

/-- A byte that is cut out of a word. -/
theorem toNat_byte (w s m : UInt64) {j k : ℕ} (hs : s.toNat % 64 = j) (hm : m.toNat = 2 ^ k - 1)
    (hk : k ≤ 8) : ((w >>> s) &&& m).toUInt8.toNat = w.toNat / 2 ^ j % 2 ^ k := by
  have hle : 2 ^ k ≤ 2 ^ 8 := Nat.pow_le_pow_right (by norm_num) hk
  have hlt : w.toNat / 2 ^ j % 2 ^ k < 2 ^ k := Nat.mod_lt _ (Nat.two_pow_pos k)
  rw [UInt64.toNat_toUInt8, toNat_and_mask _ _ hm, toNat_shiftRight_word, hs,
    Nat.mod_eq_of_lt (by omega)]

/-- A byte that takes its low `k` bits from one word and the others from the next
one. -/
theorem toNat_byte_or (v w s m t : UInt64) {j k : ℕ} (hs : s.toNat % 64 = j)
    (hm : m.toNat = 2 ^ k - 1) (ht : t.toNat % 64 = k) (hk : k ≤ 8) :
    (((v >>> s) &&& m).toUInt8 ||| ((w <<< t) &&& 0xFF).toUInt8).toNat =
      v.toNat / 2 ^ j % 2 ^ k + w.toNat % 2 ^ (8 - k) * 2 ^ k := by
  have hlt : v.toNat / 2 ^ j % 2 ^ k < 2 ^ k := Nat.mod_lt _ (Nat.two_pow_pos k)
  have hhigh : ((w <<< t) &&& 0xFF).toUInt8.toNat = w.toNat % 2 ^ (8 - k) * 2 ^ k := by
    rw [UInt64.toNat_toUInt8, toNat_and_mask _ _ (show (0xFF : UInt64).toNat = 2 ^ 8 - 1 from rfl),
      Nat.mod_mod, UInt64.toNat_shiftLeft, ht, Nat.shiftLeft_eq,
      Nat.mod_mod_of_dvd _ (by norm_num), ← Nat.mul_mod_mul_right, ← pow_add,
      Nat.sub_add_cancel hk]
  rw [UInt8.toNat_or, toNat_byte v s m hs hm hk, hhigh, or_eq_add_of_lt hlt]

/-- `n` bytes of a word, from bit `s` on. -/
def cutBytes (w : UInt64) (s : ℕ) : ℕ → List UInt8
  | 0 => []
  | n + 1 => ((w >>> .ofNat s) &&& 0xFF).toUInt8 :: cutBytes w (s + 8) n

@[simp] theorem length_cutBytes (w : UInt64) (s n : ℕ) : (cutBytes w s n).length = n := by
  induction n generalizing s with
  | zero => rfl
  | succ n ih => rw [cutBytes, List.length_cons, ih]

theorem leNat_cutBytes (w : UInt64) {s n : ℕ} (h : s + 8 * n ≤ 64) :
    leNat (cutBytes w s n) = w.toNat / 2 ^ s % 256 ^ n := by
  induction n generalizing s with
  | zero => rw [cutBytes, leNat_nil, pow_zero, Nat.mod_one]
  | succ n ih =>
      have hs : (UInt64.ofNat s).toNat % 64 = s := by
        rw [UInt64.toNat_ofNat_of_lt' (lt_of_lt_of_le (show s < 64 by omega) (by decide))]
        omega
      rw [cutBytes, leNat_cons, toNat_byte w _ 0xFF hs rfl le_rfl, ih (by omega),
        mod_pow_succ_byte, Nat.div_div_eq_div_mul, pow_add, show (2 : ℕ) ^ 8 = 256 by norm_num]

/-- The eight bytes of a word. -/
theorem leBytes_eight (v : UInt64) :
    leBytes 8 v.toNat =
      [v.toUInt8, (v >>> 8).toUInt8, (v >>> 16).toUInt8, (v >>> 24).toUInt8, (v >>> 32).toUInt8,
        (v >>> 40).toUInt8, (v >>> 48).toUInt8, (v >>> 56).toUInt8] := by
  have hbyte : ∀ k : UInt64, (v >>> k).toUInt8 = UInt8.ofNat (v.toNat / 2 ^ (k.toNat % 64)) := by
    intro k
    apply UInt8.toNat_inj.mp
    rw [UInt64.toNat_toUInt8, toNat_shiftRight_word, UInt8.toNat_ofNat']
  simp only [leBytes, Nat.div_div_eq_div_mul, hbyte]
  rfl

/-! ### Two-word sums -/

/-- A sum is smaller than one of its terms exactly when it wraps around. -/
theorem add_lt_left_iff (x y : UInt64) : x + y < x ↔ 2 ^ 64 ≤ x.toNat + y.toNat := by
  have hx := x.toNat_lt
  have hy := y.toNat_lt
  rw [UInt64.lt_iff_toNat_lt, UInt64.toNat_add]
  omega

theorem add_lt_right_iff (x y : UInt64) : x + y < y ↔ 2 ^ 64 ≤ x.toNat + y.toNat := by
  rw [UInt64.add_comm, add_lt_left_iff, Nat.add_comm]

/-- The high word takes the carry of the low word. -/
theorem toNat_carry (high low n : UInt64) :
    (2 ^ 64 * (if 2 ^ 64 ≤ low.toNat + n.toNat then high + 1 else high).toNat +
      (low + n).toNat) % 2 ^ 128 = (2 ^ 64 * high.toNat + low.toNat + n.toNat) % 2 ^ 128 := by
  have hhigh := high.toNat_lt
  have hlow := low.toNat_lt
  have hn := n.toNat_lt
  rw [UInt64.toNat_add]
  split
  · rw [UInt64.toNat_add, UInt64.toNat_one]
    omega
  · omega

/-! ### 32-bit words -/

theorem toNat_toUInt8_shiftRight (w k : UInt32) :
    (w >>> k).toUInt8.toNat = w.toNat / 2 ^ (k.toNat % 32) % 2 ^ 8 := by
  rw [UInt32.toNat_toUInt8, UInt32.toNat_shiftRight, Nat.shiftRight_eq_div_pow]

/-- The four bytes of a word. -/
theorem leBytes_four (v : UInt32) :
    leBytes 4 v.toNat =
      [v.toUInt8, (v >>> 8).toUInt8, (v >>> 16).toUInt8, (v >>> 24).toUInt8] := by
  have hbyte : ∀ k : UInt32, (v >>> k).toUInt8 = UInt8.ofNat (v.toNat / 2 ^ (k.toNat % 32)) := by
    intro k
    apply UInt8.toNat_inj.mp
    rw [toNat_toUInt8_shiftRight, UInt8.toNat_ofNat']
  simp only [leBytes, Nat.div_div_eq_div_mul, hbyte]
  rfl

/-- Four bytes that are put together by shifts. -/
theorem toNat_or_shifts (b₀ b₁ b₂ b₃ : UInt8) :
    (b₀.toUInt32 ||| (b₁.toUInt32 <<< 8) ||| (b₂.toUInt32 <<< 16) ||| (b₃.toUInt32 <<< 24)).toNat =
      leNat [b₀, b₁, b₂, b₃] := by
  have h₀ := b₀.toNat_lt
  have h₁ := b₁.toNat_lt
  have h₂ := b₂.toNat_lt
  have h₃ := b₃.toNat_lt
  have hshift : ∀ (b : UInt8) (k : UInt32), k.toNat % 32 ≤ 24 →
      (b.toUInt32 <<< k).toNat = b.toNat * 2 ^ (k.toNat % 32) := by
    intro b k hk
    have hb := b.toNat_lt
    have hpow : 2 ^ (k.toNat % 32) ≤ 2 ^ 24 := Nat.pow_le_pow_right (by norm_num) hk
    rw [UInt32.toNat_shiftLeft, UInt8.toNat_toUInt32, Nat.shiftLeft_eq, Nat.mod_eq_of_lt]
    calc b.toNat * 2 ^ (k.toNat % 32) ≤ b.toNat * 2 ^ 24 := Nat.mul_le_mul_left _ hpow
      _ < 2 ^ 32 := by omega
  rw [UInt32.toNat_or, UInt32.toNat_or, UInt32.toNat_or, hshift b₁ 8 (by decide),
    hshift b₂ 16 (by decide), hshift b₃ 24 (by decide), UInt8.toNat_toUInt32]
  simp only [leNat_cons, leNat_nil]
  rw [show (8 : UInt32).toNat % 32 = 8 from rfl, show (16 : UInt32).toNat % 32 = 16 from rfl,
    show (24 : UInt32).toNat % 32 = 24 from rfl, or_eq_add_of_lt (x := b₀.toNat) (k := 8) h₀,
    or_eq_add_of_lt (k := 16) (by omega), or_eq_add_of_lt (k := 24) (by omega)]
  omega

end PeerToPeer.Lib
