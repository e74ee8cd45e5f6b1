import PeerToPeer.Crypto.Field25519Spec

/-!
The 128-bit arithmetic of `operator*`, one operation after the other.

`mulM` is the product with the treatment of each 128-bit result as a parameter. With
results that wrap it is `operator*`. With results that are refused as soon as they do
not fit, it still returns what `operator*` returns if the limbs are below `2^54`: none
of the operations wraps then.
-/

namespace PeerToPeer.Crypto.Field25519

section Words

variable {m : Type → Type} [Monad m] (word : ℕ → m ℕ)

/-- One column: the products are added in the order of the loop. -/
def columnM : List (UInt64 × UInt64) → m ℕ :=
  List.foldlM (fun digit t => do
    let product ← word (t.1.toNat * t.2.toNat)
    word (digit + product)) 0

/-- The nine columns. They do not depend on one another, so they are taken one by one
here. -/
def mulDigitsM (a b : Field25519) : m Digits := do
  let d0 ← columnM word [(a.l0, b.l0)]
  let d1 ← columnM word [(a.l0, b.l1), (a.l1, b.l0)]
  let d2 ← columnM word [(a.l0, b.l2), (a.l1, b.l1), (a.l2, b.l0)]
  let d3 ← columnM word [(a.l0, b.l3), (a.l1, b.l2), (a.l2, b.l1), (a.l3, b.l0)]
  let d4 ← columnM word [(a.l0, b.l4), (a.l1, b.l3), (a.l2, b.l2), (a.l3, b.l1), (a.l4, b.l0)]
  let d5 ← columnM word [(a.l1, b.l4), (a.l2, b.l3), (a.l3, b.l2), (a.l4, b.l1)]
  let d6 ← columnM word [(a.l2, b.l4), (a.l3, b.l3), (a.l4, b.l2)]
  let d7 ← columnM word [(a.l3, b.l4), (a.l4, b.l3)]
  let d8 ← columnM word [(a.l4, b.l4)]
  pure ⟨d0, d1, d2, d3, d4, d5, d6, d7, d8⟩

def carryDigitsM (d : Digits) : m Digits := do
  let d1 ← word (d.d1 + d.d0 / 2 ^ 51)
  let d2 ← word (d.d2 + d1 / 2 ^ 51)
  let d3 ← word (d.d3 + d2 / 2 ^ 51)
  let d4 ← word (d.d4 + d3 / 2 ^ 51)
  let d5 ← word (d.d5 + d4 / 2 ^ 51)
  let d6 ← word (d.d6 + d5 / 2 ^ 51)
  let d7 ← word (d.d7 + d6 / 2 ^ 51)
  let d8 ← word (d.d8 + d7 / 2 ^ 51)
  pure ⟨d.d0 % 2 ^ 51, d1 % 2 ^ 51, d2 % 2 ^ 51, d3 % 2 ^ 51, d4 % 2 ^ 51, d5 % 2 ^ 51,
    d6 % 2 ^ 51, d7 % 2 ^ 51, d8⟩

/-- A column and nineteen times the one five columns above it. -/
def foldColumnM (low high : ℕ) : m ℕ := do
  let product ← word (high * 19)
  word (low + product)

def foldDigitsM (d : Digits) : m Wide := do
  let o0 ← foldColumnM word d.d0 d.d5
  let o1 ← foldColumnM word d.d1 d.d6
  let o2 ← foldColumnM word d.d2 d.d7
  let o3 ← foldColumnM word d.d3 d.d8
  pure ⟨o0, o1, o2, o3, d.d4⟩

def carryWideM (o : Wide) : m Wide := do
  let o1 ← word (o.o1 + o.o0 / 2 ^ 51)
  let o2 ← word (o.o2 + o1 / 2 ^ 51)
  let o3 ← word (o.o3 + o2 / 2 ^ 51)
  let o4 ← word (o.o4 + o3 / 2 ^ 51)
  pure ⟨o.o0 % 2 ^ 51, o1 % 2 ^ 51, o2 % 2 ^ 51, o3 % 2 ^ 51, o4⟩

def foldWideM (o : Wide) : m Wide := do
  let o0 ← foldColumnM word o.o0 (o.o4 / 2 ^ 51)
  pure { o with o0 := o0, o4 := o.o4 % 2 ^ 51 }

def reduceDigitsM (d : Digits) : m Field25519 := do
  let d ← carryDigitsM word d
  let o ← foldDigitsM word d
  let o ← carryWideM word o
  let o ← foldWideM word o
  let o ← carryWideM word o
  pure o.toLimbs

/-- `operator*`, with `word` applied to the result of each 128-bit operation. -/
def mulM (a b : Field25519) : m Field25519 := do
  let d ← mulDigitsM word a b
  reduceDigitsM word d

end Words

/-- The number that a column stands for. -/
def columnSum (ts : List (UInt64 × UInt64)) : ℕ :=
  (ts.map fun t => t.1.toNat * t.2.toNat).sum

theorem columnSum_cons (t : UInt64 × UInt64) (ts : List (UInt64 × UInt64)) :
    columnSum (t :: ts) = t.1.toNat * t.2.toNat + columnSum ts := by
  rw [columnSum, List.map_cons, List.sum_cons, columnSum]

/-! ### Results that wrap -/

theorem foldlM_column_u128 (ts : List (UInt64 × UInt64)) (digit : ℕ) (h : u128 digit = digit) :
    List.foldlM (m := Id) (fun digit t => do
      let product ← u128 (t.1.toNat * t.2.toNat)
      u128 (digit + product)) digit ts = u128 (digit + columnSum ts) := by
  induction ts generalizing digit with
  | nil =>
      exact h.symm
  | cons t ts ih =>
      refine (ih _ (u128_u128 _)).trans ?_
      rw [u128_add_left, u128_add_middle, columnSum_cons, Nat.add_assoc]

/-- A column wraps once for all its operations. -/
theorem columnM_u128 (ts : List (UInt64 × UInt64)) :
    columnM (m := Id) u128 ts = u128 (columnSum ts) := by
  rw [columnM, foldlM_column_u128 ts 0 rfl, Nat.zero_add]

theorem mulDigitsM_u128 (a b : Field25519) : mulDigitsM (m := Id) u128 a b = mulDigits a b := by
  simp only [mulDigitsM, columnM_u128, mulDigits, columnSum, List.map_cons, List.map_nil,
    List.sum_cons, List.sum_nil, Nat.add_zero, ← Nat.add_assoc]
  rfl

/-- With results that wrap, the operations are those of `operator*`. -/
theorem mulM_u128 (a b : Field25519) : mulM (m := Id) u128 a b = mul a b := by
  change reduceDigitsM (m := Id) u128 (mulDigitsM (m := Id) u128 a b) = _
  rw [mulDigitsM_u128]
  rfl

/-! ### Results that are refused -/

/-- The result of an operation, if it fits. -/
def checked (n : ℕ) : Option ℕ := if n < 2 ^ 128 then some n else none

theorem checked_of_lt {n : ℕ} (h : n < 2 ^ 128) : checked n = some (u128 n) := by
  rw [checked, if_pos h, u128_of_lt h]

theorem checked_bind {n : ℕ} (h : n < 2 ^ 128) {β : Type} (f : ℕ → Option β) :
    (checked n >>= f) = f (u128 n) := by
  rw [checked_of_lt h]
  rfl

theorem columnSum_le {k : ℕ} {ts : List (UInt64 × UInt64)}
    (h : ∀ t ∈ ts, t.1.toNat < 2 ^ k ∧ t.2.toNat < 2 ^ k) :
    columnSum ts ≤ ts.length * 2 ^ (2 * k) := by
  induction ts with
  | nil =>
      exact Nat.zero_le _
  | cons t ts ih =>
      obtain ⟨hx, hy⟩ := h t List.mem_cons_self
      have hle := ih fun t ht => h t (List.mem_cons_of_mem _ ht)
      have hmul : t.1.toNat * t.2.toNat ≤ 2 ^ (2 * k) := by
        rw [two_mul, pow_add]
        exact Nat.mul_le_mul hx.le hy.le
      rw [columnSum_cons, List.length_cons, Nat.add_mul, one_mul]
      omega

theorem foldlM_column_checked (ts : List (UInt64 × UInt64)) (digit : ℕ)
    (h : digit + columnSum ts < 2 ^ 128) :
    List.foldlM (fun digit t => do
      let product ← checked (t.1.toNat * t.2.toNat)
      checked (digit + product)) digit ts = some (u128 (digit + columnSum ts)) := by
  induction ts generalizing digit with
  | nil =>
      rw [columnSum, List.map_nil, List.sum_nil, Nat.add_zero] at h ⊢
      rw [u128_of_lt h]
      rfl
  | cons t ts ih =>
      rw [columnSum_cons] at h ⊢
      rw [List.foldlM_cons, checked_bind (by omega), u128_of_lt (by omega), checked_bind (by omega),
        u128_of_lt (by omega), ih _ (by omega), Nat.add_assoc]

/-- Five products of 54-bit limbs leave room. -/
theorem columnM_checked {ts : List (UInt64 × UInt64)} (hlen : ts.length ≤ 5)
    (h : ∀ t ∈ ts, t.1.toNat < 2 ^ 54 ∧ t.2.toNat < 2 ^ 54) :
    columnM checked ts = some (u128 (columnSum ts)) := by
  have hle := columnSum_le h
  have hlen' := Nat.mul_le_mul_right (2 ^ (2 * 54)) hlen
  rw [columnM, foldlM_column_checked ts 0 (by omega), Nat.zero_add]

theorem mulDigitsM_checked {a b : Field25519} (ha : a.Fits 54) (hb : b.Fits 54) :
    mulDigitsM checked a b = some (mulDigits a b) := by
  obtain ⟨a0, a1, a2, a3, a4⟩ := ha
  obtain ⟨b0, b1, b2, b3, b4⟩ := hb
  rw [mulDigitsM, columnM_checked (by simp) (by simp_all), columnM_checked (by simp) (by simp_all),
    columnM_checked (by simp) (by simp_all), columnM_checked (by simp) (by simp_all),
    columnM_checked (by simp) (by simp_all), columnM_checked (by simp) (by simp_all),
    columnM_checked (by simp) (by simp_all), columnM_checked (by simp) (by simp_all),
    columnM_checked (by simp) (by simp_all)]
  simp only [mulDigits, columnSum, List.map_cons, List.map_nil, List.sum_cons, List.sum_nil,
    Nat.add_zero, ← Nat.add_assoc]
  rfl

/-- What a 128-bit word carries into the next one leaves room. -/
theorem checked_carry {x n : ℕ} (h : x < 2 ^ 120) {β : Type} (f : ℕ → Option β) :
    (checked (x + u128 n / 2 ^ 51) >>= f) = f (u128 (x + u128 n / 2 ^ 51)) := by
  have hlt := u128_lt n
  exact checked_bind (by omega) f

theorem carryDigitsM_checked {d : Digits} (h : d.Room) :
    carryDigitsM checked d = some (carryDigits d) := by
  obtain ⟨h0, h1, h2, h3, h4, h5, h6, h7, h8⟩ := h
  rw [carryDigitsM, checked_bind (by omega), checked_carry (by omega), checked_carry (by omega),
    checked_carry (by omega), checked_carry (by omega), checked_carry (by omega),
    checked_carry (by omega), checked_carry (by omega)]
  rfl

theorem foldColumnM_checked {low high : ℕ} (hlow : low < 2 ^ 120) (hhigh : high < 2 ^ 120) :
    foldColumnM checked low high = some (u128 (low + u128 (high * 19))) := by
  have hle := u128_le (high * 19)
  rw [foldColumnM, checked_bind (by omega), checked_of_lt (by omega)]

theorem foldDigitsM_checked {d : Digits} (h : d.Low) :
    foldDigitsM checked d = some (foldDigits d) := by
  obtain ⟨h0, h1, h2, h3, h4, h5, h6, h7, h8⟩ := h
  rw [foldDigitsM, foldColumnM_checked (by omega) (by omega),
    foldColumnM_checked (by omega) (by omega), foldColumnM_checked (by omega) (by omega),
    foldColumnM_checked (by omega) (by omega)]
  rfl

theorem carryWideM_checked {o : Wide} (h0 : o.o0 < 2 ^ 120) (h1 : o.o1 < 2 ^ 120)
    (h2 : o.o2 < 2 ^ 120) (h3 : o.o3 < 2 ^ 120) (h4 : o.o4 < 2 ^ 120) :
    carryWideM checked o = some (carryWide o) := by
  rw [carryWideM, checked_bind (by omega), checked_carry h2, checked_carry h3, checked_carry h4]
  rfl

theorem foldWideM_checked {o : Wide} (h0 : o.o0 < 2 ^ 120) (h4 : o.o4 < 2 ^ 120) :
    foldWideM checked o = some (foldWide o) := by
  rw [foldWideM, foldColumnM_checked h0 (by omega)]
  rfl

theorem reduceDigitsM_checked {d : Digits} (h : d.Room) :
    reduceDigitsM checked d = some (reduceDigits d) := by
  have hlow := (carryDigits_spec h).1
  obtain ⟨-, f0, f1, f2, f3, f4⟩ := foldDigits_spec hlow
  simp only [reduceDigitsM, reduceDigits, Option.bind_eq_bind]
  rw [carryDigitsM_checked h, Option.bind_some, foldDigitsM_checked hlow, Option.bind_some]
  generalize foldDigits (carryDigits d) = o at *
  obtain ⟨c0, c1, c2, c3, c4⟩ := carryWide_bounds f4
  rw [carryWideM_checked (by omega) (by omega) (by omega) (by omega) (by omega), Option.bind_some]
  generalize carryWide o = o₁ at *
  obtain ⟨-, g0, g4⟩ := foldWide_spec c0 (by omega)
  have g1 : (foldWide o₁).o1 = o₁.o1 := rfl
  have g2 : (foldWide o₁).o2 = o₁.o2 := rfl
  have g3 : (foldWide o₁).o3 = o₁.o3 := rfl
  rw [foldWideM_checked (by omega) (by omega), Option.bind_some,
    carryWideM_checked (by omega) (by omega) (by omega) (by omega) (by omega)]
  rfl

/-- No operation of a product of elements with limbs below `2^54` wraps. -/
theorem mulM_checked {a b : Field25519} (ha : a.Fits 54) (hb : b.Fits 54) :
    mulM checked a b = some (mul a b) := by
  rw [mulM, mulDigitsM_checked ha hb, Option.bind_eq_bind, Option.bind_some,
    reduceDigitsM_checked (mulDigits_spec ha hb).1, mul]

/-- The product operation by operation is `operator*`; on limbs below `2^54` none of its
operations wraps, and the result is exact and weakly reduced. Squares are products. -/
theorem mul_square_spec :
    (∀ a b : Field25519, mulM (m := Id) u128 a b = mul a b) ∧
    (∀ a b : Field25519, a.Fits 54 → b.Fits 54 →
      mulM checked a b = some (mul a b) ∧ (mul a b).Tight ∧
        (mul a b).value ≡ a.value * b.value [MOD p25519]) ∧
    ∀ a : Field25519, square a = mul a a :=
  ⟨mulM_u128, fun _ _ ha hb => ⟨mulM_checked ha hb, mul_spec ha hb⟩, square_eq_mul⟩

end PeerToPeer.Crypto.Field25519
