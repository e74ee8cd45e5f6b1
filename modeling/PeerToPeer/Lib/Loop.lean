import Mathlib.Data.Nat.Bitwise
import Mathlib.Tactic.Ring

/-!
Counted loops that run from a bound down to zero.
-/

namespace PeerToPeer.Lib

variable {α : Type*}

/-- `for (i = n - 1; i >= 0; --i) a = f(i, a)`. -/
def loopDown (f : ℕ → α → α) : ℕ → α → α
  | 0, a => a
  | n + 1, a => loopDown f n (f n a)

@[simp] theorem loopDown_zero (f : ℕ → α → α) (a : α) : loopDown f 0 a = a := rfl

theorem loopDown_succ (f : ℕ → α → α) (n : ℕ) (a : α) :
    loopDown f (n + 1) a = loopDown f n (f n a) := rfl

/-- The invariant rule: `P n a` holds with `n` turns to go. -/
theorem loopDown_induction {f : ℕ → α → α} {P : ℕ → α → Prop} {n : ℕ} {a : α}
    (hinit : P n a) (hstep : ∀ k < n, ∀ a, P (k + 1) a → P k (f k a)) :
    P 0 (loopDown f n a) := by
  induction n generalizing a with
  | zero => exact hinit
  | succ n ih =>
      apply ih
      · exact hstep n (Nat.lt_succ_self n) a hinit
      · exact fun k hk => hstep k (Nat.lt_succ_of_lt hk)

/-- The relational rule for two loops that run side by side. -/
theorem loopDown_rel {β : Type*} {f : ℕ → α → α} {g : ℕ → β → β} {R : α → β → Prop}
    {n : ℕ} {a : α} {b : β} (hinit : R a b)
    (hstep : ∀ k < n, ∀ a b, R a b → R (f k a) (g k b)) :
    R (loopDown f n a) (loopDown g n b) := by
  induction n generalizing a b with
  | zero => exact hinit
  | succ n ih =>
      apply ih
      · exact hstep n (Nat.lt_succ_self n) a b hinit
      · exact fun k hk => hstep k (Nat.lt_succ_of_lt hk)

/-- Every turn of the loop starts in a state with `C`. -/
def loopAll (C : ℕ → α → Prop) (f : ℕ → α → α) : ℕ → α → Prop
  | 0, _ => True
  | n + 1, a => C n a ∧ loopAll C f n (f n a)

instance decidableLoopAll (C : ℕ → α → Prop) [∀ k a, Decidable (C k a)] (f : ℕ → α → α) :
    ∀ n a, Decidable (loopAll C f n a)
  | 0, _ => inferInstanceAs (Decidable True)
  | n + 1, a =>
      have := decidableLoopAll C f n (f n a)
      inferInstanceAs (Decidable (_ ∧ _))

/-- The relational rule for a loop that follows another as long as `C` holds. -/
theorem loopDown_rel_of_all {β : Type*} {f : ℕ → α → α} {g : ℕ → β → β} {R : α → β → Prop}
    {C : ℕ → α → Prop} {n : ℕ} {a : α} {b : β} (hinit : R a b) (hall : loopAll C f n a)
    (hstep : ∀ k < n, ∀ a b, R a b → C k a → R (f k a) (g k b)) :
    R (loopDown f n a) (loopDown g n b) := by
  induction n generalizing a b with
  | zero => exact hinit
  | succ n ih =>
      obtain ⟨hC, hrest⟩ := hall
      apply ih
      · exact hstep n (Nat.lt_succ_self n) a b hinit hC
      · exact hrest
      · exact fun k hk => hstep k (Nat.lt_succ_of_lt hk)

/-- A condition on the turns of a loop, checked on a loop that follows it. -/
theorem loopAll_of_rel {β : Type*} {f : ℕ → α → α} {g : ℕ → β → β} {R : α → β → Prop}
    {C : ℕ → α → Prop} {D : ℕ → β → Prop} {n : ℕ} {a : α} {b : β} (hinit : R a b)
    (hall : loopAll D g n b) (hcheck : ∀ k < n, ∀ a b, R a b → D k b → C k a)
    (hstep : ∀ k < n, ∀ a b, R a b → C k a → R (f k a) (g k b)) : loopAll C f n a := by
  induction n generalizing a b with
  | zero => trivial
  | succ n ih =>
      obtain ⟨hD, hrest⟩ := hall
      have hC := hcheck n (Nat.lt_succ_self n) a b hinit hD
      refine ⟨hC, ih (hstep n (Nat.lt_succ_self n) a b hinit hC) hrest ?_ ?_⟩
      · exact fun k hk => hcheck k (Nat.lt_succ_of_lt hk)
      · exact fun k hk => hstep k (Nat.lt_succ_of_lt hk)

theorem div_two_pow_eq_bit (m k : ℕ) :
    m / 2 ^ k = 2 * (m / 2 ^ (k + 1)) + (m.testBit k).toNat := by
  rw [Nat.toNat_testBit, pow_succ, ← Nat.div_div_eq_div_mul]
  omega

/-- The rule for loops over the bits of a number, most significant bit first:
each turn doubles what is known and adds the next bit. -/
theorem loopDown_bits {f : ℕ → α → α} {R : ℕ → α → Prop} {m n : ℕ} {a : α}
    (hm : m < 2 ^ n) (hinit : R 0 a)
    (hstep : ∀ k < n, ∀ j a, R j a → R (2 * j + (m.testBit k).toNat) (f k a)) :
    R m (loopDown f n a) := by
  have h := loopDown_induction (f := f) (n := n) (a := a) (P := fun k a => R (m / 2 ^ k) a)
    (by rwa [Nat.div_eq_of_lt hm]) (by
      intro k hk a ha
      rw [div_two_pow_eq_bit]
      exact hstep k hk _ a ha)
  rwa [pow_zero, Nat.div_one] at h

end PeerToPeer.Lib
