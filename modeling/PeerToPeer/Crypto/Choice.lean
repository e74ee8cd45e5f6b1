import Mathlib.Data.Nat.Bitwise
import Mathlib.Tactic.SplitIfs

/-!
The constant-time booleans of `choice.hpp` and `ct_optional.hpp`.

A `choice` is a byte that is all ones or all zeros; selections and swaps mask
with its sign extension to a machine word. The lemmas of this file say that the
masked operations are the ordinary conditionals, and later modules only use
them in that form.
-/

namespace PeerToPeer.Crypto

/-- `choice`: a byte that is `0xFF` for true and `0x00` for false. -/
structure Choice where
  val : UInt8
  isMask : val = 0x00 ∨ val = 0xFF
  deriving DecidableEq

namespace Choice

def trueChoice : Choice := ⟨0xFF, .inr rfl⟩

def falseChoice : Choice := ⟨0x00, .inl rfl⟩

/-- `unwrap_public`. -/
def unwrapPublic (c : Choice) : Bool := c.val != 0

def not (c : Choice) : Choice :=
  ⟨c.val ^^^ 0xFF, by rcases c.isMask with h | h <;> rw [h] <;> decide⟩

def and (c o : Choice) : Choice :=
  ⟨c.val &&& o.val, by
    rcases c.isMask with h | h <;> rcases o.isMask with h' | h' <;> rw [h, h'] <;> decide⟩

def or (c o : Choice) : Choice :=
  ⟨c.val ||| o.val, by
    rcases c.isMask with h | h <;> rcases o.isMask with h' | h' <;> rw [h, h'] <;> decide⟩

def xor (c o : Choice) : Choice :=
  ⟨c.val ^^^ o.val, by
    rcases c.isMask with h | h <;> rcases o.isMask with h' | h' <;> rw [h, h'] <;> decide⟩

/-- The sign extension of the byte to 64 bits. -/
def mask (c : Choice) : UInt64 := c.val.toInt8.toInt64.toUInt64

/-- `is_non_zero` of the constructor that compares a difference with zero. -/
def isNonZero (diff : UInt64) : UInt64 := (diff ||| (0 - diff)) >>> 63

theorem isNonZero_eq (diff : UInt64) : isNonZero diff = if diff = 0 then 0 else 1 := by
  apply UInt64.toNat_inj.mp
  have hlt := diff.toNat_lt
  have hshift : (isNonZero diff).toNat =
      diff.toNat / 2 ^ 63 ||| (2 ^ 64 - diff.toNat) % 2 ^ 64 / 2 ^ 63 := by
    rw [isNonZero, UInt64.toNat_shiftRight, UInt64.toNat_or, UInt64.toNat_sub,
      Nat.shiftRight_eq_div_pow, Nat.or_div_two_pow]
    rfl
  rw [hshift]
  split_ifs with h
  · subst h
    decide
  · have hne : diff.toNat ≠ 0 := fun h0 => h (UInt64.toNat_inj.mp h0)
    -- one of `diff` and `-diff` has its top bit set
    have hcases : diff.toNat / 2 ^ 63 = 1 ∨
        diff.toNat / 2 ^ 63 = 0 ∧ (2 ^ 64 - diff.toNat) % 2 ^ 64 / 2 ^ 63 = 1 := by
      omega
    have hbit : (2 ^ 64 - diff.toNat) % 2 ^ 64 / 2 ^ 63 = 0 ∨
        (2 ^ 64 - diff.toNat) % 2 ^ 64 / 2 ^ 63 = 1 := by
      omega
    rcases hcases with h1 | ⟨h0, h1⟩
    · rcases hbit with h2 | h2 <;> rw [h1, h2] <;> decide
    · rw [h0, h1]
      decide

/-- The private constructor from a difference: true exactly for zero. -/
def ofDiff (diff : UInt64) : Choice :=
  ⟨(0 - (isNonZero diff ^^^ 1)).toUInt8 &&& 0xFF, by
    rw [isNonZero_eq]
    split_ifs <;> decide⟩

def fromEqual (a b : UInt64) : Choice := ofDiff (a - b)

def fromZero (value : UInt64) : Choice := ofDiff value

def fromNonzero (value : UInt64) : Choice := (ofDiff value).not

/-- The choice of a boolean. -/
def ofBool (b : Bool) : Choice := if b then trueChoice else falseChoice

/-! ### Reading a choice as a boolean -/

theorem eq_ofBool (c : Choice) : c = ofBool c.unwrapPublic := by
  obtain ⟨v, h | h⟩ := c <;> subst h <;> rfl

@[simp] theorem unwrapPublic_ofBool (b : Bool) : (ofBool b).unwrapPublic = b := by
  cases b <;> rfl

@[simp] theorem unwrapPublic_true : trueChoice.unwrapPublic = true := rfl

@[simp] theorem unwrapPublic_false : falseChoice.unwrapPublic = false := rfl

@[simp] theorem unwrapPublic_not (c : Choice) : c.not.unwrapPublic = !c.unwrapPublic := by
  rw [eq_ofBool c]
  cases c.unwrapPublic <;> rfl

@[simp] theorem unwrapPublic_and (c o : Choice) :
    (c.and o).unwrapPublic = (c.unwrapPublic && o.unwrapPublic) := by
  rw [eq_ofBool c, eq_ofBool o]
  cases c.unwrapPublic <;> cases o.unwrapPublic <;> rfl

@[simp] theorem unwrapPublic_or (c o : Choice) :
    (c.or o).unwrapPublic = (c.unwrapPublic || o.unwrapPublic) := by
  rw [eq_ofBool c, eq_ofBool o]
  cases c.unwrapPublic <;> cases o.unwrapPublic <;> rfl

@[simp] theorem unwrapPublic_xor (c o : Choice) :
    (c.xor o).unwrapPublic = (c.unwrapPublic ^^ o.unwrapPublic) := by
  rw [eq_ofBool c, eq_ofBool o]
  cases c.unwrapPublic <;> cases o.unwrapPublic <;> rfl

@[simp] theorem unwrapPublic_ofDiff (diff : UInt64) :
    (ofDiff diff).unwrapPublic = decide (diff = 0) := by
  simp only [unwrapPublic, ofDiff, isNonZero_eq]
  by_cases h : diff = 0 <;> simp only [h, if_true, if_false, decide_true, decide_false] <;> decide

@[simp] theorem unwrapPublic_fromEqual (a b : UInt64) :
    (fromEqual a b).unwrapPublic = decide (a = b) := by
  rw [fromEqual, unwrapPublic_ofDiff, decide_eq_decide, UInt64.sub_eq_iff_eq_add,
    UInt64.zero_add]

@[simp] theorem unwrapPublic_fromNonzero (v : UInt64) :
    (fromNonzero v).unwrapPublic = decide (v ≠ 0) := by
  simp [fromNonzero]

@[simp] theorem mask_ofBool (b : Bool) : (ofBool b).mask = if b then -1 else 0 := by
  cases b <;> decide

theorem mask_eq (c : Choice) : c.mask = if c.unwrapPublic then -1 else 0 := by
  rw [eq_ofBool c]
  simp

end Choice

/-- The types with a constant-time `ct_select(a, b, c)`, which must agree with
the conditional. -/
class CtSelect (α : Type) where
  ctSelect : α → α → Choice → α
  ctSelect_eq : ∀ a b c, ctSelect a b c = if c.unwrapPublic then a else b

export CtSelect (ctSelect ctSelect_eq)

/-- The masked selection of one word: `(a & mask) | (b & ~mask)`. -/
def ctSelectWord (a b : UInt64) (c : Choice) : UInt64 :=
  (a &&& c.mask) ||| (b &&& ~~~c.mask)

@[simp] theorem ctSelectWord_eq (a b : UInt64) (c : Choice) :
    ctSelectWord a b c = if c.unwrapPublic then a else b := by
  rw [ctSelectWord, c.mask_eq]
  cases c.unwrapPublic <;> simp

/-- The masked selection of one byte of an array. -/
def ctSelectByte (a b : UInt8) (c : Choice) : UInt8 :=
  (a &&& c.mask.toUInt8) ||| (b &&& ~~~c.mask.toUInt8)

@[simp] theorem ctSelectByte_eq (a b : UInt8) (c : Choice) :
    ctSelectByte a b c = if c.unwrapPublic then a else b := by
  rw [ctSelectByte, c.mask_eq]
  cases c.unwrapPublic <;> simp

instance (n : ℕ) : CtSelect (Vector UInt8 n) where
  ctSelect a b c := Vector.zipWith (fun x y => ctSelectByte x y c) a b
  ctSelect_eq a b c := by
    ext i hi
    cases h : c.unwrapPublic <;> simp [h]

/-- `ct_optional`: a value that is always there, and a choice that says whether
it counts. -/
structure CtOptional (α : Type) where
  value : α
  valid : Choice

namespace CtOptional

variable {α : Type}

def fromChoice (v : α) (c : Choice) : CtOptional α := ⟨v, c⟩

def some (v : α) : CtOptional α := ⟨v, .trueChoice⟩

def none [Inhabited α] : CtOptional α := ⟨default, .falseChoice⟩

/-- `is_some_public`. -/
def isSomePublic (o : CtOptional α) : Bool := o.valid.unwrapPublic

/-- `value_or`. -/
def valueOr [CtSelect α] (o : CtOptional α) (fallback : α) : α :=
  ctSelect o.value fallback o.valid

/-- The optional as an ordinary one. -/
def toOption (o : CtOptional α) : Option α :=
  if o.isSomePublic then Option.some o.value else Option.none

theorem valueOr_of_isSome [CtSelect α] {o : CtOptional α} (h : o.isSomePublic = true)
    (fallback : α) : o.valueOr fallback = o.value := by
  rw [valueOr, ctSelect_eq]
  exact if_pos h

@[simp] theorem isSomePublic_some (v : α) : (some v).isSomePublic = true := rfl

@[simp] theorem isSomePublic_none [Inhabited α] :
    (none : CtOptional α).isSomePublic = false := rfl

@[simp] theorem isSomePublic_fromChoice (v : α) (c : Choice) :
    (fromChoice v c).isSomePublic = c.unwrapPublic := rfl

end CtOptional

end PeerToPeer.Crypto
