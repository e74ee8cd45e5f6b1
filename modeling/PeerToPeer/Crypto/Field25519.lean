import PeerToPeer.Crypto.FieldOps

/-!
`field_25519` as the code computes it: five limbs of 51 bits in 64-bit words.

Additions do not carry, subtractions form `p - b` limb by limb, and products
are weakly reduced. Limbs wrap at 64 bits and the columns of a product at 128
bits; both are written out, since the proofs have to show where they do not
happen. The 128-bit words are natural numbers reduced by `u128`.
-/

namespace PeerToPeer.Crypto

/-- `field_25519`, little-endian in base `2^51`. -/
structure Field25519 where
  l0 : UInt64
  l1 : UInt64
  l2 : UInt64
  l3 : UInt64
  l4 : UInt64
  deriving DecidableEq, Inhabited

/-- Wrapping to `__uint128_t`. -/
def u128 (n : ℕ) : ℕ := n % 2 ^ 128

namespace Field25519

def mask51 : UInt64 := ((1 : UInt64) <<< 51) - 1

def zero : Field25519 := ⟨0, 0, 0, 0, 0⟩

def one : Field25519 := ⟨1, 0, 0, 0, 0⟩

def p : Field25519 :=
  ⟨mask51 - 18, mask51, mask51, mask51, mask51⟩

/-- `operator+`. -/
def add (a b : Field25519) : Field25519 :=
  ⟨b.l0 + a.l0, b.l1 + a.l1, b.l2 + a.l2, b.l3 + a.l3, b.l4 + a.l4⟩

/-- `operator+(uint64_t)`. -/
def addWord (a : Field25519) (w : UInt64) : Field25519 := { a with l0 := a.l0 + w }

def ctSelect (a b : Field25519) (c : Choice) : Field25519 :=
  ⟨ctSelectWord a.l0 b.l0 c, ctSelectWord a.l1 b.l1 c, ctSelectWord a.l2 b.l2 c,
    ctSelectWord a.l3 b.l3 c, ctSelectWord a.l4 b.l4 c⟩

/-- `ct_swap`: the second component selects with the arguments exchanged. -/
def ctSwap (a b : Field25519) (c : Choice) : Field25519 × Field25519 :=
  (ctSelect b a c, ctSelect a b c)

/-! ### Reduction -/

/-- The carry loop over limbs 0 to 3. -/
def carry (x : Field25519) : Field25519 :=
  let l1 := x.l1 + (x.l0 >>> 51)
  let l2 := x.l2 + (l1 >>> 51)
  let l3 := x.l3 + (l2 >>> 51)
  let l4 := x.l4 + (l3 >>> 51)
  ⟨x.l0 &&& mask51, l1 &&& mask51, l2 &&& mask51, l3 &&& mask51, l4⟩

/-- The part of the top limb from bit 255 on, times 19, goes to limb 0. -/
def foldTop (x : Field25519) : Field25519 :=
  { x with l0 := x.l0 + (x.l4 >>> 51) * 19, l4 := x.l4 &&& mask51 }

/-- `eq_raw`. -/
def eqRaw (a b : Field25519) : Choice :=
  ((((Choice.fromEqual a.l0 b.l0).and (Choice.fromEqual a.l1 b.l1)).and
    (Choice.fromEqual a.l2 b.l2)).and (Choice.fromEqual a.l3 b.l3)).and
    (Choice.fromEqual a.l4 b.l4)

/-- One turn of the scan against `p + i`. -/
def scanStep (x : Field25519) (s : Field25519 × Choice) (i : ℕ) : Field25519 × Choice :=
  let hit := eqRaw x (addWord p (UInt64.ofNat i))
  (ctSelect (addWord zero (UInt64.ofNat i)) s.1 hit, s.2.or hit)

/-- The scan for the nineteen values `p, …, p + 18`. -/
def canonicalize (x : Field25519) : Field25519 :=
  let s := (List.range 19).foldl (scanStep x) (zero, Choice.falseChoice)
  ctSelect s.1 x s.2

/-- `reduce_inplace`. -/
def reduce (x : Field25519) : Field25519 := canonicalize (carry (foldTop (carry x)))

/-- `operator-`: `(p - b) + a`, limb by limb. -/
def sub (a b : Field25519) : Field25519 :=
  let x := reduce b
  let r : Field25519 :=
    ⟨p.l0 - x.l0, p.l1 - x.l1, p.l2 - x.l2, p.l3 - x.l3, p.l4 - x.l4⟩
  add r a

/-- Unary `operator-`. -/
def neg (a : Field25519) : Field25519 := sub p a

/-! ### Products -/

/-- The nine 128-bit columns of a product. -/
structure Digits where
  d0 : ℕ
  d1 : ℕ
  d2 : ℕ
  d3 : ℕ
  d4 : ℕ
  d5 : ℕ
  d6 : ℕ
  d7 : ℕ
  d8 : ℕ
  deriving DecidableEq

/-- The columns of the schoolbook product; a sum that wraps after each summand
wraps once at the end. -/
def mulDigits (a b : Field25519) : Digits :=
  let a0 := a.l0.toNat; let a1 := a.l1.toNat; let a2 := a.l2.toNat
  let a3 := a.l3.toNat; let a4 := a.l4.toNat
  let b0 := b.l0.toNat; let b1 := b.l1.toNat; let b2 := b.l2.toNat
  let b3 := b.l3.toNat; let b4 := b.l4.toNat
  { d0 := u128 (a0 * b0)
    d1 := u128 (a0 * b1 + a1 * b0)
    d2 := u128 (a0 * b2 + a1 * b1 + a2 * b0)
    d3 := u128 (a0 * b3 + a1 * b2 + a2 * b1 + a3 * b0)
    d4 := u128 (a0 * b4 + a1 * b3 + a2 * b2 + a3 * b1 + a4 * b0)
    d5 := u128 (a1 * b4 + a2 * b3 + a3 * b2 + a4 * b1)
    d6 := u128 (a2 * b4 + a3 * b3 + a4 * b2)
    d7 := u128 (a3 * b4 + a4 * b3)
    d8 := u128 (a4 * b4) }

/-- The columns of the square: the diagonal products, then the doubled limb
`ai2` times the later ones. -/
def squareDigits (a : Field25519) : Digits :=
  let a0 := a.l0.toNat; let a1 := a.l1.toNat; let a2 := a.l2.toNat
  let a3 := a.l3.toNat; let a4 := a.l4.toNat
  { d0 := u128 (a0 * a0)
    d1 := u128 (u128 (u128 (a0 * 2) * a1))
    d2 := u128 (a1 * a1 + u128 (u128 (a0 * 2) * a2))
    d3 := u128 (u128 (u128 (a0 * 2) * a3) + u128 (u128 (a1 * 2) * a2))
    d4 := u128 (a2 * a2 + u128 (u128 (a0 * 2) * a4) + u128 (u128 (a1 * 2) * a3))
    d5 := u128 (u128 (u128 (a1 * 2) * a4) + u128 (u128 (a2 * 2) * a3))
    d6 := u128 (a3 * a3 + u128 (u128 (a2 * 2) * a4))
    d7 := u128 (u128 (u128 (a3 * 2) * a4))
    d8 := u128 (a4 * a4) }

/-- The carry loop over columns 0 to 7. -/
def carryDigits (d : Digits) : Digits :=
  let d1 := u128 (d.d1 + d.d0 / 2 ^ 51)
  let d2 := u128 (d.d2 + d1 / 2 ^ 51)
  let d3 := u128 (d.d3 + d2 / 2 ^ 51)
  let d4 := u128 (d.d4 + d3 / 2 ^ 51)
  let d5 := u128 (d.d5 + d4 / 2 ^ 51)
  let d6 := u128 (d.d6 + d5 / 2 ^ 51)
  let d7 := u128 (d.d7 + d6 / 2 ^ 51)
  let d8 := u128 (d.d8 + d7 / 2 ^ 51)
  ⟨d.d0 % 2 ^ 51, d1 % 2 ^ 51, d2 % 2 ^ 51, d3 % 2 ^ 51, d4 % 2 ^ 51, d5 % 2 ^ 51,
    d6 % 2 ^ 51, d7 % 2 ^ 51, d8⟩

/-- Five 128-bit words on their way back to limbs. -/
structure Wide where
  o0 : ℕ
  o1 : ℕ
  o2 : ℕ
  o3 : ℕ
  o4 : ℕ
  deriving DecidableEq

/-- Columns 5 to 8 fold onto 0 to 3, since `2^255` is 19 modulo `p`. -/
def foldDigits (d : Digits) : Wide :=
  ⟨u128 (d.d0 + u128 (d.d5 * 19)), u128 (d.d1 + u128 (d.d6 * 19)),
    u128 (d.d2 + u128 (d.d7 * 19)), u128 (d.d3 + u128 (d.d8 * 19)), d.d4⟩

def carryWide (o : Wide) : Wide :=
  let o1 := u128 (o.o1 + o.o0 / 2 ^ 51)
  let o2 := u128 (o.o2 + o1 / 2 ^ 51)
  let o3 := u128 (o.o3 + o2 / 2 ^ 51)
  let o4 := u128 (o.o4 + o3 / 2 ^ 51)
  ⟨o.o0 % 2 ^ 51, o1 % 2 ^ 51, o2 % 2 ^ 51, o3 % 2 ^ 51, o4⟩

def foldWide (o : Wide) : Wide :=
  { o with o0 := u128 (o.o0 + u128 (o.o4 / 2 ^ 51 * 19)), o4 := o.o4 % 2 ^ 51 }

def Wide.toLimbs (o : Wide) : Field25519 :=
  ⟨.ofNat o.o0, .ofNat o.o1, .ofNat o.o2, .ofNat o.o3, .ofNat o.o4⟩

/-- `reduce_digits`. -/
def reduceDigits (d : Digits) : Field25519 :=
  (carryWide (foldWide (carryWide (foldDigits (carryDigits d))))).toLimbs

/-- `operator*`. -/
def mul (a b : Field25519) : Field25519 := reduceDigits (mulDigits a b)

def square (a : Field25519) : Field25519 := reduceDigits (squareDigits a)

/-! ### Comparison -/

/-- `is_zero`. -/
def isZero (a : Field25519) : Choice :=
  let r := reduce a
  Choice.fromEqual (r.l0 ||| r.l1 ||| r.l2 ||| r.l3 ||| r.l4) 0

/-- `operator==`. -/
def equal (a b : Field25519) : Choice :=
  let x := reduce b
  let y := reduce a
  ((((Choice.trueChoice.and (.fromEqual x.l0 y.l0)).and (.fromEqual x.l1 y.l1)).and
    (.fromEqual x.l2 y.l2)).and (.fromEqual x.l3 y.l3)).and (.fromEqual x.l4 y.l4)

/-! ### Byte encoding -/

def toBytes (a : Field25519) : Bytes 32 :=
  let f := reduce a
  let byte (x : UInt64) : UInt8 := x.toUInt8
  #v[byte (f.l0 &&& 0xFF), byte ((f.l0 >>> 8) &&& 0xFF), byte ((f.l0 >>> 16) &&& 0xFF),
    byte ((f.l0 >>> 24) &&& 0xFF), byte ((f.l0 >>> 32) &&& 0xFF),
    byte ((f.l0 >>> 40) &&& 0xFF),
    byte ((f.l0 >>> 48) &&& 0x07) ||| byte ((f.l1 <<< 3) &&& 0xFF),
    byte ((f.l1 >>> 5) &&& 0xFF), byte ((f.l1 >>> 13) &&& 0xFF),
    byte ((f.l1 >>> 21) &&& 0xFF), byte ((f.l1 >>> 29) &&& 0xFF),
    byte ((f.l1 >>> 37) &&& 0xFF),
    byte ((f.l1 >>> 45) &&& 0x3F) ||| byte ((f.l2 <<< 6) &&& 0xFF),
    byte ((f.l2 >>> 2) &&& 0xFF), byte ((f.l2 >>> 10) &&& 0xFF),
    byte ((f.l2 >>> 18) &&& 0xFF), byte ((f.l2 >>> 26) &&& 0xFF),
    byte ((f.l2 >>> 34) &&& 0xFF), byte ((f.l2 >>> 42) &&& 0xFF),
    byte ((f.l2 >>> 50) &&& 0x01) ||| byte ((f.l3 <<< 1) &&& 0xFF),
    byte ((f.l3 >>> 7) &&& 0xFF), byte ((f.l3 >>> 15) &&& 0xFF),
    byte ((f.l3 >>> 23) &&& 0xFF), byte ((f.l3 >>> 31) &&& 0xFF),
    byte ((f.l3 >>> 39) &&& 0xFF),
    byte ((f.l3 >>> 47) &&& 0x0F) ||| byte ((f.l4 <<< 4) &&& 0xFF),
    byte ((f.l4 >>> 4) &&& 0xFF), byte ((f.l4 >>> 12) &&& 0xFF),
    byte ((f.l4 >>> 20) &&& 0xFF), byte ((f.l4 >>> 28) &&& 0xFF),
    byte ((f.l4 >>> 36) &&& 0xFF), byte ((f.l4 >>> 44) &&& 0x7F)]

/-- The five limbs of a 255-bit little-endian string, before reduction. -/
def load (b : Bytes 32) : Field25519 :=
  let w (i : Fin 32) : UInt64 := (b.get i).toUInt64
  let top : UInt64 := (b.get 31 &&& 0x7F).toUInt64
  ⟨(w 0 ||| w 1 <<< 8 ||| w 2 <<< 16 ||| w 3 <<< 24 ||| w 4 <<< 32 ||| w 5 <<< 40 |||
      w 6 <<< 48) &&& mask51,
    (w 6 >>> 3 ||| w 7 <<< 5 ||| w 8 <<< 13 ||| w 9 <<< 21 ||| w 10 <<< 29 |||
      w 11 <<< 37 ||| w 12 <<< 45) &&& mask51,
    (w 12 >>> 6 ||| w 13 <<< 2 ||| w 14 <<< 10 ||| w 15 <<< 18 ||| w 16 <<< 26 |||
      w 17 <<< 34 ||| w 18 <<< 42 ||| w 19 <<< 50) &&& mask51,
    (w 19 >>> 1 ||| w 20 <<< 7 ||| w 21 <<< 15 ||| w 22 <<< 23 ||| w 23 <<< 31 |||
      w 24 <<< 39 ||| w 25 <<< 47) &&& mask51,
    (w 25 >>> 4 ||| w 26 <<< 4 ||| w 27 <<< 12 ||| w 28 <<< 20 ||| w 29 <<< 28 |||
      w 30 <<< 36 ||| top <<< 44) &&& mask51⟩

def fromBytes (b : Bytes 32) : Field25519 := reduce (load b)

theorem ctSelect_eq (a b : Field25519) (c : Choice) :
    ctSelect a b c = if c.unwrapPublic then a else b := by
  simp only [ctSelect, ctSelectWord_eq]
  cases c.unwrapPublic <;> rfl

instance : CtSelect Field25519 := ⟨ctSelect, ctSelect_eq⟩

instance : Field25519Ops Field25519 where
  zero := zero
  one := one
  add := add
  sub := sub
  mul := mul
  neg := neg
  addWord := addWord
  square := square
  isZero := isZero
  equal := equal
  fromBytes := fromBytes
  toBytes := toBytes
  ctSwap := ctSwap
  ctSwap_eq a b c := by
    simp only [ctSwap, ctSelect_eq]
    cases c.unwrapPublic <;> rfl

end Field25519

end PeerToPeer.Crypto
