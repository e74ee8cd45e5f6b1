import PeerToPeer.Crypto.FieldOps
import PeerToPeer.Lib.Loop

/-!
`field_q`: scalars modulo the group order `L`, in limbs of 52 bits.

A scalar may also hold a raw 256-bit integer, as `from_bytes` loads it and
`clamp` changes it; only the arithmetic operations reduce. Reduction subtracts
`L` up to sixteen times, with borrows propagated through signed 128-bit
differences, here integers.
-/

namespace PeerToPeer.Crypto

open PeerToPeer.Lib

/-- `field_q`. -/
structure FieldQ where
  l0 : UInt64
  l1 : UInt64
  l2 : UInt64
  l3 : UInt64
  l4 : UInt64
  deriving DecidableEq, Inhabited

namespace FieldQ

/-- The group order. -/
def order : ℕ := 2 ^ 252 + 27742317777372353535851937790883648493

def p : FieldQ := ⟨0x2631a5cf5d3ed, 0xdea2f79cd6581, 0x14def9, 0x0, 0x100000000000⟩

def zero : FieldQ := ⟨0, 0, 0, 0, 0⟩

def one : FieldQ := ⟨1, 0, 0, 0, 0⟩

/-- `limb_bases` of limbs 0 to 3. -/
def base52 : UInt64 := (1 : UInt64) <<< 52

/-- `limb_bases` of limb 4. -/
def base45 : UInt64 := (1 : UInt64) <<< 45

/-- `normalize_low`. -/
def normalizeLow (x : FieldQ) : FieldQ :=
  let l1 := x.l1 + (x.l0 >>> 52)
  let l2 := x.l2 + (l1 >>> 52)
  let l3 := x.l3 + (l2 >>> 52)
  let l4 := x.l4 + (l3 >>> 52)
  ⟨x.l0 &&& (base52 - 1), l1 &&& (base52 - 1), l2 &&& (base52 - 1),
    l3 &&& (base52 - 1), l4⟩

/-- One limb of a subtraction: the difference, with the limb's base added when
it is negative, and the next borrow. -/
def subLimb (a b borrow base : UInt64) : UInt64 × UInt64 :=
  let d : ℤ := (a.toNat : ℤ) - b.toNat - borrow.toNat
  let nextBorrow : UInt64 := if d < 0 then 1 else 0
  let borrowMask : UInt64 := 0 - nextBorrow
  (UInt64.ofInt d + (base &&& borrowMask), nextBorrow)

/-- `a - b` limb by limb, with the last borrow. -/
def subLimbs (a b : FieldQ) : FieldQ × UInt64 :=
  let s0 := subLimb a.l0 b.l0 0 base52
  let s1 := subLimb a.l1 b.l1 s0.2 base52
  let s2 := subLimb a.l2 b.l2 s1.2 base52
  let s3 := subLimb a.l3 b.l3 s2.2 base52
  let s4 := subLimb a.l4 b.l4 s3.2 base45
  (⟨s0.1, s1.1, s2.1, s3.1, s4.1⟩, s4.2)

def ctSelect (a b : FieldQ) (c : Choice) : FieldQ :=
  ⟨ctSelectWord a.l0 b.l0 c, ctSelectWord a.l1 b.l1 c, ctSelectWord a.l2 b.l2 c,
    ctSelectWord a.l3 b.l3 c, ctSelectWord a.l4 b.l4 c⟩

/-- One round of `reduce_inplace`: subtract `L` unless that borrows. -/
def reduceRound (x : FieldQ) : FieldQ :=
  let x := normalizeLow x
  let s := subLimbs x p
  ctSelect s.1 x (Choice.fromNonzero s.2).not

/-- `reduce_inplace`. -/
def reduce (x : FieldQ) : FieldQ :=
  let y := normalizeLow (loopDown (fun _ => reduceRound) 16 (normalizeLow x))
  ⟨y.l0 &&& (base52 - 1), y.l1 &&& (base52 - 1), y.l2 &&& (base52 - 1),
    y.l3 &&& (base52 - 1), y.l4 &&& (base45 - 1)⟩

/-- `operator+`. -/
def add (a b : FieldQ) : FieldQ :=
  reduce ⟨b.l0 + a.l0, b.l1 + a.l1, b.l2 + a.l2, b.l3 + a.l3, b.l4 + a.l4⟩

/-- `operator-`. -/
def sub (a b : FieldQ) : FieldQ := reduce (add a (subLimbs p (reduce b)).1)

/-- Unary `operator-`. -/
def neg (a : FieldQ) : FieldQ := sub p a

/-- `get_bit_i`. -/
def getBitI (x : FieldQ) (bit : UInt8) : Choice :=
  let limbIdx : UInt8 :=
    if bit < 52 then 0 else if bit < 104 then 1 else if bit < 156 then 2
    else if bit < 208 then 3 else 4
  let bitInLimb : UInt8 :=
    if bit < 52 then bit else if bit < 104 then bit - 52 else if bit < 156 then bit - 104
    else if bit < 208 then bit - 156 else bit - 208
  let mask : UInt64 := (1 : UInt64) <<< bitInLimb.toUInt64
  let pick (i : UInt64) (l : UInt64) : Choice :=
    (Choice.fromEqual limbIdx.toUInt64 i).and (Choice.fromNonzero (l &&& mask))
  ((((Choice.falseChoice.or (pick 0 x.l0)).or (pick 1 x.l1)).or (pick 2 x.l2)).or
    (pick 3 x.l3)).or (pick 4 x.l4)

/-- `operator*`: double and add from the most significant bit. -/
def mul (a b : FieldQ) : FieldQ :=
  loopDown (fun i result =>
    let result := add result result
    let bit := getBitI b (UInt8.ofNat i)
    ctSelect (add result a) result bit) 253 zero

/-- Clears bits 0 to 2 and 255, sets bit 254. -/
def clamp (x : FieldQ) : FieldQ :=
  { x with
    l0 := x.l0 &&& ~~~7
    l4 := (x.l4 &&& ~~~((1 : UInt64) <<< 47)) ||| ((1 : UInt64) <<< 46) }

/-- `load_bits_le`. -/
def loadBitsLe (bytes : Bytes 32) (startBit bitCount : ℕ) : UInt64 :=
  (List.range bitCount).foldl (fun out i =>
    let bit : UInt8 :=
      (bytes.toList.getD ((startBit + i) / 8) 0 >>> UInt8.ofNat ((startBit + i) % 8)) &&& 1
    out ||| (bit.toUInt64 <<< UInt64.ofNat i)) 0

/-- `store_bits_le`. -/
def storeBitsLe (bytes : Bytes 32) (value : UInt64) (startBit bitCount : ℕ) : Bytes 32 :=
  (List.range bitCount).foldl (fun bytes i =>
    let bit : UInt8 := ((value >>> UInt64.ofNat i) &&& 1).toUInt8
    let byteIndex := (startBit + i) / 8
    let bitIndex := UInt8.ofNat ((startBit + i) % 8)
    bytes.setIfInBounds byteIndex
      ((bytes.toList.getD byteIndex 0 &&& ~~~((1 : UInt8) <<< bitIndex)) |||
        (bit <<< bitIndex))) bytes

/-- `from_bytes`: the raw 256-bit integer. -/
def fromBytes (b : Bytes 32) : FieldQ :=
  ⟨loadBitsLe b 0 52, loadBitsLe b 52 52, loadBitsLe b 104 52, loadBitsLe b 156 52,
    loadBitsLe b 208 48⟩

/-- `reduce_512`: bits from the most significant one, reducing after each. -/
def reduce512 (val : Bytes 64) : FieldQ :=
  loopDown (fun i A =>
    let A := add A A
    let bit := Choice.fromNonzero
      ((val.toList.getD (i / 8) 0 >>> UInt8.ofNat (i % 8)) &&& 1).toUInt64
    let withBit := add A one
    reduce (ctSelect withBit A bit)) 512 zero

/-- `from_bytes_mod_l`. -/
def fromBytesModL (b : Bytes 32) : FieldQ :=
  reduce512 (b ++ (Vector.replicate 32 0 : Bytes 32))

def toBytes (x : FieldQ) : Bytes 32 :=
  let f := reduce x
  let ret : Bytes 32 := Vector.replicate 32 0
  let ret := storeBitsLe ret f.l0 0 52
  let ret := storeBitsLe ret f.l1 52 52
  let ret := storeBitsLe ret f.l2 104 52
  let ret := storeBitsLe ret f.l3 156 52
  storeBitsLe ret f.l4 208 45

theorem ctSelect_eq (a b : FieldQ) (c : Choice) :
    ctSelect a b c = if c.unwrapPublic then a else b := by
  simp only [ctSelect, ctSelectWord_eq]
  cases c.unwrapPublic <;> rfl

end FieldQ

end PeerToPeer.Crypto
