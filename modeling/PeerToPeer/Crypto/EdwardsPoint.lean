import PeerToPeer.Crypto.FieldQ

/-!
`edwards_point`: the twisted Edwards curve `-x² + y² = 1 + d x² y²` in extended
coordinates, over any reading of the field operations.
-/

namespace PeerToPeer.Crypto

open PeerToPeer.Lib Field25519Ops

/-- `edwards_point`: extended coordinates `(X : Y : Z : T)`. -/
structure EdwardsPoint (F : Type) where
  x : F
  y : F
  z : F
  t : F

namespace EdwardsPoint

variable {F : Type} [Field25519Ops F]

def identity : EdwardsPoint F := ⟨0, 1, 1, 0⟩

instance : Inhabited (EdwardsPoint F) := ⟨identity⟩

/-- `get_d`: the constant `-121665/121666`. -/
def getD : F := (0 - addWord 0 121665) * invert (addWord 0 121666)

def get2d : F := getD + getD

/-- The candidate for `x²` at a given `y`. -/
def xSquared (y : F) : F :=
  let u := square y - 1
  let v := getD * square y + 1
  u * invert v

/-- The lowest bit of the encoding, the sign of RFC 8032. -/
def signBit (x : F) : UInt8 := (toBytes x)[0] &&& 1

/-- `base_point`. The source keeps the coordinates in static variables and
negates `x` in place when it is odd; after the first call it is even. -/
def basePoint : EdwardsPoint F :=
  let y : F := addWord 0 4 * invert (addWord 0 5)
  let x := (sqrt (xSquared y)).valueOr 0
  let x := if signBit x == 1 then -x else x
  ⟨x, y, 1, x * y⟩

/-- The bytes of `y`: the array with its highest bit cleared. -/
def clearSign (b : Bytes 32) : Bytes 32 := b.set 31 (b[31] &&& 0x7F)

/-- `from_bytes`. -/
def fromBytes (b : Bytes 32) : CtOptional (EdwardsPoint F) :=
  let signBit := (b[31] >>> 7) &&& 1
  let yBytes := clearSign b
  let y : F := Field25519Ops.fromBytes yBytes
  if toBytes y ≠ yBytes then CtOptional.none else
  let xOpt := sqrt (xSquared y)
  if ¬xOpt.isSomePublic then CtOptional.none else
  let x := xOpt.valueOr 0
  if (isZero x).unwrapPublic && signBit == 1 then CtOptional.none else
  let isCorrectSign :=
    Choice.fromEqual (EdwardsPoint.signBit x).toUInt64 signBit.toUInt64
  let x := CtSelect.ctSelect x (-x) isCorrectSign
  CtOptional.some ⟨x, y, 1, x * y⟩

/-- `to_bytes`. -/
def toBytes (P : EdwardsPoint F) : Bytes 32 :=
  let zInv := invert P.z
  let affineX := P.x * zInv
  let affineY := P.y * zInv
  let res := Field25519Ops.toBytes affineY
  res.set 31 (res[31] ||| (signBit affineX <<< 7))

/-- `operator+` (Hisil et al. 2008). -/
def add (P Q : EdwardsPoint F) : EdwardsPoint F :=
  let A := (P.y - P.x) * (Q.y - Q.x)
  let B := (P.y + P.x) * (Q.y + Q.x)
  let C := P.t * get2d * Q.t
  let D := P.z * (Q.z + Q.z)
  let E := B - A
  let F := D - C
  let G := D + C
  let H := B + A
  ⟨E * F, G * H, F * G, E * H⟩

def dbl (P : EdwardsPoint F) : EdwardsPoint F :=
  let A := square P.x
  let B := square P.y
  let C := square P.z + square P.z
  let H := A + B
  let E := H - square (P.x + P.y)
  let G := A - B
  let F := C + G
  ⟨E * F, G * H, F * G, E * H⟩

instance : CtSelect (EdwardsPoint F) where
  ctSelect a b c := ⟨CtSelect.ctSelect a.x b.x c, CtSelect.ctSelect a.y b.y c,
    CtSelect.ctSelect a.z b.z c, CtSelect.ctSelect a.t b.t c⟩
  ctSelect_eq a b c := by
    simp only [CtSelect.ctSelect_eq]
    cases c.unwrapPublic <;> rfl

/-- `operator*`: double and add from the most significant bit. -/
def mul (P : EdwardsPoint F) (s : FieldQ) : EdwardsPoint F :=
  loopDown (fun i res =>
    let res := dbl res
    let bit := s.getBitI (UInt8.ofNat i)
    CtSelect.ctSelect (add res P) res bit) 256 identity

/-- `operator==`: equality up to projective scale. -/
def equal (P Q : EdwardsPoint F) : Choice :=
  let X1Z2 := P.x * Q.z
  let X2Z1 := Q.x * P.z
  let Y1Z2 := P.y * Q.z
  let Y2Z1 := Q.y * P.z
  (Field25519Ops.equal X1Z2 X2Z1).and (Field25519Ops.equal Y1Z2 Y2Z1)

end EdwardsPoint

end PeerToPeer.Crypto
