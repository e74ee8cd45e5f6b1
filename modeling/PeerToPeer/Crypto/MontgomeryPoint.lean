import PeerToPeer.Crypto.FieldQ

/-!
`montgomery_point` and `x25519`: the constant-time ladder on `x`-coordinates,
over any reading of the field operations.
-/

namespace PeerToPeer.Crypto

open PeerToPeer.Lib Field25519Ops

/-- `montgomery_point`: a pair `(x : z)`. -/
structure MontgomeryPoint (F : Type) where
  x : F
  z : F
  deriving DecidableEq

namespace MontgomeryPoint

variable {F : Type} [Field25519Ops F]

def fromAffine (x : F) : MontgomeryPoint F := ⟨x, 1⟩

def toAffine (P : MontgomeryPoint F) : F := P.x * invert P.z

def basePoint : MontgomeryPoint F := fromAffine (addWord 1 8)

/-- `ct_swap`. -/
def ctSwap (a b : MontgomeryPoint F) (c : Choice) :
    MontgomeryPoint F × MontgomeryPoint F :=
  let xs := Field25519Ops.ctSwap a.x b.x c
  let zs := Field25519Ops.ctSwap a.z b.z c
  (⟨xs.1, zs.1⟩, ⟨xs.2, zs.2⟩)

/-- The lambda `step` of `operator*`, with `u` for `this->x`. -/
def step (u : F) (s : MontgomeryPoint F × MontgomeryPoint F) :
    MontgomeryPoint F × MontgomeryPoint F :=
  let x0 := s.1
  let x1 := s.2
  let A := x0.x + x0.z
  let AA := square A
  let B := x0.x - x0.z
  let BB := square B
  let E := AA - BB
  let C := x1.x + x1.z
  let D := x1.x - x1.z
  let DA := D * A
  let CB := C * B
  let a24_E := addWord 0 121665 * E
  (⟨AA * BB, E * (AA + a24_E)⟩, ⟨square (DA + CB), u * square (DA - CB)⟩)

/-- The loop state: the two points and the previous bit. -/
structure Ladder (F : Type) where
  x0 : MontgomeryPoint F
  x1 : MontgomeryPoint F
  previousBit : Choice

/-- The swap at the head of a turn of the loop. -/
def ladderSwap (s : FieldQ) (i : ℕ) (l : Ladder F) :
    MontgomeryPoint F × MontgomeryPoint F :=
  ctSwap l.x0 l.x1 ((s.getBitI (UInt8.ofNat i)).xor l.previousBit)

/-- One turn of the loop. -/
def ladderTurn (u : F) (s : FieldQ) (i : ℕ) (l : Ladder F) : Ladder F :=
  let xs := step u (ladderSwap s i l)
  ⟨xs.1, xs.2, s.getBitI (UInt8.ofNat i)⟩

def ladderInit (P : MontgomeryPoint F) : Ladder F := ⟨⟨1, 0⟩, P, .falseChoice⟩

/-- `operator*`. -/
def mul (P : MontgomeryPoint F) (s : FieldQ) : MontgomeryPoint F :=
  let l := loopDown (ladderTurn P.x s) 256 (ladderInit P)
  (ctSwap l.x0 l.x1 l.previousBit).1

end MontgomeryPoint

namespace X25519

variable (F : Type) [Field25519Ops F]

/-- The scalar of a private key. -/
def scalar (sk : Bytes 32) : FieldQ := (FieldQ.fromBytes sk).clamp

/-- `x25519::derive_public`. -/
def derivePublic (sk : Bytes 32) : Bytes 32 :=
  toBytes ((MontgomeryPoint.basePoint : MontgomeryPoint F).mul (scalar sk)).toAffine

/-- `x25519::exchange`. -/
def exchange (sk pk : Bytes 32) : CtOptional (Bytes 32) :=
  let point : MontgomeryPoint F := .fromAffine (fromBytes pk)
  let result := (point.mul (scalar sk)).toAffine
  CtOptional.fromChoice (toBytes result) (isZero result).not

end X25519

end PeerToPeer.Crypto
