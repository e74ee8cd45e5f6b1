import PeerToPeer.Crypto.FieldOps

/-!
The hash objects `sha_256` and `sha_512`.

Both classes buffer their input, compress each full block, and count the bits
compressed so far; `finalize` pads what is left with the bit length and resets
the object. The two compression functions differ in word size, rotations and
constants only, and share their definition here.
-/

namespace PeerToPeer.Crypto

open PeerToPeer.Lib

/-- The concept `hasher`: a streaming hash with digests of `n` bytes. -/
class Hasher (H : Type) (n : outParam ℕ) where
  init : H
  update : H → List UInt8 → H
  /-- The digest and the object after the call. -/
  finalize : H → Bytes n × H

/-- The static member `hash`. -/
def Hasher.hash (H : Type) {n : ℕ} [Hasher H n] (data : List UInt8) : Bytes n :=
  (finalize (update (init : H) data)).1

namespace Sha2

/-! ### Compression -/

section Compression

variable {W : Type} [Inhabited W] [Add W] [AndOp W] [XorOp W] [Complement W]

def choice (x y z : W) : W := (x &&& y) ^^^ (~~~x &&& z)

def majority (x y z : W) : W := (x &&& y) ^^^ (x &&& z) ^^^ (y &&& z)

/-- The eight state words. -/
structure State (W : Type) where
  a : W
  b : W
  c : W
  d : W
  e : W
  f : W
  g : W
  h : W
  deriving DecidableEq

/-- What distinguishes the two compression functions. -/
structure Params (W : Type) where
  sig0 : W → W
  sig1 : W → W
  SIG0 : W → W
  SIG1 : W → W
  K : List W

/-- The message schedule: sixteen words of the block and their expansion. -/
def schedule (P : Params W) (w : Array W) : Array W :=
  (List.range' 16 (P.K.length - 16)).foldl (fun w i =>
    w.push (P.sig1 w[i - 2]! + w[i - 7]! + P.sig0 w[i - 15]! + w[i - 16]!)) w

/-- One round of the compression loop. -/
def round (P : Params W) (s : State W) (k w : W) : State W :=
  let t1 := s.h + P.SIG1 s.e + choice s.e s.f s.g + k + w
  let t2 := P.SIG0 s.a + majority s.a s.b s.c
  ⟨t1 + t2, s.a, s.b, s.c, s.d + t1, s.e, s.f, s.g⟩

/-- `transform`, on the sixteen words of a block. -/
def transform (P : Params W) (s : State W) (block : Array W) : State W :=
  let r := (P.K.zip (schedule P block).toList).foldl (fun s kw => round P s kw.1 kw.2) s
  ⟨s.a + r.a, s.b + r.b, s.c + r.c, s.d + r.d, s.e + r.e, s.f + r.f, s.g + r.g, s.h + r.h⟩

end Compression

end Sha2

/-! ### SHA-256 -/

/-- The bytes that `sha_256` and `sha_512` hold back are fewer than a block. -/
structure Pending (size : ℕ) where
  bytes : List UInt8
  lt : bytes.length < size

namespace Pending

variable {size : ℕ}

def empty (h : 0 < size) : Pending size := ⟨[], h⟩

/-- `buffer[buffer_len++] = b`: either the buffer still has room, or a full
block is handed over. -/
def push (p : Pending size) (b : UInt8) : Pending size ⊕ List UInt8 :=
  if h : (p.bytes ++ [b]).length < size then .inl ⟨p.bytes ++ [b], h⟩
  else .inr (p.bytes ++ [b])

end Pending

/-- `sha_256`. -/
structure Sha256 where
  state : Sha2.State UInt32
  buffer : Pending 64
  bitLen : UInt64

namespace Sha256

def rotr (x n : UInt32) : UInt32 := (x >>> n) ||| (x <<< (32 - n))

/-- The fractional parts of the cube roots of the first 64 primes. -/
def K256 : List UInt32 := [
  0x428a2f98, 0x71374491, 0xb5c0fbcf, 0xe9b5dba5, 0x3956c25b, 0x59f111f1,
  0x923f82a4, 0xab1c5ed5, 0xd807aa98, 0x12835b01, 0x243185be, 0x550c7dc3,
  0x72be5d74, 0x80deb1fe, 0x9bdc06a7, 0xc19bf174, 0xe49b69c1, 0xefbe4786,
  0x0fc19dc6, 0x240ca1cc, 0x2de92c6f, 0x4a7484aa, 0x5cb0a9dc, 0x76f988da,
  0x983e5152, 0xa831c66d, 0xb00327c8, 0xbf597fc7, 0xc6e00bf3, 0xd5a79147,
  0x06ca6351, 0x14292967, 0x27b70a85, 0x2e1b2138, 0x4d2c6dfc, 0x53380d13,
  0x650a7354, 0x766a0abb, 0x81c2c92e, 0x92722c85, 0xa2bfe8a1, 0xa81a664b,
  0xc24b8b70, 0xc76c51a3, 0xd192e819, 0xd6990624, 0xf40e3585, 0x106aa070,
  0x19a4c116, 0x1e376c08, 0x2748774c, 0x34b0bcb5, 0x391c0cb3, 0x4ed8aa4a,
  0x5b9cca4f, 0x682e6ff3, 0x748f82ee, 0x78a5636f, 0x84c87814, 0x8cc70208,
  0x90befffa, 0xa4506ceb, 0xbef9a3f7, 0xc67178f2]

def params : Sha2.Params UInt32 where
  sig0 x := rotr x 7 ^^^ rotr x 18 ^^^ (x >>> 3)
  sig1 x := rotr x 17 ^^^ rotr x 19 ^^^ (x >>> 10)
  SIG0 x := rotr x 2 ^^^ rotr x 13 ^^^ rotr x 22
  SIG1 x := rotr x 6 ^^^ rotr x 11 ^^^ rotr x 25
  K := K256

def init : Sha256 where
  state := ⟨0x6a09e667, 0xbb67ae85, 0x3c6ef372, 0xa54ff53a, 0x510e527f, 0x9b05688c,
    0x1f83d9ab, 0x5be0cd19⟩
  buffer := .empty (by norm_num)
  bitLen := 0

/-- Word `i` of a block. -/
def loadWord (block : List UInt8) (i : ℕ) : UInt32 :=
  let byte (j : ℕ) : UInt32 := (block.getD (i * 4 + j) 0).toUInt32
  (byte 0 <<< 24) ||| (byte 1 <<< 16) ||| (byte 2 <<< 8) ||| byte 3

def transform (s : Sha2.State UInt32) (block : List UInt8) : Sha2.State UInt32 :=
  Sha2.transform params s ((Array.range 16).map (loadWord block))

/-- One byte of `update`. -/
def updateByte (o : Sha256) (b : UInt8) : Sha256 :=
  match o.buffer.push b with
  | .inl buffer => { o with buffer }
  | .inr block => ⟨transform o.state block, .empty (by norm_num), o.bitLen + 512⟩

def update (o : Sha256) (data : List UInt8) : Sha256 := data.foldl updateByte o

/-- The bytes that `finalize` writes for one state word. -/
def storeWord (w : UInt32) : List UInt8 :=
  [(w >>> 24).toUInt8, (w >>> 16).toUInt8, (w >>> 8).toUInt8, w.toUInt8]

/-- The state after the padding of `finalize`. -/
def finalState (o : Sha256) : Sha2.State UInt32 :=
  let totalBits := o.bitLen + UInt64.ofNat o.buffer.bytes.length * 8
  let length := beBytes 8 totalBits.toNat
  let buffer := o.buffer.bytes ++ [0x80]
  if buffer.length > 56 then
    let state := transform o.state (buffer ++ List.replicate (64 - buffer.length) 0)
    transform state (List.replicate 56 0 ++ length)
  else
    transform o.state (buffer ++ List.replicate (56 - buffer.length) 0 ++ length)

def digest (s : Sha2.State UInt32) : Bytes 32 :=
  ⟨(storeWord s.a ++ storeWord s.b ++ storeWord s.c ++ storeWord s.d ++ storeWord s.e ++
    storeWord s.f ++ storeWord s.g ++ storeWord s.h).toArray, rfl⟩

def finalize (o : Sha256) : Bytes 32 × Sha256 := (digest o.finalState, init)

end Sha256

instance : Hasher Sha256 32 := ⟨Sha256.init, Sha256.update, Sha256.finalize⟩

/-! ### SHA-512 -/

/-- `sha_512`: the bit count takes two words. -/
structure Sha512 where
  state : Sha2.State UInt64
  buffer : Pending 128
  bitLenLow : UInt64
  bitLenHigh : UInt64

namespace Sha512

def rotr64 (x n : UInt64) : UInt64 := (x >>> n) ||| (x <<< (64 - n))

def K512 : List UInt64 := [
  0x428a2f98d728ae22, 0x7137449123ef65cd, 0xb5c0fbcfec4d3b2f, 0xe9b5dba58189dbbc,
  0x3956c25bf348b538, 0x59f111f1b605d019, 0x923f82a4af194f9b, 0xab1c5ed5da6d8118,
  0xd807aa98a3030242, 0x12835b0145706fbe, 0x243185be4ee4b28c, 0x550c7dc3d5ffb4e2,
  0x72be5d74f27b896f, 0x80deb1fe3b1696b1, 0x9bdc06a725c71235, 0xc19bf174cf692694,
  0xe49b69c19ef14ad2, 0xefbe4786384f25e3, 0x0fc19dc68b8cd5b5, 0x240ca1cc77ac9c65,
  0x2de92c6f592b0275, 0x4a7484aa6ea6e483, 0x5cb0a9dcbd41fbd4, 0x76f988da831153b5,
  0x983e5152ee66dfab, 0xa831c66d2db43210, 0xb00327c898fb213f, 0xbf597fc7beef0ee4,
  0xc6e00bf33da88fc2, 0xd5a79147930aa725, 0x06ca6351e003826f, 0x142929670a0e6e70,
  0x27b70a8546d22ffc, 0x2e1b21385c26c926, 0x4d2c6dfc5ac42aed, 0x53380d139d95b3df,
  0x650a73548baf63de, 0x766a0abb3c77b2a8, 0x81c2c92e47edaee6, 0x92722c851482353b,
  0xa2bfe8a14cf10364, 0xa81a664bbc423001, 0xc24b8b70d0f89791, 0xc76c51a30654be30,
  0xd192e819d6ef5218, 0xd69906245565a910, 0xf40e35855771202a, 0x106aa07032bbd1b8,
  0x19a4c116b8d2d0c8, 0x1e376c085141ab53, 0x2748774cdf8eeb99, 0x34b0bcb5e19b48a8,
  0x391c0cb3c5c95a63, 0x4ed8aa4ae3418acb, 0x5b9cca4f7763e373, 0x682e6ff3d6b2b8a3,
  0x748f82ee5defb2fc, 0x78a5636f43172f60, 0x84c87814a1f0ab72, 0x8cc702081a6439ec,
  0x90befffa23631e28, 0xa4506cebde82bde9, 0xbef9a3f7b2c67915, 0xc67178f2e372532b,
  0xca273eceea26619c, 0xd186b8c721c0c207, 0xeada7dd6cde0eb1e, 0xf57d4f7fee6ed178,
  0x06f067aa72176fba, 0x0a637dc5a2c898a6, 0x113f9804bef90dae, 0x1b710b35131c471b,
  0x28db77f523047d84, 0x32caab7b40c72493, 0x3c9ebe0a15c9bebc, 0x431d67c49c100d4c,
  0x4cc5d4becb3e42b6, 0x597f299cfc657e2a, 0x5fcb6fab3ad6faec, 0x6c44198c4a475817]

def params : Sha2.Params UInt64 where
  sig0 x := rotr64 x 1 ^^^ rotr64 x 8 ^^^ (x >>> 7)
  sig1 x := rotr64 x 19 ^^^ rotr64 x 61 ^^^ (x >>> 6)
  SIG0 x := rotr64 x 28 ^^^ rotr64 x 34 ^^^ rotr64 x 39
  SIG1 x := rotr64 x 14 ^^^ rotr64 x 18 ^^^ rotr64 x 41
  K := K512

def init : Sha512 where
  state := ⟨0x6a09e667f3bcc908, 0xbb67ae8584caa73b, 0x3c6ef372fe94f82b, 0xa54ff53a5f1d36f1,
    0x510e527fade682d1, 0x9b05688c2b3e6c1f, 0x1f83d9abfb41bd6b, 0x5be0cd19137e2179⟩
  buffer := .empty (by norm_num)
  bitLenLow := 0
  bitLenHigh := 0

/-- Word `i` of a block. -/
def loadWord (block : List UInt8) (i : ℕ) : UInt64 :=
  let byte (j : ℕ) : UInt64 := (block.getD (i * 8 + j) 0).toUInt64
  (byte 0 <<< 56) ||| (byte 1 <<< 48) ||| (byte 2 <<< 40) ||| (byte 3 <<< 32) |||
    (byte 4 <<< 24) ||| (byte 5 <<< 16) ||| (byte 6 <<< 8) ||| byte 7

def transform (s : Sha2.State UInt64) (block : List UInt8) : Sha2.State UInt64 :=
  Sha2.transform params s ((Array.range 16).map (loadWord block))

/-- One byte of `update`. -/
def updateByte (o : Sha512) (b : UInt8) : Sha512 :=
  match o.buffer.push b with
  | .inl buffer => { o with buffer }
  | .inr block =>
      let low := o.bitLenLow + 1024
      ⟨transform o.state block, .empty (by norm_num), low,
        if low < 1024 then o.bitLenHigh + 1 else o.bitLenHigh⟩

def update (o : Sha512) (data : List UInt8) : Sha512 := data.foldl updateByte o

/-- The bytes that `finalize` writes for one state word. -/
def storeWord (w : UInt64) : List UInt8 :=
  [(w >>> 56).toUInt8, (w >>> 48).toUInt8, (w >>> 40).toUInt8, (w >>> 32).toUInt8,
    (w >>> 24).toUInt8, (w >>> 16).toUInt8, (w >>> 8).toUInt8, w.toUInt8]

/-- The state after the padding of `finalize`. -/
def finalState (o : Sha512) : Sha2.State UInt64 :=
  let low := o.bitLenLow + UInt64.ofNat o.buffer.bytes.length * 8
  let high := o.bitLenHigh + (if low < o.bitLenLow then 1 else 0)
  let length := beBytes 8 high.toNat ++ beBytes 8 low.toNat
  let buffer := o.buffer.bytes ++ [0x80]
  if buffer.length > 112 then
    let state := transform o.state (buffer ++ List.replicate (128 - buffer.length) 0)
    transform state (List.replicate 112 0 ++ length)
  else
    transform o.state (buffer ++ List.replicate (112 - buffer.length) 0 ++ length)

def digest (s : Sha2.State UInt64) : Bytes 64 :=
  ⟨(storeWord s.a ++ storeWord s.b ++ storeWord s.c ++ storeWord s.d ++ storeWord s.e ++
    storeWord s.f ++ storeWord s.g ++ storeWord s.h).toArray, rfl⟩

def finalize (o : Sha512) : Bytes 64 × Sha512 := (digest o.finalState, init)

end Sha512

instance : Hasher Sha512 64 := ⟨Sha512.init, Sha512.update, Sha512.finalize⟩

end PeerToPeer.Crypto
