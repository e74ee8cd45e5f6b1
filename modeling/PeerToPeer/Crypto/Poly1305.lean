import PeerToPeer.Crypto.FieldOps

/-!
`field_1305` and `poly_1305`: arithmetic modulo `2^130 - 5` in limbs of 26 bits,
and the one-time authenticator built on it.
-/

namespace PeerToPeer.Crypto

open PeerToPeer.Lib

/-- `field_1305`. -/
structure Field1305 where
  l0 : UInt64
  l1 : UInt64
  l2 : UInt64
  l3 : UInt64
  l4 : UInt64
  deriving DecidableEq

namespace Field1305

def mask26 : UInt64 := ((1 : UInt64) <<< 26) - 1

def zero : Field1305 := ⟨0, 0, 0, 0, 0⟩

/-- `operator+`, without carries. -/
def add (a b : Field1305) : Field1305 :=
  ⟨b.l0 + a.l0, b.l1 + a.l1, b.l2 + a.l2, b.l3 + a.l3, b.l4 + a.l4⟩

/-- The carries from limb 0 up to limb 4. -/
def carry (x : Field1305) : Field1305 :=
  let l1 := x.l1 + (x.l0 >>> 26)
  let l2 := x.l2 + (l1 >>> 26)
  let l3 := x.l3 + (l2 >>> 26)
  let l4 := x.l4 + (l3 >>> 26)
  ⟨x.l0 &&& mask26, l1 &&& mask26, l2 &&& mask26, l3 &&& mask26, l4⟩

/-- The fold of the carry out of limb 4: `2^130` is five. -/
def foldTop (x : Field1305) : Field1305 :=
  { x with l0 := x.l0 + (x.l4 >>> 26) * 5, l4 := x.l4 &&& mask26 }

/-- The nine digits of a product, with their carries propagated. -/
def mulDigits (a b : Field1305) : Field1305 × Field1305 :=
  let d0 := a.l0 * b.l0
  let d1 := a.l0 * b.l1 + a.l1 * b.l0 + (d0 >>> 26)
  let d2 := a.l0 * b.l2 + a.l1 * b.l1 + a.l2 * b.l0 + (d1 >>> 26)
  let d3 := a.l0 * b.l3 + a.l1 * b.l2 + a.l2 * b.l1 + a.l3 * b.l0 + (d2 >>> 26)
  let d4 := a.l0 * b.l4 + a.l1 * b.l3 + a.l2 * b.l2 + a.l3 * b.l1 + a.l4 * b.l0 + (d3 >>> 26)
  let d5 := a.l1 * b.l4 + a.l2 * b.l3 + a.l3 * b.l2 + a.l4 * b.l1 + (d4 >>> 26)
  let d6 := a.l2 * b.l4 + a.l3 * b.l3 + a.l4 * b.l2 + (d5 >>> 26)
  let d7 := a.l3 * b.l4 + a.l4 * b.l3 + (d6 >>> 26)
  let d8 := a.l4 * b.l4 + (d7 >>> 26)
  (⟨d0 &&& mask26, d1 &&& mask26, d2 &&& mask26, d3 &&& mask26, d4 &&& mask26⟩,
    ⟨d5 &&& mask26, d6 &&& mask26, d7 &&& mask26, d8, 0⟩)

/-- `operator*`. -/
def mul (a b : Field1305) : Field1305 :=
  let d := mulDigits a b
  let out : Field1305 := ⟨d.1.l0 + d.2.l0 * 5, d.1.l1 + d.2.l1 * 5, d.1.l2 + d.2.l2 * 5,
    d.1.l3 + d.2.l3 * 5, d.1.l4⟩
  carry (foldTop (carry out))

/-- `reduce_inplace`: the trial addition of five tells whether the value
reaches `2^130 - 5`. -/
def reduce (x : Field1305) : Field1305 :=
  let l := carry (foldTop (carry x))
  let c0 := l.l0 + 5
  let c1 := l.l1 + (c0 >>> 26)
  let c2 := l.l2 + (c1 >>> 26)
  let c3 := l.l3 + (c2 >>> 26)
  let c4 := l.l4 + (c3 >>> 26)
  let sel := (0 : UInt64) - (c4 >>> 26)
  let pick (c l : UInt64) : UInt64 := ((c &&& mask26) &&& sel) ||| (l &&& ~~~sel)
  ⟨pick c0 l.l0, pick c1 l.l1, pick c2 l.l2, pick c3 l.l3, pick c4 l.l4⟩

/-- The bytes that `from_bytes` reads, of the last one only two bits. -/
def word (bytes : Bytes 17) (i : Fin 17) : UInt64 :=
  (if i = 16 then bytes[i] &&& 0x03 else bytes[i]).toUInt64

/-- The limbs that `from_bytes` puts together of them. -/
def pack (w : Fin 17 → UInt64) : Field1305 :=
  ⟨(w 0 ||| w 1 <<< 8 ||| w 2 <<< 16 ||| w 3 <<< 24) &&& mask26,
    (w 3 >>> 2 ||| w 4 <<< 6 ||| w 5 <<< 14 ||| w 6 <<< 22) &&& mask26,
    (w 6 >>> 4 ||| w 7 <<< 4 ||| w 8 <<< 12 ||| w 9 <<< 20) &&& mask26,
    (w 9 >>> 6 ||| w 10 <<< 2 ||| w 11 <<< 10 ||| w 12 <<< 18) &&& mask26,
    (w 13 ||| w 14 <<< 8 ||| w 15 <<< 16 ||| w 16 <<< 24) &&& mask26⟩

/-- `from_bytes`: 17 little-endian bytes. -/
def fromBytes (bytes : Bytes 17) : Field1305 := reduce (pack (word bytes))

def toBytes (x : Field1305) : Bytes 17 :=
  let l := reduce x
  let byte (v : UInt64) (shift : UInt64) : UInt8 := ((v >>> shift) &&& 0xFF).toUInt8
  #v[byte l.l0 0, byte l.l0 8, byte l.l0 16,
    ((l.l0 >>> 24) &&& 0x03).toUInt8 ||| ((l.l1 <<< 2) &&& 0xFF).toUInt8,
    byte l.l1 6, byte l.l1 14,
    ((l.l1 >>> 22) &&& 0x0F).toUInt8 ||| ((l.l2 <<< 4) &&& 0xFF).toUInt8,
    byte l.l2 4, byte l.l2 12,
    ((l.l2 >>> 20) &&& 0x3F).toUInt8 ||| ((l.l3 <<< 6) &&& 0xFF).toUInt8,
    byte l.l3 2, byte l.l3 10, byte l.l3 18,
    byte l.l4 0, byte l.l4 8, byte l.l4 16, ((l.l4 >>> 24) &&& 0x03).toUInt8]

end Field1305

namespace Poly1305

/-- The first half of the key, clamped. -/
def clampedR (key : List UInt8) : Bytes 17 :=
  Vector.ofFn fun i =>
    let b := if i.val < 16 then key.getD i.val 0 else 0
    if i.val = 3 ∨ i.val = 7 ∨ i.val = 11 ∨ i.val = 15 then b &&& 0x0F
    else if i.val = 4 ∨ i.val = 8 ∨ i.val = 12 then b &&& 0xFC
    else b

/-- A message block with a one byte appended. -/
def paddedBlock (block : List UInt8) : Bytes 17 :=
  Vector.ofFn fun i => (block ++ [0x01]).getD i.val 0

/-- The loop over the message, with the number of blocks left. -/
def absorb (r : Field1305) : ℕ → Field1305 → List UInt8 → Field1305
  | 0, acc, _ => acc
  | n + 1, acc, msg =>
      let block := Field1305.fromBytes (paddedBlock (msg.take 16))
      absorb r n ((acc.add block).mul r) (msg.drop 16)

/-- The final addition of the second half of the key, byte by byte. -/
def addBytes : UInt32 → List (UInt8 × UInt8) → List UInt8
  | _, [] => []
  | carry, (a, s) :: rest =>
      let sum := a.toUInt32 + s.toUInt32 + carry
      sum.toUInt8 :: addBytes (sum >>> 8) rest

/-- `poly_1305::generate`. -/
def generate (key msg : List UInt8) : List UInt8 :=
  let r := Field1305.fromBytes (clampedR key)
  let acc := (absorb r ((msg.length + 15) / 16) Field1305.zero msg).reduce
  addBytes 0 ((acc.toBytes.toList.take 16).zip ((key.drop 16).take 16))

/-- `poly_1305::verify`: the differences of all bytes are accumulated. -/
def verify (key msg providedTag : List UInt8) : Bool :=
  let diff := (List.zipWith (· ^^^ ·) (generate key msg) providedTag).foldl (· ||| ·) 0
  diff == 0

/-! ### The tag comparison -/

theorem length_addBytes (carry : UInt32) (l : List (UInt8 × UInt8)) :
    (addBytes carry l).length = l.length := by
  induction l generalizing carry with
  | nil => rfl
  | cons p l ih => simp [addBytes, ih]

theorem length_generate {key : List UInt8} (hkey : key.length = 32) (msg : List UInt8) :
    (generate key msg).length = 16 := by
  simp [generate, length_addBytes, hkey]

theorem or_eq_zero_iff (a b : UInt8) : a ||| b = 0 ↔ a = 0 ∧ b = 0 := by
  rw [← UInt8.toNat_inj, UInt8.toNat_or, ← UInt8.toNat_inj, ← UInt8.toNat_inj, UInt8.toNat_zero,
    Nat.or_eq_zero_iff]

theorem foldl_or_eq_zero_iff (acc : UInt8) (l : List UInt8) :
    l.foldl (· ||| ·) acc = 0 ↔ acc = 0 ∧ ∀ b ∈ l, b = 0 := by
  induction l generalizing acc with
  | nil => simp
  | cons b l ih => rw [List.foldl_cons, ih, or_eq_zero_iff, List.forall_mem_cons, and_assoc]

theorem zipWith_xor_all_zero_iff (as bs : List UInt8) (h : as.length = bs.length) :
    (∀ b ∈ List.zipWith (· ^^^ ·) as bs, b = 0) ↔ as = bs := by
  induction as generalizing bs with
  | nil => simp_all [List.length_eq_zero_iff.mp h.symm]
  | cons a as ih =>
      cases bs with
      | nil => simp at h
      | cons b bs =>
          rw [List.zipWith_cons_cons, List.forall_mem_cons, ih bs (by simpa using h),
            UInt8.xor_eq_zero_iff, List.cons.injEq]

/-- The comparison accepts exactly the computed tag. -/
theorem verify_iff {key msg tag : List UInt8} (hkey : key.length = 32) (htag : tag.length = 16) :
    verify key msg tag = true ↔ generate key msg = tag := by
  rw [verify, beq_iff_eq, foldl_or_eq_zero_iff, zipWith_xor_all_zero_iff]
  · simp
  · rw [length_generate hkey, htag]

end Poly1305

end PeerToPeer.Crypto
