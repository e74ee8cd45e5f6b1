import Mathlib.Data.Nat.NthRoot.Defs
import PeerToPeer.Crypto.Hash
import PeerToPeer.Lib.BlockHash
import PeerToPeer.Lib.Word

/-!
SHA-256 and SHA-512 as FIPS 180-4 defines them, and the compression functions of the
code.

The standard is stated on words of `w` bits, with the schedule as a recurrence and the
constants as bits of roots of primes. The compression function of the code is the one of
the standard, read through the bits of its machine words.
-/

namespace PeerToPeer.Crypto.Fips180

open PeerToPeer.Lib

/-! ### The standard -/

/-- The first eighty primes. -/
def primes : List ℕ := [
  2, 3, 5, 7, 11, 13, 17, 19, 23, 29, 31, 37, 41, 43, 47, 53, 59, 61, 67, 71, 73, 79, 83, 89,
  97, 101, 103, 107, 109, 113, 127, 131, 137, 139, 149, 151, 157, 163, 167, 173, 179, 181, 191,
  193, 197, 199, 211, 223, 227, 229, 233, 239, 241, 251, 257, 263, 269, 271, 277, 281, 283, 293,
  307, 311, 313, 317, 331, 337, 347, 349, 353, 359, 367, 373, 379, 383, 389, 397, 401, 409]

/-- The first `w` bits of the fractional part of the `k`-th root of `n`. -/
def rootBits (w k n : ℕ) : BitVec w := BitVec.ofNat w (Nat.nthRoot k (n * 2 ^ (k * w)))

/-- What the two algorithms differ in, beside the word size. -/
structure Algorithm (w : ℕ) where
  smallSigma0 : BitVec w → BitVec w
  smallSigma1 : BitVec w → BitVec w
  bigSigma0 : BitVec w → BitVec w
  bigSigma1 : BitVec w → BitVec w
  rounds : ℕ

/-- Section 4.1.2. -/
def sha256 : Algorithm 32 where
  smallSigma0 x := x.rotateRight 7 ^^^ x.rotateRight 18 ^^^ (x >>> 3)
  smallSigma1 x := x.rotateRight 17 ^^^ x.rotateRight 19 ^^^ (x >>> 10)
  bigSigma0 x := x.rotateRight 2 ^^^ x.rotateRight 13 ^^^ x.rotateRight 22
  bigSigma1 x := x.rotateRight 6 ^^^ x.rotateRight 11 ^^^ x.rotateRight 25
  rounds := 64

/-- Section 4.1.3. -/
def sha512 : Algorithm 64 where
  smallSigma0 x := x.rotateRight 1 ^^^ x.rotateRight 8 ^^^ (x >>> 7)
  smallSigma1 x := x.rotateRight 19 ^^^ x.rotateRight 61 ^^^ (x >>> 6)
  bigSigma0 x := x.rotateRight 28 ^^^ x.rotateRight 34 ^^^ x.rotateRight 39
  bigSigma1 x := x.rotateRight 14 ^^^ x.rotateRight 18 ^^^ x.rotateRight 41
  rounds := 80

section Standard

variable {w : ℕ}

/-- The constants: cube roots of primes. -/
def constant (w t : ℕ) : BitVec w := rootBits w 3 (primes.getD t 0)

/-- The initial hash value: square roots of the first eight primes. -/
def initialHash (w : ℕ) : Sha2.State (BitVec w) :=
  ⟨rootBits w 2 2, rootBits w 2 3, rootBits w 2 5, rootBits w 2 7, rootBits w 2 11,
    rootBits w 2 13, rootBits w 2 17, rootBits w 2 19⟩

def ch (x y z : BitVec w) : BitVec w := (x &&& y) ^^^ (~~~x &&& z)

def maj (x y z : BitVec w) : BitVec w := (x &&& y) ^^^ (x &&& z) ^^^ (y &&& z)

/-- The message schedule of a block with the words `M`. -/
def scheduleWord (A : Algorithm w) (M : ℕ → BitVec w) (t : ℕ) : BitVec w :=
  if t < 16 then M t else
    A.smallSigma1 (scheduleWord A M (t - 2)) + scheduleWord A M (t - 7) +
      A.smallSigma0 (scheduleWord A M (t - 15)) + scheduleWord A M (t - 16)

theorem scheduleWord_of_lt (A : Algorithm w) (M : ℕ → BitVec w) {t : ℕ} (ht : t < 16) :
    scheduleWord A M t = M t := by
  rw [scheduleWord, if_pos ht]

theorem scheduleWord_of_le (A : Algorithm w) (M : ℕ → BitVec w) {t : ℕ} (ht : 16 ≤ t) :
    scheduleWord A M t =
      A.smallSigma1 (scheduleWord A M (t - 2)) + scheduleWord A M (t - 7) +
        A.smallSigma0 (scheduleWord A M (t - 15)) + scheduleWord A M (t - 16) := by
  rw [scheduleWord, if_neg (by omega)]

/-- The schedule only reads the sixteen words of the block. -/
theorem scheduleWord_congr {A : Algorithm w} {M M' : ℕ → BitVec w} (h : ∀ t < 16, M t = M' t)
    (t : ℕ) : scheduleWord A M t = scheduleWord A M' t := by
  induction t using Nat.strongRecOn with
  | ind t ih =>
      rcases Nat.lt_or_ge t 16 with hlt | hge
      · rw [scheduleWord_of_lt A M hlt, scheduleWord_of_lt A M' hlt, h t hlt]
      · rw [scheduleWord_of_le A M hge, scheduleWord_of_le A M' hge, ih _ (by omega),
          ih _ (by omega), ih _ (by omega), ih _ (by omega)]

/-- Round `t`, with `k` for the constant and `x` for the word of the schedule. -/
def step (A : Algorithm w) (v : Sha2.State (BitVec w)) (k x : BitVec w) :
    Sha2.State (BitVec w) :=
  let t1 := v.h + A.bigSigma1 v.e + ch v.e v.f v.g + k + x
  let t2 := A.bigSigma0 v.a + maj v.a v.b v.c
  ⟨t1 + t2, v.a, v.b, v.c, v.d + t1, v.e, v.f, v.g⟩

/-- Word `t` of a block, most significant byte first. -/
def wordAt (w : ℕ) (block : List UInt8) (t : ℕ) : BitVec w :=
  BitVec.ofNat w (beNat ((block.drop (t * (w / 8))).take (w / 8)))

/-- The hash value after one more block. -/
def compress (A : Algorithm w) (H : Sha2.State (BitVec w)) (block : List UInt8) :
    Sha2.State (BitVec w) :=
  let v := (List.range A.rounds).foldl
    (fun v t => step A v (constant w t) (scheduleWord A (wordAt w block) t)) H
  ⟨v.a + H.a, v.b + H.b, v.c + H.c, v.d + H.d, v.e + H.e, v.f + H.f, v.g + H.g, v.h + H.h⟩

/-- The bytes of a hash value. -/
def bytes (H : Sha2.State (BitVec w)) : List UInt8 :=
  [H.a, H.b, H.c, H.d, H.e, H.f, H.g, H.h].flatMap fun x => beBytes (w / 8) x.toNat

/-- The digest: the message is padded to blocks of sixteen words, with its length in bits
in the last two words, and the compression function is folded over the blocks. -/
def digest (A : Algorithm w) (m : List UInt8) : List UInt8 :=
  bytes (absorbBlocks (compress A) (2 * w) (initialHash w) (padMessage (2 * w) (w / 4) m))

end Standard

/-! ### The compression functions of the code -/

/-- A state word by word. -/
def mapState {V W : Type} (f : V → W) (s : Sha2.State V) : Sha2.State W :=
  ⟨f s.a, f s.b, f s.c, f s.d, f s.e, f s.f, f s.g, f s.h⟩

section Reading

variable {w : ℕ} {W : Type} [Inhabited W] [Add W] [AndOp W] [XorOp W] [Complement W]

/-- Machine words as words of the standard, with the functions and constants of the code
as those of an algorithm. -/
structure Reading (P : Sha2.Params W) (A : Algorithm w) where
  bits : W → BitVec w
  add : ∀ x y, bits (x + y) = bits x + bits y
  and : ∀ x y, bits (x &&& y) = bits x &&& bits y
  xor : ∀ x y, bits (x ^^^ y) = bits x ^^^ bits y
  not : ∀ x, bits (~~~x) = ~~~bits x
  sig0 : ∀ x, bits (P.sig0 x) = A.smallSigma0 (bits x)
  sig1 : ∀ x, bits (P.sig1 x) = A.smallSigma1 (bits x)
  SIG0 : ∀ x, bits (P.SIG0 x) = A.bigSigma0 (bits x)
  SIG1 : ∀ x, bits (P.SIG1 x) = A.bigSigma1 (bits x)
  K : P.K.map bits = (List.range A.rounds).map (constant w)

variable {P : Sha2.Params W} {A : Algorithm w} (R : Reading P A)

omit [Inhabited W] in
include R in
theorem Reading.length_K : P.K.length = A.rounds := by
  have h := congrArg List.length R.K
  rwa [List.length_map, List.length_map, List.length_range] at h

theorem Reading.bits_K {t : ℕ} (ht : t < A.rounds) : R.bits P.K[t]! = constant w t := by
  have hlen := R.length_K
  have h := congrArg (fun l => l[t]?) R.K
  simp only [List.getElem?_map, List.getElem?_range ht] at h
  rw [getElem!_pos P.K t (by omega)]
  rw [List.getElem?_eq_getElem (by omega)] at h
  simpa using h

theorem getElem!_push {V : Type} [Inhabited V] (a : Array V) (x : V) (t : ℕ) :
    (a.push x)[t]! = if t = a.size then x else a[t]! := by
  split
  · rename_i h
    subst h
    rw [getElem!_pos (a.push x) a.size (by simp), Array.getElem_push_eq]
  · rename_i h
    rcases Nat.lt_or_ge t a.size with hlt | hge
    · rw [getElem!_pos (a.push x) t (by simp; omega), getElem!_pos a t hlt,
        Array.getElem_push_lt hlt]
    · rw [getElem!_neg (a.push x) t (by simp; omega), getElem!_neg a t (by omega)]

theorem zip_toList_eq {V : Type} [Inhabited V] (l : List V) (a : Array V)
    (h : l.length = a.size) :
    l.zip a.toList = (List.range l.length).map fun t => (l[t]!, a[t]!) := by
  apply List.ext_getElem
  · simp [h]
  · intro t ht ht'
    have hlt : t < l.length := by simpa using ht'
    rw [List.getElem_zip, List.getElem_map, List.getElem_range, getElem!_pos l t hlt,
      getElem!_pos a t (by omega), Array.getElem_toList]
    rfl

/-- The loop that extends the sixteen words of a block. -/
theorem Reading.schedule_loop (block : Array W) (hblock : block.size = 16) (n : ℕ) :
    let a := (List.range' 16 n).foldl (fun a i =>
      a.push (P.sig1 a[i - 2]! + a[i - 7]! + P.sig0 a[i - 15]! + a[i - 16]!)) block
    a.size = 16 + n ∧ ∀ t < 16 + n,
      R.bits a[t]! = scheduleWord A (fun t => R.bits block[t]!) t := by
  induction n with
  | zero =>
      refine ⟨hblock, fun t ht => ?_⟩
      rw [scheduleWord_of_lt A _ ht]
      rfl
  | succ n ih =>
      rw [List.range'_concat, Nat.one_mul, List.foldl_append, List.foldl_cons, List.foldl_nil]
      generalize (List.range' 16 n).foldl (fun a i =>
        a.push (P.sig1 a[i - 2]! + a[i - 7]! + P.sig0 a[i - 15]! + a[i - 16]!)) block = a at ih ⊢
      obtain ⟨hsize, hwords⟩ := ih
      refine ⟨by rw [Array.size_push, hsize, Nat.add_assoc], fun t ht => ?_⟩
      rw [getElem!_push, hsize]
      split
      · rename_i h
        subst h
        rw [scheduleWord_of_le A _ (by omega), R.add, R.add, R.add, R.sig1, R.sig0,
          hwords _ (by omega), hwords _ (by omega), hwords _ (by omega), hwords _ (by omega)]
      · exact hwords t (by omega)

/-- The rounds with the constants and the schedule side by side. -/
theorem Reading.rounds (s : Sha2.State W) (a : Array W) (M : ℕ → BitVec w)
    (hsize : a.size = A.rounds)
    (ha : ∀ t < A.rounds, R.bits a[t]! = scheduleWord A M t) :
    mapState R.bits ((P.K.zip a.toList).foldl (fun s kw => Sha2.round P s kw.1 kw.2) s) =
      (List.range A.rounds).foldl (fun v t => step A v (constant w t) (scheduleWord A M t))
        (mapState R.bits s) := by
  have hlen := R.length_K
  rw [zip_toList_eq _ _ (by omega), hlen, List.foldl_map]
  refine List.foldl_rel (r := fun s v => mapState R.bits s = v) rfl ?_
  rintro t ht s v rfl
  have hlt := List.mem_range.mp ht
  simp only [Sha2.round, Sha2.choice, Sha2.majority, step, ch, maj, mapState, R.add, R.and, R.xor,
    R.not, R.SIG0, R.SIG1, R.bits_K hlt, ha t hlt]

/-- One block: the code follows the standard on the words that it loads. -/
theorem Reading.transform (hrounds : 16 ≤ A.rounds) (s : Sha2.State W) (block : Array W)
    (hblock : block.size = 16) (data : List UInt8)
    (hdata : ∀ t < 16, R.bits block[t]! = wordAt w data t) :
    mapState R.bits (Sha2.transform P s block) = compress A (mapState R.bits s) data := by
  have hlen := R.length_K
  obtain ⟨hsize, hwords⟩ := R.schedule_loop block hblock (A.rounds - 16)
  rw [Nat.add_sub_cancel' hrounds] at hsize hwords
  have hschedule : ∀ t, scheduleWord A (fun t => R.bits block[t]!) t =
      scheduleWord A (wordAt w data) t :=
    fun t => scheduleWord_congr hdata t
  have hr := R.rounds s _ (wordAt w data) hsize fun t ht => (hwords t ht).trans (hschedule t)
  rw [compress, ← hr, Sha2.transform, Sha2.schedule, hlen]
  simp only [mapState, R.add, BitVec.add_comm]

end Reading

/-! ### Words and bytes -/

theorem take_eq_map_getD (l : List UInt8) {n : ℕ} (h : n ≤ l.length) :
    l.take n = (List.range n).map fun i => l.getD i 0 := by
  apply List.ext_getElem
  · simp [h]
  · intro i hi hi'
    rw [List.getElem_take, List.getElem_map, List.getElem_range, List.getD_eq_getElem]

theorem wordAt_eq (w : ℕ) {block : List UInt8} {t : ℕ} (h : t * (w / 8) + w / 8 ≤ block.length) :
    wordAt w block t = BitVec.ofNat w (beNat ((List.range (w / 8)).map fun i =>
      block.getD (t * (w / 8) + i) 0)) := by
  rw [wordAt, take_eq_map_getD _ (by rw [List.length_drop]; omega)]
  simp only [List.getD_eq_getElem?_getD, List.getElem?_drop]

/-- A machine word that holds the number of its bytes. -/
theorem toBitVec_eq_wordAt {w : ℕ} {x : BitVec w} {block : List UInt8} {t : ℕ}
    (h : t * (w / 8) + w / 8 ≤ block.length)
    (hx : x.toNat = beNat ((List.range (w / 8)).map fun i => block.getD (t * (w / 8) + i) 0)) :
    x = wordAt w block t := by
  rw [wordAt_eq w h, ← hx, BitVec.ofNat_toNat, BitVec.setWidth_eq]

theorem or_reverse_four (a b c d : UInt32) : a ||| b ||| c ||| d = d ||| c ||| b ||| a := by
  ac_rfl

theorem or_reverse_eight (a b c d e f g h : UInt64) :
    a ||| b ||| c ||| d ||| e ||| f ||| g ||| h = h ||| g ||| f ||| e ||| d ||| c ||| b ||| a := by
  ac_rfl

theorem loadWord_sha256 {block : List UInt8} (hblock : block.length = 64) {t : ℕ} (ht : t < 16) :
    (Sha256.loadWord block t).toBitVec = wordAt 32 block t := by
  refine toBitVec_eq_wordAt (by omega) ?_
  have h := toNat_or_shifts (block.getD (t * 4 + 3) 0) (block.getD (t * 4 + 2) 0)
    (block.getD (t * 4 + 1) 0) (block.getD (t * 4 + 0) 0)
  rw [show beNat ((List.range (32 / 8)).map fun i => block.getD (t * (32 / 8) + i) 0) = _ from
    h.symm, UInt32.toNat_toBitVec]
  exact congrArg UInt32.toNat (or_reverse_four _ _ _ _)

theorem loadWord_sha512 {block : List UInt8} (hblock : block.length = 128) {t : ℕ} (ht : t < 16) :
    (Sha512.loadWord block t).toBitVec = wordAt 64 block t := by
  refine toBitVec_eq_wordAt (by omega) ?_
  have hlast : Holds 8 (block.getD (t * 8 + 7) 0).toUInt64 (block.getD (t * 8 + 7) 0).toNat :=
    ⟨UInt8.toNat_toUInt64 _, UInt8.toNat_lt _⟩
  have h := hlast.orShifts [block.getD (t * 8 + 6) 0, block.getD (t * 8 + 5) 0,
    block.getD (t * 8 + 4) 0, block.getD (t * 8 + 3) 0, block.getD (t * 8 + 2) 0,
    block.getD (t * 8 + 1) 0, block.getD (t * 8 + 0) 0] le_rfl
  rw [show beNat ((List.range (64 / 8)).map fun i => block.getD (t * (64 / 8) + i) 0) = _ from
    h.symm, UInt64.toNat_toBitVec]
  exact congrArg UInt64.toNat (or_reverse_eight _ _ _ _ _ _ _ _)

def reading256 : Reading Sha256.params sha256 where
  bits := UInt32.toBitVec
  add _ _ := rfl
  and _ _ := rfl
  xor _ _ := rfl
  not _ := rfl
  sig0 _ := rfl
  sig1 _ := rfl
  SIG0 _ := rfl
  SIG1 _ := rfl
  K := by decide +kernel

def reading512 : Reading Sha512.params sha512 where
  bits := UInt64.toBitVec
  add _ _ := rfl
  and _ _ := rfl
  xor _ _ := rfl
  not _ := rfl
  sig0 _ := rfl
  sig1 _ := rfl
  SIG0 _ := rfl
  SIG1 _ := rfl
  K := by decide +kernel

theorem getElem!_words {V : Type} [Inhabited V] (f : ℕ → V) {t : ℕ} (ht : t < 16) :
    ((Array.range 16).map f)[t]! = f t := by
  rw [getElem!_pos _ t (by simpa using ht), Array.getElem_map, Array.getElem_range]

theorem transform_sha256 (s : Sha2.State UInt32) {block : List UInt8} (hblock : block.length = 64) :
    mapState UInt32.toBitVec (Sha256.transform s block) =
      compress sha256 (mapState UInt32.toBitVec s) block := by
  refine reading256.transform (by decide) s _ (by simp) block fun t ht => ?_
  rw [getElem!_words _ ht]
  exact loadWord_sha256 hblock ht

theorem transform_sha512 (s : Sha2.State UInt64) {block : List UInt8}
    (hblock : block.length = 128) :
    mapState UInt64.toBitVec (Sha512.transform s block) =
      compress sha512 (mapState UInt64.toBitVec s) block := by
  refine reading512.transform (by decide) s _ (by simp) block fun t ht => ?_
  rw [getElem!_words _ ht]
  exact loadWord_sha512 hblock ht

/-! ### Digests -/

theorem init_sha256 : mapState UInt32.toBitVec Sha256.init.state = initialHash 32 := by
  decide

theorem init_sha512 : mapState UInt64.toBitVec Sha512.init.state = initialHash 64 := by
  decide

theorem storeWord_sha256 (v : UInt32) : Sha256.storeWord v = beBytes 4 v.toNat := by
  rw [beBytes, leBytes_four]
  rfl

theorem storeWord_sha512 (v : UInt64) : Sha512.storeWord v = beBytes 8 v.toNat := by
  rw [beBytes, leBytes_eight]
  rfl

theorem digest_sha256 (s : Sha2.State UInt32) :
    (Sha256.digest s).toList = bytes (mapState UInt32.toBitVec s) := by
  simp [Sha256.digest, storeWord_sha256, bytes, mapState]

theorem digest_sha512 (s : Sha2.State UInt64) :
    (Sha512.digest s).toList = bytes (mapState UInt64.toBitVec s) := by
  simp [Sha512.digest, storeWord_sha512, bytes, mapState]

/-- The digest of a message, by the compression function of the code. -/
theorem digest_sha256_eq (m : List UInt8) : digest sha256 m =
    (Sha256.digest (absorbBlocks Sha256.transform 64 Sha256.init.state
      (padMessage 64 8 m))).toList := by
  rw [digest_sha256, map_absorbBlocks _ fun s block => transform_sha256 s, init_sha256]
  rfl

-- The bytes of "abc".
example : digest sha256 [0x61, 0x62, 0x63] = [
    0xba, 0x78, 0x16, 0xbf, 0x8f, 0x01, 0xcf, 0xea, 0x41, 0x41, 0x40, 0xde, 0x5d, 0xae,
    0x22, 0x23, 0xb0, 0x03, 0x61, 0xa3, 0x96, 0x17, 0x7a, 0x9c, 0xb4, 0x10, 0xff, 0x61,
    0xf2, 0x00, 0x15, 0xad] := by
  rw [digest_sha256_eq]
  decide +kernel

theorem digest_sha512_eq (m : List UInt8) : digest sha512 m =
    (Sha512.digest (absorbBlocks Sha512.transform 128 Sha512.init.state
      (padMessage 128 16 m))).toList := by
  rw [digest_sha512, map_absorbBlocks _ fun s block => transform_sha512 s, init_sha512]
  rfl

example : digest sha512 [0x61, 0x62, 0x63] = [
    0xdd, 0xaf, 0x35, 0xa1, 0x93, 0x61, 0x7a, 0xba, 0xcc, 0x41, 0x73, 0x49, 0xae, 0x20,
    0x41, 0x31, 0x12, 0xe6, 0xfa, 0x4e, 0x89, 0xa9, 0x7e, 0xa2, 0x0a, 0x9e, 0xee, 0xe6,
    0x4b, 0x55, 0xd3, 0x9a, 0x21, 0x92, 0x99, 0x2a, 0x27, 0x4f, 0xc1, 0xa8, 0x36, 0xba,
    0x3c, 0x23, 0xa3, 0xfe, 0xeb, 0xbd, 0x45, 0x4d, 0x44, 0x23, 0x64, 0x3c, 0xe8, 0x0e,
    0x2a, 0x9a, 0xc9, 0x4f, 0xa5, 0x4c, 0xa4, 0x9f] := by
  rw [digest_sha512_eq]
  decide +kernel

end PeerToPeer.Crypto.Fips180
