import PeerToPeer.Crypto.FieldOps

/-!
`chacha_20`: the block function, the keystream and the stream cipher.

`apply_keystream` runs over its buffer in blocks of 64 bytes and increments the
counter word of its state after each. Each byte of the buffer meets the byte of the
keystream at its position, so applying it twice restores the buffer, and full blocks can
be split off.
-/

namespace PeerToPeer.Crypto.Chacha20

open PeerToPeer.Lib

def rotl32 (v n : UInt32) : UInt32 := (v <<< n) ||| (v >>> (32 - n))

def load32Le (bytes : List UInt8) (offset : ℕ) : UInt32 :=
  let byte (i : ℕ) : UInt32 := (bytes.getD (offset + i) 0).toUInt32
  byte 0 ||| (byte 1 <<< 8) ||| (byte 2 <<< 16) ||| (byte 3 <<< 24)

def store32Le (v : UInt32) : List UInt8 :=
  [v.toUInt8, (v >>> 8).toUInt8, (v >>> 16).toUInt8, (v >>> 24).toUInt8]

/-- The sixteen words of the cipher. -/
abbrev State := Vector UInt32 16

def quarterRound (x : State) (a b c d : Fin 16) : State :=
  let x := x.set a (x[a] + x[b])
  let x := x.set d (rotl32 (x[d] ^^^ x[a]) 16)
  let x := x.set c (x[c] + x[d])
  let x := x.set b (rotl32 (x[b] ^^^ x[c]) 12)
  let x := x.set a (x[a] + x[b])
  let x := x.set d (rotl32 (x[d] ^^^ x[a]) 8)
  let x := x.set c (x[c] + x[d])
  x.set b (rotl32 (x[b] ^^^ x[c]) 7)

/-- A column round followed by a diagonal round. -/
def doubleRound (x : State) : State :=
  let x := quarterRound x 0 4 8 12
  let x := quarterRound x 1 5 9 13
  let x := quarterRound x 2 6 10 14
  let x := quarterRound x 3 7 11 15
  let x := quarterRound x 0 5 10 15
  let x := quarterRound x 1 6 11 12
  let x := quarterRound x 2 7 8 13
  quarterRound x 3 4 9 14

def block (init : State) : List UInt8 :=
  let x := (List.range 10).foldl (fun x _ => doubleRound x) init
  (Vector.zipWith (fun a b => store32Le (a + b)) x init).toList.flatten

/-- The state before the first block. -/
def initState (key : Bytes 32) (counter : UInt32) (nonce : Bytes 12) : State :=
  #v[0x61707865, 0x3320646e, 0x79622d32, 0x6b206574,
    load32Le key.toList 0, load32Le key.toList 4, load32Le key.toList 8, load32Le key.toList 12,
    load32Le key.toList 16, load32Le key.toList 20, load32Le key.toList 24,
    load32Le key.toList 28,
    counter, load32Le nonce.toList 0, load32Le nonce.toList 4, load32Le nonce.toList 8]

/-- The loop of `apply_keystream`, with the number of blocks left. -/
def xorBlocks : ℕ → State → List UInt8 → List UInt8
  | 0, _, buffer => buffer
  | n + 1, state, buffer =>
      List.zipWith (· ^^^ ·) (buffer.take 64) (block state) ++
        xorBlocks n (state.set 12 (state[12] + 1)) (buffer.drop 64)

/-- `apply_keystream`. -/
def applyKeystream (key : Bytes 32) (counter : UInt32) (nonce : Bytes 12)
    (buffer : List UInt8) : List UInt8 :=
  xorBlocks ((buffer.length + 63) / 64) (initState key counter nonce) buffer

def encrypt (key : Bytes 32) (nonce : Bytes 12) (buffer : List UInt8) : List UInt8 :=
  applyKeystream key 1 nonce buffer

def decrypt (key : Bytes 32) (nonce : Bytes 12) (ciphertext : List UInt8) : List UInt8 :=
  applyKeystream key 1 nonce ciphertext

/-- `subkey`: the first half of the keystream block at counter zero. -/
def subkey (key : Bytes 32) (nonce : Bytes 12) : List UInt8 :=
  (applyKeystream key 0 nonce (List.replicate 64 0)).take 32

/-! ### The keystream by position -/

theorem length_block (init : State) : (block init).length = 64 := by
  have hmem : ∀ l ∈ (Vector.zipWith (fun a b => store32Le (a + b))
      ((List.range 10).foldl (fun x _ => doubleRound x) init) init).toList, l.length = 4 := by
    intro l hl
    rw [Vector.mem_toList_iff, Vector.mem_iff_getElem] at hl
    obtain ⟨i, hi, rfl⟩ := hl
    rw [Vector.getElem_zipWith]
    rfl
  rw [block, List.length_flatten, List.map_congr_left hmem, List.map_const', List.sum_replicate,
    Vector.length_toList]
  rfl

/-- The state for the block that comes `j` blocks later. -/
def advance (state : State) (j : ℕ) : State := state.set 12 (state[12] + UInt32.ofNat j)

theorem advance_zero (state : State) : advance state 0 = state := by
  simp [advance]

theorem advance_succ (state : State) (j : ℕ) :
    advance (state.set 12 (state[12] + 1)) j = advance state (j + 1) := by
  simp only [advance, Vector.set_set, Vector.getElem_set_self, UInt32.ofNat_add]
  congr 1
  rw [UInt32.add_assoc, UInt32.add_comm 1]
  rfl

theorem zipWith_xor_eq_mapIdx (as ks : List UInt8) (h : as.length ≤ ks.length) :
    List.zipWith (· ^^^ ·) as ks = as.mapIdx fun i a => a ^^^ ks.getD i 0 := by
  apply List.ext_getElem
  · simp [h]
  · intro i hi hi'
    rw [List.length_mapIdx] at hi'
    rw [List.getElem_zipWith, List.getElem_mapIdx, List.getD_eq_getElem]

theorem xorBlocks_eq_mapIdx (n : ℕ) (state : State) (buffer : List UInt8)
    (h : buffer.length ≤ 64 * n) :
    xorBlocks n state buffer =
      buffer.mapIdx fun i b => b ^^^ (block (advance state (i / 64))).getD (i % 64) 0 := by
  induction n generalizing state buffer with
  | zero =>
      rw [List.eq_nil_of_length_eq_zero (by omega : buffer.length = 0)]
      rfl
  | succ n ih =>
      have hlen : (buffer.take 64).length = min 64 buffer.length := List.length_take
      have hhead : (buffer.take 64).mapIdx (fun i b => b ^^^ (block state).getD i 0) =
          (buffer.take 64).mapIdx
            fun i b => b ^^^ (block (advance state (i / 64))).getD (i % 64) 0 := by
        rw [List.mapIdx_eq_mapIdx_iff]
        intro i hi
        rw [Nat.div_eq_of_lt (by omega), Nat.mod_eq_of_lt (by omega), advance_zero]
      have htail : (buffer.drop 64).mapIdx (fun i b => b ^^^
            (block (advance (state.set 12 (state[12] + 1)) (i / 64))).getD (i % 64) 0) =
          (buffer.drop 64).mapIdx fun i b => b ^^^
            (block (advance state ((i + (buffer.take 64).length) / 64))).getD
              ((i + (buffer.take 64).length) % 64) 0 := by
        rw [List.mapIdx_eq_mapIdx_iff]
        intro i hi
        rw [List.length_drop] at hi
        rw [hlen, Nat.min_eq_left (by omega), Nat.add_div_right _ (by norm_num), Nat.add_mod_right,
          advance_succ]
      rw [xorBlocks, zipWith_xor_eq_mapIdx _ _ (by rw [length_block]; omega), hhead,
        ih _ _ (by rw [List.length_drop]; omega), htail, ← List.mapIdx_append,
        List.take_append_drop]

theorem advance_initState (key : Bytes 32) (counter : UInt32) (nonce : Bytes 12) (j : ℕ) :
    advance (initState key counter nonce) j = initState key (counter + UInt32.ofNat j) nonce := by
  simp [advance, initState]

/-- Byte `i` of the keystream. -/
def keystreamByte (key : Bytes 32) (counter : UInt32) (nonce : Bytes 12) (i : ℕ) : UInt8 :=
  (block (initState key (counter + UInt32.ofNat (i / 64)) nonce)).getD (i % 64) 0

/-- The keystream from a later block on. -/
theorem keystreamByte_add (key : Bytes 32) (counter : UInt32) (nonce : Bytes 12) (i k : ℕ) :
    keystreamByte key counter nonce (i + 64 * k) =
      keystreamByte key (counter + UInt32.ofNat k) nonce i := by
  have hdiv : counter + UInt32.ofNat ((i + 64 * k) / 64) =
      counter + UInt32.ofNat k + UInt32.ofNat (i / 64) := by
    rw [Nat.add_mul_div_left _ _ (by norm_num), UInt32.ofNat_add, UInt32.add_comm (.ofNat (i / 64)),
      UInt32.add_assoc]
  rw [keystreamByte, keystreamByte, hdiv, Nat.add_mul_mod_self_left]

theorem applyKeystream_eq_mapIdx (key : Bytes 32) (counter : UInt32) (nonce : Bytes 12)
    (buffer : List UInt8) : applyKeystream key counter nonce buffer =
      buffer.mapIdx fun i b => b ^^^ keystreamByte key counter nonce i := by
  rw [applyKeystream, xorBlocks_eq_mapIdx _ _ _ (by omega)]
  simp only [advance_initState, keystreamByte]

@[simp] theorem length_applyKeystream (key : Bytes 32) (counter : UInt32) (nonce : Bytes 12)
    (buffer : List UInt8) : (applyKeystream key counter nonce buffer).length = buffer.length := by
  rw [applyKeystream_eq_mapIdx, List.length_mapIdx]

/-- Applying the keystream twice restores the buffer. -/
theorem applyKeystream_applyKeystream (key : Bytes 32) (counter : UInt32) (nonce : Bytes 12)
    (buffer : List UInt8) :
    applyKeystream key counter nonce (applyKeystream key counter nonce buffer) = buffer := by
  rw [applyKeystream_eq_mapIdx, applyKeystream_eq_mapIdx, List.mapIdx_mapIdx]
  apply List.ext_getElem
  · simp
  · intro i hi hi'
    rw [List.getElem_mapIdx, Function.comp_apply, UInt8.xor_assoc, UInt8.xor_self, UInt8.xor_zero]

theorem applyKeystream_append (key : Bytes 32) (counter : UInt32) (nonce : Bytes 12)
    {as : List UInt8} (bs : List UInt8) (h : 64 ∣ as.length) :
    applyKeystream key counter nonce (as ++ bs) =
      applyKeystream key counter nonce as ++
        applyKeystream key (counter + UInt32.ofNat (as.length / 64)) nonce bs := by
  have hbyte : ∀ i, keystreamByte key counter nonce (i + as.length) =
      keystreamByte key (counter + UInt32.ofNat (as.length / 64)) nonce i := by
    intro i
    have hadd := keystreamByte_add key counter nonce i (as.length / 64)
    rwa [Nat.mul_div_cancel_left' h] at hadd
  simp only [applyKeystream_eq_mapIdx, List.mapIdx_append, hbyte]

end PeerToPeer.Crypto.Chacha20
