import PeerToPeer.Crypto.Field1305Spec
import PeerToPeer.Lib.Pieces
import PeerToPeer.Lib.PolyHash
import Mathlib.Data.ZMod.Basic

/-!
What `poly_1305::generate` computes: the polynomial hash of the message blocks at
the clamped key half, modulo `2^130 - 5`, plus the other key half modulo `2^128`.
-/

namespace PeerToPeer.Crypto.Poly1305

open PeerToPeer.Lib

/-- The number of a message block, with a one byte after its last byte. -/
def blockNat (block : List UInt8) : ℕ := leNat (block ++ [0x01])

/-- The blocks of a message. -/
def blocks (msg : List UInt8) : List (List UInt8) := pieces 16 ((msg.length + 15) / 16) msg

/-- The point at which the message is evaluated. -/
def pointNat (key : List UInt8) : ℕ := leNat (clampedR key).toList

theorem flatten_blocks (msg : List UInt8) : (blocks msg).flatten = msg :=
  flatten_pieces_of_le (by omega)

/-! ### Blocks as numbers -/

theorem blockNat_eq (block : List UInt8) : blockNat block = leNat block + 256 ^ block.length := by
  rw [blockNat, leNat_append]
  simp

theorem blockNat_pos (block : List UInt8) : 0 < blockNat block := by
  rw [blockNat_eq]
  positivity

theorem blockNat_lt {block : List UInt8} (h : block.length ≤ 16) : blockNat block < 2 ^ 129 := by
  have hlt := leNat_lt block
  have hle : 256 ^ block.length ≤ 256 ^ 16 := Nat.pow_le_pow_right (by norm_num) h
  rw [blockNat_eq]
  omega

/-- The one byte marks the end of a block. -/
theorem blockNat_inj {as bs : List UInt8} (h : blockNat as = blockNat bs) : as = bs := by
  rw [blockNat_eq, blockNat_eq] at h
  have has := leNat_lt as
  have hbs := leNat_lt bs
  have hlen : as.length = bs.length := by
    by_contra hne
    rcases Nat.lt_or_gt_of_ne hne with hlt | hlt
    · have hpow : 256 ^ (as.length + 1) ≤ 256 ^ bs.length :=
        Nat.pow_le_pow_right (by norm_num) hlt
      rw [pow_succ] at hpow
      omega
    · have hpow : 256 ^ (bs.length + 1) ≤ 256 ^ as.length :=
        Nat.pow_le_pow_right (by norm_num) hlt
      rw [pow_succ] at hpow
      omega
  rw [hlen] at h
  exact leNat_inj hlen (Nat.add_right_cancel h)

theorem blocks_inj {as bs : List UInt8} (h : (blocks as).map blockNat = (blocks bs).map blockNat) :
    as = bs := by
  have hblocks := List.map_injective_iff.mpr (fun _ _ => blockNat_inj) h
  rw [← flatten_blocks as, hblocks, flatten_blocks]

theorem leNat_paddedBlock {block : List UInt8} (h : block.length ≤ 16) :
    leNat (paddedBlock block).toList = blockNat block := by
  have hlist : (paddedBlock block).toList =
      block ++ [0x01] ++ List.replicate (16 - block.length) 0 := by
    apply List.ext_getElem
    · simp
      omega
    · intro i hi hi'
      rw [Vector.getElem_toList]
      simp only [paddedBlock, Vector.getElem_ofFn]
      rcases Nat.lt_or_ge i (block ++ [0x01]).length with hlt | hge
      · rw [List.getElem_append_left hlt, List.getD_eq_getElem _ _ hlt]
      · rw [List.getElem_append_right hge, List.getElem_replicate, List.getD_eq_default _ _ hge]
  rw [hlist, leNat_append, leNat_replicate_zero, Nat.mul_zero, Nat.add_zero, blockNat]

theorem fromBytes_paddedBlock {block : List UInt8} (h : block.length ≤ 16) :
    (Field1305.fromBytes (paddedBlock block)).Fits 26 ∧
      (Field1305.fromBytes (paddedBlock block)).value = blockNat block := by
  have hlt := blockNat_lt h
  rw [← leNat_paddedBlock h]
  apply Field1305.fromBytes_of_lt
  rw [leNat_paddedBlock h, p1305_eq]
  omega

theorem pointNat_lt (key : List UInt8) : pointNat key < 2 ^ 128 := by
  rw [pointNat, toList_eq_ofFn, Field1305.leNat_ofFn_last]
  have htop : (clampedR key)[Fin.last 16] = 0 := by simp [clampedR]
  have hlt := leNat_lt (List.ofFn fun i : Fin 16 => (clampedR key)[i.castSucc])
  rw [List.length_ofFn] at hlt
  rw [htop, UInt8.toNat_zero]
  omega

theorem fromBytes_clampedR (key : List UInt8) :
    (Field1305.fromBytes (clampedR key)).Fits 26 ∧
      (Field1305.fromBytes (clampedR key)).value = pointNat key := by
  apply Field1305.fromBytes_of_lt
  exact (pointNat_lt key).trans (by norm_num [p1305])

/-! ### The loop over the blocks -/

/-- One turn of the loop. -/
theorem absorb_step {r acc : Field1305} (hr : r.Fits 26) (hacc : acc.Tight) {block : List UInt8}
    (hblock : block.length ≤ 16) :
    ((acc.add (Field1305.fromBytes (paddedBlock block))).mul r).Tight ∧
      ((((acc.add (Field1305.fromBytes (paddedBlock block))).mul r).value : ℕ) : ZMod p1305) =
        (acc.value + blockNat block) * r.value := by
  obtain ⟨hfits, hval⟩ := fromBytes_paddedBlock hblock
  obtain ⟨hsum, hsumval⟩ := Field1305.add_spec hacc hfits.tight
  obtain ⟨r0, r1, r2, r3, r4⟩ := hr
  obtain ⟨htight, hmul⟩ := Field1305.mul_spec hsum
    (b := r) ⟨by omega, by omega, by omega, by omega, by omega⟩
  refine ⟨htight, ?_⟩
  have hcast := (ZMod.natCast_eq_natCast_iff' _ _ p1305).mpr hmul
  rw [hcast, hsumval, hval]
  push_cast
  ring

/-- The accumulator is the hash of the blocks. -/
theorem absorb_spec {r : Field1305} (hr : r.Fits 26) (n : ℕ) {acc : Field1305} (hacc : acc.Tight)
    (msg : List UInt8) :
    (absorb r n acc msg).Tight ∧ ((absorb r n acc msg).value : ZMod p1305) =
      ((pieces 16 n msg).map fun block => (blockNat block : ZMod p1305)).foldl
        (fun a c => (a + c) * (r.value : ZMod p1305)) (acc.value : ZMod p1305) := by
  induction n generalizing acc msg with
  | zero => exact ⟨hacc, rfl⟩
  | succ n ih =>
      obtain ⟨htight, hval⟩ := absorb_step hr hacc (List.length_take_le 16 msg)
      rw [pieces_succ_eq_cons, List.map_cons, List.foldl_cons, ← hval]
      exact ih htight (msg.drop 16)

/-- The hash of a message, as a residue. -/
def hashNat (key msg : List UInt8) : ℕ :=
  polyHash (pointNat key) ((blocks msg).map blockNat) % p1305

theorem absorb_value (key msg : List UInt8) :
    let acc := absorb (Field1305.fromBytes (clampedR key)) ((msg.length + 15) / 16)
      Field1305.zero msg
    acc.Tight ∧ acc.value % p1305 = hashNat key msg := by
  obtain ⟨hfits, hval⟩ := fromBytes_clampedR key
  obtain ⟨htight, hacc⟩ := absorb_spec hfits ((msg.length + 15) / 16) Field1305.tight_zero msg
  refine ⟨htight, (ZMod.natCast_eq_natCast_iff' _ _ p1305).mp ?_⟩
  have hcast := map_polyHash (Nat.castRingHom (ZMod p1305)) (pointNat key)
    ((blocks msg).map blockNat)
  rw [List.map_map, Nat.coe_castRingHom] at hcast
  rw [hacc, hval, hcast, Field1305.value_zero, Nat.cast_zero]
  rfl

/-! ### The tag -/

/-- The addition of two byte strings of the same length, byte by byte. -/
theorem leNat_addBytes (carry : UInt32) (hcarry : carry.toNat ≤ 1) {as ss : List UInt8}
    (hlen : as.length = ss.length) :
    leNat (addBytes carry (as.zip ss)) =
      (leNat as + leNat ss + carry.toNat) % 256 ^ as.length := by
  induction as generalizing carry ss with
  | nil => simp [addBytes, Nat.mod_one]
  | cons a as ih =>
      cases ss with
      | nil => simp at hlen
      | cons s ss =>
          have ha := a.toNat_lt
          have hs := s.toNat_lt
          have hsum : (a.toUInt32 + s.toUInt32 + carry).toNat =
              a.toNat + s.toNat + carry.toNat := by
            simp only [UInt32.toNat_add, UInt8.toNat_toUInt32]
            omega
          have hshift : ((a.toUInt32 + s.toUInt32 + carry) >>> 8).toNat =
              (a.toNat + s.toNat + carry.toNat) / 256 := by
            rw [UInt32.toNat_shiftRight, hsum, Nat.shiftRight_eq_div_pow]
            rfl
          rw [List.zip_cons_cons, addBytes, leNat_cons, UInt32.toNat_toUInt8, hsum,
            ih _ (by omega) (by simpa using hlen), hshift, List.length_cons,
            mod_pow_succ_byte]
          congr 1
          · simp only [leNat_cons]
            omega
          · congr 2
            simp only [leNat_cons]
            omega

/-- The tag is the hash plus the second half of the key. -/
theorem leNat_generate {key : List UInt8} (hkey : key.length = 32) (msg : List UInt8) :
    leNat (generate key msg) = (hashNat key msg + leNat (key.drop 16)) % 2 ^ 128 := by
  obtain ⟨⟨t0, t1, t2, t3, t4⟩, hval⟩ := absorb_value key msg
  rw [generate]
  generalize absorb _ _ _ _ = acc at *
  obtain ⟨⟨f0, f1, f2, f3, f4⟩, hred⟩ := Field1305.reduce_spec (x := acc)
    ⟨by omega, by omega, by omega, by omega, by omega⟩
  have hbytes := Field1305.leNat_toBytes (x := acc.reduce)
    ⟨by omega, by omega, by omega, by omega, by omega⟩
  rw [hred, Nat.mod_mod, hval] at hbytes
  have hs : (key.drop 16).take 16 = key.drop 16 := List.take_of_length_le (by simp [hkey])
  rw [hs, leNat_addBytes 0 (by simp) (by simp [hkey]), leNat_take, hbytes, List.length_take,
    Vector.length_toList, UInt32.toNat_zero, Nat.add_zero]
  norm_num

/-! ### The definition -/

/-- The bits of byte `i` that clamping keeps. -/
def clampMask (i : ℕ) : UInt8 :=
  if i = 3 ∨ i = 7 ∨ i = 11 ∨ i = 15 then 0x0F
  else if i = 4 ∨ i = 8 ∨ i = 12 then 0xFC
  else if i < 16 then 0xFF else 0

theorem and_255 (b : UInt8) : b &&& 255 = b := by
  apply UInt8.toNat_inj.mp
  rw [UInt8.toNat_and]
  exact (Nat.and_two_pow_sub_one_eq_mod _ 8).trans (Nat.mod_eq_of_lt b.toNat_lt)

theorem toList_clampedR {key : List UInt8} (h : 16 ≤ key.length) :
    (clampedR key).toList =
      List.zipWith (· &&& ·) (key.take 16 ++ [0]) ((List.range 17).map clampMask) := by
  have hlen : (key.take 16 ++ [(0 : UInt8)]).length = 17 := by simp [h]
  apply List.ext_getElem
  · simp [hlen]
  · intro i hi hi'
    have hi17 : i < 17 := by simpa using hi
    have hbound : i < (key.take 16 ++ [(0 : UInt8)]).length := by rwa [hlen]
    have hbyte : (if i < 16 then key.getD i 0 else 0) = (key.take 16 ++ [0])[i] := by
      split
      · rename_i hlt
        rw [List.getElem_append_left (by simp; omega), List.getElem_take,
          List.getD_eq_getElem _ _ (by omega)]
      · rename_i hge
        rw [List.getElem_append_right (by simp; omega)]
        simp
    rw [Vector.getElem_toList, List.getElem_zipWith, List.getElem_map, List.getElem_range, ← hbyte]
    simp only [clampedR, Vector.getElem_ofFn, clampMask]
    split_ifs <;> simp [and_255]

/-- The clamped key half as a number. -/
theorem pointNat_eq {key : List UInt8} (h : 16 ≤ key.length) :
    pointNat key = leNat (key.take 16) &&& 0x0ffffffc0ffffffc0ffffffc0fffffff := by
  have hmask : leNat ((List.range 17).map clampMask) = 0x0ffffffc0ffffffc0ffffffc0fffffff := by
    decide
  rw [pointNat, toList_clampedR h, leNat_zipWith_and (by simp [h]), hmask, leNat_append,
    leNat_singleton, UInt8.toNat_zero, Nat.mul_zero, Nat.add_zero]

/-- Block `i` of a message as a number, with a one bit after its last byte. -/
def blockAt (msg : List UInt8) (i : ℕ) : ℕ :=
  leNat ((msg.drop (16 * i)).take 16) + 2 ^ (8 * ((msg.drop (16 * i)).take 16).length)

/-- The authenticator of RFC 8439. -/
def poly1305 (key : Bytes 32) (msg : List UInt8) : List UInt8 :=
  let r := leNat (key.toList.take 16) &&& 0x0ffffffc0ffffffc0ffffffc0fffffff
  let s := leNat (key.toList.drop 16)
  let n := (msg.length + 15) / 16
  leBytes 16 (((∑ i ∈ Finset.range n, blockAt msg i * r ^ (n - i)) % (2 ^ 130 - 5) + s) % 2 ^ 128)

theorem map_blockNat_blocks (msg : List UInt8) :
    (blocks msg).map blockNat = (List.range ((msg.length + 15) / 16)).map (blockAt msg) := by
  rw [blocks, pieces, List.map_map]
  apply List.map_congr_left
  intro i _
  rw [Function.comp_apply, blockNat_eq, blockAt, Nat.mul_comm i 16, pow_mul]
  rfl

/-- `generate` computes the authenticator, for every key and message. -/
theorem generate_eq_poly1305 (key : Bytes 32) (msg : List UInt8) :
    generate key.toList msg = poly1305 key msg := by
  have hkey : key.toList.length = 32 := key.length_toList
  have hlt : (hashNat key.toList msg + leNat (key.toList.drop 16)) % 2 ^ 128 < 256 ^ 16 :=
    Nat.mod_lt _ (by norm_num)
  apply leNat_inj
  · rw [length_generate hkey, poly1305, length_leBytes]
  · rw [leNat_generate hkey, poly1305, ← leNat_leBytes_of_lt hlt, hashNat, map_blockNat_blocks,
      polyHash_map_range, pointNat_eq (by omega)]
    rfl

end PeerToPeer.Crypto.Poly1305
