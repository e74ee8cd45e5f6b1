import PeerToPeer.Crypto.Chacha20
import PeerToPeer.Lib.Word

/-!
The block function of RFC 8439, section 2, and the keystream that `apply_keystream`
makes of it.

A state of the RFC gives a word of 32 bits to each index; only the indices below sixteen
are used. The code holds the same words in an array and rotates them by two shifts.
-/

namespace PeerToPeer.Crypto.Rfc8439

open PeerToPeer.Lib Chacha20

/-! ### The block function of the RFC -/

/-- Section 2.1. -/
def quarterRound (a b c d : BitVec 32) : BitVec 32 × BitVec 32 × BitVec 32 × BitVec 32 :=
  let a := a + b
  let d := (d ^^^ a).rotateLeft 16
  let c := c + d
  let b := (b ^^^ c).rotateLeft 12
  let a := a + b
  let d := (d ^^^ a).rotateLeft 8
  let c := c + d
  let b := (b ^^^ c).rotateLeft 7
  (a, b, c, d)

/-- `QUARTERROUND(x, y, z, w)` of section 2.2. -/
def quarterRoundAt (s : ℕ → BitVec 32) (x y z w : ℕ) : ℕ → BitVec 32 :=
  let r := quarterRound (s x) (s y) (s z) (s w)
  fun i => if i = x then r.1 else if i = y then r.2.1 else if i = z then r.2.2.1
    else if i = w then r.2.2.2 else s i

/-- `inner_block`: four column rounds and four diagonal rounds. -/
def innerBlock (s : ℕ → BitVec 32) : ℕ → BitVec 32 :=
  let s := quarterRoundAt s 0 4 8 12
  let s := quarterRoundAt s 1 5 9 13
  let s := quarterRoundAt s 2 6 10 14
  let s := quarterRoundAt s 3 7 11 15
  let s := quarterRoundAt s 0 5 10 15
  let s := quarterRoundAt s 1 6 11 12
  let s := quarterRoundAt s 2 7 8 13
  quarterRoundAt s 3 4 9 14

/-- Word `j` of a byte string, read as a little-endian number. -/
def wordAt (bytes : List UInt8) (j : ℕ) : BitVec 32 :=
  BitVec.ofNat 32 (leNat ((bytes.drop (4 * j)).take 4))

/-- The constants, the key, the counter and the nonce. -/
def initialState (key : Bytes 32) (counter : ℕ) (nonce : Bytes 12) : ℕ → BitVec 32
  | 0 => 0x61707865
  | 1 => 0x3320646e
  | 2 => 0x79622d32
  | 3 => 0x6b206574
  | 12 => BitVec.ofNat 32 counter
  | i => if i < 12 then wordAt key.toList (i - 4) else wordAt nonce.toList (i - 13)

/-- `chacha20_block` of section 2.3. -/
def block (key : Bytes 32) (counter : ℕ) (nonce : Bytes 12) : List UInt8 :=
  let state := initialState key counter nonce
  let working := innerBlock^[10] state
  (List.range 16).flatMap fun i => leBytes 4 (state i + working i).toNat

/-! ### The words of the code -/

/-- The array holds the words of the state. -/
def Holds (x : State) (s : ℕ → BitVec 32) : Prop := ∀ i (h : i < 16), x[i].toBitVec = s i

theorem Holds.set {x : State} {s : ℕ → BitVec 32} (h : Holds x s) (a : Fin 16) {v : UInt32}
    {w : BitVec 32} (hv : v.toBitVec = w) :
    Holds (x.set a v a.isLt) (Function.update s a w) := by
  intro i hi
  rw [Vector.getElem_set, Function.update_apply]
  by_cases hia : i = a
  · rw [if_pos hia.symm, if_pos hia, hv]
  · rw [if_neg (Ne.symm hia), if_neg hia, h i hi]

/-- The steps of a quarter round one after the other, on indices that differ. -/
theorem quarterRoundAt_eq (s : ℕ → BitVec 32) {a b c d : ℕ} (h : [a, b, c, d].Nodup) :
    quarterRoundAt s a b c d =
      let s := Function.update s a (s a + s b)
      let s := Function.update s d ((s d ^^^ s a).rotateLeft 16)
      let s := Function.update s c (s c + s d)
      let s := Function.update s b ((s b ^^^ s c).rotateLeft 12)
      let s := Function.update s a (s a + s b)
      let s := Function.update s d ((s d ^^^ s a).rotateLeft 8)
      let s := Function.update s c (s c + s d)
      Function.update s b ((s b ^^^ s c).rotateLeft 7) := by
  simp only [List.nodup_cons, List.mem_cons, not_or, List.not_mem_nil, not_false_eq_true,
    List.nodup_nil, and_true] at h
  obtain ⟨⟨hab, hac, had⟩, ⟨hbc, hbd⟩, hcd⟩ := h
  funext i
  simp only [quarterRoundAt, quarterRound, Function.update_apply, hab, hac, had, hbc, hbd, hcd,
    Ne.symm hab, Ne.symm hac, Ne.symm had, Ne.symm hbc, Ne.symm hbd, Ne.symm hcd, if_true, if_false]
  split_ifs <;> first | rfl | (exfalso; omega)

theorem Holds.quarterRound {x : State} {s : ℕ → BitVec 32} (h : Holds x s) (a b c d : Fin 16)
    (hne : [a.val, b.val, c.val, d.val].Nodup) :
    Holds (Chacha20.quarterRound x a b c d) (quarterRoundAt s a b c d) := by
  have hadd : ∀ {x : State} {s : ℕ → BitVec 32}, Holds x s → ∀ p q : Fin 16,
      Holds (x.set p (x[p] + x[q])) (Function.update s p (s p + s q)) := by
    intro x s h p q
    refine h.set p ?_
    rw [UInt32.toBitVec_add, ← h p p.isLt, ← h q q.isLt]
    rfl
  have hrot : ∀ {x : State} {s : ℕ → BitVec 32}, Holds x s → ∀ (p q : Fin 16) {n : UInt32}
      {k : ℕ}, (∀ v, (rotl32 v n).toBitVec = v.toBitVec.rotateLeft k) →
      Holds (x.set p (rotl32 (x[p] ^^^ x[q]) n))
        (Function.update s p ((s p ^^^ s q).rotateLeft k)) := by
    intro x s h p q n k hn
    refine h.set p ?_
    rw [hn, UInt32.toBitVec_xor, ← h p p.isLt, ← h q q.isLt]
    rfl
  rw [quarterRoundAt_eq s hne, Chacha20.quarterRound]
  have h1 := hadd h a b
  have h2 := hrot h1 d a (n := 16) (k := 16) fun _ => rfl
  have h3 := hadd h2 c d
  have h4 := hrot h3 b c (n := 12) (k := 12) fun _ => rfl
  have h5 := hadd h4 a b
  have h6 := hrot h5 d a (n := 8) (k := 8) fun _ => rfl
  have h7 := hadd h6 c d
  exact hrot h7 b c (n := 7) (k := 7) fun _ => rfl

theorem Holds.doubleRound {x : State} {s : ℕ → BitVec 32} (h : Holds x s) :
    Holds (Chacha20.doubleRound x) (innerBlock s) := by
  have h1 := h.quarterRound 0 4 8 12 (by decide)
  have h2 := h1.quarterRound 1 5 9 13 (by decide)
  have h3 := h2.quarterRound 2 6 10 14 (by decide)
  have h4 := h3.quarterRound 3 7 11 15 (by decide)
  have h5 := h4.quarterRound 0 5 10 15 (by decide)
  have h6 := h5.quarterRound 1 6 11 12 (by decide)
  have h7 := h6.quarterRound 2 7 8 13 (by decide)
  exact h7.quarterRound 3 4 9 14 (by decide)

theorem Holds.rounds {x : State} {s : ℕ → BitVec 32} (h : Holds x s) (n : ℕ) :
    Holds ((List.range n).foldl (fun x _ => Chacha20.doubleRound x) x) (innerBlock^[n] s) := by
  induction n with
  | zero => exact h
  | succ n ih =>
      rw [List.range_succ, List.foldl_append, Function.iterate_succ_apply']
      exact ih.doubleRound

/-! ### Words and bytes -/

theorem leNat_take_four (bytes : List UInt8) : leNat (bytes.take 4) =
    leNat [bytes.getD 0 0, bytes.getD 1 0, bytes.getD 2 0, bytes.getD 3 0] := by
  rcases bytes with _ | ⟨b₀, _ | ⟨b₁, _ | ⟨b₂, _ | ⟨b₃, bytes⟩⟩⟩⟩ <;> rfl

/-- A word of the code is the little-endian number of its four bytes. -/
theorem toBitVec_load32Le (bytes : List UInt8) (j : ℕ) :
    (load32Le bytes (4 * j)).toBitVec = wordAt bytes j := by
  apply BitVec.eq_of_toNat_eq
  have hlt : leNat [(bytes.drop (4 * j)).getD 0 0, (bytes.drop (4 * j)).getD 1 0,
      (bytes.drop (4 * j)).getD 2 0, (bytes.drop (4 * j)).getD 3 0] < 2 ^ 32 :=
    leNat_lt_two_pow _
  rw [wordAt, BitVec.toNat_ofNat, leNat_take_four, Nat.mod_eq_of_lt hlt]
  simp only [List.getD_eq_getElem?_getD, List.getElem?_drop]
  exact toNat_or_shifts _ _ _ _

theorem store32Le_eq (v : UInt32) : store32Le v = leBytes 4 v.toNat := (leBytes_four v).symm

/-- What `apply_keystream` starts from. -/
theorem holds_initState (key : Bytes 32) (counter : UInt32) (nonce : Bytes 12) :
    Holds (initState key counter nonce) (initialState key counter.toNat nonce) := by
  intro i hi
  have hcounter : counter.toBitVec = BitVec.ofNat 32 counter.toNat := by
    rw [← UInt32.toNat_toBitVec, BitVec.ofNat_toNat, BitVec.setWidth_eq]
  interval_cases i
  exacts [rfl, rfl, rfl, rfl, toBitVec_load32Le _ 0, toBitVec_load32Le _ 1, toBitVec_load32Le _ 2,
    toBitVec_load32Le _ 3, toBitVec_load32Le _ 4, toBitVec_load32Le _ 5, toBitVec_load32Le _ 6,
    toBitVec_load32Le _ 7, hcounter, toBitVec_load32Le _ 0, toBitVec_load32Le _ 1,
    toBitVec_load32Le _ 2]

/-- The block function of the code is the one of the RFC. -/
theorem block_initState (key : Bytes 32) (counter : UInt32) (nonce : Bytes 12) :
    Chacha20.block (initState key counter nonce) = block key counter.toNat nonce := by
  have hinit := holds_initState key counter nonce
  have hrounds := hinit.rounds 10
  rw [Chacha20.block, block, List.flatMap_def]
  congr 1
  apply List.ext_getElem
  · simp
  · intro i hi hi'
    have hi16 : i < 16 := by simpa using hi'
    rw [Vector.getElem_toList, Vector.getElem_zipWith, List.getElem_map, List.getElem_range,
      ← hinit i hi16, ← hrounds i hi16, store32Le_eq, ← UInt32.toBitVec_add, UInt32.add_comm]
    rfl

/-! ### The keystream -/

theorem length_block (key : Bytes 32) (counter : ℕ) (nonce : Bytes 12) :
    (block key counter nonce).length = 64 := by
  simp [block, List.length_flatMap]

/-- The keystream of the code is the blocks of the RFC one after the other. -/
theorem keystreamByte_eq (key : Bytes 32) (counter : UInt32) (nonce : Bytes 12) (i : ℕ) :
    keystreamByte key counter nonce i =
      (block key ((counter.toNat + i / 64) % 2 ^ 32) nonce).getD (i % 64) 0 := by
  rw [keystreamByte, block_initState, UInt32.toNat_add, UInt32.toNat_ofNat', Nat.add_mod_mod]

/-- `apply_keystream` changes byte `i` by byte `i % 64` of the block for the counter
`c + i / 64`. It is its own inverse, and full blocks can be processed on their own. -/
theorem applyKeystream_positional (key : Bytes 32) (nonce : Bytes 12) (c : UInt32) :
    (∀ counter, (block key counter nonce).length = 64) ∧
    (∀ buffer : List UInt8, applyKeystream key c nonce buffer = buffer.mapIdx fun i b =>
      b ^^^ (block key ((c.toNat + i / 64) % 2 ^ 32) nonce).getD (i % 64) 0) ∧
    (∀ buffer : List UInt8,
      applyKeystream key c nonce (applyKeystream key c nonce buffer) = buffer) ∧
    ∀ as bs : List UInt8, 64 ∣ as.length →
      applyKeystream key c nonce (as ++ bs) = applyKeystream key c nonce as ++
        applyKeystream key (c + UInt32.ofNat (as.length / 64)) nonce bs := by
  refine ⟨fun counter => length_block key counter nonce, fun buffer => ?_,
    applyKeystream_applyKeystream key c nonce,
    fun as bs h => applyKeystream_append key c nonce bs h⟩
  simp only [applyKeystream_eq_mapIdx, keystreamByte_eq]

end PeerToPeer.Crypto.Rfc8439
