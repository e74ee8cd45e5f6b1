import PeerToPeer.Crypto.FieldQSpec

/-!
The byte codec of `field_q`: `from_bytes` loads the little-endian integer as it
stands, `to_bytes` writes its remainder modulo `L`, and `clamp` prepares the
scalar of an X25519 private key.
-/

namespace PeerToPeer.Crypto.FieldQ

open PeerToPeer.Lib

/-! ### Loading -/

theorem leNat_lt_two_pow_256 (b : Bytes 32) : leNat b.toList < 2 ^ 256 := by
  have := leNat_lt_two_pow b.toList
  rwa [Vector.length_toList] at this

theorem mod_two_pow_succ_eq (m k : ℕ) :
    m % 2 ^ (k + 1) = m % 2 ^ k + (m.testBit k).toNat * 2 ^ k := by
  rw [pow_succ, Nat.mod_mul, Nat.toNat_testBit, mul_comm]

/-- The bit that `load_bits_le` extracts, as a word. -/
theorem toNat_byteBit (bs : List UInt8) (j : ℕ) :
    ((bs.getD (j / 8) 0 >>> UInt8.ofNat (j % 8)) &&& 1).toNat =
      ((leNat bs).testBit j).toNat := by
  have hj : j % 8 < 8 := Nat.mod_lt j (by norm_num)
  rw [UInt8.toNat_and, UInt8.toNat_shiftRight, toNat_ofNat_byte (by omega),
    Nat.mod_eq_of_lt hj, Nat.shiftRight_eq_div_pow, UInt8.toNat_one, Nat.and_one_is_mod,
    testBit_leNat, Nat.toNat_testBit]

/-- `load_bits_le` reads a window of the little-endian number. -/
theorem loadBitsLe_spec (b : Bytes 32) (startBit bitCount : ℕ) (h : bitCount ≤ 64) :
    (loadBitsLe b startBit bitCount).toNat =
      leNat b.toList / 2 ^ startBit % 2 ^ bitCount := by
  induction bitCount with
  | zero => simp [loadBitsLe, Nat.mod_one]
  | succ k ih =>
      have hk : (UInt64.ofNat k).toNat = k := by
        rw [UInt64.toNat_ofNat', Nat.mod_eq_of_lt (by omega)]
      have hbit : (leNat b.toList / 2 ^ startBit).testBit k =
          (leNat b.toList).testBit (startBit + k) := by
        rw [← Nat.shiftRight_eq_div_pow, Nat.testBit_shiftRight]
      rw [mod_two_pow_succ_eq, hbit, ← ih (by omega)]
      rw [loadBitsLe, List.range_succ, List.foldl_append, List.foldl_cons, List.foldl_nil,
        ← loadBitsLe, UInt64.toNat_or, UInt64.toNat_shiftLeft, hk, UInt8.toNat_toUInt64,
        toNat_byteBit, Nat.mod_eq_of_lt (show k < 64 by omega), Nat.shiftLeft_eq,
        Nat.mod_eq_of_lt]
      · apply or_eq_add_of_lt
        rw [ih (by omega)]
        exact Nat.mod_lt _ (by positivity)
      · have hle : ((leNat b.toList).testBit (startBit + k)).toNat ≤ 1 := Bool.toNat_le _
        calc _ ≤ 1 * 2 ^ k := Nat.mul_le_mul_right _ hle
          _ < 2 ^ 64 := by
            rw [one_mul]
            exact Nat.pow_lt_pow_right (by norm_num) (by omega)

/-- `from_bytes` holds the little-endian number of its 32 bytes. -/
theorem fromBytes_spec (b : Bytes 32) :
    (fromBytes b).Raw ∧ (fromBytes b).value = leNat b.toList := by
  have hlt := leNat_lt_two_pow_256 b
  have e0 := loadBitsLe_spec b 0 52 (by norm_num)
  have e1 := loadBitsLe_spec b 52 52 (by norm_num)
  have e2 := loadBitsLe_spec b 104 52 (by norm_num)
  have e3 := loadBitsLe_spec b 156 52 (by norm_num)
  have e4 := loadBitsLe_spec b 208 48 (by norm_num)
  refine ⟨⟨⟨?_, ?_, ?_, ?_⟩, ?_⟩, ?_⟩
  · simp only [fromBytes, e0]
    omega
  · simp only [fromBytes, e1]
    omega
  · simp only [fromBytes, e2]
    omega
  · simp only [fromBytes, e3]
    omega
  · simp only [fromBytes, e4]
    omega
  · simp only [fromBytes, value, e0, e1, e2, e3, e4]
    omega

/-! ### Storing -/

/-- Writing bit `k` of a byte. -/
theorem testBit_storeByte (old : UInt8) (bit : Bool) {k m : ℕ} (hk : k < 8) (hm : m < 8) :
    ((old &&& ~~~((1 : UInt8) <<< UInt8.ofNat k)) |||
      ((UInt8.ofNat bit.toNat) <<< UInt8.ofNat k)).toNat.testBit m =
      if m = k then bit else old.toNat.testBit m := by
  have hnot : ∀ k < 8, ∀ m < 8,
      (~~~((1 : UInt8) <<< UInt8.ofNat k)).toNat.testBit m = decide (m ≠ k) := by decide
  have hset : ∀ bit : Bool, ∀ k < 8, ∀ m < 8,
      (UInt8.ofNat bit.toNat <<< UInt8.ofNat k).toNat.testBit m = (bit && decide (m = k)) := by
    decide
  rw [UInt8.toNat_or, UInt8.toNat_and, Nat.testBit_or, Nat.testBit_and, hnot k hk m hm,
    hset bit k hk m hm]
  split_ifs with h <;> simp [h]

theorem storeBit_word (value : UInt64) {i : ℕ} (h : i < 64) :
    ((value >>> UInt64.ofNat i) &&& 1).toUInt8 = UInt8.ofNat (value.toNat.testBit i).toNat := by
  apply UInt8.toNat_inj.mp
  have hi : (UInt64.ofNat i).toNat = i := by
    rw [UInt64.toNat_ofNat', Nat.mod_eq_of_lt (by omega)]
  rw [UInt64.toNat_toUInt8, UInt64.toNat_and, UInt64.toNat_shiftRight, hi,
    Nat.mod_eq_of_lt h, Nat.shiftRight_eq_div_pow, UInt64.toNat_one, Nat.and_one_is_mod,
    UInt8.toNat_ofNat', Nat.toNat_testBit]

/-- `store_bits_le` replaces a window of bits. -/
theorem testBit_storeBitsLe (bytes : Bytes 32) (value : UInt64) {startBit bitCount : ℕ}
    (hcount : bitCount ≤ 64) (hend : startBit + bitCount ≤ 256) (j : ℕ) :
    (leNat (storeBitsLe bytes value startBit bitCount).toList).testBit j =
      if startBit ≤ j ∧ j < startBit + bitCount then value.toNat.testBit (j - startBit)
      else (leNat bytes.toList).testBit j := by
  induction bitCount with
  | zero => simp [storeBitsLe, show ¬(startBit ≤ j ∧ j < startBit) by omega]
  | succ k ih =>
      specialize ih (by omega) (by omega)
      rw [storeBitsLe, List.range_succ, List.foldl_append, List.foldl_cons, List.foldl_nil,
        ← storeBitsLe]
      generalize storeBitsLe bytes value startBit k = cur at ih ⊢
      have hidx : (startBit + k) / 8 < cur.toList.length := by
        rw [Vector.length_toList]
        omega
      have hold : (cur.toList.getD ((startBit + k) / 8) 0).toNat.testBit (j % 8) =
          if j / 8 = (startBit + k) / 8 then (leNat cur.toList).testBit j
          else (cur.toList.getD ((startBit + k) / 8) 0).toNat.testBit (j % 8) := by
        split_ifs with hbyte
        · rw [testBit_leNat, hbyte]
        · rfl
      rw [Vector.toList_setIfInBounds, testBit_leNat_set hidx, storeBit_word value (by omega),
        testBit_storeByte _ _ (Nat.mod_lt _ (by norm_num)) (Nat.mod_lt _ (by norm_num)), hold, ih]
      by_cases hj : j = startBit + k
      · subst hj
        simp
      · have hne : j / 8 = (startBit + k) / 8 → j % 8 ≠ (startBit + k) % 8 := by omega
        have hwin : (startBit ≤ j ∧ j < startBit + (k + 1)) ↔
            (startBit ≤ j ∧ j < startBit + k) := by omega
        simp only [hwin]
        split_ifs with hbyte hbit <;> first | rfl | exact absurd hbit (hne hbyte)

/-- `to_bytes` writes the number held modulo `L`. -/
theorem leNat_toBytes {x : FieldQ} (hx : x.Raw) :
    leNat (toBytes x).toList = x.value % order := by
  obtain ⟨hred, hval⟩ := reduce_spec_of_raw hx
  have h4 := hred.l4_lt
  rw [← hval]
  apply Nat.eq_of_testBit_eq
  intro j
  rw [toBytes]
  rw [testBit_storeBitsLe _ _ (by norm_num) (by norm_num),
    testBit_storeBitsLe _ _ (by norm_num) (by norm_num),
    testBit_storeBitsLe _ _ (by norm_num) (by norm_num),
    testBit_storeBitsLe _ _ (by norm_num) (by norm_num),
    testBit_storeBitsLe _ _ (by norm_num) (by norm_num), hred.toLow.testBit_value,
    Vector.toList_replicate, leNat_replicate_zero, Nat.zero_testBit]
  have htop : 253 ≤ j → (reduce x).l4.toNat.testBit (j - 208) = false := by
    intro hj
    apply Nat.testBit_lt_two_pow
    exact lt_of_lt_of_le h4 (Nat.pow_le_pow_right (by norm_num) (by omega))
  simp only [Nat.zero_le, true_and, Nat.zero_add, Nat.reduceAdd, Nat.sub_zero]
  split_ifs <;> first | omega | exact (htop (by omega)).symm | rfl

theorem Reduced.leNat_toBytes {x : FieldQ} (hx : x.Reduced) :
    leNat (toBytes x).toList = x.value := by
  rw [FieldQ.leNat_toBytes hx.raw, Nat.mod_eq_of_lt hx.lt]

/-- The scalars below the order are the ones that are read and written unchanged. -/
theorem toBytes_fromBytesModL_iff (b : Bytes 32) :
    toBytes (fromBytesModL b) = b ↔ leNat b.toList < order := by
  obtain ⟨hred, hval⟩ := fromBytesModL_spec b
  have hbytes := hred.leNat_toBytes
  constructor
  · intro h
    rw [h] at hbytes
    exact hbytes.trans_lt hred.lt
  · intro h
    exact bytes_ext (hbytes.trans (hval.trans (Nat.mod_eq_of_lt h)))

/-! ### Clamping -/

theorem testBit_word_of_le (a : UInt64) {j : ℕ} (h : 64 ≤ j) : a.toNat.testBit j = false :=
  Nat.testBit_lt_two_pow (lt_of_lt_of_le a.toNat_lt (Nat.pow_le_pow_right (by norm_num) h))

theorem toNat_and_not_seven (a : UInt64) : (a &&& ~~~7).toNat = a.toNat / 8 * 8 := by
  have hmask : (~~~7 : UInt64).toNat = 2 ^ 3 * (2 ^ 61 - 1) := by decide
  apply Nat.eq_of_testBit_eq
  intro j
  rw [UInt64.toNat_and, hmask, Nat.testBit_and, Nat.testBit_two_pow_mul,
    Nat.testBit_two_pow_sub_one, mul_comm, show 8 = 2 ^ 3 by rfl, Nat.testBit_two_pow_mul,
    Nat.testBit_div_two_pow]
  by_cases h3 : 3 ≤ j
  · by_cases h64 : 64 ≤ j
    · simp [testBit_word_of_le a h64, show j - 3 + 3 = j by omega]
    · simp [h3, show j - 3 < 61 by omega, show j - 3 + 3 = j by omega]
  · simp [h3]

theorem toNat_clampTop {a : UInt64} (h : a.toNat < 2 ^ 48) :
    ((a &&& ~~~((1 : UInt64) <<< 47)) ||| ((1 : UInt64) <<< 46)).toNat =
      a.toNat % 2 ^ 46 + 2 ^ 46 := by
  have hmask : (~~~((1 : UInt64) <<< 47)).toNat = 2 ^ 48 * (2 ^ 16 - 1) + (2 ^ 47 - 1) := by
    decide
  have hone : ((1 : UInt64) <<< 46).toNat = 1 * 2 ^ 46 := by decide
  have hlow : (a &&& ~~~((1 : UInt64) <<< 47)).toNat = a.toNat % 2 ^ 47 := by
    apply Nat.eq_of_testBit_eq
    intro j
    rw [UInt64.toNat_and, hmask, Nat.testBit_and, Nat.testBit_two_pow_mul_add _ (by norm_num),
      Nat.testBit_mod_two_pow]
    by_cases hj : j < 48
    · rw [if_pos hj, Nat.testBit_two_pow_sub_one, Bool.and_comm]
    · have : a.toNat.testBit j = false :=
        Nat.testBit_lt_two_pow (lt_of_lt_of_le h (Nat.pow_le_pow_right (by norm_num) (by omega)))
      simp [this]
  rw [UInt64.toNat_or, hlow, hone]
  have hsplit : a.toNat % 2 ^ 47 = a.toNat % 2 ^ 46 ||| (a.toNat / 2 ^ 46 % 2) * 2 ^ 46 := by
    rw [or_eq_add_of_lt (Nat.mod_lt _ (by norm_num))]
    omega
  have hbit : (a.toNat / 2 ^ 46 % 2) * 2 ^ 46 ||| 1 * 2 ^ 46 = 1 * 2 ^ 46 := by
    rcases Nat.mod_two_eq_zero_or_one (a.toNat / 2 ^ 46) with h | h <;> rw [h] <;> decide
  rw [hsplit, Nat.lor_assoc, hbit, or_eq_add_of_lt (Nat.mod_lt _ (by norm_num)), one_mul]

/-- Clamping clears the low three bits and the top one and sets bit 254. -/
theorem clamp_spec {x : FieldQ} (hx : x.Raw) :
    x.clamp.Raw ∧ x.clamp.value = x.value % 2 ^ 254 / 8 * 8 + 2 ^ 254 := by
  have h4 := hx.l4
  obtain ⟨h0, h1, h2, h3⟩ := hx.toLow
  have e0 := toNat_and_not_seven x.l0
  have e4 := toNat_clampTop h4
  constructor
  · constructor
    · exact ⟨by simp only [clamp, e0]; omega, h1, h2, h3⟩
    · simp only [clamp, e4]
      omega
  · simp only [clamp, value, e0, e4]
    omega

end PeerToPeer.Crypto.FieldQ
