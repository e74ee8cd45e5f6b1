import PeerToPeer.Crypto.Poly1305Spec
import PeerToPeer.Lib.Pratt
import Mathlib.Data.Set.Card.Arithmetic
import Mathlib.Data.Int.Interval
import Mathlib.Data.Int.ModEq

/-!
How often two messages have tags with a given difference.

For a fixed second key half, the difference of two tags is the difference of two
hashes up to a multiple of `2^128`, and only eight multiples are in range. For each
of them the clamped key is a root of a polynomial that is not zero, since the
blocks of a message determine the message.
-/

namespace PeerToPeer.Crypto

open PeerToPeer.Lib

/-! ### Primality -/

def smallPrimes1305 : List ℕ :=
  [2, 3, 5, 13, 17, 23, 43, 73, 461, 487, 4889, 19403, 37003, 221101]

theorem prime_of_mem_smallPrimes1305 : ∀ q ∈ smallPrimes1305, q.Prime := by
  simp only [smallPrimes1305, List.forall_mem_cons, List.not_mem_nil, false_imp_iff, implies_true]
  norm_num

def certificate1305 : List PrattEntry :=
  [⟨25, 32985101, 2, [2, 2, 5, 5, 17, 19403]⟩,
    ⟨22, 3134801, 3, [2, 2, 2, 2, 5, 5, 17, 461]⟩,
    ⟨62, 4024685905107147541, 2, [2, 2, 3, 3, 5, 13, 43, 4889, 37003, 221101]⟩,
    ⟨100, 897064739519922787230182993783, 5, [2, 73, 487, 3134801, 4024685905107147541]⟩,
    ⟨130, p1305, 2, [2, 23, 32985101, 897064739519922787230182993783]⟩]

theorem p1305_prime : p1305.Prime :=
  prime_of_prattCheck prime_of_mem_smallPrimes1305
    (by decide +kernel : prattCheck smallPrimes1305 certificate1305 = true)
    ⟨130, p1305, 2, _⟩ (List.mem_of_getElem? (i := 4) rfl)

instance : Fact p1305.Prime := ⟨p1305_prime⟩

namespace Poly1305

/-- Clamping leaves the key half as it is. -/
def Clamped (r : Bytes 16) : Prop := (clampedR r.toList).toList = r.toList ++ [0]

/-- The tags of two messages under the key `r ++ s` differ by `d` modulo `2^128`. -/
def TagsDiffer (r s : Bytes 16) (m₁ m₂ : List UInt8) (d : Bytes 16) : Prop :=
  (leNat (generate (r.toList ++ s.toList) m₁) : ℤ) - leNat (generate (r.toList ++ s.toList) m₂) ≡
    leNat d.toList [ZMOD 2 ^ 128]

/-- The coefficients of a message. -/
def coefficients (msg : List UInt8) : List (ZMod p1305) :=
  (blocks msg).map fun block => (blockNat block : ZMod p1305)

/-! ### Messages as polynomials -/

theorem val_blockNat {msg block : List UInt8} (h : block ∈ blocks msg) :
    (blockNat block : ZMod p1305).val = blockNat block := by
  have hlt := blockNat_lt (length_le_of_mem_pieces h)
  apply ZMod.val_natCast_of_lt
  rw [p1305_eq]
  omega

theorem coefficients_ne_zero (msg : List UInt8) : ∀ c ∈ coefficients msg, c ≠ 0 := by
  intro c hc
  obtain ⟨block, hmem, rfl⟩ := List.mem_map.mp hc
  intro hzero
  have hval := val_blockNat hmem
  rw [hzero, ZMod.val_zero] at hval
  exact absurd hval (blockNat_pos block).ne

theorem map_val_coefficients (msg : List UInt8) :
    (coefficients msg).map ZMod.val = (blocks msg).map blockNat := by
  rw [coefficients, List.map_map]
  exact List.map_congr_left fun _ hmem => val_blockNat hmem

theorem coefficients_inj {m₁ m₂ : List UInt8} (h : coefficients m₁ = coefficients m₂) :
    m₁ = m₂ := by
  apply blocks_inj
  rw [← map_val_coefficients, h, map_val_coefficients]

theorem length_coefficients_le {msg : List UInt8} {n : ℕ} (h : msg.length ≤ 16 * n) :
    (coefficients msg).length ≤ n := by
  rw [coefficients, List.length_map, blocks, length_pieces]
  omega

/-! ### Differences of tags -/

theorem clampedR_append (r : Bytes 16) (s : List UInt8) :
    clampedR (r.toList ++ s) = clampedR r.toList := by
  have hbyte : ∀ i : ℕ, i < 16 → (r.toList ++ s).getD i 0 = r.toList.getD i 0 := by
    intro i hi
    exact List.getD_append _ _ _ _ (by simpa using hi)
  rw [clampedR, clampedR]
  congr 1
  funext i
  by_cases hi : i.val < 16
  · rw [if_pos hi, if_pos hi, hbyte i.val hi]
  · rw [if_neg hi, if_neg hi]

theorem pointNat_of_clamped {r : Bytes 16} (h : Clamped r) (s : List UInt8) :
    pointNat (r.toList ++ s) = leNat r.toList := by
  rw [pointNat, clampedR_append, h, leNat_append]
  simp

/-- The hash as an element of the field. -/
theorem cast_hashNat {r : Bytes 16} (h : Clamped r) (s msg : List UInt8) :
    (hashNat (r.toList ++ s) msg : ZMod p1305) =
      polyHash (leNat r.toList : ZMod p1305) (coefficients msg) := by
  have hcast := map_polyHash (Nat.castRingHom (ZMod p1305)) (leNat r.toList)
    ((blocks msg).map blockNat)
  rw [List.map_map, Nat.coe_castRingHom] at hcast
  rw [hashNat, ZMod.natCast_mod, pointNat_of_clamped h, hcast]
  rfl

theorem hashNat_lt (key msg : List UInt8) : hashNat key msg < p1305 :=
  Nat.mod_lt _ p1305_prime.pos

/-- The second half of the key cancels, and the difference of the hashes is one of
eight numbers. -/
theorem hashNat_sub_of_tagsDiffer {r s d : Bytes 16} {m₁ m₂ : List UInt8}
    (h : TagsDiffer r s m₁ m₂ d) :
    ∃ k : ℤ, (-4 ≤ k ∧ k ≤ 3) ∧ (hashNat (r.toList ++ s.toList) m₁ : ℤ) -
      hashNat (r.toList ++ s.toList) m₂ = leNat d.toList + k * 2 ^ 128 := by
  have hlen : (r.toList ++ s.toList).length = 32 := by simp
  have hlt₁ := hashNat_lt (r.toList ++ s.toList) m₁
  have hlt₂ := hashNat_lt (r.toList ++ s.toList) m₂
  have hd := leNat_lt d.toList
  rw [TagsDiffer, leNat_generate hlen, leNat_generate hlen] at h
  obtain ⟨k, hk⟩ := h.dvd
  rw [Vector.length_toList] at hd
  rw [p1305_eq] at hlt₁ hlt₂
  generalize hashNat (r.toList ++ s.toList) m₁ = h₁ at *
  generalize hashNat (r.toList ++ s.toList) m₂ = h₂ at *
  generalize leNat ((r.toList ++ s.toList).drop 16) = t at *
  -- the quotients of the two tags take part in the multiple of `2^128`
  refine ⟨-k + ((h₁ + t) / 2 ^ 128 : ℕ) - ((h₂ + t) / 2 ^ 128 : ℕ), ?_, ?_⟩
  · push_cast at hk ⊢
    omega
  · push_cast at hk ⊢
    omega

/-- Key halves are told apart by the point. -/
theorem point_injective : Function.Injective fun r : Bytes 16 => (leNat r.toList : ZMod p1305) := by
  have hval : ∀ r : Bytes 16, (leNat r.toList : ZMod p1305).val = leNat r.toList := by
    intro r
    have hlt := leNat_lt r.toList
    rw [Vector.length_toList] at hlt
    apply ZMod.val_natCast_of_lt
    rw [p1305_eq]
    omega
  intro r r' heq
  have hnat := congrArg ZMod.val heq
  simp only [hval] at hnat
  exact bytes_ext hnat

/-- The points at which the hashes of two messages differ by `d` up to one of the eight
multiples of `2^128`. -/
def points (m₁ m₂ : List UInt8) (d : ℤ) : Set (ZMod p1305) :=
  {x | ∃ k : ℤ, (-4 ≤ k ∧ k ≤ 3) ∧ polyHash x (coefficients m₁) - polyHash x (coefficients m₂) =
    ((d + k * 2 ^ 128 : ℤ) : ZMod p1305)}

theorem encard_points_le {n : ℕ} {m₁ m₂ : List UInt8} (h₁ : m₁.length ≤ 16 * n)
    (h₂ : m₂.length ≤ 16 * n) (hne : m₁ ≠ m₂) (d : ℤ) : (points m₁ m₂ d).encard ≤ 8 * n := by
  have hunion : points m₁ m₂ d = ⋃ k ∈ Finset.Icc (-4 : ℤ) 3,
      {x | polyHash x (coefficients m₁) - polyHash x (coefficients m₂) =
        ((d + k * 2 ^ 128 : ℤ) : ZMod p1305)} := by
    ext x
    simp [points]
  rw [hunion]
  calc _ ≤ ∑ k ∈ Finset.Icc (-4 : ℤ) 3, ({x | polyHash x (coefficients m₁) -
          polyHash x (coefficients m₂) = ((d + k * 2 ^ 128 : ℤ) : ZMod p1305)}).encard :=
        Finset.set_encard_biUnion_le _ _
    _ ≤ ∑ _k ∈ Finset.Icc (-4 : ℤ) 3, (n : ℕ∞) := Finset.sum_le_sum fun k _ =>
        encard_polyHash_sub_le (coefficients_ne_zero m₁) (coefficients_ne_zero m₂)
          (fun h => hne (coefficients_inj h)) (length_coefficients_le h₁)
          (length_coefficients_le h₂) _
    _ = 8 * n := by
        rw [Finset.sum_const, Int.card_Icc, nsmul_eq_mul]
        rfl

/-- Tags with a given difference put the point of the key among them. -/
theorem mem_points {r s d : Bytes 16} {m₁ m₂ : List UInt8} (hclamped : Clamped r)
    (h : TagsDiffer r s m₁ m₂ d) :
    (leNat r.toList : ZMod p1305) ∈ points m₁ m₂ (leNat d.toList) := by
  obtain ⟨k, hk, hsub⟩ := hashNat_sub_of_tagsDiffer h
  refine ⟨k, hk, ?_⟩
  have hcast := congrArg (Int.cast : ℤ → ZMod p1305) hsub
  rwa [Int.cast_sub, Int.cast_natCast, Int.cast_natCast, cast_hashNat hclamped,
    cast_hashNat hclamped] at hcast

/-- At most `8 n` clamped keys give two messages of at most `n` blocks tags with a
given difference. -/
theorem encard_tagsDiffer_le {n : ℕ} {m₁ m₂ : List UInt8} (h₁ : m₁.length ≤ 16 * n)
    (h₂ : m₂.length ≤ 16 * n) (hne : m₁ ≠ m₂) (s d : Bytes 16) :
    {r : Bytes 16 | Clamped r ∧ TagsDiffer r s m₁ m₂ d}.encard ≤ 8 * n := by
  have hmaps : Set.MapsTo (fun r : Bytes 16 => (leNat r.toList : ZMod p1305))
      {r : Bytes 16 | Clamped r ∧ TagsDiffer r s m₁ m₂ d} (points m₁ m₂ (leNat d.toList)) :=
    fun r hr => mem_points hr.1 hr.2
  exact (Set.encard_le_encard_of_injOn hmaps point_injective.injOn).trans
    (encard_points_le h₁ h₂ hne _)

/-- Two messages of three blocks, the last one short in either. -/
theorem encard_tagsDiffer_le_threeBlocks :
    (List.replicate 40 0x41 : List UInt8) ≠ List.replicate 33 0x42 ∧
      {r : Bytes 16 | Clamped r ∧ TagsDiffer r (leVector 16 7) (List.replicate 40 0x41)
        (List.replicate 33 0x42) (leVector 16 5)}.encard ≤ 8 * (3 : ℕ) :=
  ⟨by decide, encard_tagsDiffer_le (by decide) (by decide) (by decide) _ _⟩

end Poly1305

end PeerToPeer.Crypto
