import Mathlib.Data.FinEnum
import Mathlib.Data.Fintype.BigOperators
import PeerToPeer.Crypto.Aead
import PeerToPeer.Crypto.Forgery

/-!
What a blob that is seen says about the tags of others.

Every one-time key has two halves. For a blob and each clamped first half there is exactly one
second half under which the blob is authentic, so a blob tells nothing of the first half; and
two different blobs are authentic together for a few first halves only. Whoever has seen one
blob and knows nothing of the key passes off another one for at most `8 n` of the `2^106` keys
that are left.
-/

namespace PeerToPeer.Crypto

open PeerToPeer.Lib

namespace Poly1305

/-! ### The first half of a key -/

/-- A key half is clamped when every byte is. -/
theorem clamped_iff (r : Bytes 16) :
    Clamped r ↔ ∀ i : Fin 16, r.get i &&& clampMask i.val = r.get i := by
  have hlen : r.toList.length = 16 := Vector.length_toList
  rw [Clamped, toList_clampedR hlen.ge, List.take_of_length_le hlen.le]
  constructor
  · intro h i
    have hget := (List.ext_getElem_iff.mp h).2 i.val (by simp [hlen]; omega) (by simp; omega)
    rw [List.getElem_zipWith, List.getElem_append_left (by simp), Vector.getElem_toList,
      List.getElem_map, List.getElem_range] at hget
    exact hget
  · intro h
    refine List.ext_getElem (by simp) fun i hi hi' => ?_
    rw [List.getElem_zipWith, List.getElem_map, List.getElem_range]
    rcases Nat.lt_or_ge i 16 with hlt | hge
    · rw [List.getElem_append_left (by rwa [hlen]), Vector.getElem_toList]
      exact h ⟨i, hlt⟩
    · rw [List.getElem_append_right (by rwa [hlen])]
      simp

/-- The values of a byte that clamping leaves. -/
def clampedBytes (i : Fin 16) : Finset UInt8 :=
  Finset.univ.filter fun b => b &&& clampMask i.val = b

/-- Clamping leaves 106 bits. -/
theorem ncard_clamped : {r : Bytes 16 | Clamped r}.ncard = 2 ^ 106 := by
  have hbij : Set.BijOn (fun (r : Bytes 16) (i : Fin 16) => r.get i) {r | Clamped r}
      {f | ∀ i, f i ∈ clampedBytes i} := by
    refine ⟨?_, ?_, ?_⟩
    · intro r hr i
      exact Finset.mem_filter.mpr ⟨Finset.mem_univ _, (clamped_iff r).mp hr i⟩
    · intro r _ r' _ heq
      apply Vector.ext
      intro i hi
      exact congrFun heq ⟨i, hi⟩
    · intro f hf
      have hget : ∀ i, (Vector.ofFn f).get i = f i := fun i => Vector.getElem_ofFn i.isLt
      refine ⟨Vector.ofFn f, (clamped_iff _).mpr fun i => ?_, funext hget⟩
      rw [hget]
      exact (Finset.mem_filter.mp (hf i)).2
  have hset : {f : Fin 16 → UInt8 | ∀ i, f i ∈ clampedBytes i} =
      (Fintype.piFinset clampedBytes : Set (Fin 16 → UInt8)) := by
    ext f
    rw [Finset.mem_coe, Fintype.mem_piFinset]
    rfl
  have hcard : ∀ i, (clampedBytes i).card =
      if i.val % 4 = 3 then 16 else if i.val % 4 = 0 ∧ i.val ≠ 0 then 64 else 256 := by
    decide +kernel
  rw [hbij.ncard_eq, hset, Set.ncard_coe_finset, Fintype.card_piFinset]
  simp only [hcard, Fin.prod_univ_succ]
  norm_num

/-! ### The second half -/

/-- The hash does not read the second half. -/
theorem hashNat_append (r : Bytes 16) (s msg : List UInt8) :
    hashNat (r.toList ++ s) msg = hashNat r.toList msg := by
  rw [hashNat, hashNat, pointNat, pointNat, clampedR_append]

/-- A message has a given tag for one second half. -/
theorem existsUnique_generate (r : Bytes 16) (msg : List UInt8) (t : Bytes 16) :
    ∃! s : Bytes 16, generate (r.toList ++ s.toList) msg = t.toList := by
  have hlt : ∀ b : Bytes 16, leNat b.toList < 2 ^ 128 := by
    intro b
    have := leNat_lt b.toList
    rwa [Vector.length_toList] at this
  have hiff : ∀ s : Bytes 16, generate (r.toList ++ s.toList) msg = t.toList ↔
      (hashNat r.toList msg + leNat s.toList) % 2 ^ 128 = leNat t.toList := by
    intro s
    have hkey : (r.toList ++ s.toList).length = 32 := by simp
    have hnat := leNat_generate hkey msg
    rw [hashNat_append, List.drop_left' Vector.length_toList] at hnat
    rw [← hnat]
    constructor
    · intro h
      rw [h]
    · intro h
      exact leNat_inj (by rw [length_generate hkey, Vector.length_toList]) h
  simp only [hiff]
  generalize hashNat r.toList msg = h
  have ht := hlt t
  -- the tag less the hash
  obtain ⟨x, hx, hsum⟩ : ∃ x < 2 ^ 128, (h + x) % 2 ^ 128 = leNat t.toList :=
    ⟨(leNat t.toList + 2 ^ 128 - h % 2 ^ 128) % 2 ^ 128, by omega, by omega⟩
  have hnat : leNat (leVector 16 x).toList = x := leNat_leVector (by omega)
  have hx' : (h + leNat (leVector 16 x).toList) % 2 ^ 128 = leNat t.toList := by
    rw [hnat, hsum]
  refine ⟨leVector 16 x, hx', fun s hs => eq_leVector ?_⟩
  have := hlt s
  have hs' : (h + leNat s.toList) % 2 ^ 128 = leNat t.toList := hs
  omega

/-! ### Two tags -/

/-- Few keys give two messages their tags. -/
theorem encard_generate_le {n : ℕ} {m₁ m₂ : List UInt8} (h₁ : m₁.length ≤ 16 * n)
    (h₂ : m₂.length ≤ 16 * n) (hne : m₁ ≠ m₂) (t₁ t₂ : Bytes 16) :
    {k : Bytes 16 × Bytes 16 | Clamped k.1 ∧ generate (k.1.toList ++ k.2.toList) m₁ = t₁.toList ∧
      generate (k.1.toList ++ k.2.toList) m₂ = t₂.toList}.encard ≤ 8 * n := by
  let d : Bytes 16 := leVector 16 ((leNat t₁.toList + 2 ^ 128 - leNat t₂.toList) % 2 ^ 128)
  refine (Set.encard_le_encard_of_injOn (f := fun k : Bytes 16 × Bytes 16 =>
    (leNat k.1.toList : ZMod p1305)) ?_ ?_).trans (encard_points_le h₁ h₂ hne (leNat d.toList))
  · rintro ⟨r, s⟩ ⟨hclamped, htag₁, htag₂⟩
    have hdiffer : TagsDiffer r s m₁ m₂ d := by
      have hlt₁ := leNat_lt t₁.toList
      have hlt₂ := leNat_lt t₂.toList
      have hd : leNat d.toList = (leNat t₁.toList + 2 ^ 128 - leNat t₂.toList) % 2 ^ 128 :=
        leNat_leVector (by omega)
      rw [Vector.length_toList] at hlt₁ hlt₂
      rw [TagsDiffer, htag₁, htag₂, hd, Int.modEq_iff_dvd]
      generalize leNat t₁.toList = x₁ at *
      generalize leNat t₂.toList = x₂ at *
      omega
    exact mem_points hclamped hdiffer
  · rintro ⟨r, s⟩ ⟨-, htag, -⟩ ⟨r', s'⟩ ⟨-, htag', -⟩ heq
    obtain rfl : r = r' := point_injective heq
    exact Prod.ext rfl ((existsUnique_generate r m₁ t₁).unique htag htag')

end Poly1305

namespace Aead

open Poly1305

/-! ### Blobs -/

/-- What a blob is without its tag. -/
def ciphertextOf (blob : List UInt8) : List UInt8 := blob.take (blob.length - tagSize)

/-- The check of `open`, under any one-time key. -/
def authentic (authKey blob aad : List UInt8) : Bool :=
  decide (tagSize ≤ blob.length) &&
    Poly1305.verify authKey (buildMacInput aad (ciphertextOf blob))
      (blob.drop (ciphertextOf blob).length)

/-- `open` decrypts what is authentic under the one-time key of the nonce. -/
theorem openBlob_eq (key : Bytes 32) (nonce : Bytes 12) (blob aad : List UInt8) :
    openBlob key nonce blob aad =
      if authentic (Chacha20.subkey key nonce) blob aad then
        Chacha20.decrypt key nonce (ciphertextOf blob)
      else [] := by
  rw [openBlob, authentic]
  by_cases hlen : blob.length < tagSize
  · rw [if_pos hlen, decide_eq_false (Nat.not_le.mpr hlen), Bool.false_and]
    rfl
  · rw [if_neg hlen, decide_eq_true (Nat.not_lt.mp hlen), Bool.true_and]
    rfl

/-- A blob is a ciphertext and a tag. -/
theorem exists_tag {blob : List UInt8} (h : tagSize ≤ blob.length) :
    ∃ t : Bytes 16, blob.drop (ciphertextOf blob).length = t.toList := by
  have hlen : (blob.drop (ciphertextOf blob).length).length = 16 := by
    rw [ciphertextOf, List.length_drop, List.length_take]
    unfold tagSize at h ⊢
    omega
  exact ⟨⟨(blob.drop (ciphertextOf blob).length).toArray, by simpa using hlen⟩, rfl⟩

theorem ciphertextOf_append (blob : List UInt8) :
    ciphertextOf blob ++ blob.drop (ciphertextOf blob).length = blob := by
  have hlen : (ciphertextOf blob).length = blob.length - tagSize := by
    rw [ciphertextOf, List.length_take]
    omega
  rw [hlen, ciphertextOf, List.take_append_drop]

theorem authentic_iff {blob : List UInt8} (h : tagSize ≤ blob.length) {t : Bytes 16}
    (ht : blob.drop (ciphertextOf blob).length = t.toList) (r s : Bytes 16) (aad : List UInt8) :
    authentic (r.toList ++ s.toList) blob aad = true ↔
      generate (r.toList ++ s.toList) (buildMacInput aad (ciphertextOf blob)) = t.toList := by
  rw [authentic, decide_eq_true h, Bool.true_and, ht,
    Poly1305.verify_iff (by simp) Vector.length_toList]

/-- The one-time keys, clamped in their first half, under which a blob is authentic. -/
def keysOf (blob aad : List UInt8) : Set (Bytes 16 × Bytes 16) :=
  {k | Clamped k.1 ∧ authentic (k.1.toList ++ k.2.toList) blob aad = true}

/-- A blob with a tag is authentic under one key for each clamped first half. -/
theorem bijOn_keysOf {blob : List UInt8} (h : tagSize ≤ blob.length) (aad : List UInt8) :
    Set.BijOn Prod.fst (keysOf blob aad) {r | Clamped r} := by
  obtain ⟨t, ht⟩ := exists_tag h
  refine ⟨fun k hk => hk.1, ?_, ?_⟩
  · rintro ⟨r, s⟩ ⟨-, hs⟩ ⟨r', s'⟩ ⟨-, hs'⟩ heq
    obtain rfl : r = r' := heq
    exact Prod.ext rfl ((existsUnique_generate r _ t).unique
      ((authentic_iff h ht r s aad).mp hs) ((authentic_iff h ht r s' aad).mp hs'))
  · intro r hr
    obtain ⟨s, hs, -⟩ := existsUnique_generate r (buildMacInput aad (ciphertextOf blob)) t
    exact ⟨(r, s), ⟨hr, (authentic_iff h ht r s aad).mpr hs⟩, rfl⟩

/-- Under `2^106` keys a blob is authentic. Another blob, or the same one with other data, is
authentic under at most `8 n` of them, if the input of neither tag has more than `n` blocks. -/
theorem one_time_keys {n : ℕ} {blob aad blob' aad' : List UInt8} (h : tagSize ≤ blob.length)
    (hblob : blob.length < 2 ^ 64) (haad : aad.length < 2 ^ 64) (hblob' : blob'.length < 2 ^ 64)
    (haad' : aad'.length < 2 ^ 64)
    (hn : (buildMacInput aad (ciphertextOf blob)).length ≤ 16 * n)
    (hn' : (buildMacInput aad' (ciphertextOf blob')).length ≤ 16 * n)
    (hne : (blob', aad') ≠ (blob, aad)) :
    (keysOf blob aad).ncard = 2 ^ 106 ∧ (keysOf blob aad ∩ keysOf blob' aad').encard ≤ 8 * n := by
  refine ⟨by rw [(bijOn_keysOf h aad).ncard_eq, ncard_clamped], ?_⟩
  by_cases h' : tagSize ≤ blob'.length
  swap
  · -- nothing without a tag is authentic
    have hempty : keysOf blob aad ∩ keysOf blob' aad' = ∅ := by
      rw [Set.eq_empty_iff_forall_notMem]
      rintro k ⟨-, -, hk⟩
      rw [authentic, decide_eq_false h', Bool.false_and] at hk
      cases hk
    rw [hempty, Set.encard_empty]
    exact zero_le
  obtain ⟨t, ht⟩ := exists_tag h
  obtain ⟨t', ht'⟩ := exists_tag h'
  have hct : (ciphertextOf blob).length < 2 ^ 64 := (List.length_take_le' _ _).trans_lt hblob
  have hct' : (ciphertextOf blob').length < 2 ^ 64 := (List.length_take_le' _ _).trans_lt hblob'
  have hsub : keysOf blob aad ∩ keysOf blob' aad' ⊆ {k | Clamped k.1 ∧
      generate (k.1.toList ++ k.2.toList) (buildMacInput aad (ciphertextOf blob)) = t.toList ∧
      generate (k.1.toList ++ k.2.toList) (buildMacInput aad' (ciphertextOf blob')) = t'.toList} :=
    fun k hk => ⟨hk.1.1, (authentic_iff h ht k.1 k.2 aad).mp hk.1.2,
      (authentic_iff h' ht' k.1 k.2 aad').mp hk.2.2⟩
  by_cases hinput :
      buildMacInput aad (ciphertextOf blob) = buildMacInput aad' (ciphertextOf blob')
  · -- the same input of the tag, so it is the tag that differs
    obtain ⟨rfl, hsame⟩ := buildMacInput_inj haad hct haad' hct' hinput
    have htag : t ≠ t' := by
      rintro rfl
      apply hne
      have heq : blob' = blob := by
        calc blob' = ciphertextOf blob' ++ t.toList := by rw [← ht', ciphertextOf_append]
          _ = ciphertextOf blob ++ t.toList := by rw [hsame]
          _ = blob := by rw [← ht, ciphertextOf_append]
      rw [heq]
    have hempty : keysOf blob aad ∩ keysOf blob' aad = ∅ := by
      rw [Set.eq_empty_iff_forall_notMem]
      intro k hk
      obtain ⟨-, hk₁, hk₂⟩ := hsub hk
      rw [← hinput, hk₁] at hk₂
      exact htag (Vector.toList_inj.mp hk₂)
    rw [hempty, Set.encard_empty]
    exact zero_le
  · exact (Set.encard_le_encard hsub).trans (encard_generate_le hn hn' hinput t t')

/-- A blob with a ciphertext of 21 bytes and three bytes of data, and another one with 34 and 20
bytes, both tags of sixes. -/
theorem one_time_keys_twoBlobs :
    (keysOf (List.replicate 21 0x41 ++ List.replicate 16 0x66) [1, 2, 3]).ncard = 2 ^ 106 ∧
      (keysOf (List.replicate 21 0x41 ++ List.replicate 16 0x66) [1, 2, 3] ∩
        keysOf (List.replicate 34 0x42 ++ List.replicate 16 0x66) (List.replicate 20 9)).encard ≤
          8 * (6 : ℕ) :=
  one_time_keys (by decide) (by decide) (by decide) (by decide) (by decide) (by decide) (by decide)
    (by decide)

end Aead

end PeerToPeer.Crypto
