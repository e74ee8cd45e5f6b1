import PeerToPeer.Crypto.Chacha20
import PeerToPeer.Crypto.Poly1305

/-!
`chacha20_poly1305`: the authenticated encryption of session messages.

`open` reports failure by an empty result, which is also the result for an
authentic message without content.
-/

namespace PeerToPeer.Crypto.Aead

open PeerToPeer.Lib

def tagSize : ℕ := 16

/-- The data and zeros up to a multiple of sixteen bytes. -/
def padded (data : List UInt8) : List UInt8 :=
  data ++ List.replicate ((16 - data.length % 16) % 16) 0

/-- `build_mac_input`. -/
def buildMacInput (aad ciphertext : List UInt8) : List UInt8 :=
  padded aad ++ padded ciphertext ++ leBytes 8 aad.length ++ leBytes 8 ciphertext.length

/-- The tag of a ciphertext, under the one-time key of the nonce. -/
def tag (key : Bytes 32) (nonce : Bytes 12) (ciphertext aad : List UInt8) : List UInt8 :=
  Poly1305.generate (Chacha20.subkey key nonce) (buildMacInput aad ciphertext)

def sealBlob (key : Bytes 32) (nonce : Bytes 12) (plaintext aad : List UInt8) : List UInt8 :=
  let ciphertext := Chacha20.encrypt key nonce plaintext
  ciphertext ++ tag key nonce ciphertext aad

def openBlob (key : Bytes 32) (nonce : Bytes 12) (blob aad : List UInt8) : List UInt8 :=
  if blob.length < tagSize then [] else
  let ciphertext := blob.take (blob.length - tagSize)
  let providedTag := blob.drop ciphertext.length
  let authKey := Chacha20.subkey key nonce
  if Poly1305.verify authKey (buildMacInput aad ciphertext) providedTag then
    Chacha20.decrypt key nonce ciphertext
  else []

/-! ### Opening what was sealed -/

theorem length_subkey (key : Bytes 32) (nonce : Bytes 12) :
    (Chacha20.subkey key nonce).length = 32 := by
  simp [Chacha20.subkey]

theorem length_tag (key : Bytes 32) (nonce : Bytes 12) (ciphertext aad : List UInt8) :
    (tag key nonce ciphertext aad).length = tagSize :=
  Poly1305.length_generate (length_subkey key nonce) _

theorem length_encrypt (key : Bytes 32) (nonce : Bytes 12) (plaintext : List UInt8) :
    (Chacha20.encrypt key nonce plaintext).length = plaintext.length :=
  Chacha20.length_applyKeystream _ _ _ _

@[simp] theorem length_sealBlob (key : Bytes 32) (nonce : Bytes 12) (plaintext aad : List UInt8) :
    (sealBlob key nonce plaintext aad).length = plaintext.length + 16 := by
  rw [sealBlob, List.length_append, length_tag, length_encrypt, tagSize]

/-- A blob is a ciphertext and a tag; it opens when the tag is the one that the
sender would have appended. -/
theorem openBlob_append (key : Bytes 32) (nonce : Bytes 12) (ciphertext aad : List UInt8)
    {provided : List UInt8} (h : provided.length = tagSize) :
    openBlob key nonce (ciphertext ++ provided) aad =
      if tag key nonce ciphertext aad = provided then Chacha20.decrypt key nonce ciphertext
      else [] := by
  have hlen : (ciphertext ++ provided).length - tagSize = ciphertext.length := by
    rw [List.length_append, h]
    omega
  have htake : (ciphertext ++ provided).take ciphertext.length = ciphertext :=
    List.take_left' rfl
  have hdrop : (ciphertext ++ provided).drop ciphertext.length = provided := List.drop_left' rfl
  rw [openBlob, if_neg (by rw [List.length_append, h]; omega)]
  simp only [hlen, htake, hdrop]
  by_cases htag : tag key nonce ciphertext aad = provided
  · rw [if_pos htag, if_pos ((Poly1305.verify_iff (length_subkey key nonce) h).mpr htag)]
  · rw [if_neg htag, if_neg]
    intro hverify
    exact htag ((Poly1305.verify_iff (length_subkey key nonce) h).mp hverify)

/-- Opening the sealed message returns the plaintext. -/
theorem openBlob_sealBlob (key : Bytes 32) (nonce : Bytes 12) (plaintext aad : List UInt8) :
    openBlob key nonce (sealBlob key nonce plaintext aad) aad = plaintext := by
  rw [sealBlob, openBlob_append _ _ _ _ (length_tag key nonce _ aad), if_pos rfl]
  exact Chacha20.applyKeystream_applyKeystream _ _ _ _

/-- Sealing again what a blob was opened to gives the blob. -/
theorem sealBlob_of_openBlob {key : Bytes 32} {nonce : Bytes 12} {blob aad : List UInt8}
    (h : openBlob key nonce blob aad ≠ []) :
    sealBlob key nonce (openBlob key nonce blob aad) aad = blob := by
  have hlen : tagSize ≤ blob.length := by
    by_contra hlt
    exact h (by rw [openBlob, if_pos (Nat.not_le.mp hlt)])
  obtain ⟨ciphertext, provided, rfl, hprovided⟩ :
      ∃ ciphertext provided, blob = ciphertext ++ provided ∧ provided.length = tagSize :=
    ⟨blob.take (blob.length - tagSize), blob.drop (blob.length - tagSize),
      (List.take_append_drop _ _).symm, by rw [List.length_drop]; omega⟩
  rw [openBlob_append _ _ _ _ hprovided] at h ⊢
  split at h
  · rename_i htag
    have hc : Chacha20.encrypt key nonce (Chacha20.decrypt key nonce ciphertext) = ciphertext :=
      Chacha20.applyKeystream_applyKeystream _ _ _ _
    rw [if_pos htag, sealBlob]
    simp only [hc, htag]
  · exact absurd rfl h

/-- Sealing and opening are inverse to each other, and each ciphertext has
exactly one tag: the only one that the comparison accepts, and, when there is
something to decrypt, the only one that gives a result. -/
theorem sealBlob_openBlob_inverse (key : Bytes 32) (nonce : Bytes 12) (aad : List UInt8) :
    (∀ plaintext, openBlob key nonce (sealBlob key nonce plaintext aad) aad = plaintext) ∧
    (∀ blob p, openBlob key nonce blob aad = p → p ≠ [] → sealBlob key nonce p aad = blob) ∧
    (∀ ciphertext, ∃! provided : Bytes 16,
      Poly1305.verify (Chacha20.subkey key nonce) (buildMacInput aad ciphertext)
        provided.toList = true) ∧
    ∀ ciphertext, ciphertext ≠ [] → ∃! provided : Bytes 16,
      openBlob key nonce (ciphertext ++ provided.toList) aad ≠ [] := by
  -- the tag of a ciphertext, as an array
  have hunique : ∀ ciphertext, ∃! provided : Bytes 16,
      tag key nonce ciphertext aad = provided.toList := by
    intro ciphertext
    refine ⟨⟨(tag key nonce ciphertext aad).toArray, by rw [List.size_toArray, length_tag]; rfl⟩,
      rfl, ?_⟩
    intro provided h
    apply Vector.toList_inj.mp
    exact h.symm
  refine ⟨fun p => openBlob_sealBlob key nonce p aad, ?_, ?_, ?_⟩
  · rintro blob p rfl hp
    exact sealBlob_of_openBlob hp
  · intro ciphertext
    have haccepted : ∀ provided : Bytes 16,
        Poly1305.verify (Chacha20.subkey key nonce) (buildMacInput aad ciphertext)
          provided.toList = true ↔ tag key nonce ciphertext aad = provided.toList :=
      fun provided => Poly1305.verify_iff (length_subkey key nonce) Vector.length_toList
    simpa only [haccepted] using hunique ciphertext
  · intro ciphertext hne
    have hdecrypt : Chacha20.decrypt key nonce ciphertext ≠ [] := by
      intro hnil
      have hlen := Chacha20.length_applyKeystream key 1 nonce ciphertext
      rw [show Chacha20.applyKeystream key 1 nonce ciphertext = [] from hnil] at hlen
      exact hne (List.length_eq_zero_iff.mp hlen.symm)
    have haccepted : ∀ provided : Bytes 16,
        openBlob key nonce (ciphertext ++ provided.toList) aad ≠ [] ↔
          tag key nonce ciphertext aad = provided.toList := by
      intro provided
      have hlen : provided.toList.length = tagSize := Vector.length_toList
      rw [openBlob_append _ _ _ _ hlen]
      split <;> simp_all
    simpa only [haccepted] using hunique ciphertext

/-! ### The input of the tag -/

theorem sixteen_dvd_length_padded (data : List UInt8) : 16 ∣ (padded data).length := by
  rw [padded, List.length_append, List.length_replicate]
  omega

theorem sixteen_dvd_length_buildMacInput (aad ciphertext : List UInt8) :
    16 ∣ (buildMacInput aad ciphertext).length := by
  have haad := sixteen_dvd_length_padded aad
  have hciphertext := sixteen_dvd_length_padded ciphertext
  simp only [buildMacInput, List.length_append, length_leBytes]
  omega

/-- Data of one length is recovered from its padded form. -/
theorem padded_inj {data data' : List UInt8} (hlen : data.length = data'.length)
    (h : padded data = padded data') : data = data' :=
  (List.append_inj h hlen).1

/-- Associated data and ciphertext are recovered from the input of the tag. -/
theorem buildMacInput_inj {aad ciphertext aad' ciphertext' : List UInt8}
    (haad : aad.length < 2 ^ 64) (hct : ciphertext.length < 2 ^ 64) (haad' : aad'.length < 2 ^ 64)
    (hct' : ciphertext'.length < 2 ^ 64)
    (h : buildMacInput aad ciphertext = buildMacInput aad' ciphertext') :
    aad = aad' ∧ ciphertext = ciphertext' := by
  rw [buildMacInput, buildMacInput] at h
  -- the two lengths come last and have a fixed size
  obtain ⟨hrest, hlenc⟩ := List.append_inj' h (by simp)
  obtain ⟨hdata, hlena⟩ := List.append_inj' hrest (by simp)
  have hlena' := leBytes_inj (by omega) (by omega) hlena
  have hlenc' := leBytes_inj (by omega) (by omega) hlenc
  obtain ⟨hpad, hpad'⟩ := List.append_inj hdata (by simp [padded, hlena'])
  exact ⟨padded_inj hlena' hpad, padded_inj hlenc' hpad'⟩

/-- The input of the tag determines what it was built from, and consists of full
blocks. -/
theorem buildMacInput_injective :
    (∀ aad ciphertext aad' ciphertext' : List UInt8,
      aad.length < 2 ^ 64 → ciphertext.length < 2 ^ 64 →
      aad'.length < 2 ^ 64 → ciphertext'.length < 2 ^ 64 →
      buildMacInput aad ciphertext = buildMacInput aad' ciphertext' →
        aad = aad' ∧ ciphertext = ciphertext') ∧
    ∀ aad ciphertext : List UInt8, 16 ∣ (buildMacInput aad ciphertext).length ∧
      ∀ i < ((buildMacInput aad ciphertext).length + 15) / 16,
        (((buildMacInput aad ciphertext).drop (16 * i)).take 16).length = 16 := by
  constructor
  · intro aad ciphertext aad' ciphertext' ha hc ha' hc' h
    exact buildMacInput_inj ha hc ha' hc' h
  · intro aad ciphertext
    have hdvd := sixteen_dvd_length_buildMacInput aad ciphertext
    refine ⟨hdvd, fun i hi => ?_⟩
    rw [List.length_take, List.length_drop]
    omega

end PeerToPeer.Crypto.Aead
