import PeerToPeer.Crypto.EdwardsWords
import PeerToPeer.Crypto.Eddsa

/-!
`eddsa` on the words of the code.

Keys, signatures and verdicts are those of exact arithmetic, as long as no subtraction
on the way borrows; so a signature then verifies under the key of its seed.
-/

namespace PeerToPeer.Crypto.Eddsa

open PeerToPeer.Lib EdwardsPoint

section Differences

variable (H : Type) [Hasher H 64] {F : Type} [Field25519Ops F] (ok : F → F → Prop)

/-- `ok` holds of the differences that `derive_public` forms. -/
def DeriveDiffs (priv : Bytes 32) : Prop := MulDiffs ok basePoint (secretScalar H priv)

/-- The scalar that `sign` draws from the seed and the message. -/
def nonceScalar (priv : Bytes 32) (msg : List UInt8) : FieldQ :=
  hashScalar H [(highHalf (Hasher.hash H priv.toList)).toList, msg]

/-- `ok` holds of the differences that `sign` forms. -/
def SignDiffs (priv : Bytes 32) (msg : List UInt8) : Prop :=
  DeriveDiffs H ok priv ∧ MulDiffs ok basePoint (nonceScalar H priv msg)

/-- `ok` holds of the differences that the three doublings form. -/
def CofactorDiffs (P : EdwardsPoint F) : Prop :=
  DblDiffs ok P ∧ DblDiffs ok P.dbl ∧ DblDiffs ok P.dbl.dbl

/-- `ok` holds of the differences that `verify` forms, if it gets to the equation. -/
def VerifyDiffs (pub : Bytes 32) (msg : List UInt8) (sig : Bytes 64) : Prop :=
  let aOpt : CtOptional (EdwardsPoint F) := EdwardsPoint.fromBytes pub
  let rOpt : CtOptional (EdwardsPoint F) := EdwardsPoint.fromBytes (lowHalf sig)
  let sSig := FieldQ.fromBytesModL (highHalf sig)
  let S := hashScalar H [(lowHalf sig).toList, pub.toList, msg]
  aOpt.isSomePublic = true → rOpt.isSomePublic = true → sSig.toBytes = highHalf sig →
    MulDiffs ok basePoint sSig ∧ MulDiffs ok aOpt.value S ∧
      AddDiffs ok rOpt.value (aOpt.value.mul S) ∧
      CofactorDiffs ok (basePoint.mul sSig) ∧
      CofactorDiffs ok (rOpt.value.add (aOpt.value.mul S))

instance [∀ a b, Decidable (ok a b)] (P : EdwardsPoint F) : Decidable (CofactorDiffs ok P) :=
  inferInstanceAs (Decidable (_ ∧ _ ∧ _))

end Differences

variable {H : Type} [Hasher H 64]

theorem words_dbl_dbl_dbl {P : EdwardsPoint Field25519} {Q : EdwardsPoint Fp} (h : Words P Q)
    (hdiff : CofactorDiffs NoBorrow P) : Words P.dbl.dbl.dbl Q.dbl.dbl.dbl :=
  ((h.dbl hdiff.1).dbl hdiff.2.1).dbl hdiff.2.2

theorem cofactorDiffs_of_clear {P : EdwardsPoint Field25519} {Q : EdwardsPoint Fp}
    (h : Words P Q) (hclear : CofactorDiffs ClearDiff Q) : CofactorDiffs NoBorrow P := by
  have h₁ := h.dblDiffs_of_clear hclear.1
  have h₂ := (h.dbl h₁).dblDiffs_of_clear hclear.2.1
  exact ⟨h₁, h₂, ((h.dbl h₁).dbl h₂).dblDiffs_of_clear hclear.2.2⟩

theorem isSomePublic_fromBytes_words (b : Bytes 32) :
    (EdwardsPoint.fromBytes b : CtOptional (EdwardsPoint Field25519)).isSomePublic =
      (EdwardsPoint.fromBytes b : CtOptional (EdwardsPoint Fp)).isSomePublic :=
  congrArg Choice.unwrapPublic (fromBytes_represents b).2

/-- The verdict can be checked on exact arithmetic. -/
theorem verifyDiffs_of_clear {pub : Bytes 32} {msg : List UInt8} {sig : Bytes 64}
    (hclear : VerifyDiffs H (F := Fp) ClearDiff pub msg sig) :
    VerifyDiffs H (F := Field25519) NoBorrow pub msg sig := by
  intro ha hr hs
  have hA := words_fromBytes pub
  have hR := words_fromBytes (lowHalf sig)
  obtain ⟨csb, csa, cadd, cleft, cright⟩ := hclear
    ((isSomePublic_fromBytes_words pub).symm.trans ha)
    ((isSomePublic_fromBytes_words (lowHalf sig)).symm.trans hr) hs
  have hsb := words_basePoint.mulDiffs_of_clear csb
  have hsa := hA.mulDiffs_of_clear csa
  have hadd := hR.addDiffs_of_clear (hA.mul hsa) cadd
  exact ⟨hsb, hsa, hadd, cofactorDiffs_of_clear (words_basePoint.mul hsb) cleft,
    cofactorDiffs_of_clear (hR.add (hA.mul hsa) hadd) cright⟩

theorem derivePublic_words {priv : Bytes 32}
    (hdiff : DeriveDiffs H (F := Field25519) NoBorrow priv) :
    derivePublic H Field25519 priv = derivePublic H Fp priv :=
  (words_basePoint.mul hdiff).toBytes_eq

theorem sign_words {priv : Bytes 32} {msg : List UInt8}
    (hdiff : SignDiffs H (F := Field25519) NoBorrow priv msg) :
    sign H Field25519 priv msg = sign H Fp priv msg := by
  have hA := (words_basePoint.mul hdiff.1).toBytes_eq
  have hR := (words_basePoint.mul hdiff.2).toBytes_eq
  rw [nonceScalar] at hR
  simp only [sign, hA, hR]

theorem verify_words {pub : Bytes 32} {msg : List UInt8} {sig : Bytes 64}
    (hdiff : VerifyDiffs H (F := Field25519) NoBorrow pub msg sig) :
    verify H Field25519 pub msg sig = verify H Fp pub msg sig := by
  have hA := words_fromBytes pub
  have hR := words_fromBytes (lowHalf sig)
  have hAsome := isSomePublic_fromBytes_words pub
  have hRsome := isSomePublic_fromBytes_words (lowHalf sig)
  simp only [verify, ← hAsome, ← hRsome]
  -- the checks before the equation come out the same
  refine ite_congr rfl (fun _ => rfl) fun ha => ?_
  refine ite_congr rfl (fun _ => rfl) fun hr => ?_
  refine ite_congr rfl (fun _ => rfl) fun hs => ?_
  rw [not_not] at ha hr
  obtain ⟨hsb, hsa, hadd, hleft, hright⟩ := hdiff ha hr (not_ne_iff.mp hs)
  rw [CtOptional.valueOr_of_isSome ha, CtOptional.valueOr_of_isSome hr,
    CtOptional.valueOr_of_isSome (hAsome.symm.trans ha),
    CtOptional.valueOr_of_isSome (hRsome.symm.trans hr)]
  have hSB := words_dbl_dbl_dbl (words_basePoint.mul hsb) hleft
  have hR_SA := words_dbl_dbl_dbl (hR.add (hA.mul hsa) hadd) hright
  exact hSB.equal_eq hR_SA

/-- On words, `derive_public`, `sign` and `verify` compute what they compute in exact
arithmetic if no subtraction borrows, and then `verify` accepts what `sign` made. -/
theorem words_exact (priv : Bytes 32) (msg : List UInt8) :
    (DeriveDiffs H (F := Field25519) NoBorrow priv →
      derivePublic H Field25519 priv = derivePublic H Fp priv) ∧
    (SignDiffs H (F := Field25519) NoBorrow priv msg →
      sign H Field25519 priv msg = sign H Fp priv msg) ∧
    (∀ pub sig, VerifyDiffs H (F := Field25519) NoBorrow pub msg sig →
      verify H Field25519 pub msg sig = verify H Fp pub msg sig) ∧
    (SignDiffs H (F := Field25519) NoBorrow priv msg →
      VerifyDiffs H (F := Field25519) NoBorrow (derivePublic H Field25519 priv) msg
        (sign H Field25519 priv msg) →
      verify H Field25519 (derivePublic H Field25519 priv) msg (sign H Field25519 priv msg) =
        Choice.trueChoice) := by
  refine ⟨derivePublic_words, sign_words, fun _ _ => verify_words, fun hsign hverify => ?_⟩
  rw [verify_words hverify, derivePublic_words hsign.1, sign_words hsign]
  exact verify_derivePublic_sign H priv msg

/-! ### A signature -/

/-- A seed, and what its signature on two bytes goes through: its digest, the two scalars, their
multiples of the base point, the scalar of the last hash, and the one that is signed with. -/
def seed : Bytes 32 := Vector.ofFn fun i => UInt8.ofNat (7 * i.val + 1)

def greeting : List UInt8 := [0x68, 0x69]

def seedDigest : Bytes 64 := leVector 64
  (0x4fe5e5492df1982408c0fc10863d786766e6cdd6fdf382b1269063fd910ca3bf * 2 ^ 256 +
    0x65c3573289a01759454d50530ba1284edfd957bd9fbbb618b769755fd34abf76)

def seedHalf : Bytes 32 := #v[191, 163, 12, 145, 253, 99, 144, 38, 177, 130, 243, 253, 214, 205,
  230, 102, 103, 120, 61, 134, 16, 252, 192, 8, 36, 152, 241, 45, 73, 229, 229, 79]

def seedScalar : FieldQ :=
  ⟨2662329217630064, 3335899947567990, 3273419237874007, 410754915566896, 111889655957920⟩

def seedNonce : FieldQ :=
  ⟨2038935502028431, 2726994869844386, 1050060845940105, 1021585505039755, 17112813059973⟩

def seedKey : Bytes 32 := #v[228, 3, 9, 152, 207, 213, 173, 23, 35, 193, 105, 249, 86, 170, 11,
  158, 184, 97, 155, 89, 146, 189, 97, 44, 42, 244, 40, 235, 199, 159, 141, 240]

def seedPoint : Bytes 32 := #v[28, 7, 64, 233, 242, 108, 108, 58, 96, 112, 120, 120, 179, 138,
  44, 223, 156, 130, 241, 70, 41, 191, 48, 209, 21, 209, 245, 55, 155, 92, 195, 1]

def seedChallenge : FieldQ :=
  ⟨1910044067207253, 2837056806918868, 1061148296862429, 4484301743536228, 6429419173529⟩

def seedSum : FieldQ :=
  ⟨3082517857370805, 3403570629765376, 3688937253449274, 690331060365229, 1420946713356⟩

theorem hash_seed : Hasher.hash Sha512 seed.toList = seedDigest := by
  decide +kernel

theorem secretScalar_seed : secretScalar Sha512 seed = seedScalar := by
  rw [secretScalar, hash_seed]
  decide +kernel

/-- A scalar with the value of a digest. -/
theorem hashScalar_eq {parts : List (List UInt8)} {n : ℕ} {s : FieldQ}
    (hdigest : (Hasher.finalize (parts.foldl Hasher.update (Hasher.init : H))).1 = leVector 64 n)
    (hn : n < 256 ^ 64) (hs : s.Reduced) (hvalue : n % FieldQ.order = s.value) :
    hashScalar H parts = s := by
  obtain ⟨hred, hval⟩ := FieldQ.reduce512_spec (leVector 64 n)
  rw [leNat_leVector hn, hvalue] at hval
  rw [hashScalar, hdigest]
  exact FieldQ.Low.ext hred.toLow hs.toLow hval

theorem reduced_seedNonce : seedNonce.Reduced :=
  ⟨⟨by decide, by decide, by decide, by decide⟩, by decide⟩

theorem reduced_seedChallenge : seedChallenge.Reduced :=
  ⟨⟨by decide, by decide, by decide, by decide⟩, by decide⟩

theorem reduced_seedSum : seedSum.Reduced :=
  ⟨⟨by decide, by decide, by decide, by decide⟩, by decide⟩

theorem nonceScalar_seed : nonceScalar Sha512 seed greeting = seedNonce := by
  have hhalf : highHalf seedDigest = seedHalf := by
    decide +kernel
  have hdigest : (Hasher.finalize ([seedHalf.toList, greeting].foldl Hasher.update
      (Hasher.init : Sha512))).1 = leVector 64
        (0x65b3927d9ecf12384347379720c8e1bfbfa28268709e271521bb3e41f044e0f8 * 2 ^ 256 +
          0x2990e7aa0e7943d8cbbc7d371a2b6b3e0a4873451bbff60f3d5d8a9fae5f2a75) := by
    decide +kernel
  rw [nonceScalar, hash_seed, hhalf]
  exact hashScalar_eq hdigest (by norm_num) reduced_seedNonce (by decide)

theorem challenge_seed :
    hashScalar Sha512 [seedPoint.toList, seedKey.toList, greeting] = seedChallenge := by
  have hdigest : (Hasher.finalize ([seedPoint.toList, seedKey.toList, greeting].foldl Hasher.update
      (Hasher.init : Sha512))).1 = leVector 64
        (0x4a037977913642158c3f50182f55076c997cd640437ba6d1f9dd8af7aeae92e6 * 2 ^ 256 +
          0x260c7c893276be87da2ae359a8f069609501b32c88e30c0bfd3e15e0f18fa439) := by
    decide +kernel
  exact hashScalar_eq hdigest (by norm_num) reduced_seedChallenge (by decide)

theorem mul_seedScalar : ((basePoint : EdwardsPoint Fp).mul seedScalar).toBytes = seedKey := by
  decide +kernel

theorem mul_seedNonce : ((basePoint : EdwardsPoint Fp).mul seedNonce).toBytes = seedPoint := by
  decide +kernel

theorem sign_seed : sign Sha512 Fp seed greeting = seedPoint ++ seedSum.toBytes := by
  have hnonce : hashScalar Sha512 [(highHalf (Hasher.hash Sha512 seed.toList)).toList, greeting] =
      seedNonce := nonceScalar_seed
  obtain ⟨hred, hval⟩ := signature_scalar (secretScalar_seed ▸ secretScalar_raw Sha512 seed)
    reduced_seedNonce reduced_seedChallenge
  have hsum : seedNonce.add (seedChallenge.mul (.fromBytesModL seedScalar.toBytes)) = seedSum :=
    FieldQ.Low.ext hred.toLow reduced_seedSum.toLow (hval.trans (by decide))
  simp only [sign, secretScalar_seed, hnonce, mul_seedScalar, mul_seedNonce, challenge_seed, hsum]

theorem signDiffs_seed : SignDiffs Sha512 (F := Field25519) NoBorrow seed greeting := by
  refine ⟨words_basePoint.mulDiffs_of_clear ?_, words_basePoint.mulDiffs_of_clear ?_⟩
  · rw [secretScalar_seed]
    decide +kernel
  · rw [nonceScalar_seed]
    decide +kernel

theorem verifyDiffs_seed :
    VerifyDiffs Sha512 (F := Fp) ClearDiff seedKey greeting (sign Sha512 Fp seed greeting) := by
  have hsum : FieldQ.fromBytesModL seedSum.toBytes = seedSum := by
    obtain ⟨hred, hval⟩ := fromBytesModL_toBytes reduced_seedSum.raw
    exact FieldQ.Low.ext hred.toLow reduced_seedSum.toLow
      (hval.trans (Nat.mod_eq_of_lt reduced_seedSum.lt))
  intro _ _ _
  rw [sign_seed, lowHalf_append, highHalf_append, challenge_seed, hsum]
  decide +kernel

/-- The signature verifies. -/
theorem words_exact_seed :
    verify Sha512 Field25519 (derivePublic Sha512 Field25519 seed) greeting
      (sign Sha512 Field25519 seed greeting) = Choice.trueChoice := by
  have hkey : derivePublic Sha512 Fp seed = seedKey := by
    rw [derivePublic, secretScalar_seed, mul_seedScalar]
  refine (words_exact seed greeting).2.2.2 signDiffs_seed ?_
  rw [derivePublic_words signDiffs_seed.1, sign_words signDiffs_seed, hkey]
  exact verifyDiffs_of_clear verifyDiffs_seed

end PeerToPeer.Crypto.Eddsa
