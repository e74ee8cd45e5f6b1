import PeerToPeer.Crypto.EdwardsSpec
import PeerToPeer.Crypto.Hash

/-!
`eddsa`: key derivation, signing and verification, over any streaming hash with
digests of 64 bytes and any reading of the field operations.

In exact arithmetic a signature verifies under the derived key, for every hash:
the verifier decodes the points that the signer encoded, feeds the hash the
same bytes, and `S B = R + k A` holds because `L` annihilates the base point.
-/

namespace PeerToPeer.Crypto

open PeerToPeer.Lib

/-- The two halves of a 64-byte array. -/
def lowHalf (b : Bytes 64) : Bytes 32 := Vector.ofFn fun i => b[i.val]

def highHalf (b : Bytes 64) : Bytes 32 := Vector.ofFn fun i => b[i.val + 32]

namespace Eddsa

variable (H : Type) [Hasher H 64] (F : Type) [Field25519Ops F]

/-- The secret scalar: the clamped first half of the hash of the seed. -/
def secretScalar (priv : Bytes 32) : FieldQ :=
  (FieldQ.fromBytes (lowHalf (Hasher.hash H priv.toList))).clamp

/-- `derive_public`. -/
def derivePublic (priv : Bytes 32) : Bytes 32 :=
  ((EdwardsPoint.basePoint : EdwardsPoint F).mul (secretScalar H priv)).toBytes

/-- The scalar of the hash of a list of byte strings, fed one after the other. -/
def hashScalar (parts : List (List UInt8)) : FieldQ :=
  FieldQ.reduce512 (Hasher.finalize (parts.foldl Hasher.update (Hasher.init : H))).1

/-- `sign`. -/
def sign (priv : Bytes 32) (msg : List UInt8) : Bytes 64 :=
  let h := Hasher.hash H priv.toList
  let a := secretScalar H priv
  let A := ((EdwardsPoint.basePoint : EdwardsPoint F).mul a).toBytes
  let r := hashScalar H [(highHalf h).toList, msg]
  let R := ((EdwardsPoint.basePoint : EdwardsPoint F).mul r).toBytes
  let S := hashScalar H [R.toList, A.toList, msg]
  let aModL := FieldQ.fromBytesModL a.toBytes
  let sSig := r.add (S.mul aModL)
  R ++ sSig.toBytes

/-- `verify`. -/
def verify (pub : Bytes 32) (msg : List UInt8) (sig : Bytes 64) : Choice :=
  let aOpt : CtOptional (EdwardsPoint F) := EdwardsPoint.fromBytes pub
  if ¬aOpt.isSomePublic then Choice.falseChoice else
  let A := aOpt.valueOr EdwardsPoint.basePoint
  let rBytes := lowHalf sig
  let sSigBytes := highHalf sig
  let rOpt : CtOptional (EdwardsPoint F) := EdwardsPoint.fromBytes rBytes
  if ¬rOpt.isSomePublic then Choice.falseChoice else
  let R := rOpt.valueOr EdwardsPoint.basePoint
  let sSig := FieldQ.fromBytesModL sSigBytes
  if sSig.toBytes ≠ sSigBytes then Choice.falseChoice else
  let S := hashScalar H [rBytes.toList, pub.toList, msg]
  let SB := (EdwardsPoint.basePoint : EdwardsPoint F).mul sSig
  let SA := A.mul S
  let R_SA := R.add SA
  SB.dbl.dbl.dbl.equal R_SA.dbl.dbl.dbl

/-! ### What `verify` checks -/

open EdwardsPoint

theorem lowHalf_append (a b : Bytes 32) : lowHalf (a ++ b) = a := by
  apply Vector.ext
  intro i hi
  rw [lowHalf, Vector.getElem_ofFn, Vector.getElem_append_left hi]

theorem highHalf_append (a b : Bytes 32) : highHalf (a ++ b) = b := by
  apply Vector.ext
  intro i hi
  rw [highHalf, Vector.getElem_ofFn, Vector.getElem_append_right _ (by simp)]
  simp

theorem secretScalar_raw (priv : Bytes 32) : (secretScalar H priv).Raw :=
  (FieldQ.clamp_spec (FieldQ.fromBytes_spec _).1).1

theorem hashScalar_reduced (parts : List (List UInt8)) : (hashScalar H parts).Reduced :=
  (FieldQ.reduce512_spec _).1

theorem rep_base_mul {s : FieldQ} (hs : s.Raw) :
    Rep ((basePoint : EdwardsPoint Fp).mul s) (s.value • generator) :=
  rep_basePoint.mul hs

/-- The key and the signature are well formed. -/
structure Parsed (pub : Bytes 32) (sig : Bytes 64) (A R : ed25519.Point) : Prop where
  pub_eq : pub = encode A
  r_eq : lowHalf sig = encode R
  s_lt : leNat (highHalf sig).toList < FieldQ.order

/-- The point that the second half of a signature stands for. -/
def sPoint (sig : Bytes 64) : ed25519.Point := leNat (highHalf sig).toList • generator

/-- The number that the message enters the equation with. -/
def hashNat (pub : Bytes 32) (sig : Bytes 64) (msg : List UInt8) : ℕ :=
  (hashScalar H [(lowHalf sig).toList, pub.toList, msg]).value

theorem hashNat_lt (pub : Bytes 32) (sig : Bytes 64) (msg : List UInt8) :
    hashNat H pub sig msg < FieldQ.order :=
  (hashScalar_reduced H _).lt

/-- `verify` on well-formed inputs. -/
theorem Parsed.verify_iff {pub : Bytes 32} {sig : Bytes 64} {A R : ed25519.Point}
    (h : Parsed pub sig A R) (msg : List UInt8) :
    (verify H Fp pub msg sig).unwrapPublic = true ↔
      8 • sPoint sig = 8 • (R + hashNat H pub sig msg • A) := by
  obtain ⟨hpub, hr, hs⟩ := h
  obtain ⟨hred, hval⟩ := FieldQ.fromBytesModL_spec (highHalf sig)
  have hreduced := (FieldQ.toBytes_fromBytesModL_iff (highHalf sig)).mpr hs
  have hscalar := hashScalar_reduced H [(lowHalf sig).toList, pub.toList, msg]
  have hleft := (rep_base_mul hred.raw).dbl_dbl_dbl
  have hright := ((rep_affine R).add ((rep_affine A).mul hscalar.raw)).dbl_dbl_dbl
  rw [hval, Nat.mod_eq_of_lt hs] at hleft
  have hequal := hleft.equal_iff hright
  rw [hpub, hr] at hequal
  simp only [verify, sPoint, hashNat, hpub, hr, fromBytes_encode, CtOptional.isSomePublic_some,
    not_true_eq_false, if_false, CtOptional.valueOr_of_isSome (CtOptional.isSomePublic_some _),
    hreduced, ne_eq]
  exact hequal

/-! ### Completeness -/

/-- The public key encodes the secret multiple of the base point. -/
theorem derivePublic_eq (priv : Bytes 32) :
    derivePublic H Fp priv = encode ((secretScalar H priv).value • generator) :=
  (rep_base_mul (secretScalar_raw H priv)).toBytes_eq

/-- Reducing the secret scalar does not change its multiple of the base point. -/
theorem fromBytesModL_toBytes {a : FieldQ} (ha : a.Raw) :
    (FieldQ.fromBytesModL a.toBytes).Reduced ∧
      (FieldQ.fromBytesModL a.toBytes).value = a.value % FieldQ.order := by
  obtain ⟨hred, hval⟩ := FieldQ.fromBytesModL_spec a.toBytes
  refine ⟨hred, ?_⟩
  rw [hval, FieldQ.leNat_toBytes ha, Nat.mod_mod]

/-- The scalar of a signature, as a number modulo `L`. -/
theorem signature_scalar {a r k : FieldQ} (ha : a.Raw) (hr : r.Reduced) (hk : k.Reduced) :
    (r.add (k.mul (FieldQ.fromBytesModL a.toBytes))).Reduced ∧
      (r.add (k.mul (FieldQ.fromBytesModL a.toBytes))).value =
        (r.value + k.value * a.value) % FieldQ.order := by
  obtain ⟨hm, hmv⟩ := fromBytesModL_toBytes ha
  obtain ⟨hp, hpv⟩ := FieldQ.mul_spec hk.raw hm
  obtain ⟨hs, hsv⟩ := FieldQ.add_spec hr.raw hp
  refine ⟨hs, ?_⟩
  rw [hsv, hpv, hmv, Nat.mul_mod_mod, Nat.add_mod_mod]

/-- Signatures verify under the derived public key. -/
theorem verify_sign_eq_true (priv : Bytes 32) (msg : List UInt8) :
    (verify H Fp (derivePublic H Fp priv) msg (sign H Fp priv msg)).unwrapPublic = true := by
  set a := secretScalar H priv with ha
  set r := hashScalar H [(highHalf (Hasher.hash H priv.toList)).toList, msg] with hr
  have haraw := secretScalar_raw H priv
  have hrred := hashScalar_reduced H [(highHalf (Hasher.hash H priv.toList)).toList, msg]
  rw [← ha] at haraw
  rw [← hr] at hrred
  have hA := derivePublic_eq H priv
  have hR := (rep_base_mul hrred.raw).toBytes_eq
  rw [← ha] at hA
  set k := hashScalar H [(encode (r.value • generator)).toList,
    (encode (a.value • generator)).toList, msg] with hk
  have hkred : k.Reduced := hashScalar_reduced H _
  obtain ⟨hs, hsv⟩ := signature_scalar haraw hrred hkred
  set s := r.add (k.mul (FieldQ.fromBytesModL a.toBytes)) with hsdef
  have hsign : sign H Fp priv msg = encode (r.value • generator) ++ s.toBytes := by
    have hA' : (basePoint.mul (secretScalar H priv)).toBytes = encode (a.value • generator) := hA
    simp only [sign, ← ha, ← hr] at hA' ⊢
    rw [hR, hA']
  have hnat := hs.leNat_toBytes
  have hparsed : Parsed (encode (a.value • generator))
      (encode (r.value • generator) ++ s.toBytes) (a.value • generator) (r.value • generator) := by
    refine ⟨rfl, lowHalf_append _ _, ?_⟩
    rw [highHalf_append, hnat]
    exact hs.lt
  rw [hA, hsign, hparsed.verify_iff H msg]
  -- the equation holds even before it is multiplied by eight
  have hpoint : s.value • generator = r.value • generator + k.value • a.value • generator := by
    rw [hsv, mod_order_nsmul_generator, add_nsmul, mul_comm, mul_nsmul]
  rw [sPoint, highHalf_append, hnat, hpoint, hashNat, lowHalf_append]

/-- `verify` accepts what `sign` made, whatever the hash computes. -/
theorem verify_derivePublic_sign (priv : Bytes 32) (msg : List UInt8) :
    verify H Fp (derivePublic H Fp priv) msg (sign H Fp priv msg) = Choice.trueChoice := by
  rw [Choice.eq_ofBool (verify H Fp _ _ _), verify_sign_eq_true]
  rfl

end Eddsa

end PeerToPeer.Crypto
