import PeerToPeer.Crypto.Eddsa

/-!
Scalars as integers modulo `L`.

The arithmetic of `field_q` is that of the integers for any 256-bit integer and any
reduced scalar, and all decodings agree on the residue of the integer that the bytes
encode. `eddsa::verify` encodes the scalar it has decoded and compares; this is a
comparison of the integer with `L`.
-/

namespace PeerToPeer.Crypto

open PeerToPeer.Lib

namespace FieldQ

/-- The reduced scalar of an integer. -/
structure ReducesTo (x : FieldQ) (n : ℤ) : Prop extends Reduced x where
  value_eq : (x.value : ℤ) = n % order

theorem Reduced.reducesTo {x : FieldQ} {n : ℕ} (h : x.Reduced ∧ x.value = n % order) :
    ReducesTo x n :=
  ⟨h.1, by rw [h.2, Int.natCast_mod]⟩

/-- The limbs of `p - b` are those of `L` minus the integer, which is `L` itself for
zero. -/
theorem complement_spec {b : FieldQ} (hb : b.Reduced) :
    (subLimbs p (reduce b)).1.Low ∧ (subLimbs p (reduce b)).1.value = order - b.value := by
  have hsub := subLimbs_spec low_p hb.toLow (by decide) hb.l4_lt
  rw [value_p] at hsub
  rw [hb.reduce_eq]
  exact ⟨hsub.1, (hsub.2.1 hb.lt.le).2.1⟩

theorem sub_reducesTo {a b : FieldQ} (ha : a.Raw) (hb : b.Reduced) :
    ReducesTo (sub a b) (a.value - b.value) := by
  obtain ⟨hlow, hval⟩ := complement_spec hb
  have hlt := hb.lt
  obtain ⟨hred, hsum⟩ := add_spec_of_le ha hlow (by omega)
  rw [sub, hred.reduce_eq]
  refine ⟨hred, ?_⟩
  rw [hsum, hval, Int.natCast_mod, Nat.cast_add, Nat.cast_sub hlt.le]
  calc ((a.value : ℤ) + (order - b.value)) % order
      = (a.value - b.value + order) % order := by ring_nf
    _ = (a.value - b.value) % order := Int.add_emod_right _ _

theorem raw_p : p.Raw := ⟨low_p, by decide⟩

theorem neg_reducesTo {b : FieldQ} (hb : b.Reduced) : ReducesTo (neg b) (-b.value) := by
  obtain ⟨hred, hval⟩ := sub_reducesTo raw_p hb
  refine ⟨hred, hval.trans ?_⟩
  rw [value_p, sub_eq_neg_add, Int.add_emod_right]

/-- The four operations on a 256-bit integer and a reduced scalar. -/
theorem arithmetic_reducesTo {a b : FieldQ} (ha : a.Raw) (hb : b.Reduced) :
    ReducesTo (add a b) (a.value + b.value) ∧ ReducesTo (sub a b) (a.value - b.value) ∧
      ReducesTo (mul a b) (a.value * b.value) ∧ ReducesTo (neg b) (-b.value) := by
  refine ⟨?_, sub_reducesTo ha hb, ?_, neg_reducesTo hb⟩
  · exact_mod_cast Reduced.reducesTo (add_spec ha hb)
  · exact_mod_cast Reduced.reducesTo (mul_spec ha hb)

/-- The largest integer of 256 bits and the largest reduced scalar. -/
theorem arithmetic_reducesTo_largest :
    let a := fromBytes (Vector.replicate 32 255)
    let b := fromBytesModL (leVector 32 (order - 1))
    ReducesTo (add a b) (a.value + b.value) ∧ ReducesTo (sub a b) (a.value - b.value) ∧
      ReducesTo (mul a b) (a.value * b.value) ∧ ReducesTo (neg b) (-b.value) :=
  arithmetic_reducesTo (fromBytes_spec _).1 (fromBytesModL_spec _).1

theorem Raw.toBytes_eq {x : FieldQ} (hx : x.Raw) : toBytes x = leVector 32 (x.value % order) :=
  eq_leVector (leNat_toBytes hx)

end FieldQ

namespace Eddsa

variable (H : Type) [Hasher H 64] (F : Type) [Field25519Ops F]

/-- `verify` with the outcome of its `S` check as a parameter. -/
def verifyWith (pub : Bytes 32) (msg : List UInt8) (sig : Bytes 64) (inRange : Bool) : Choice :=
  let aOpt : CtOptional (EdwardsPoint F) := EdwardsPoint.fromBytes pub
  let rOpt : CtOptional (EdwardsPoint F) := EdwardsPoint.fromBytes (lowHalf sig)
  if ¬aOpt.isSomePublic ∨ ¬rOpt.isSomePublic ∨ ¬inRange then Choice.falseChoice else
  let A := aOpt.valueOr EdwardsPoint.basePoint
  let R := rOpt.valueOr EdwardsPoint.basePoint
  let S := hashScalar H [(lowHalf sig).toList, pub.toList, msg]
  let SB := (EdwardsPoint.basePoint : EdwardsPoint F).mul (FieldQ.fromBytesModL (highHalf sig))
  SB.dbl.dbl.dbl.equal (R.add (A.mul S)).dbl.dbl.dbl

theorem verify_eq_verifyWith (pub : Bytes 32) (msg : List UInt8) (sig : Bytes 64) :
    verify H F pub msg sig = verifyWith H F pub msg sig
      (decide ((FieldQ.fromBytesModL (highHalf sig)).toBytes = highHalf sig)) := by
  simp only [verify, verifyWith, ne_eq, decide_eq_true_iff]
  split_ifs <;> first | rfl | simp_all

/-- The decodings of scalars, and what the range check of `verify` accepts. -/
theorem scalar_decoding :
    (∀ val : Bytes 64, FieldQ.ReducesTo (FieldQ.reduce512 val) (leNat val.toList)) ∧
    (∀ b : Bytes 32,
      (FieldQ.fromBytes b).toBytes = leVector 32 (leNat b.toList % FieldQ.order) ∧
      (FieldQ.fromBytesModL b).toBytes = leVector 32 (leNat b.toList % FieldQ.order)) ∧
    ∀ (pub : Bytes 32) (msg : List UInt8) (sig : Bytes 64),
      ((FieldQ.fromBytesModL (highHalf sig)).toBytes = highHalf sig ↔
        leNat (highHalf sig).toList < FieldQ.order) ∧
      verify H F pub msg sig =
        verifyWith H F pub msg sig (decide (leNat (highHalf sig).toList < FieldQ.order)) := by
  refine ⟨fun val => FieldQ.Reduced.reducesTo (FieldQ.reduce512_spec val), fun b => ⟨?_, ?_⟩,
    fun pub msg sig => ⟨FieldQ.toBytes_fromBytesModL_iff _, ?_⟩⟩
  · obtain ⟨hraw, hval⟩ := FieldQ.fromBytes_spec b
    rw [hraw.toBytes_eq, hval]
  · obtain ⟨hred, hval⟩ := FieldQ.fromBytesModL_spec b
    rw [hred.raw.toBytes_eq, hval, Nat.mod_mod]
  · rw [verify_eq_verifyWith, decide_eq_decide.mpr (FieldQ.toBytes_fromBytesModL_iff _)]

end Eddsa

end PeerToPeer.Crypto
