import PeerToPeer.Crypto.Decoding
import PeerToPeer.Crypto.Ladder

/-!
The group operations of `edwards_point` on the words of the code.

The coordinates of a point are products, except that `x` may have been negated when the
point was decoded. Their sums and differences fit into what products take, and sums of
products fit into what a subtraction takes, so `dbl`, `operator+` and `operator*` follow
exact arithmetic as long as no subtraction borrows. Which subtractions a function makes
is written down once, for words and for exact arithmetic.
-/

namespace PeerToPeer.Crypto

open PeerToPeer.Lib

namespace Field25519

/-! ### Wider sums and differences -/

theorem add_value {a b : Field25519} (ha : a.Fits 53) (hb : b.Fits 53) :
    (add a b).Fits 54 ∧ (add a b).value = a.value + b.value := by
  obtain ⟨a0, a1, a2, a3, a4⟩ := ha
  obtain ⟨b0, b1, b2, b3, b4⟩ := hb
  have s0 := toNat_add_of_lt (a := b.l0) (b := a.l0) (by omega)
  have s1 := toNat_add_of_lt (a := b.l1) (b := a.l1) (by omega)
  have s2 := toNat_add_of_lt (a := b.l2) (b := a.l2) (by omega)
  have s3 := toNat_add_of_lt (a := b.l3) (b := a.l3) (by omega)
  have s4 := toNat_add_of_lt (a := b.l4) (b := a.l4) (by omega)
  constructor
  · constructor <;> simp only [add] <;> omega
  · simp only [add, value, s0, s1, s2, s3, s4]
    omega

theorem Tight.add_fits {a b : Field25519} (ha : a.Tight) (hb : b.Tight) : (add a b).Fits 53 := by
  obtain ⟨a0, a1, a2, a3, a4⟩ := ha
  obtain ⟨b0, b1, b2, b3, b4⟩ := hb
  constructor <;> simp only [add, UInt64.toNat_add] <;> omega

/-- The limbs of a difference, unless it borrows. -/
theorem sub_limbs {a b : Field25519} (ha : a.Fits 53) (hb : b.Reducible) (h : ¬Borrows a b) :
    (sub a b).l0.toNat = p.l0.toNat + a.l0.toNat - (reduce b).l0.toNat ∧
      (sub a b).l1.toNat = p.l1.toNat + a.l1.toNat - (reduce b).l1.toNat ∧
      (sub a b).l2.toNat = p.l2.toNat + a.l2.toNat - (reduce b).l2.toNat ∧
      (sub a b).l3.toNat = p.l3.toNat + a.l3.toNat - (reduce b).l3.toNat ∧
      (sub a b).l4.toNat = p.l4.toNat + a.l4.toNat - (reduce b).l4.toNat := by
  obtain ⟨⟨x0, x1, x2, x3, x4⟩, -⟩ := hb.reduce_spec
  obtain ⟨a0, a1, a2, a3, a4⟩ := ha
  rw [Borrows, Nat.not_lt] at h
  rw [sub]
  generalize reduce b = x at *
  obtain ⟨hl0, hl1, hl2, hl3, hl4⟩ := toNat_limbs_p
  exact ⟨toNat_sub_add h (by omega), toNat_sub_add (by omega) (by omega),
    toNat_sub_add (by omega) (by omega), toNat_sub_add (by omega) (by omega),
    toNat_sub_add (by omega) (by omega)⟩

theorem sub_fits {a b : Field25519} (ha : a.Fits 53) (hb : b.Reducible) (h : ¬Borrows a b) :
    (sub a b).Fits 54 := by
  obtain ⟨s0, s1, s2, s3, s4⟩ := sub_limbs ha hb h
  obtain ⟨a0, a1, a2, a3, a4⟩ := ha
  obtain ⟨hl0, hl1, hl2, hl3, hl4⟩ := toNat_limbs_p
  constructor <;> omega

theorem residue_sub_of_reducible {a b : Field25519} (ha : a.Fits 53) (hb : b.Reducible)
    (h : ¬Borrows a b) : residue (sub a b) = residue a - residue b := by
  obtain ⟨⟨x0, x1, x2, x3, x4⟩, hred⟩ := hb.reduce_spec
  have hvalue : (sub a b).value + (reduce b).value = a.value + p25519 := by
    obtain ⟨s0, s1, s2, s3, s4⟩ := sub_limbs ha hb h
    obtain ⟨hl0, hl1, hl2, hl3, hl4⟩ := toNat_limbs_p
    rw [Borrows, Nat.not_lt] at h
    simp only [value, s0, s1, s2, s3, s4, p25519]
    omega
  rw [eq_sub_iff_add_eq, residue, residue, residue, ← ZMod.natCast_mod b.value, ← hred,
    ← Nat.cast_add, hvalue, Nat.cast_add, ZMod.natCast_self, add_zero]

/-! ### Words for coordinates -/

/-- What sums take, and differences as their minuend. -/
structure Addend (x : Field25519) (a : Fp) : Prop where
  fits : x.Fits 53
  residue_eq : residue x = a

/-- What the coordinates of points hold: a product, or the negation of one. -/
structure Coordinate (x : Field25519) (a : Fp) : Prop extends x.Addend a where
  le : x.value ≤ 2 * p25519

theorem Addend.loosely {x : Field25519} {a : Fp} (h : x.Addend a) : x.LooselyRepresents a :=
  ⟨h.fits.mono (by norm_num), h.residue_eq⟩

theorem Addend.add {x y : Field25519} {a b : Fp} (hx : x.Addend a) (hy : y.Addend b) :
    LooselyRepresents (x + y) (a + b) := by
  obtain ⟨hfits, hval⟩ := add_value hx.fits hy.fits
  refine ⟨hfits, ?_⟩
  rw [← hx.residue_eq, ← hy.residue_eq, residue, residue, residue, ← Nat.cast_add, ← hval]
  rfl

theorem Coordinate.reducible {x : Field25519} {a : Fp} (h : x.Coordinate a) : x.Reducible :=
  ⟨h.fits.mono (by norm_num), h.le⟩

theorem Coordinate.loosely {x : Field25519} {a : Fp} (h : x.Coordinate a) :
    x.LooselyRepresents a :=
  h.toAddend.loosely

theorem Addend.sub {x y : Field25519} {a b : Fp} (hx : x.Addend a) (hy : y.Coordinate b)
    (h : ¬Borrows x y) : LooselyRepresents (x - y) (a - b) := by
  refine ⟨sub_fits hx.fits hy.reducible h, ?_⟩
  rw [← hx.residue_eq, ← hy.residue_eq]
  exact residue_sub_of_reducible hx.fits hy.reducible h

namespace Represents

variable {x y : Field25519} {a b : Fp}

theorem coordinate (h : x.Represents a) : x.Coordinate a := by
  refine ⟨⟨?_, h.residue_eq⟩, h.tight.reducible.le⟩
  obtain ⟨h0, h1, h2, h3, h4⟩ := h.tight
  exact ⟨by omega, by omega, by omega, by omega, by omega⟩

theorem addend (h : x.Represents a) : x.Addend a := h.coordinate.toAddend

theorem add_addend (hx : x.Represents a) (hy : y.Represents b) : Addend (x + y) (a + b) :=
  ⟨hx.tight.add_fits hy.tight, (hx.add hy).residue_eq⟩

theorem sub_addend (hx : x.Represents a) (hy : y.Represents b) (h : ¬Borrows x y) :
    Addend (x - y) (a - b) :=
  ⟨(sub_value hx.tight hy.tight h).1, (hx.sub hy h).residue_eq⟩

theorem neg_coordinate (hx : x.Represents a) : Coordinate (-x) (-a) :=
  ⟨⟨(sub_value tight_p hx.tight (not_borrows_p hx.tight)).1, hx.neg.residue_eq⟩,
    (neg_spec hx.tight).1.le⟩

end Represents

theorem Coordinate.select {x y : Field25519} {a b : Fp} (hx : x.Coordinate a)
    (hy : y.Coordinate b) (c : Choice) :
    Coordinate (CtSelect.ctSelect x y c) (CtSelect.ctSelect a b c) := by
  rw [CtSelect.ctSelect_eq, CtSelect.ctSelect_eq]
  split
  · exact hx
  · exact hy

/-- Whether a coordinate borrows from anything can be seen in exact arithmetic. -/
theorem Coordinate.not_borrows {x y : Field25519} {b : Fp} (hy : y.Coordinate b)
    (h : MontgomeryPoint.Clear b) : ¬Borrows x y := by
  obtain ⟨hfits, hval⟩ := hy.reducible.reduce_spec
  have h0 := hfits.l0
  rw [MontgomeryPoint.Clear, ← hy.residue_eq, val_residue, ← hval] at h
  rw [Borrows, toNat_limbs_p.1, Nat.not_lt]
  unfold value at h
  omega

end Field25519

namespace EdwardsPoint

open Field25519

/-! ### The differences that a function forms -/

section Differences

variable {F : Type} [Field25519Ops F] (ok : F → F → Prop)

/-- `ok` holds of the differences that `dbl` forms. -/
def DblDiffs (P : EdwardsPoint F) : Prop :=
  let A := Field25519Ops.square P.x
  let B := Field25519Ops.square P.y
  ok (A + B) (Field25519Ops.square (P.x + P.y)) ∧ ok A B

/-- `ok` holds of the differences that `operator+` forms. -/
def AddDiffs (P Q : EdwardsPoint F) : Prop :=
  let A := (P.y - P.x) * (Q.y - Q.x)
  let B := (P.y + P.x) * (Q.y + Q.x)
  let C := P.t * get2d * Q.t
  let D := P.z * (Q.z + Q.z)
  ok P.y P.x ∧ ok Q.y Q.x ∧ ok B A ∧ ok D C

/-- One turn of the loop of `operator*`. -/
def mulTurn (P : EdwardsPoint F) (s : FieldQ) (i : ℕ) (res : EdwardsPoint F) : EdwardsPoint F :=
  CtSelect.ctSelect (add (dbl res) P) (dbl res) (s.getBitI (UInt8.ofNat i))

theorem mul_eq_loopDown (P : EdwardsPoint F) (s : FieldQ) :
    P.mul s = loopDown (mulTurn P s) 256 identity := rfl

/-- `ok` holds of the differences that `operator*` forms. -/
def MulDiffs (P : EdwardsPoint F) (s : FieldQ) : Prop :=
  loopAll (fun _ res => DblDiffs ok res ∧ AddDiffs ok (dbl res) P) (mulTurn P s) 256 identity

instance [∀ a b, Decidable (ok a b)] (P : EdwardsPoint F) : Decidable (DblDiffs ok P) :=
  inferInstanceAs (Decidable (_ ∧ _))

instance [∀ a b, Decidable (ok a b)] (P Q : EdwardsPoint F) : Decidable (AddDiffs ok P Q) :=
  inferInstanceAs (Decidable (_ ∧ _ ∧ _ ∧ _))

instance [∀ a b, Decidable (ok a b)] (P : EdwardsPoint F) (s : FieldQ) :
    Decidable (MulDiffs ok P s) :=
  inferInstanceAs (Decidable (loopAll _ _ _ _))

end Differences

/-- No borrow, on words. -/
def NoBorrow (a b : Field25519) : Prop := ¬Borrows a b

/-- No borrow, whatever the minuend is, in exact arithmetic. -/
def ClearDiff (_ b : Fp) : Prop := MontgomeryPoint.Clear b

instance (a b : Fp) : Decidable (ClearDiff a b) :=
  inferInstanceAs (Decidable (MontgomeryPoint.Clear b))

/-! ### The operations -/

/-- Words for the coordinates of a point, as the operations return them. -/
structure Words (P : EdwardsPoint Field25519) (Q : EdwardsPoint Fp) : Prop where
  x : P.x.Coordinate Q.x
  y : P.y.Coordinate Q.y
  z : P.z.Coordinate Q.z
  t : P.t.Coordinate Q.t

theorem words_identity : Words identity identity :=
  ⟨represents_zero.coordinate, represents_one.coordinate, represents_one.coordinate,
    represents_zero.coordinate⟩

/-- The root that `base_point` and `from_bytes` go on with. -/
theorem represents_root {y : Field25519} {a : Fp} (hy : y.Represents a) :
    ((Field25519Ops.sqrt (xSquared y)).valueOr 0).Represents
      ((Field25519Ops.sqrt (xSquared a)).valueOr 0) := by
  obtain ⟨hroot, hvalid⟩ := (represents_xSquared hy).sqrt
  rw [CtOptional.valueOr, CtOptional.valueOr, hvalid]
  exact hroot.select represents_zero _

/-- `base_point` may negate the root. -/
theorem words_basePoint : Words basePoint basePoint := by
  have hy := (represents_addWord_zero (w := 4) (by decide)).mul
    (represents_addWord_zero (w := 5) (by decide)).invert
  rw [basePoint, basePoint]
  generalize (Field25519Ops.addWord 0 4 * Field25519Ops.invert (Field25519Ops.addWord 0 5) :
    Field25519) = y at *
  generalize (Field25519Ops.addWord 0 4 * Field25519Ops.invert (Field25519Ops.addWord 0 5) :
    Fp) = a at *
  have hx := represents_root hy
  generalize (Field25519Ops.sqrt (xSquared y)).valueOr 0 = x at *
  generalize (Field25519Ops.sqrt (xSquared a)).valueOr 0 = c at *
  simp only [signBit_eq_of_represents hx]
  split_ifs
  · exact ⟨hx.neg_coordinate, hy.coordinate, represents_one.coordinate,
      (hx.neg.mul hy.loosely).coordinate⟩
  · exact ⟨hx.coordinate, hy.coordinate, represents_one.coordinate, (hx.mul hy).coordinate⟩

theorem Words.eq_of_represents {P : EdwardsPoint Field25519} {Q Q' : EdwardsPoint Fp}
    (h : Words P Q) (h' : Represents P Q') : Q = Q' := by
  cases Q
  cases Q'
  simp only [mk.injEq]
  exact ⟨h.x.residue_eq.symm.trans h'.x.residue_eq, h.y.residue_eq.symm.trans h'.y.residue_eq,
    h.z.residue_eq.symm.trans h'.z.residue_eq, h.t.residue_eq.symm.trans h'.t.residue_eq⟩

/-- `from_bytes` may negate the root as well. -/
theorem words_fromBytes (b : Bytes 32) : Words (fromBytes b).value (fromBytes b).value := by
  have hy := represents_fromBytes (clearSign b)
  have hx := represents_root hy
  have hwords : ∃ Q, Words (fromBytes b).value Q := by
    have hsel := hx.coordinate.select hx.neg_coordinate
    rw [fromBytes]
    simp only
    split_ifs
    · exact ⟨_, words_identity⟩
    · exact ⟨_, words_identity⟩
    · exact ⟨⟨_, _, _, _⟩, hsel _, hy.coordinate, represents_one.coordinate,
        ((hsel _).loosely.mul hy.loosely).coordinate⟩
    · exact ⟨_, words_identity⟩
  obtain ⟨Q, hQ⟩ := hwords
  exact hQ.eq_of_represents (fromBytes_represents b).1 ▸ hQ

namespace Words

variable {P P' : EdwardsPoint Field25519} {Q Q' : EdwardsPoint Fp}

theorem select (h : Words P Q) (h' : Words P' Q') (c : Choice) :
    Words (CtSelect.ctSelect P P' c) (CtSelect.ctSelect Q Q' c) := by
  rw [CtSelect.ctSelect_eq, CtSelect.ctSelect_eq]
  split
  · exact h
  · exact h'

theorem toBytes_eq (h : Words P Q) : P.toBytes = Q.toBytes :=
  toBytes_eq_of_represents h.x.loosely h.y.loosely h.z.loosely

theorem equal_eq (h : Words P Q) (h' : Words P' Q') : P.equal P' = Q.equal Q' := by
  have hx₁ := h.x.loosely.mul h'.z.loosely
  have hx₂ := h'.x.loosely.mul h.z.loosely
  have hy₁ := h.y.loosely.mul h'.z.loosely
  have hy₂ := h'.y.loosely.mul h.z.loosely
  simp only [equal, hx₁.equal_eq hx₂, hy₁.equal_eq hy₂]

theorem dbl (h : Words P Q) (hdiff : DblDiffs NoBorrow P) : Words P.dbl Q.dbl := by
  obtain ⟨nE, nG⟩ := hdiff
  have hA := h.x.loosely.square
  have hB := h.y.loosely.square
  have hC := h.z.loosely.square.add_addend h.z.loosely.square
  have hH := hA.add_addend hB
  have hE := hH.sub (h.x.add h.y.toAddend).square.coordinate nE
  have hG := hA.sub_addend hB nG
  have hF := hC.add hG
  exact ⟨(hE.mul hF).coordinate, (hG.loosely.mul hH.loosely).coordinate,
    (hF.mul hG.loosely).coordinate, (hE.mul hH.loosely).coordinate⟩

theorem add (h : Words P Q) (h' : Words P' Q') (hdiff : AddDiffs NoBorrow P P') :
    Words (P.add P') (Q.add Q') := by
  obtain ⟨nP, nQ, nE, nF⟩ := hdiff
  have hA := (h.y.sub h.x nP).mul (h'.y.sub h'.x nQ)
  have hB := (h.y.add h.x.toAddend).mul (h'.y.add h'.x.toAddend)
  have h2d := represents_getD.add represents_getD
  have hC := (h.t.loosely.mul h2d).loosely.mul h'.t.loosely
  have hD := h.z.loosely.mul (h'.z.add h'.z.toAddend)
  have hE := hB.addend.sub hA.coordinate nE
  have hF := hD.addend.sub hC.coordinate nF
  have hG := hD.add hC
  have hH := hB.add hA
  exact ⟨(hE.mul hF).coordinate, (hG.mul hH).coordinate, (hF.mul hG).coordinate,
    (hE.mul hH).coordinate⟩

theorem mulTurn (h : Words P Q) (h' : Words P' Q') (s : FieldQ) (i : ℕ)
    (hdiff : DblDiffs NoBorrow P' ∧ AddDiffs NoBorrow (EdwardsPoint.dbl P') P) :
    Words (P.mulTurn s i P') (Q.mulTurn s i Q') := by
  have hdbl := h'.dbl hdiff.1
  exact (hdbl.add h hdiff.2).select hdbl _

theorem mul (h : Words P Q) {s : FieldQ} (hdiff : MulDiffs NoBorrow P s) :
    Words (P.mul s) (Q.mul s) := by
  rw [mul_eq_loopDown, mul_eq_loopDown]
  exact loopDown_rel_of_all words_identity hdiff fun i _ _ _ h' hturn => h.mulTurn h' s i hturn

/-! ### Checking a run on exact arithmetic -/

theorem dblDiffs_of_clear (h : Words P Q) (hclear : DblDiffs ClearDiff Q) :
    DblDiffs NoBorrow P :=
  ⟨(h.x.add h.y.toAddend).square.coordinate.not_borrows hclear.1,
    h.y.loosely.square.coordinate.not_borrows hclear.2⟩

theorem addDiffs_of_clear (h : Words P Q) (h' : Words P' Q') (hclear : AddDiffs ClearDiff Q Q') :
    AddDiffs NoBorrow P P' := by
  obtain ⟨cP, cQ, cE, cF⟩ := hclear
  have nP : NoBorrow P.y P.x := h.x.not_borrows cP
  have nQ : NoBorrow P'.y P'.x := h'.x.not_borrows cQ
  have hA := (h.y.sub h.x nP).mul (h'.y.sub h'.x nQ)
  have h2d := represents_getD.add represents_getD
  have hC := (h.t.loosely.mul h2d).loosely.mul h'.t.loosely
  exact ⟨nP, nQ, hA.coordinate.not_borrows cE, hC.coordinate.not_borrows cF⟩

theorem mulDiffs_of_clear (h : Words P Q) {s : FieldQ} (hclear : MulDiffs ClearDiff Q s) :
    MulDiffs NoBorrow P s := by
  refine loopAll_of_rel words_identity hclear ?_ fun i _ _ _ h' hturn => h.mulTurn h' s i hturn
  rintro i - P' Q' h' ⟨hdbl, hadd⟩
  have hdbl' := h'.dblDiffs_of_clear hdbl
  exact ⟨hdbl', (h'.dbl hdbl').addDiffs_of_clear h hadd⟩

end Words

end EdwardsPoint

end PeerToPeer.Crypto
