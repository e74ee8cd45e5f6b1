import PeerToPeer.Crypto.Represents
import PeerToPeer.Crypto.Rfc7748

/-!
The ladder of `montgomery_point` on the limbs of the code, against the function
X25519 of RFC 7748.

A turn makes four subtractions. As long as none of them borrows, the words of the
code follow exact arithmetic, and so does the quotient at the end. A subtraction
that borrows puts `2^64` into the number that the words hold, which no later
operation takes out again.
-/

namespace PeerToPeer.Crypto

open PeerToPeer.Lib

theorem Field25519.represents_a24 :
    Field25519.Represents (Field25519Ops.addWord 0 121665) 121665 := by
  rw [← MontgomeryPoint.addWord_a24]
  exact Field25519.represents_addWord_zero (by decide)

namespace MontgomeryPoint

open Field25519

/-! ### One turn -/

/-- Words for the coordinates of a point. -/
structure Represents (P : MontgomeryPoint Field25519) (Q : MontgomeryPoint Fp) : Prop where
  x : P.x.Represents Q.x
  z : P.z.Represents Q.z

instance (P : MontgomeryPoint Field25519) (Q : MontgomeryPoint Fp) : Decidable (P.Represents Q) :=
  decidable_of_iff (P.x.Represents Q.x ∧ P.z.Represents Q.z)
    ⟨fun h => ⟨h.1, h.2⟩, fun h => ⟨h.x, h.z⟩⟩

theorem Represents.toAffine {P : MontgomeryPoint Field25519} {Q : MontgomeryPoint Fp}
    (h : P.Represents Q) : P.toAffine.Represents Q.toAffine :=
  h.x.mul h.z.invert

theorem represents_fromAffine {x : Field25519} {a : Fp} (h : x.Represents a) :
    (fromAffine x).Represents (fromAffine a) :=
  ⟨h, represents_one⟩

/-- Words for a pair of points. -/
def RepresentPair (xs : MontgomeryPoint Field25519 × MontgomeryPoint Field25519)
    (ys : MontgomeryPoint Fp × MontgomeryPoint Fp) : Prop :=
  xs.1.Represents ys.1 ∧ xs.2.Represents ys.2

instance (xs : MontgomeryPoint Field25519 × MontgomeryPoint Field25519)
    (ys : MontgomeryPoint Fp × MontgomeryPoint Fp) : Decidable (RepresentPair xs ys) :=
  inferInstanceAs (Decidable (_ ∧ _))

/-- One of the four subtractions of a turn borrows. -/
def StepBorrows (s : MontgomeryPoint Field25519 × MontgomeryPoint Field25519) : Prop :=
  let x0 := s.1
  let x1 := s.2
  let A := x0.x + x0.z
  let B := x0.x - x0.z
  let C := x1.x + x1.z
  let D := x1.x - x1.z
  Borrows x0.x x0.z ∨ Borrows (Field25519Ops.square A) (Field25519Ops.square B) ∨
    Borrows x1.x x1.z ∨ Borrows (D * A) (C * B)

instance (s : MontgomeryPoint Field25519 × MontgomeryPoint Field25519) :
    Decidable (StepBorrows s) :=
  inferInstanceAs (Decidable (_ ∨ _ ∨ _ ∨ _))

section Pair

variable {xs : MontgomeryPoint Field25519 × MontgomeryPoint Field25519}
variable {ys : MontgomeryPoint Fp × MontgomeryPoint Fp}

theorem RepresentPair.swapIf (b : Bool) (h : RepresentPair xs ys) :
    RepresentPair (swapIf b xs) (swapIf b ys) := by
  cases b with
  | false => exact h
  | true => exact h.symm

/-- A step without a borrow follows exact arithmetic. -/
theorem RepresentPair.step {u : Field25519} {v : Fp} (hu : u.Represents v)
    (h : RepresentPair xs ys) (hborrow : ¬StepBorrows xs) :
    RepresentPair (step u xs) (step v ys) := by
  obtain ⟨⟨hx₀, hz₀⟩, hx₁, hz₁⟩ := h
  simp only [StepBorrows, not_or] at hborrow
  obtain ⟨nB, nE, nD, nDiff⟩ := hborrow
  have hA := hx₀.add hz₀
  have hB := hx₀.sub hz₀ nB
  have hE := hA.square.sub hB.square nE
  have hC := hx₁.add hz₁
  have hD := hx₁.sub hz₁ nD
  have hDA := hD.mul hA
  have hCB := hC.mul hB
  have ha24 := represents_a24.loosely.mul hE
  rw [← addWord_a24] at ha24
  exact ⟨⟨hA.square.mul hB.square, hE.mul (hA.square.add ha24)⟩,
    ⟨(hDA.add hCB).square, hu.mul (hDA.sub hCB nDiff).square⟩⟩

end Pair

/-! ### The loop -/

/-- The two points that enter a step. -/
theorem ladderSwap_eq {s : FieldQ} (hs : s.Low) {i : ℕ} (hi : i < 256)
    (l : Ladder Field25519) : ladderSwap s i l = swapIf (s.value.testBit i) l.points := by
  rw [ladderSwap, ctSwap_eq, Choice.unwrapPublic_xor, FieldQ.getBitI_eq hs hi, Ladder.points,
    swapIf_swapIf]

/-- The last swap of `operator*` is the pending one. -/
theorem mul_eq_points (P : MontgomeryPoint Field25519) (s : FieldQ) :
    P.mul s = (loopDown (ladderTurn P.x s) 256 (ladderInit P)).points.1 := by
  rw [mul, ctSwap_eq, Ladder.points]

section Loop

variable {u : Field25519} {v : Fp} {s : FieldQ}
variable {l : Ladder Field25519} {ys : MontgomeryPoint Fp × MontgomeryPoint Fp}

theorem ladderTurn_represents (hu : u.Represents v) (hs : s.Low) {i : ℕ} (hi : i < 256)
    (h : RepresentPair l.points ys) (hborrow : ¬StepBorrows (ladderSwap s i l)) :
    RepresentPair (ladderTurn u s i l).points (turn v (s.value.testBit i) ys) := by
  rw [ladderSwap_eq hs hi] at hborrow
  rw [ladderTurn_points, FieldQ.getBitI_eq hs hi]
  exact ((h.swapIf _).step hu hborrow).swapIf _

/-- A loop without a borrow follows exact arithmetic. -/
theorem loop_represents (hu : u.Represents v) (hs : s.Low) {n : ℕ} (hn : n ≤ 256)
    (h : RepresentPair l.points ys)
    (hall : loopAll (fun i l => ¬StepBorrows (ladderSwap s i l)) (ladderTurn u s) n l) :
    RepresentPair (loopDown (ladderTurn u s) n l).points
      (loopDown (fun i => turn v (s.value.testBit i)) n ys) :=
  loopDown_rel_of_all (R := fun l ys => RepresentPair l.points ys) h hall
    fun _ hk _ _ h hC => ladderTurn_represents hu hs (lt_of_lt_of_le hk hn) h hC

/-! ### Checking a run on exact arithmetic -/

/-- Limb 0 of the canonical form is not larger than limb 0 of `p`. -/
def Clear (a : Fp) : Prop := a.val % 2 ^ 51 ≤ 2 ^ 51 - 19

instance (a : Fp) : Decidable (Clear a) := inferInstanceAs (Decidable (_ ≤ _))

theorem not_borrows_of_clear {x y : Field25519} {b : Fp} (hy : y.Represents b) (h : Clear b) :
    ¬Borrows x y := by
  obtain ⟨htight, rfl⟩ := hy
  rw [Clear, val_residue] at h
  rw [borrows_iff htight]
  omega

/-- The subtrahends of a turn. -/
def StepClear (s : MontgomeryPoint Fp × MontgomeryPoint Fp) : Prop :=
  let B := s.1.x - s.1.z
  Clear s.1.z ∧ Clear (B * B) ∧ Clear s.2.z ∧ Clear ((s.2.x + s.2.z) * B)

instance (s : MontgomeryPoint Fp × MontgomeryPoint Fp) : Decidable (StepClear s) :=
  inferInstanceAs (Decidable (_ ∧ _ ∧ _ ∧ _))

theorem not_stepBorrows_of_clear {xs : MontgomeryPoint Field25519 × MontgomeryPoint Field25519}
    (h : RepresentPair xs ys) (hclear : StepClear ys) : ¬StepBorrows xs := by
  obtain ⟨⟨hx₀, hz₀⟩, hx₁, hz₁⟩ := h
  obtain ⟨cB, cE, cD, cDiff⟩ := hclear
  have nB : ¬Borrows xs.1.x xs.1.z := not_borrows_of_clear hz₀ cB
  have hB := hx₀.sub hz₀ nB
  simp only [StepBorrows, not_or]
  exact ⟨nB, not_borrows_of_clear hB.square cE, not_borrows_of_clear hz₁ cD,
    not_borrows_of_clear ((hx₁.add hz₁).mul hB) cDiff⟩

/-- The state in front of the loop. -/
theorem ladderInit_represents (hu : u.Represents v) :
    RepresentPair (ladderInit (fromAffine u)).points (⟨1, 0⟩, fromAffine v) :=
  ⟨⟨represents_one, represents_zero⟩, represents_fromAffine hu⟩

theorem loopAll_of_clear (hu : u.Represents v) (hs : s.Low) {n : ℕ} (hn : n ≤ 256)
    (h : RepresentPair l.points ys)
    (hclear : loopAll (fun i ys => StepClear (swapIf (s.value.testBit i) ys))
      (fun i => turn v (s.value.testBit i)) n ys) :
    loopAll (fun i l => ¬StepBorrows (ladderSwap s i l)) (ladderTurn u s) n l := by
  refine loopAll_of_rel (R := fun l ys => RepresentPair l.points ys) h hclear ?_ ?_
  · intro k hk l ys h hclear
    rw [ladderSwap_eq hs (lt_of_lt_of_le hk hn)]
    exact not_stepBorrows_of_clear (h.swapIf _) hclear
  · exact fun k hk l ys h hC => ladderTurn_represents hu hs (lt_of_lt_of_le hk hn) h hC

end Loop

end MontgomeryPoint

namespace X25519

open MontgomeryPoint Field25519

/-- The result of `exchange` only depends on the element that the words stand for. -/
theorem exchange_eq_of_represents {sk pk : Bytes 32} {a : Fp}
    (h : Field25519.Represents (loopDown (ladderTurn (Field25519Ops.fromBytes pk) (scalar sk)) 256
      (ladderInit (fromAffine (Field25519Ops.fromBytes pk)))).points.1.toAffine a) :
    exchange Field25519 sk pk =
      CtOptional.fromChoice (Field25519Ops.toBytes a) (Field25519Ops.isZero a).not := by
  rw [exchange, mul_eq_points]
  obtain ⟨htight, rfl⟩ := h
  rw [← toBytes_eq_residue htight, ← isZero_eq_residue htight]
  rfl

/-- No subtraction in the ladder that `exchange` runs borrows. -/
def NoBorrow (sk pk : Bytes 32) : Prop :=
  let point : MontgomeryPoint Field25519 := .fromAffine (Field25519Ops.fromBytes pk)
  loopAll (fun i l => ¬StepBorrows (ladderSwap (scalar sk) i l))
    (ladderTurn point.x (scalar sk)) 256 (ladderInit point)

/-- On limbs, `exchange` is the function of the RFC, unless a subtraction borrows. -/
theorem exchange_eq_sharedSecret {sk pk : Bytes 32} (h : NoBorrow sk pk) :
    (exchange Field25519 sk pk).toOption = Rfc7748.sharedSecret sk pk := by
  have hs := (scalar_spec sk).1.toLow
  have hpk := represents_fromBytes pk
  have hpoints := loop_represents hpk hs le_rfl (ladderInit_represents hpk) h
  rw [← Rfc7748.exchange_exact, exchange_eq_of_represents hpoints.1.toAffine, exchange,
    mul_eq_loop _ hs]
  rfl

/-! ### Two public keys for the scalar `2^254` -/

theorem scalar_zero_value : (scalar (leVector 32 0)).value = 2 ^ 254 := by
  rw [(scalar_spec _).2, toList_leVector, leNat_leBytes]
  norm_num

theorem noBorrow_basePoint : NoBorrow (leVector 32 0) (leVector 32 9) := by
  have hpk := represents_fromBytes (leVector 32 9)
  refine loopAll_of_clear hpk (scalar_spec _).1.toLow le_rfl (ladderInit_represents hpk) ?_
  rw [scalar_zero_value]
  decide +kernel

theorem exchange_eq_sharedSecret_basePoint : NoBorrow (leVector 32 0) (leVector 32 9) ∧
    (exchange Field25519 (leVector 32 0) (leVector 32 9)).toOption =
      Rfc7748.sharedSecret (leVector 32 0) (leVector 32 9) :=
  ⟨noBorrow_basePoint, exchange_eq_sharedSecret noBorrow_basePoint⟩

/-- A public key `u` for which limb 0 of `4 u` exceeds limb 0 of `p` by more than limb 0
of `4 u²`. -/
def borrowingKey : Bytes 32 :=
  leVector 32 0x4000000000000000000000000000000000000000000000000001fffffffffff5

/-- What the words stand for after the turn that borrows. -/
def borrowedPoints : MontgomeryPoint Fp × MontgomeryPoint Fp :=
  (⟨0x4000000003ff4000000ffa00d8000000023f940000000000144,
      0x1ffc001fffffe805ffb7fffffffdc035fffffffffff28⟩,
    ⟨0x2000015f6011fdffffa04256be260008f287915c000026fa8c237fffb41e00b8,
      0x3bcf2247b83272e0b5dd09d65fa68ddff55ea6cd77fc54347c52672e8a4a5b9b⟩)

/-- `P` has the affine coordinate `c`, without an inversion. -/
def HasCoord (P : MontgomeryPoint Fp) (c : Fp) : Prop := P.z ≠ 0 ∧ P.x = c * P.z

instance (P : MontgomeryPoint Fp) (c : Fp) : Decidable (HasCoord P c) :=
  inferInstanceAs (Decidable (_ ∧ _))

theorem HasCoord.toAffine_eq {P : MontgomeryPoint Fp} {c : Fp} (h : HasCoord P c) :
    P.toAffine = c := by
  rw [toAffine, Exact.invert_eq, h.2, mul_inv_cancel_right₀ h.1]

/-- The runs for the scalar `2^254`: on limbs the two highest turns, and from there on
no subtraction that borrows; then the two results. -/
theorem borrowingKey_runs :
    RepresentPair (turn (Field25519Ops.fromBytes borrowingKey) true
      (turn (Field25519Ops.fromBytes borrowingKey) false
        (ladderInit (fromAffine (Field25519Ops.fromBytes borrowingKey))).points))
      borrowedPoints ∧
    loopAll (fun i ys => StepClear (swapIf ((2 ^ 254).testBit i) ys))
      (fun i => turn (Field25519Ops.fromBytes borrowingKey) ((2 ^ 254).testBit i)) 254
      borrowedPoints ∧
    HasCoord (loopDown (fun i => turn (Field25519Ops.fromBytes borrowingKey)
        ((2 ^ 254).testBit i)) 254 borrowedPoints).1
      0x7ef00a9be371272fe531895adf3dceca71d363ed7c6249c135f7b8a281d1e72a ∧
    HasCoord (loopDown (fun i => turn (Field25519Ops.fromBytes borrowingKey)
        ((2 ^ 254).testBit i)) 256 (⟨1, 0⟩, fromAffine (Field25519Ops.fromBytes borrowingKey))).1
      0x41361e8e9e0b066f15993eb42109b4a3ddad46818131084dfae38b8fd49bc99d := by
  decide +kernel

theorem exchange_borrowingKey : (exchange Field25519 (leVector 32 0) borrowingKey).toOption =
    some (leVector 32 0x7ef00a9be371272fe531895adf3dceca71d363ed7c6249c135f7b8a281d1e72a) := by
  have hs := (scalar_spec (leVector 32 0)).1.toLow
  have hpk := represents_fromBytes borrowingKey
  have hstart : RepresentPair (ladderTurn (Field25519Ops.fromBytes borrowingKey)
      (scalar (leVector 32 0)) 254 (ladderTurn (Field25519Ops.fromBytes borrowingKey)
        (scalar (leVector 32 0)) 255 (ladderInit (fromAffine (Field25519Ops.fromBytes
          borrowingKey))))).points borrowedPoints := by
    rw [ladderTurn_points, ladderTurn_points, FieldQ.getBitI_eq hs (by norm_num),
      FieldQ.getBitI_eq hs (by norm_num), scalar_zero_value]
    exact borrowingKey_runs.1
  have hclear : loopAll
      (fun i ys => StepClear (swapIf ((scalar (leVector 32 0)).value.testBit i) ys))
      (fun i => turn (Field25519Ops.fromBytes borrowingKey)
        ((scalar (leVector 32 0)).value.testBit i)) 254 borrowedPoints := by
    rw [scalar_zero_value]
    exact borrowingKey_runs.2.1
  have hpoints := loop_represents hpk hs (by norm_num) hstart
    (loopAll_of_clear hpk hs (by norm_num) hstart hclear)
  rw [scalar_zero_value] at hpoints
  have hresult := hpoints.1.toAffine
  rw [borrowingKey_runs.2.2.1.toAffine_eq, ← loopDown_succ, ← loopDown_succ] at hresult
  rw [exchange_eq_of_represents hresult, Rfc7748.toOption_fromChoice]
  · rfl
  · exact natCast_ne_zero_fp (by norm_num) (by norm_num [p25519])

theorem sharedSecret_borrowingKey : Rfc7748.sharedSecret (leVector 32 0) borrowingKey =
    some (leVector 32 0x41361e8e9e0b066f15993eb42109b4a3ddad46818131084dfae38b8fd49bc99d) := by
  have hresult : ((fromAffine (Field25519Ops.fromBytes borrowingKey : Fp)).mul
      (scalar (leVector 32 0))).toAffine =
      0x41361e8e9e0b066f15993eb42109b4a3ddad46818131084dfae38b8fd49bc99d := by
    rw [mul_eq_loop _ (scalar_spec _).1.toLow, scalar_zero_value]
    exact borrowingKey_runs.2.2.2.toAffine_eq
  rw [← Rfc7748.exchange_exact, exchange, hresult, Rfc7748.toOption_fromChoice]
  · rfl
  · exact natCast_ne_zero_fp (by norm_num) (by norm_num [p25519])

/-- Borrowing changes the secret. -/
theorem exchange_ne_sharedSecret : (exchange Field25519 (leVector 32 0)
    (leVector 32 0x4000000000000000000000000000000000000000000000000001fffffffffff5)).toOption ≠
      Rfc7748.sharedSecret (leVector 32 0)
        (leVector 32 0x4000000000000000000000000000000000000000000000000001fffffffffff5) := by
  change (exchange Field25519 (leVector 32 0) borrowingKey).toOption ≠
    Rfc7748.sharedSecret (leVector 32 0) borrowingKey
  rw [exchange_borrowingKey, sharedSecret_borrowingKey]
  intro h
  have hnat := leVector_inj (by norm_num) (by norm_num) (Option.some.inj h)
  norm_num at hnat

end X25519

end PeerToPeer.Crypto
