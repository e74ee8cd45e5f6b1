import PeerToPeer.Crypto.MontgomerySpec

/-!
The function X25519 of RFC 7748, on exact integers modulo `2^255 - 19`, and the
ladder of `montgomery_point` as its implementation.

The RFC runs its ladder over the 255 bits of the decoded scalar. The code runs over
256 bits. The additional turn, on a zero bit, multiplies the coordinates of the
second point by `4 u`, which the quotient at the end does not see.
-/

namespace PeerToPeer.Crypto.Rfc7748

open PeerToPeer.Lib

/-- `decodeScalar25519`. -/
def decodeScalar25519 (k : Bytes 32) : ℕ :=
  leNat ((k.toList.modify 0 (· &&& 248)).modify 31 (fun b => (b &&& 127) ||| 64))

/-- `decodeUCoordinate`, with `bits = 255`. -/
def decodeUCoordinate (u : Bytes 32) : Fp := (leNat (u.toList.modify 31 (· &&& 127)) : Fp)

/-- `encodeUCoordinate`. -/
def encodeUCoordinate (u : Fp) : Bytes 32 := leVector 32 u.val

def a24 : Fp := (121665 : ℕ)

/-- The variables of the ladder. -/
structure LadderState where
  x₂ : Fp
  z₂ : Fp
  x₃ : Fp
  z₃ : Fp
  swap : Bool

def cswap (swap : Bool) (a b : Fp) : Fp × Fp := if swap then (b, a) else (a, b)

/-- One turn of the loop over the bits. -/
def turn (x₁ : Fp) (k t : ℕ) (s : LadderState) : LadderState :=
  let kt := k.testBit t
  let swap := s.swap ^^ kt
  let xs := cswap swap s.x₂ s.x₃
  let zs := cswap swap s.z₂ s.z₃
  let A := xs.1 + zs.1
  let AA := A ^ 2
  let B := xs.1 - zs.1
  let BB := B ^ 2
  let E := AA - BB
  let C := xs.2 + zs.2
  let D := xs.2 - zs.2
  let DA := D * A
  let CB := C * B
  { x₃ := (DA + CB) ^ 2
    z₃ := x₁ * (DA - CB) ^ 2
    x₂ := AA * BB
    z₂ := E * (AA + a24 * E)
    swap := kt }

/-- The ladder, up to the encoding of its result. -/
def ladder (k : ℕ) (u : Fp) : Fp :=
  let s := loopDown (turn u k) 255 ⟨1, 0, u, 1, false⟩
  let xs := cswap s.swap s.x₂ s.x₃
  let zs := cswap s.swap s.z₂ s.z₃
  xs.1 * zs.1 ^ (p25519 - 2)

/-- `X25519`. -/
def x25519 (k u : Bytes 32) : Bytes 32 :=
  encodeUCoordinate (ladder (decodeScalar25519 k) (decodeUCoordinate u))

/-- What the caller of `exchange` is to get: the shared value, unless it is zero. -/
def sharedSecret (k u : Bytes 32) : Option (Bytes 32) :=
  if x25519 k u = Vector.replicate 32 0 then none else some (x25519 k u)

/-! ### Decoding -/

theorem toList_eq_ends (k : Bytes 32) :
    ∃ (b : UInt8) (bs : List UInt8) (c : UInt8), bs.length = 30 ∧ k.toList = b :: (bs ++ [c]) := by
  obtain ⟨b, rest, hrest⟩ :=
    List.exists_cons_of_length_eq_add_one (l := k.toList) (n := 31) (by simp)
  have hlen : rest.length = 31 := by
    have := congrArg List.length hrest
    simpa using this.symm
  rcases List.eq_nil_or_concat' rest with rfl | ⟨bs, c, rfl⟩
  · simp at hlen
  · exact ⟨b, bs, c, by simpa using hlen, hrest⟩

theorem modify_concat {α : Type} (f : α → α) (l : List α) (a : α) :
    (l ++ [a]).modify l.length f = l ++ [f a] :=
  List.modifyTailIdx_add (List.modifyHead f) 0 l [a]

/-- The last byte of an array that is given by its ends. -/
theorem modify_last (f : UInt8 → UInt8) {b : UInt8} {bs : List UInt8} {c : UInt8}
    (h : bs.length = 30) : (b :: (bs ++ [c])).modify 31 f = b :: (bs ++ [f c]) := by
  rw [List.modify_succ_cons, ← h, modify_concat]

set_option maxRecDepth 4000 in
theorem toNat_and_248 (b : UInt8) : (b &&& 248).toNat = b.toNat / 8 * 8 := by
  have hnat : ∀ x < 256, x &&& 248 = x / 8 * 8 := by decide
  rw [UInt8.toNat_and]
  exact hnat b.toNat b.toNat_lt

theorem toNat_and_127 (b : UInt8) : (b &&& 127).toNat = b.toNat % 128 := by
  rw [UInt8.toNat_and]
  exact Nat.and_two_pow_sub_one_eq_mod _ 7

set_option maxRecDepth 4000 in
theorem toNat_and_127_or_64 (b : UInt8) : ((b &&& 127) ||| 64).toNat = b.toNat % 64 + 64 := by
  have hnat : ∀ x < 256, x &&& 127 ||| 64 = x % 64 + 64 := by decide
  rw [UInt8.toNat_or, UInt8.toNat_and]
  exact hnat b.toNat b.toNat_lt

theorem decodeScalar25519_eq (k : Bytes 32) :
    decodeScalar25519 k = leNat k.toList % 2 ^ 254 / 8 * 8 + 2 ^ 254 := by
  obtain ⟨b, bs, c, hlen, hk⟩ := toList_eq_ends k
  have hb := b.toNat_lt
  have hlt := leNat_lt bs
  rw [decodeScalar25519, hk, List.modify_zero_cons, modify_last _ hlen]
  rw [hlen] at hlt
  simp only [leNat_cons, leNat_append, leNat_nil, toNat_and_248, toNat_and_127_or_64, hlen]
  omega

theorem decodeUCoordinate_eq (u : Bytes 32) :
    decodeUCoordinate u = Field25519Ops.fromBytes u := by
  obtain ⟨b, bs, c, hlen, hu⟩ := toList_eq_ends u
  have hb := b.toNat_lt
  have hlt := leNat_lt bs
  rw [hlen] at hlt
  rw [decodeUCoordinate, Exact.fromBytes_eq, hu, modify_last _ hlen]
  congr 1
  simp only [leNat_cons, leNat_append, leNat_nil, toNat_and_127, hlen]
  omega

/-! ### The ladder -/

open MontgomeryPoint

/-- The points of a state of the ladder, with the pending swap undone. -/
def LadderState.points (s : LadderState) : MontgomeryPoint Fp × MontgomeryPoint Fp :=
  swapIf s.swap (⟨s.x₂, s.z₂⟩, ⟨s.x₃, s.z₃⟩)

theorem cswap_points (b : Bool) (x₂ z₂ x₃ z₃ : Fp) :
    swapIf b ((⟨x₂, z₂⟩, ⟨x₃, z₃⟩) : MontgomeryPoint Fp × MontgomeryPoint Fp) =
      (⟨(cswap b x₂ x₃).1, (cswap b z₂ z₃).1⟩, ⟨(cswap b x₂ x₃).2, (cswap b z₂ z₃).2⟩) := by
  cases b <;> rfl

/-- The turn of the RFC is the turn of the code. -/
theorem turn_points (u : Fp) (k t : ℕ) (s : LadderState) :
    (turn u k t s).points = MontgomeryPoint.turn u (k.testBit t) s.points := by
  have hstep : step u (swapIf (s.swap ^^ k.testBit t) (⟨s.x₂, s.z₂⟩, ⟨s.x₃, s.z₃⟩)) =
      (⟨(turn u k t s).x₂, (turn u k t s).z₂⟩, ⟨(turn u k t s).x₃, (turn u k t s).z₃⟩) := by
    rw [cswap_points]
    simp only [turn, step, Exact.square_eq, addWord_a24, a24, Nat.cast_ofNat, pow_two]
  rw [MontgomeryPoint.turn, LadderState.points, LadderState.points, swapIf_swapIf, Bool.xor_comm,
    hstep]
  rfl

theorem ladder_eq (k : ℕ) (u : Fp) :
    ladder k u = (loopDown (fun i => MontgomeryPoint.turn u (k.testBit i)) 255
      (⟨1, 0⟩, fromAffine u)).1.toAffine := by
  have hpoints := loopDown_rel (R := fun (s : LadderState) xs => s.points = xs) (n := 255)
    (f := turn u k) (g := fun i => MontgomeryPoint.turn u (k.testBit i))
    (a := ⟨1, 0, u, 1, false⟩) (b := (⟨1, 0⟩, fromAffine u)) rfl (by
      intro t ht s xs hs
      rw [turn_points, hs])
  rw [ladder, ← hpoints, LadderState.points, cswap_points, toAffine, Exact.invert_eq_pow]

/-! ### The additional turn of the code -/

/-- The same points, up to factors of their coordinates. -/
def SamePoints (xs ys : MontgomeryPoint Fp × MontgomeryPoint Fp) : Prop :=
  ∃ c d : Fp, c ≠ 0 ∧ d ≠ 0 ∧ xs.1 = ⟨c * ys.1.x, c * ys.1.z⟩ ∧ xs.2 = ⟨d * ys.2.x, d * ys.2.z⟩

theorem SamePoints.swapIf (b : Bool) {xs ys : MontgomeryPoint Fp × MontgomeryPoint Fp}
    (h : SamePoints xs ys) : SamePoints (swapIf b xs) (swapIf b ys) := by
  obtain ⟨c, d, hc, hd, h₁, h₂⟩ := h
  cases b with
  | false => exact ⟨c, d, hc, hd, h₁, h₂⟩
  | true => exact ⟨d, c, hd, hc, h₂, h₁⟩

/-- Doubling and differential addition are homogeneous. -/
theorem SamePoints.step (u : Fp) {xs ys : MontgomeryPoint Fp × MontgomeryPoint Fp}
    (h : SamePoints xs ys) : SamePoints (step u xs) (step u ys) := by
  obtain ⟨c, d, hc, hd, h₁, h₂⟩ := h
  refine ⟨c ^ 4, (c * d) ^ 2, pow_ne_zero 4 hc, pow_ne_zero 2 (mul_ne_zero hc hd), ?_, ?_⟩
  · simp only [MontgomeryPoint.step, Exact.square_eq, h₁, MontgomeryPoint.mk.injEq]
    constructor <;> ring
  · simp only [MontgomeryPoint.step, Exact.square_eq, h₁, h₂, MontgomeryPoint.mk.injEq]
    constructor <;> ring

theorem SamePoints.turn (u : Fp) (b : Bool) {xs ys : MontgomeryPoint Fp × MontgomeryPoint Fp}
    (h : SamePoints xs ys) :
    SamePoints (MontgomeryPoint.turn u b xs) (MontgomeryPoint.turn u b ys) :=
  ((h.swapIf b).step u).swapIf b

theorem SamePoints.toAffine_fst {xs ys : MontgomeryPoint Fp × MontgomeryPoint Fp}
    (h : SamePoints xs ys) : xs.1.toAffine = ys.1.toAffine := by
  obtain ⟨c, d, hc, -, h₁, -⟩ := h
  rw [toAffine, toAffine, Exact.invert_eq, Exact.invert_eq, h₁, mul_inv]
  field_simp

theorem turn_init {u : Fp} (hu : u ≠ 0) :
    SamePoints (MontgomeryPoint.turn u false (⟨1, 0⟩, fromAffine u)) (⟨1, 0⟩, fromAffine u) := by
  have hfour : (4 : Fp) ≠ 0 := by
    have h := mul_ne_zero two_ne_zero_fp two_ne_zero_fp
    norm_num at h
    exact h
  refine ⟨1, 4 * u, one_ne_zero, mul_ne_zero hfour hu, ?_, ?_⟩
  · simp [MontgomeryPoint.turn, MontgomeryPoint.step]
  · simp only [MontgomeryPoint.turn, swapIf_false, MontgomeryPoint.step, Exact.square_eq,
      fromAffine, MontgomeryPoint.mk.injEq]
    constructor <;> ring

/-- `operator*` runs the ladder of the RFC. -/
theorem mul_toAffine_eq_ladder {s : FieldQ} (hs : s.Low) (hlt : s.value < 2 ^ 255) (u : Fp) :
    ((fromAffine u).mul s).toAffine = ladder s.value u := by
  rw [mul_eq_loop _ hs, ladder_eq]
  change (loopDown (fun i => MontgomeryPoint.turn u (s.value.testBit i)) (255 + 1) _).1.toAffine = _
  by_cases hu : u = 0
  · rw [hu, loop_zero_toAffine, loop_zero_toAffine]
  · rw [loopDown_succ, Nat.testBit_lt_two_pow hlt]
    refine SamePoints.toAffine_fst (loopDown_rel (R := SamePoints) (turn_init hu) ?_)
    exact fun k _ xs ys h => h.turn u _

theorem encodeUCoordinate_eq_zero_iff (u : Fp) :
    encodeUCoordinate u = Vector.replicate 32 0 ↔ u = 0 := by
  have hzero : Vector.replicate 32 0 = leVector 32 (0 : Fp).val := by decide
  have hlt : ∀ a : Fp, a.val < 256 ^ 32 := fun a => lt_trans (Exact.val_lt a) (by norm_num)
  rw [hzero]
  constructor
  · intro h
    exact ZMod.val_injective _ (leVector_inj (hlt u) (hlt 0) h)
  · rintro rfl
    rfl

theorem toOption_fromChoice {a : Fp} (ha : a ≠ 0) :
    (CtOptional.fromChoice (Field25519Ops.toBytes a) (Field25519Ops.isZero a).not).toOption =
      some (leVector 32 a.val) := by
  simp only [CtOptional.toOption, CtOptional.isSomePublic_fromChoice, Exact.isZero_eq,
    Choice.unwrapPublic_not, Choice.unwrapPublic_ofBool, ha, decide_false, Bool.not_false, if_true]
  rfl

/-- In exact arithmetic, `exchange` is the function of the RFC with zero left out. -/
theorem exchange_exact (sk pk : Bytes 32) :
    (X25519.exchange Fp sk pk).toOption = sharedSecret sk pk := by
  obtain ⟨hraw, hval⟩ := X25519.scalar_spec sk
  have hresult : ((fromAffine (Field25519Ops.fromBytes pk : Fp)).mul (X25519.scalar sk)).toAffine =
      ladder (decodeScalar25519 sk) (decodeUCoordinate pk) := by
    rw [decodeScalar25519_eq, ← hval, decodeUCoordinate_eq]
    exact mul_toAffine_eq_ladder hraw.toLow (by rw [hval]; omega) _
  rw [sharedSecret, x25519, X25519.exchange, hresult]
  have hzero := encodeUCoordinate_eq_zero_iff (ladder (decodeScalar25519 sk) (decodeUCoordinate pk))
  generalize ladder (decodeScalar25519 sk) (decodeUCoordinate pk) = u at *
  by_cases h : u = 0
  · rw [if_pos (hzero.mpr h)]
    simp [CtOptional.toOption, h]
  · rw [if_neg (mt hzero.mp h)]
    exact toOption_fromChoice h

end PeerToPeer.Crypto.Rfc7748
