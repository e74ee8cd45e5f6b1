import PeerToPeer.Crypto.SmallOrder

/-!
How many signatures a message has.

The multiples of the base point have index eight, so eight times any point is one of them.
For a key and a first half that are points, the equation of `verify` has a single solution
below `L`: no second half can be replaced by another one, and a key has as many signatures of
a message as the curve has points.
-/

namespace PeerToPeer.Crypto.Eddsa

open PeerToPeer.Lib EdwardsPoint

variable (H : Type) [Hasher H 64]

/-- `verify` returns true. -/
def Accepted (pub : Bytes 32) (msg : List UInt8) (sig : Bytes 64) : Prop :=
  (verify H Fp pub msg sig).unwrapPublic = true

/-- `from_bytes` returns a point. -/
def Decodes (b : Bytes 32) : Prop :=
  (fromBytes b : CtOptional (EdwardsPoint Fp)).isSomePublic = true

theorem decodes_iff (b : Bytes 32) : Decodes b ↔ b ∈ Set.range encode := by
  constructor
  · intro h
    obtain ⟨P, rfl⟩ := exists_eq_encode h
    exact ⟨P, rfl⟩
  · rintro ⟨P, rfl⟩
    rw [Decodes, fromBytes_encode]
    rfl

/-! ### The equation -/

/-- The multiples of the base point. -/
theorem index_zmultiples_generator : (AddSubgroup.zmultiples generator).index = 8 := by
  have hcard := (AddSubgroup.zmultiples generator).index_mul_card
  rw [Nat.card_zmultiples, addOrderOf_generator, card_point] at hcard
  exact Nat.eq_of_mul_eq_mul_right FieldQ.order_prime.pos hcard

/-- Multiplied by eight, every point is a multiple of the base point by a scalar. -/
theorem exists_scalar (Q : ed25519.Point) :
    ∃ s < FieldQ.order, 8 • s • generator = 8 • Q := by
  have hmem : 8 • Q ∈ AddSubgroup.zmultiples generator := by
    rw [← index_zmultiples_generator]
    exact AddSubgroup.nsmul_index_mem _ Q
  obtain ⟨j, hj⟩ : ∃ j : ℕ, j • generator = 8 • Q :=
    AddSubmonoid.mem_multiples_iff _ _ |>.mp (mem_multiples_iff_mem_zmultiples.mpr hmem)
  have hcoprime : Nat.Coprime 8 FieldQ.order :=
    (Nat.coprime_primes Nat.prime_two FieldQ.order_prime).mpr (by decide) |>.pow_left 3
  -- an inverse of eight modulo `L`
  obtain ⟨e, -, he⟩ := Nat.exists_mul_mod_eq_one_of_coprime hcoprime FieldQ.order_prime.one_lt
  refine ⟨e * j % FieldQ.order, Nat.mod_lt _ FieldQ.order_prime.pos, ?_⟩
  calc 8 • (e * j % FieldQ.order) • generator
      = (8 * e * j) • generator := by
        rw [mod_order_nsmul_generator, ← mul_nsmul, mul_comm, mul_assoc]
    _ = (8 * e * j % FieldQ.order) • generator := (mod_order_nsmul_generator _).symm
    _ = (j % FieldQ.order) • generator := by rw [Nat.mul_mod, he, one_mul, Nat.mod_mod]
    _ = 8 • Q := by rw [mod_order_nsmul_generator, hj]

theorem nsmul_eight_generator_ne_zero : 8 • generator ≠ 0 := by
  intro h
  have hdvd := addOrderOf_dvd_of_nsmul_eq_zero h
  rw [addOrderOf_generator] at hdvd
  exact absurd (Nat.le_of_dvd (by norm_num) hdvd) (by norm_num [FieldQ.order])

/-- The scalar is the only one. -/
theorem scalar_unique {s s' : ℕ} (hs : s < FieldQ.order) (hs' : s' < FieldQ.order)
    (h : 8 • s • generator = 8 • s' • generator) : s = s' := by
  rw [nsmul_left_comm generator s 8, nsmul_left_comm generator s' 8] at h
  exact nsmul_eight_injective nsmul_eight_generator_ne_zero hs hs' h

/-! ### The signatures of a message -/

/-- What `verify` accepts, second half apart. -/
theorem accepted_append_iff (A R : ed25519.Point) (msg : List UInt8) (s : Bytes 32) :
    Accepted H (encode A) msg (encode R ++ s) ↔
      leNat s.toList < FieldQ.order ∧ 8 • leNat s.toList • generator =
        8 • (R + (hashScalar H [(encode R).toList, (encode A).toList, msg]).value • A) := by
  constructor
  · intro h
    obtain ⟨A', R', hparsed⟩ := exists_parsed H h
    obtain rfl := encode_injective hparsed.pub_eq
    have hr := hparsed.r_eq
    rw [lowHalf_append] at hr
    obtain rfl := encode_injective hr
    have hs := hparsed.s_lt
    have heq := (hparsed.verify_iff H msg).mp h
    rw [sPoint, hashNat, lowHalf_append, highHalf_append] at heq
    rw [highHalf_append] at hs
    exact ⟨hs, heq⟩
  · rintro ⟨hs, heq⟩
    have hparsed : Parsed (encode A) (encode R ++ s) A R := by
      refine ⟨rfl, lowHalf_append _ _, ?_⟩
      rw [highHalf_append]
      exact hs
    rw [Accepted, hparsed.verify_iff H msg, sPoint, hashNat, lowHalf_append, highHalf_append]
    exact heq

theorem append_halves (sig : Bytes 64) : lowHalf sig ++ highHalf sig = sig := by
  apply Vector.ext
  intro i hi
  rw [Vector.getElem_append]
  split
  · rw [lowHalf, Vector.getElem_ofFn]
  · rename_i hlow
    have hi' : i - 32 + 32 = i := by omega
    rw [highHalf, Vector.getElem_ofFn]
    simp only [hi']

/-- A first half that is a point has one second half. -/
theorem existsUnique_accepted (A R : ed25519.Point) (msg : List UInt8) :
    ∃! s : Bytes 32, Accepted H (encode A) msg (encode R ++ s) := by
  obtain ⟨s, hs, hQ⟩ := exists_scalar
    (R + (hashScalar H [(encode R).toList, (encode A).toList, msg]).value • A)
  have horder : FieldQ.order < 256 ^ 32 := by
    rw [FieldQ.order_eq]
    norm_num
  have hnat : leNat (leVector 32 s).toList = s := leNat_leVector (hs.trans horder)
  refine ⟨leVector 32 s, (accepted_append_iff H A R msg _).mpr ?_, ?_⟩
  · rw [hnat]
    exact ⟨hs, hQ⟩
  · intro s' h
    obtain ⟨hs', hQ'⟩ := (accepted_append_iff H A R msg s').mp h
    apply bytes_ext
    rw [hnat]
    exact scalar_unique hs' hs (hQ'.trans hQ.symm)

theorem decodes_of_accepted {pub : Bytes 32} {msg : List UInt8} {sig : Bytes 64}
    (h : Accepted H pub msg sig) : Decodes pub ∧ Decodes (lowHalf sig) := by
  obtain ⟨A, R, hparsed⟩ := exists_parsed H h
  rw [decodes_iff, decodes_iff]
  exact ⟨⟨A, hparsed.pub_eq.symm⟩, ⟨R, hparsed.r_eq.symm⟩⟩

/-- The first halves of the signatures are the encodings of points. -/
theorem bijOn_lowHalf (A : ed25519.Point) (msg : List UInt8) :
    Set.BijOn lowHalf {sig | Accepted H (encode A) msg sig} (Set.range encode) := by
  refine ⟨?_, ?_, ?_⟩
  · intro sig hsig
    exact (decodes_iff _).mp (decodes_of_accepted H hsig).2
  · intro sig hsig sig' hsig' heq
    obtain ⟨R, hR⟩ := (decodes_iff _).mp (decodes_of_accepted H hsig).2
    have hs : Accepted H (encode A) msg (encode R ++ highHalf sig) := by
      rw [hR, append_halves]
      exact hsig
    have hs' : Accepted H (encode A) msg (encode R ++ highHalf sig') := by
      rw [hR, heq, append_halves]
      exact hsig'
    rw [← append_halves sig, ← append_halves sig', heq,
      (existsUnique_accepted H A R msg).unique hs hs']
  · rintro _ ⟨R, rfl⟩
    obtain ⟨s, hs, -⟩ := existsUnique_accepted H A R msg
    exact ⟨encode R ++ s, hs, lowHalf_append _ _⟩

/-- `verify` accepts nothing but signatures whose first half, like the key, is the encoding of
a point. Every such first half has exactly one second half, for every key that is the encoding
of a point and every message: such a key has `8 L` signatures of the message. -/
theorem signatures_exact (pub : Bytes 32) (msg : List UInt8) :
    (∀ sig, Accepted H pub msg sig → Decodes pub ∧ Decodes (lowHalf sig)) ∧
    (Decodes pub → (∀ r, Decodes r → ∃! s : Bytes 32, Accepted H pub msg (r ++ s)) ∧
      {sig | Accepted H pub msg sig}.ncard = 8 * FieldQ.order) := by
  refine ⟨fun sig => decodes_of_accepted H, fun hpub => ⟨fun r hr => ?_, ?_⟩⟩
  · obtain ⟨A, rfl⟩ := (decodes_iff _).mp hpub
    obtain ⟨R, rfl⟩ := (decodes_iff _).mp hr
    exact existsUnique_accepted H A R msg
  · obtain ⟨A, rfl⟩ := (decodes_iff _).mp hpub
    rw [(bijOn_lowHalf H A msg).ncard_eq, ← Set.image_univ,
      Set.ncard_image_of_injective _ encode_injective, Set.ncard_univ, card_point]

end PeerToPeer.Crypto.Eddsa
