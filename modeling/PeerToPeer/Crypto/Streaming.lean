import PeerToPeer.Crypto.Fips180

/-!
The hash objects over a sequence of calls.

A hash object stands for the bytes that it was given since it was made or last finalized:
the full blocks are in its state, the rest is in its buffer, and its counter holds the
bits of the full blocks. Each byte of `update` keeps this, `finalize` completes it to the
padded message and starts again from nothing.
-/

namespace PeerToPeer.Crypto

open PeerToPeer.Lib

/-! ### Calls -/

/-- A call on a hash object. -/
inductive Call
  | update (data : List UInt8)
  | finalize

/-- The objects that are finalized when an object gets a sequence of calls. -/
def finalized {H : Type} {n : ℕ} [Hasher H n] (o : H) : List Call → List H
  | [] => []
  | .update data :: cs => finalized (Hasher.update o data) cs
  | .finalize :: cs => o :: finalized (Hasher.finalize o).2 cs

/-- For each of them, the bytes that came in since the one before; `m` came in before the
first call. -/
def messages (m : List UInt8) : List Call → List (List UInt8)
  | [] => []
  | .update data :: cs => messages (m ++ data) cs
  | .finalize :: cs => m :: messages [] cs

example : messages [] [.update [1], .update [], .update [2], .finalize, .finalize] =
    [[1, 2], []] := rfl

/-- What holds of a new object and is kept by `update` holds whenever `finalize` is
called. -/
theorem forall₂_finalized {H : Type} {n : ℕ} [Hasher H n] {R : H → List UInt8 → Prop}
    (hinit : R Hasher.init [])
    (hupdate : ∀ o m data, R o m → R (Hasher.update o data) (m ++ data))
    (hfinalize : ∀ o : H, (Hasher.finalize o).2 = Hasher.init) (cs : List Call) {o : H}
    {m : List UInt8} (h : R o m) : List.Forall₂ R (finalized o cs) (messages m cs) := by
  induction cs generalizing o m with
  | nil => exact .nil
  | cons c cs ih =>
      cases c with
      | update data => exact ih (hupdate o m data h)
      | finalize =>
          refine .cons h ?_
          rw [hfinalize]
          exact ih hinit

/-- A byte either waits in the buffer or fills a block. -/
theorem Pending.push_cases {size : ℕ} (p : Pending size) (b : UInt8) :
    (∃ q : Pending size, p.push b = .inl q ∧ q.bytes = p.bytes ++ [b]) ∨
      p.push b = .inr (p.bytes ++ [b]) ∧ (p.bytes ++ [b]).length = size := by
  have hlt := p.lt
  rcases Nat.lt_or_ge (p.bytes ++ [b]).length size with h | h
  · exact .inl ⟨⟨_, h⟩, dif_pos h, rfl⟩
  · refine .inr ⟨dif_neg (Nat.not_lt.mpr h), ?_⟩
    rw [List.length_append, List.length_singleton] at h ⊢
    omega

theorem toNat_bits {n : ℕ} (h : n < 2 ^ 61) : (UInt64.ofNat n * 8).toNat = 8 * n := by
  have height : (8 : UInt64).toNat = 8 := rfl
  rw [UInt64.toNat_mul, UInt64.toNat_ofNat_of_lt' (h.trans (by decide)), height,
    Nat.mod_eq_of_lt (by omega), Nat.mul_comm]

/-! ### SHA-256 -/

namespace Sha256

/-- The object stands for the bytes `m`. -/
structure Absorbed (o : Sha256) (m : List UInt8) : Prop where
  buffered : Buffered transform 64 init.state o.state o.buffer.bytes m
  bits : (o.bitLen.toNat + 8 * o.buffer.bytes.length) % 2 ^ 64 = 8 * m.length % 2 ^ 64

theorem absorbed_init : Absorbed init [] := ⟨buffered_nil, rfl⟩

variable {o : Sha256} {m : List UInt8}

theorem Absorbed.updateByte (h : Absorbed o m) (b : UInt8) :
    Absorbed (o.updateByte b) (m ++ [b]) := by
  have hbuffered := h.buffered.push b
  have hbits := h.bits
  rcases o.buffer.push_cases b with ⟨q, hpush, hq⟩ | ⟨hpush, hfull⟩
  · simp only [Sha256.updateByte, hpush]
    refine ⟨?_, ?_⟩
    · rwa [hq]
    · simp only [hq, List.length_append, List.length_singleton]
      omega
  · simp only [Sha256.updateByte, hpush]
    refine ⟨hbuffered.absorb (by decide) hfull, ?_⟩
    rw [List.length_append, List.length_singleton] at hfull ⊢
    simp only [Pending.empty, List.length_nil, UInt64.toNat_add, UInt64.reduceToNat]
    omega

theorem Absorbed.update (h : Absorbed o m) (data : List UInt8) :
    Absorbed (o.update data) (m ++ data) :=
  foldl_append_induction (fun _ _ b h => h.updateByte b) data h

/-- `total_bits` in `finalize`. -/
def totalBits (o : Sha256) : UInt64 := o.bitLen + UInt64.ofNat o.buffer.bytes.length * 8

theorem Absorbed.totalBits_eq (h : Absorbed o m) : o.totalBits.toNat = 8 * m.length % 2 ^ 64 := by
  rw [← h.bits, totalBits, UInt64.toNat_add, toNat_bits (o.buffer.lt.trans (by norm_num))]

/-- The length field and both ways to pad give the blocks of the padded message. -/
theorem Absorbed.finalState_eq (h : Absorbed o m) :
    o.finalState = absorbBlocks transform 64 init.state (padMessage 64 8 m) := by
  obtain ⟨full, hm, hfull, hstate⟩ := h.buffered
  have hlength : beBytes 8 o.totalBits.toNat = beBytes 8 (8 * m.length) :=
    beBytes_eq_of_mod_eq (by rw [h.totalBits_eq, Nat.mod_mod_of_dvd _ (by norm_num)])
  rw [hm, absorbBlocks_padMessage transform (by decide) _ hfull o.buffer.lt, ← hm, ← hlength,
    ← hstate]
  rfl

theorem Absorbed.finalize_eq (h : Absorbed o m) :
    o.finalize.1.toList = Fips180.digest Fips180.sha256 m := by
  rw [Fips180.digest_sha256_eq, ← h.finalState_eq]
  rfl

/-- Whenever `finalize` is called, the counter gives the exact number of bits and the
digest is the one of the bytes that came in since the last call. -/
theorem finalize_eq_sha256 (cs : List Call) :
    List.Forall₂ (fun o m => m.length < 2 ^ 61 → o.totalBits.toNat = 8 * m.length ∧
      o.finalize.1.toList = Fips180.digest Fips180.sha256 m)
      (finalized init cs) (messages [] cs) := by
  have hcalls := forall₂_finalized (R := Absorbed) absorbed_init
    (fun _ _ data h => h.update data) (fun _ => rfl) cs absorbed_init
  refine hcalls.imp fun o m h hm => ⟨?_, h.finalize_eq⟩
  rw [h.totalBits_eq, Nat.mod_eq_of_lt (by omega)]

end Sha256

/-! ### SHA-512 -/

namespace Sha512

/-- The object stands for the bytes `m`. -/
structure Absorbed (o : Sha512) (m : List UInt8) : Prop where
  buffered : Buffered transform 128 init.state o.state o.buffer.bytes m
  bits : (2 ^ 64 * o.bitLenHigh.toNat + o.bitLenLow.toNat + 8 * o.buffer.bytes.length) % 2 ^ 128 =
    8 * m.length % 2 ^ 128

theorem absorbed_init : Absorbed init [] := ⟨buffered_nil, rfl⟩

variable {o : Sha512} {m : List UInt8}

theorem Absorbed.updateByte (h : Absorbed o m) (b : UInt8) :
    Absorbed (o.updateByte b) (m ++ [b]) := by
  have hbuffered := h.buffered.push b
  have hbits := h.bits
  rcases o.buffer.push_cases b with ⟨q, hpush, hq⟩ | ⟨hpush, hfull⟩
  · simp only [Sha512.updateByte, hpush]
    refine ⟨?_, ?_⟩
    · rwa [hq]
    · simp only [hq, List.length_append, List.length_singleton]
      omega
  · simp only [Sha512.updateByte, hpush]
    refine ⟨hbuffered.absorb (by decide) hfull, ?_⟩
    have hcarry := toNat_carry o.bitLenHigh o.bitLenLow 1024
    rw [List.length_append, List.length_singleton] at hfull ⊢
    simp only [Pending.empty, List.length_nil, add_lt_right_iff, UInt64.reduceToNat] at hcarry ⊢
    omega

theorem Absorbed.update (h : Absorbed o m) (data : List UInt8) :
    Absorbed (o.update data) (m ++ data) :=
  foldl_append_induction (fun _ _ b h => h.updateByte b) data h

/-- `low` in `finalize`. -/
def lengthLow (o : Sha512) : UInt64 := o.bitLenLow + UInt64.ofNat o.buffer.bytes.length * 8

/-- `high` in `finalize`. -/
def lengthHigh (o : Sha512) : UInt64 :=
  o.bitLenHigh + (if o.lengthLow < o.bitLenLow then 1 else 0)

theorem Absorbed.length_eq (h : Absorbed o m) :
    2 ^ 64 * o.lengthHigh.toNat + o.lengthLow.toNat = 8 * m.length % 2 ^ 128 := by
  have hhigh := o.lengthHigh.toNat_lt
  have hlow := o.lengthLow.toNat_lt
  have hcarry := toNat_carry o.bitLenHigh o.bitLenLow (UInt64.ofNat o.buffer.bytes.length * 8)
  have hword : o.lengthHigh = if 2 ^ 64 ≤ o.bitLenLow.toNat +
      (UInt64.ofNat o.buffer.bytes.length * 8).toNat then o.bitLenHigh + 1 else o.bitLenHigh := by
    simp only [lengthHigh, lengthLow, add_lt_left_iff]
    split
    · rfl
    · exact UInt64.add_zero _
  rw [← hword, toNat_bits (o.buffer.lt.trans (by norm_num)), h.bits] at hcarry
  have hlt : 2 ^ 64 * o.lengthHigh.toNat + o.lengthLow.toNat < 2 ^ 128 := by omega
  rw [← hcarry, ← lengthLow, Nat.mod_eq_of_lt hlt]

/-- The length field and both ways to pad give the blocks of the padded message. -/
theorem Absorbed.finalState_eq (h : Absorbed o m) :
    o.finalState = absorbBlocks transform 128 init.state (padMessage 128 16 m) := by
  obtain ⟨full, hm, hfull, hstate⟩ := h.buffered
  have hlength : beBytes 8 o.lengthHigh.toNat ++ beBytes 8 o.lengthLow.toNat =
      beBytes 16 (8 * m.length) := by
    rw [beBytes_append 8 _ (o.lengthLow.toNat_lt.trans_le (by norm_num))]
    refine beBytes_eq_of_mod_eq ?_
    have hbits := h.length_eq
    omega
  rw [hm, absorbBlocks_padMessage transform (by decide) _ hfull o.buffer.lt, ← hm, ← hlength,
    ← hstate]
  rfl

theorem Absorbed.finalize_eq (h : Absorbed o m) :
    o.finalize.1.toList = Fips180.digest Fips180.sha512 m := by
  rw [Fips180.digest_sha512_eq, ← h.finalState_eq]
  rfl

/-- Whenever `finalize` is called, the two words of the counter give the exact number of
bits and the digest is the one of the bytes that came in since the last call. -/
theorem finalize_eq_sha512 (cs : List Call) :
    List.Forall₂ (fun o m => m.length < 2 ^ 125 →
      2 ^ 64 * o.lengthHigh.toNat + o.lengthLow.toNat = 8 * m.length ∧
      o.finalize.1.toList = Fips180.digest Fips180.sha512 m)
      (finalized init cs) (messages [] cs) := by
  have hcalls := forall₂_finalized (R := Absorbed) absorbed_init
    (fun _ _ data h => h.update data) (fun _ => rfl) cs absorbed_init
  refine hcalls.imp fun o m h hm => ⟨?_, h.finalize_eq⟩
  rw [h.length_eq, Nat.mod_eq_of_lt (by omega)]

end Sha512

end PeerToPeer.Crypto
