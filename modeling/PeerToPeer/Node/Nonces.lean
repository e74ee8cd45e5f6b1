import PeerToPeer.Node.Node
import PeerToPeer.Session.Completeness
import PeerToPeer.Session.Network

/-!
No nonce is used twice.

The two ends of a connection send plain and chunked messages in any order, and
any of their network calls may fail. `session::send` takes its counter before it
seals and never gives it back, so the `i`-th call of `seal` at one end gets the
`i`-th nonce under the sending key of that end. The keys of the two ends differ,
and the nonces under one key do as long as the counter has not come around.
-/

namespace PeerToPeer.Node

open Lib Crypto Protocol Transfer Handshake

/-- The sending side of a `peer_conn`, with the arguments that `seal` has got. -/
structure Sender where
  sess : Session
  sealed : List (Bytes 32 × Bytes 12)

namespace Sender

/-- `session::send` over a network whose `n`-th call returns `outcome n`. -/
def send (outcome : ℕ → Bool) (s : Sender) (plaintext : List UInt8) : Sender × Bool :=
  (⟨(s.sess.send [] plaintext).1, s.sealed ++ [s.sess.sealArgs]⟩, outcome s.sealed.length)

/-- The calls of a `peer_conn` that send; `transferId` is the number that a
chunked one draws. -/
inductive Call where
  | sendMsg (data : List UInt8)
  | sendChunkedMsg (transferId : UInt32) (data : List UInt8) (chunkSize : UInt64)

/-- A call, under `send_mu` from its first to its last step. -/
def call (outcome : ℕ → Bool) (s : Sender) : Call → Sender × Bool
  | .sendMsg data => s.send outcome data
  | .sendChunkedMsg transferId data chunkSize =>
      let (s, sent) := sendChunked (send outcome) transferId data chunkSize s
      (s, decide (0 < sent))

/-- The log of a sender that started to count at zero: the `i`-th call of `seal`
got the key and the nonce of `i`. -/
structure Counts (key : Bytes 32) (s : Sender) : Prop where
  kSend : s.sess.kSend = key
  sendCtr : s.sess.sendCtr = UInt64.ofNat s.sealed.length
  sealed : s.sealed =
    (List.range s.sealed.length).map fun i => (key, counterNonce (UInt64.ofNat i))

theorem Counts.send {key : Bytes 32} {s : Sender} (h : s.Counts key) (outcome : ℕ → Bool)
    (plaintext : List UInt8) : (s.send outcome plaintext).1.Counts key := by
  refine ⟨h.kSend, ?_, ?_⟩
  · simp only [Sender.send, Session.send, h.sendCtr, List.length_append, List.length_singleton,
      UInt64.ofNat_add, UInt64.ofNat_one]
  · simp only [Sender.send, Session.sealArgs, h.sendCtr, h.kSend, List.length_append,
      List.length_singleton, List.range_succ, List.map_append, List.map_singleton]
    rw [← h.sealed]

/-- A call keeps the count, however its sends turn out. -/
theorem Counts.call {key : Bytes 32} {s : Sender} (h : s.Counts key) (outcome : ℕ → Bool)
    (c : Call) : (s.call outcome c).1.Counts key := by
  cases c with
  | sendMsg data => exact h.send outcome data
  | sendChunkedMsg transferId data chunkSize =>
      exact sendChunked_invariant (I := Counts key)
        (fun s f hs => hs.send outcome f) transferId data chunkSize h

/-- Below `2^64` calls no nonce comes twice. -/
theorem Counts.nodup {key : Bytes 32} {s : Sender} (h : s.Counts key)
    (hlt : s.sealed.length < 2 ^ 64) : s.sealed.Nodup := by
  rw [h.sealed]
  apply List.Nodup.map_on _ List.nodup_range
  intro i hi j hj heq
  rw [List.mem_range] at hi hj
  have hctr := congrArg UInt64.toNat (counterNonce_inj (congrArg Prod.snd heq))
  rwa [UInt64.toNat_ofNat', UInt64.toNat_ofNat', Nat.mod_eq_of_lt (hi.trans hlt),
    Nat.mod_eq_of_lt (hj.trans hlt)] at hctr

theorem Counts.fst_eq {key : Bytes 32} {s : Sender} (h : s.Counts key)
    {args : Bytes 32 × Bytes 12} (hmem : args ∈ s.sealed) : args.1 = key := by
  rw [h.sealed] at hmem
  obtain ⟨i, -, rfl⟩ := List.mem_map.mp hmem
  rfl

end Sender

/-! ### Both ends -/

/-- The two ends of a connection. -/
abbrev Ends := RoleName → Sender

/-- The ends with the sessions that they start from. -/
def Ends.start (sA sB : Session) : Ends
  | .initiator => ⟨sA, []⟩
  | .responder => ⟨sB, []⟩

/-- Calls on both ends, one after the other. -/
def Ends.run (outcome : RoleName → ℕ → Bool) : List (RoleName × Sender.Call) → Ends → Ends
  | [], ends => ends
  | (role, c) :: rest, ends =>
      run outcome rest (Function.update ends role ((ends role).call (outcome role) c).1)

theorem Ends.run_counts {keys : RoleName → Bytes 32} (outcome : RoleName → ℕ → Bool)
    (calls : List (RoleName × Sender.Call)) {ends : Ends}
    (h : ∀ role, (ends role).Counts (keys role)) (role : RoleName) :
    (Ends.run outcome calls ends role).Counts (keys role) := by
  induction calls generalizing ends with
  | nil => exact h role
  | cons call rest ih =>
      obtain ⟨at_, c⟩ := call
      apply ih
      intro role
      by_cases hrole : role = at_
      · subst hrole
        rw [Function.update_self]
        exact (h role).call _ c
      · rw [Function.update_of_ne hrole]
        exact h role

/-- The sessions that the two roles of one handshake have returned, with the keys
that `derive_keys` makes of their shared secret. -/
structure OneHandshake (F : Type) [Field25519Ops F] (shared : Bytes 32) (sA sB : Session) :
    Prop where
  initiator : ∃ sk pk t, Exec (prims F) (handshakeAsInitiator F sk pk) t (.ret (some sA))
  responder : ∃ sk pk t, Exec (prims F) (handshakeAsResponder F sk pk) t (.ret (some sB))
  keysA : (sA.kSend, sA.kRecv) = deriveKeys shared
  keysB : (sB.kRecv, sB.kSend) = deriveKeys shared

theorem OneHandshake.sendCtr {F : Type} [Field25519Ops F] {shared : Bytes 32} {sA sB : Session}
    (h : OneHandshake F shared sA sB) : sA.sendCtr = 0 ∧ sB.sendCtr = 0 := by
  obtain ⟨skA, pkA, tA, hA⟩ := h.initiator
  obtain ⟨skB, pkB, tB, hB⟩ := h.responder
  constructor
  · obtain ⟨-, -, hnone⟩ | ⟨e, raw, resp, u, -, -, -, hret⟩ := initiator_cases hA
    · exact absurd rfl (hnone sA)
    · obtain ⟨-, rfl, -⟩ := hret sA rfl
      rfl
  · obtain ⟨-, -, hnone⟩ | ⟨raw, init, e, u, -, -, -, hret⟩ := responder_cases hB
    · exact absurd rfl (hnone sB)
    · obtain ⟨-, raw', finish, -, rfl, -⟩ := hret sB rfl
      rfl

/-- The sending keys of the two ends. -/
def sendKey (shared : Bytes 32) : RoleName → Bytes 32
  | .initiator => (deriveKeys shared).1
  | .responder => (deriveKeys shared).2

theorem OneHandshake.counts {F : Type} [Field25519Ops F] {shared : Bytes 32} {sA sB : Session}
    (h : OneHandshake F shared sA sB) (role : RoleName) :
    (Ends.start sA sB role).Counts (sendKey shared role) := by
  obtain ⟨hctrA, hctrB⟩ := h.sendCtr
  cases role with
  | initiator => exact ⟨congrArg Prod.fst h.keysA, hctrA, rfl⟩
  | responder => exact ⟨congrArg Prod.snd h.keysB, hctrB, rfl⟩

/-- No key and nonce are passed to `seal` twice, at either end or at both. -/
theorem nonces_unique {F : Type} [Field25519Ops F] {shared : Bytes 32} {sA sB : Session}
    (h : OneHandshake F shared sA sB) (hkeys : (deriveKeys shared).1 ≠ (deriveKeys shared).2)
    (outcome : RoleName → ℕ → Bool) (calls : List (RoleName × Sender.Call))
    (hlt : ∀ role, (Ends.run outcome calls (.start sA sB) role).sealed.length < 2 ^ 64) :
    ((Ends.run outcome calls (.start sA sB) .initiator).sealed ++
      (Ends.run outcome calls (.start sA sB) .responder).sealed).Nodup := by
  have hcounts := Ends.run_counts outcome calls h.counts
  refine List.nodup_append'.mpr
    ⟨(hcounts _).nodup (hlt _), (hcounts _).nodup (hlt _), ?_⟩
  intro args hmemA hmemB
  apply hkeys
  exact ((hcounts .initiator).fst_eq hmemA).symm.trans ((hcounts .responder).fst_eq hmemB)

/-- The handshake of two nodes with constant seeds. -/
theorem oneHandshake_constant : ∃ sA sB, OneHandshake Fp
    ((X25519.exchange Fp (constant 0) (X25519.derivePublic Fp (constant 1))).valueOr
      (Vector.replicate 32 0)) sA sB := by
  set X := Exchange.honest (constant 0) (constant 1) (constant 0) (constant 1)
    exchange_constant_isSome with hX
  obtain ⟨hsend, hrecv⟩ := session_keys X
  refine ⟨initiatorSession Fp X.ephA X.resp, responderSession Fp ⟨X.pkA⟩ X.ephB X.finish,
    ⟨_, _, _, X.initiator_run⟩, ⟨_, _, _, X.responder_run⟩, rfl, ?_⟩
  rw [← hsend, ← hrecv]
  rfl

theorem deriveKeys_constant_ne :
    (deriveKeys ((X25519.exchange Fp (constant 0) (X25519.derivePublic Fp (constant 1))).valueOr
      (Vector.replicate 32 0))).1 ≠
    (deriveKeys ((X25519.exchange Fp (constant 0) (X25519.derivePublic Fp (constant 1))).valueOr
      (Vector.replicate 32 0))).2 := by
  have hshared : (X25519.exchange Fp (constant 0) (X25519.derivePublic Fp (constant 1))).valueOr
      (Vector.replicate 32 0) =
        leVector 32 0x754371e03e535cf6bd4470672c0ce9d26e177e4a3e6f0e11d51cbfc1f42aadad := by
    decide +kernel
  rw [hshared]
  decide +kernel

/-- A message, a transfer whose second chunk fails, and another message. -/
def someCalls : List (RoleName × Sender.Call) :=
  [(.initiator, .sendMsg [1]), (.responder, .sendChunkedMsg 7 [1, 2, 3] 2),
    (.initiator, .sendMsg [2])]

theorem nonces_unique_someCalls : ∃ sA sB : Session,
    ((Ends.run (fun _ n => n == 0) someCalls (.start sA sB) .initiator).sealed ++
      (Ends.run (fun _ n => n == 0) someCalls (.start sA sB) .responder).sealed).Nodup := by
  obtain ⟨sA, sB, h⟩ := oneHandshake_constant
  refine ⟨sA, sB, nonces_unique h deriveKeys_constant_ne _ _ ?_⟩
  intro role
  cases role with
  | initiator => exact (by decide : 2 < 2 ^ 64)
  | responder => exact (by decide : 2 < 2 ^ 64)

end PeerToPeer.Node
