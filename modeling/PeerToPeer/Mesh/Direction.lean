import PeerToPeer.Node.Arrivals
import PeerToPeer.Node.Messages

/-!
One direction of a connection, from the session of the sender to the thread of the receiver.

The sender writes whole messages, under the lock of the connection. A send that fails has
written a part of its message, and is the last one that writes anything. The bytes arrive in
order, in pieces of any size; the thread takes its turns in between, and the connection may
be cut at any time.
-/

namespace PeerToPeer.Mesh

open Lib Crypto Net Protocol Transfer Node

/-- The session of the sender with all that it has written, whether a send has failed, how
many bytes have arrived, and the thread of the receiver. -/
structure Direction where
  out : Outgoing
  broken : Bool
  arrived : ℕ
  receiver : Receiver

namespace Direction

/-- A direction of a connection that has been set up, with the sessions of its two ends. -/
def start (sender receiver : Session) : Direction := ⟨(sender, []), false, 0, .start receiver⟩

inductive Action where
  /-- A message is sent. -/
  | write (transferId : UInt32) (m : Message)
  /-- A send fails after some bytes, or has nowhere to write. -/
  | fail (transferId : UInt32) (m : Message) (bytes : ℕ)
  /-- Some more bytes arrive. -/
  | arrive (bytes : ℕ)
  /-- `recv_loop` goes on. -/
  | turn
  /-- `recv_loop` gets no more. -/
  | cut

/-- The bytes that a message adds to what has been written. -/
def bytesOf (d : Direction) (transferId : UInt32) (m : Message) : List UInt8 :=
  (m.send transferId d.out).1.2.drop d.out.2.length

/-- A step: what it pushes, and the direction then. -/
def step (d : Direction) : Action → Option (List ReceivedMsg × Direction)
  | .write transferId m =>
      if d.broken then none else some ([], { d with out := (m.send transferId d.out).1 })
  | .fail transferId m bytes =>
      let written := if d.broken then [] else (d.bytesOf transferId m).take bytes
      some ([], { d with out := (d.out.1, d.out.2 ++ written), broken := true })
  | .arrive bytes =>
      if d.arrived + bytes ≤ d.out.2.length then
        let come := (d.out.2.drop d.arrived).take bytes
        some ([], { d with arrived := d.arrived + bytes, receiver := d.receiver.receive come })
      else none
  | .turn =>
      if d.receiver.Ready then
        let (pushed, receiver) := d.receiver.turn
        some (pushed, { d with receiver := receiver })
      else none
  | .cut => some ([], { d with receiver := d.receiver.cut })

/-- The messages that a step tries to send. -/
def Action.attempts : Action → List (UInt32 × Message)
  | .write transferId m => [(transferId, m)]
  | .fail transferId m _ => [(transferId, m)]
  | .arrive _ => []
  | .turn => []
  | .cut => []

/-- What has happened on a direction: `sender` was its session, the messages `attempts` were
to be sent, and `pushed` has been delivered. -/
structure History (sender : Session) (attempts : List (UInt32 × Message))
    (pushed : List ReceivedMsg) (d : Direction) : Prop where
  keys : sender.kSend = d.receiver.sess.kRecv
  written : d.out.2 <+: (Message.sendAll (sender, []) attempts).2
  intact : d.broken = false → d.out = Message.sendAll (sender, []) attempts
  arrived_le : d.arrived ≤ d.out.2.length
  pushed_prefix : pushed <+: recvLoop d.receiver.sess (d.out.2.take d.arrived) .empty
  goesOn : d.receiver.ended = false → ∀ more,
    recvLoop d.receiver.sess (d.out.2.take d.arrived ++ more) .empty =
      pushed ++ d.receiver.rest more

/-! ### What a step keeps -/

/-- Sending only adds to what has been written. -/
theorem prefix_send (m : Message) (transferId : UInt32) (out : Outgoing) :
    out.2 <+: (m.send transferId out).1.2 := by
  have hsend : ∀ (o : Outgoing) (p : List UInt8), out.2 <+: o.2 → out.2 <+: (sendMsg o p).1.2 :=
    fun o p h => h.trans (List.prefix_append _ _)
  rw [m.send_eq]
  split
  · exact sendChunked_invariant hsend transferId m.data chunkPayloadSize (List.prefix_refl _)
  · exact hsend out m.data (List.prefix_refl _)

theorem append_bytesOf (d : Direction) (transferId : UInt32) (m : Message) :
    d.out.2 ++ d.bytesOf transferId m = (m.send transferId d.out).1.2 :=
  List.prefix_append_drop (prefix_send m transferId d.out) |>.symm

theorem start_history {sender receiver : Session} (h : sender.kSend = receiver.kRecv) :
    (start sender receiver).History sender [] [] where
  keys := h
  written := List.prefix_refl _
  intact _ := rfl
  arrived_le := le_refl _
  pushed_prefix := List.nil_prefix
  goesOn _ _ := rfl

section Step

variable {sender : Session} {attempts : List (UInt32 × Message)} {pushed : List ReceivedMsg}
  {d : Direction} (h : d.History sender attempts pushed)

include h

/-- More is written, and nothing arrives. -/
theorem History.write {out : Outgoing} {broken : Bool} {x : UInt32 × Message}
    (hgrown : d.out.2 <+: out.2) (hwritten : out.2 <+: (Message.sendAll (sender, []) (attempts ++
      [x])).2) (hintact : broken = false → out = Message.sendAll (sender, []) (attempts ++ [x])) :
    History sender (attempts ++ [x]) pushed { d with out := out, broken := broken } := by
  have htake : out.2.take d.arrived = d.out.2.take d.arrived := by
    obtain ⟨more, hmore⟩ := hgrown
    rw [← hmore, List.take_append_of_le_length h.arrived_le]
  exact
    { keys := h.keys
      written := hwritten
      intact := hintact
      arrived_le := h.arrived_le.trans hgrown.length_le
      pushed_prefix := by
        simp only [htake]
        exact h.pushed_prefix
      goesOn := by
        simp only [htake]
        exact h.goesOn }

omit h in
/-- A direction keeps its receiver's session, and what is pushed bears the prefix of its key. -/
theorem step_receiver {a : Action} {new : List ReceivedMsg} {d' : Direction}
    (hs : d.step a = some (new, d')) : d'.receiver.sess = d.receiver.sess ∧
      ∀ m ∈ new, m.pkHex = pkHex d.receiver.sess.peerIdentityPk := by
  cases a with
  | write transferId m =>
      simp only [Direction.step] at hs
      split at hs <;> cases hs
      exact ⟨rfl, List.forall_mem_nil _⟩
  | fail transferId m bytes =>
      cases hs
      exact ⟨rfl, List.forall_mem_nil _⟩
  | arrive bytes =>
      simp only [Direction.step] at hs
      split at hs <;> cases hs
      exact ⟨rfl, List.forall_mem_nil _⟩
  | turn =>
      simp only [Direction.step] at hs
      split at hs <;> cases hs
      exact ⟨d.receiver.turn_sess, d.receiver.pkHex_turn⟩
  | cut =>
      cases hs
      exact ⟨rfl, List.forall_mem_nil _⟩

/-- A step adds its attempts and its pushes. -/
theorem History.step {a : Action} {new : List ReceivedMsg} {d' : Direction}
    (hs : d.step a = some (new, d')) :
    d'.History sender (attempts ++ a.attempts) (pushed ++ new) := by
  cases a with
  | write transferId m =>
      simp only [Direction.step] at hs
      split at hs
      · cases hs
      · rename_i hbroken
        cases hs
        rw [List.append_nil]
        have hout := h.intact (Bool.not_eq_true _ ▸ hbroken)
        have hsent : (m.send transferId d.out).1 =
            Message.sendAll (sender, []) (attempts ++ [(transferId, m)]) := by
          rw [Message.sendAll_concat, ← hout]
        exact h.write (prefix_send m transferId d.out) (hsent ▸ List.prefix_refl _) fun _ => hsent
  | fail transferId m bytes =>
      cases hs
      rw [List.append_nil]
      refine h.write (List.prefix_append _ _) ?_ (fun hbroken => nomatch hbroken)
      rw [Message.sendAll_concat]
      split
      · rw [List.append_nil]
        exact h.written.trans (prefix_send _ _ _)
      · rename_i hbroken
        rw [← h.intact (Bool.not_eq_true _ ▸ hbroken)]
        simp only
        rw [← append_bytesOf]
        exact (List.prefix_append_right_inj _).mpr (List.take_prefix _ _)
  | arrive bytes =>
      simp only [Direction.step] at hs
      split at hs
      · rename_i hle
        cases hs
        rw [Action.attempts, List.append_nil, List.append_nil]
        have htake : d.out.2.take (d.arrived + bytes) =
            d.out.2.take d.arrived ++ (d.out.2.drop d.arrived).take bytes := List.take_add
        exact
          { keys := h.keys
            written := h.written
            intact := h.intact
            arrived_le := hle
            pushed_prefix := by
              simp only [htake]
              exact h.pushed_prefix.trans (prefix_recvLoop _ _ _ _)
            goesOn := by
              intro hended more
              simp only [htake, List.append_assoc]
              rw [Receiver.rest_receive]
              exact h.goesOn hended _ }
      · cases hs
  | turn =>
      simp only [Direction.step] at hs
      split at hs
      · rename_i hready
        cases hs
        rw [Action.attempts, List.append_nil]
        have hturn := fun more => h.goesOn hready.1 more
        simp only [Receiver.rest_turn hready, ← List.append_assoc] at hturn
        exact
          { keys := by
              rw [h.keys]
              simp
            written := h.written
            intact := h.intact
            arrived_le := h.arrived_le
            pushed_prefix := by
              have hnow := hturn []
              rw [List.append_nil] at hnow
              simp only [Receiver.turn_sess, hnow]
              exact List.prefix_append _ _
            goesOn := by
              intro _ more
              simp only [Receiver.turn_sess, hturn] }
      · cases hs
  | cut =>
      cases hs
      rw [Action.attempts, List.append_nil, List.append_nil]
      exact { h with goesOn := fun hended => nomatch hended }

end Step

/-! ### What is delivered -/

section Delivered

variable {sender : Session} {attempts : List (UInt32 × Message)} {pushed : List ReceivedMsg}
  {d : Direction} (h : d.History sender attempts pushed) (hclean : ∀ x ∈ attempts, x.2.Clean)

include h hclean

/-- What has been pushed is a prefix of what was to be sent. -/
theorem History.pushed_prefix_attempts :
    pushed <+: attempts.map fun x => ⟨pkHex d.receiver.sess.peerIdentityPk, x.2.data⟩ := by
  rw [← Message.recvLoop_sendAll hclean h.keys]
  have harrived : d.out.2.take d.arrived <+: (Message.sendAll (sender, []) attempts).2 :=
    (List.take_prefix _ _).trans h.written
  obtain ⟨more, hmore⟩ := harrived
  rw [← hmore]
  exact h.pushed_prefix.trans (prefix_recvLoop _ _ _ _)

/-- Everything has been delivered that was written. -/
structure Settled (d : Direction) : Prop where
  intact : d.broken = false
  arrived : d.arrived = d.out.2.length
  open_ : d.receiver.ended = false
  waits : ¬d.receiver.Ready

/-- All has been pushed that was to be sent. -/
theorem History.pushed_eq_attempts (hd : d.Settled) :
    pushed = attempts.map fun x => ⟨pkHex d.receiver.sess.peerIdentityPk, x.2.data⟩ := by
  have hall := h.goesOn hd.open_ []
  rw [hd.arrived, List.take_length, List.append_nil, Receiver.rest_nil hd.waits,
    List.append_nil, h.intact hd.intact, Message.recvLoop_sendAll hclean h.keys] at hall
  exact hall.symm

end Delivered

end Direction

end PeerToPeer.Mesh
