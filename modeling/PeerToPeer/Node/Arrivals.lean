import PeerToPeer.Node.Transparency

/-!
`recv_loop` while the bytes come in.

The thread of a connection takes a frame when it is there, and waits for the rest of one
that is not. What it has pushed, and what it is going to push, is together what `recv_loop`
makes of all bytes, in whatever pieces they come and whenever the thread gets its turn.
-/

namespace PeerToPeer.Node

open Lib Crypto Net Protocol Transfer

/-! ### The messages of a connection -/

/-- The session messages that `recv_loop` gets before it ends. -/
def received (sess : Session) (conn : List UInt8) : List (List UInt8) :=
  match _h : sess.recv conn with
  | (none, _) => []
  | (some msg, rest) => msg :: received sess rest
  termination_by conn.length
  decreasing_by exact recv_length_lt ‹_›

theorem received_of_none {sess : Session} {conn : List UInt8} (h : (sess.recv conn).1 = none) :
    received sess conn = [] := by
  rw [received]
  split
  · rfl
  · rename_i hsome
    rw [hsome] at h
    cases h

theorem received_of_some {sess : Session} {conn rest msg : List UInt8}
    (h : sess.recv conn = (some msg, rest)) : received sess conn = msg :: received sess rest := by
  rw [received]
  split
  · rename_i hnone
    rw [h] at hnone
    cases hnone
  · rename_i hsome
    rw [h] at hsome
    cases hsome
    rfl

/-- `recv_loop` delivers the messages that it gets. -/
theorem recvLoop_eq (sess : Session) (conn : List UInt8) (chunks : TransferRegistry) :
    recvLoop sess conn chunks =
      (deliverAll chunks (received sess conn)).1.map fun text =>
        ⟨pkHex sess.peerIdentityPk, text⟩ := by
  induction conn, chunks using recvLoop.induct sess with
  | case1 conn chunks rest h =>
      rw [recvLoop, received_of_none (by rw [h])]
      split
      · rfl
      · rename_i hsome
        rw [h] at hsome
        cases hsome
  | case2 conn chunks msg rest h text chunks' hdeliver ih =>
      rw [recvLoop, received_of_some h]
      split
      · rename_i hnone
        rw [h] at hnone
        cases hnone
      · rename_i hsome
        rw [h] at hsome
        cases hsome
        simp only [deliverAll, hdeliver, List.map_append, ih]

/-! ### Arrivals -/

theorem recv_append {sess : Session} {conn : List UInt8} (h : frameReady conn = true)
    (more : List UInt8) :
    sess.recv (conn ++ more) = ((sess.recv conn).1, (sess.recv conn).2 ++ more) := by
  rw [Session.recv, (recvFrame_append h more).2, Session.recv]
  rcases recvFrame conn with ⟨_ | raw, rest⟩ <;> rfl

/-- Without a whole frame there is no message. -/
theorem recv_of_not_ready {sess : Session} {conn : List UInt8} (h : frameReady conn = false) :
    (sess.recv conn).1 = none := by
  have hframe : (recvFrame conn).1 = none := by
    simp only [frameReady, Bool.and_eq_false_iff, Bool.or_eq_false_iff, decide_eq_false_iff_not,
      Nat.not_le] at h
    rw [recvFrame, recvAll]
    by_cases hfour : 4 ≤ conn.length
    · obtain ⟨hcap, hlen⟩ := h.resolve_left (Nat.not_lt.mpr hfour)
      rw [if_pos hfour]
      simp only [if_neg hcap]
      rw [recvAll, if_neg (by rw [List.length_drop]; omega)]
    · rw [if_neg hfour]
  rw [Session.recv]
  rcases hrecv : recvFrame conn with ⟨_ | raw, rest⟩
  · rfl
  · rw [hrecv] at hframe
    cases hframe

/-- A connection that is cut delivers what came before the cut. -/
theorem prefix_recvLoop (sess : Session) (conn more : List UInt8) (chunks : TransferRegistry) :
    recvLoop sess conn chunks <+: recvLoop sess (conn ++ more) chunks := by
  rw [recvLoop_eq, recvLoop_eq]
  refine List.IsPrefix.map _ ?_
  have hreceived : received sess conn <+: received sess (conn ++ more) := by
    induction conn using received.induct sess with
    | case1 conn rest h =>
        rw [received_of_none (by rw [h])]
        exact List.nil_prefix
    | case2 conn msg rest h ih =>
        have hready : frameReady conn = true := by
          by_contra hnot
          have hnone : (sess.recv conn).1 = none := recv_of_not_ready (Bool.not_eq_true _ ▸ hnot)
          rw [h] at hnone
          cases hnone
        have hmore : sess.recv (conn ++ more) = (some msg, rest ++ more) := by
          rw [recv_append hready, h]
        rw [received_of_some h, received_of_some hmore]
        exact (List.prefix_cons_inj msg).mpr ih
  obtain ⟨later, hlater⟩ := hreceived
  rw [← hlater, deliverAll_append]
  exact List.prefix_append _ _

/-- The thread of a connection: what has come and was not taken, the open transfers, and
whether `recv_loop` has ended. -/
structure Receiver where
  sess : Session
  buf : List UInt8
  chunks : TransferRegistry
  ended : Bool

namespace Receiver

/-- The thread of a connection that has been set up. -/
def start (sess : Session) : Receiver := ⟨sess, [], .empty, false⟩

/-- More bytes come. -/
def receive (r : Receiver) (bytes : List UInt8) : Receiver := { r with buf := r.buf ++ bytes }

/-- The connection fails, or is closed at the other end. -/
def cut (r : Receiver) : Receiver := { r with ended := true }

/-- One turn of `recv_loop`, which has a frame: what is pushed, and the thread then. -/
def turn (r : Receiver) : List ReceivedMsg × Receiver :=
  match r.sess.recv r.buf with
  | (none, rest) => ([], { r with buf := rest, ended := true })
  | (some msg, rest) =>
      let (text, chunks) := deliver r.chunks msg
      (text.toList.map fun text => ⟨pkHex r.sess.peerIdentityPk, text⟩,
        { r with buf := rest, chunks := chunks })

/-- The loop goes on, and `recv` need not wait. -/
def Ready (r : Receiver) : Prop := r.ended = false ∧ frameReady r.buf = true

instance (r : Receiver) : Decidable r.Ready := inferInstanceAs (Decidable (_ ∧ _))

/-- What the thread is going to push when some more bytes come. -/
def rest (r : Receiver) (more : List UInt8) : List ReceivedMsg :=
  if r.ended = true then [] else recvLoop r.sess (r.buf ++ more) r.chunks

@[simp] theorem receive_sess (r : Receiver) (bytes : List UInt8) :
    (r.receive bytes).sess = r.sess := rfl

@[simp] theorem receive_ended (r : Receiver) (bytes : List UInt8) :
    (r.receive bytes).ended = r.ended := rfl

@[simp] theorem cut_sess (r : Receiver) : r.cut.sess = r.sess := rfl

@[simp] theorem cut_ended (r : Receiver) : r.cut.ended = true := rfl

@[simp] theorem turn_sess (r : Receiver) : r.turn.2.sess = r.sess := by
  rw [turn]
  split <;> rfl

/-- What a turn pushes bears the prefix of the key of the session. -/
theorem pkHex_turn (r : Receiver) : ∀ m ∈ r.turn.1, m.pkHex = pkHex r.sess.peerIdentityPk := by
  intro m hm
  rw [turn] at hm
  split at hm
  · cases hm
  · obtain ⟨text, -, rfl⟩ := List.mem_map.mp hm
    rfl

/-- A turn takes the first frame, and delivers its message. -/
theorem turn_of_frame {r : Receiver} (hended : r.ended = false) {f : Frame}
    (hlen : f.length ≤ maxFrame) {rest : List UInt8} (hbuf : r.buf = frameBytes f ++ rest)
    {msg : List UInt8} (hopen : r.sess.openFrame f = some msg) :
    r.Ready ∧ r.turn =
      ((deliver r.chunks msg).1.toList.map fun text => ⟨pkHex r.sess.peerIdentityPk, text⟩,
        { r with buf := rest, chunks := (deliver r.chunks msg).2 }) := by
  have hrecv : r.sess.recv r.buf = (some msg, rest) := by
    rw [Session.recv, hbuf, recvFrame_frameBytes hlen]
    simp only [hopen]
  refine ⟨⟨hended, ?_⟩, ?_⟩
  · rw [hbuf]
    exact frameReady_frameBytes hlen rest
  · rw [turn, hrecv]

theorem rest_receive (r : Receiver) (bytes more : List UInt8) :
    (r.receive bytes).rest more = r.rest (bytes ++ more) := by
  rw [Receiver.rest, Receiver.rest, receive, List.append_assoc]

/-- A turn pushes the first part of it. -/
theorem rest_turn {r : Receiver} (h : r.Ready) (more : List UInt8) :
    r.rest more = r.turn.1 ++ r.turn.2.rest more := by
  rw [Receiver.rest, if_neg (by simp [h.1]), recvLoop_eq, turn]
  rcases hrecv : r.sess.recv r.buf with ⟨_ | msg, rest⟩
  · rw [received_of_none (by rw [recv_append h.2, hrecv])]
    rfl
  · rw [received_of_some (by rw [recv_append h.2, hrecv]), deliverAll, Receiver.rest,
      if_neg (by simp [h.1]), recvLoop_eq]
    simp only [List.map_append]

/-- A thread that waits pushes nothing by itself. -/
theorem rest_nil {r : Receiver} (h : ¬r.Ready) : r.rest [] = [] := by
  rw [Receiver.rest]
  split
  · rfl
  · rename_i hended
    have hwaits : frameReady r.buf = false := by
      by_contra hready
      exact h ⟨by simpa using hended, by simpa using hready⟩
    rw [recvLoop_eq, List.append_nil, received_of_none (recv_of_not_ready hwaits)]
    rfl

end Receiver

end PeerToPeer.Node
