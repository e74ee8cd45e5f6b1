import PeerToPeer.Control.Inbox
import PeerToPeer.Lib.Lanes
import PeerToPeer.Mesh.Direction

/-!
Nodes that are connected to each other, each with the clients of its control socket.

Every connection has a thread at either end, and every client has one. They share `peers_`
and `received_msgs_`, which are locked, and the outgoing direction of a connection, which is
locked for a whole message. A command takes its connections out of `peers_` first and sends
to one after the other then, so everything else may happen in between.

The nodes are honest and the network only loses: a connection may break at any byte. A node
that stops takes no more steps.
-/

namespace PeerToPeer.Mesh

open Lib Crypto Net Transfer Node Control

/-! ### Commands -/

/-- The sends that a command comes to, in order. -/
def sendings (node : Surroundings) (cmd : List UInt8) : List (PeerConn × Message) :=
  if cmd = ascii "LIST" then []
  else if let some args := argsOf (ascii "SEND ") cmd then
    (ctlSend node.sends node.peers args).sent.toList.map fun s => (s.1, ⟨false, s.2⟩)
  else if let some text := argsOf (ascii "BROADCAST ") cmd then
    node.peers.conns.map fun c => (c, ⟨false, text⟩)
  else if let some args := argsOf (ascii "SENDFILE ") cmd then
    (ctlSendFile node.files node.sends node.peers args).sent.toList.map fun s => (s.1, ⟨true, s.2⟩)
  else []

/-- The command ends the process: a file can be opened and not be read. -/
def crashes (node : Surroundings) (cmd : List UInt8) : Bool :=
  (argsOf (ascii "SENDFILE ") cmd).any (throws node)

/-! ### The state -/

/-- The thread of a `peer_conn`: before `add_peer`, in `recv_loop` as an entry of `peers_`
with this number, or after `remove_peer`. -/
inductive Stage where
  | waiting
  | running (id : ℕ)
  | gone
  deriving DecidableEq

/-- A direction between two nodes, with the number of the opposite one. The thread is the one
of the `peer_conn` of the target, which sends over the opposite direction. -/
structure Line (Nd : Type) where
  source : Nd
  target : Nd
  back : ℕ
  dir : Direction
  stage : Stage

/-- A client of the control socket of a node: the sends that its command still has to do, and
whether more commands are read. -/
structure Client (Nd : Type) where
  node : Nd
  pending : List (ℕ × Message)
  reading : Bool

/-- All directions and all clients, in the order in which they came up, and for each node
`peers_`, the direction over which an entry of `peers_` sends, and `received_msgs_`. -/
structure State (Nd : Type) where
  lines : List (Line Nd)
  clients : List (Client Nd)
  peers : Nd → Peers
  object : Nd → ℕ → ℕ
  msgs : Nd → ReceivedMsgs

/-- What can be seen of a step. -/
inductive Event (Nd : Type) where
  | quiet
  /-- A command of a client, what is written to it, and the sends that follow. -/
  | commanded (n : Nd) (client : ℕ) (cmd answer : List UInt8) (sends : List (ℕ × Message))
  /-- A client has sent a message over a line, or has tried to. -/
  | attempted (client line : ℕ) (transferId : UInt32) (m : Message)
  /-- A node has got messages over a line. -/
  | pushed (n : Nd) (line : ℕ) (msgs : List ReceivedMsg)

variable {Nd : Type} [DecidableEq Nd]

namespace State

def start : State Nd := ⟨[], [], fun _ => .empty, fun _ _ => 0, fun _ => .empty⟩

/-- Two nodes have completed a handshake. -/
def establish (st : State Nd) (a b : Nd) (sA sB : Session) : State Nd :=
  { st with lines := st.lines ++
      [⟨a, b, st.lines.length + 1, .start sA sB, .waiting⟩,
        ⟨b, a, st.lines.length, .start sB sA, .waiting⟩] }

/-- `add_peer`. -/
def add (st : State Nd) (i : ℕ) (l : Line Nd) (ip : Bytes 4) (listenPort : UInt16) : State Nd :=
  let ps := st.peers l.target
  { st with
    lines := st.lines.set i { l with stage := .running ps.nextId }
    peers := Function.update st.peers l.target (ps.addPeer l.dir.receiver.sess ip listenPort)
    object := Function.update st.object l.target
      (Function.update (st.object l.target) ps.nextId l.back) }

/-- `remove_peer`. -/
def remove (st : State Nd) (i : ℕ) (l : Line Nd) (id : ℕ) : State Nd :=
  { st with
    lines := st.lines.set i { l with stage := .gone }
    peers := Function.update st.peers l.target ((st.peers l.target).removePeer id) }

/-- A direction has gone on, and its thread has pushed some messages. -/
def move (st : State Nd) (i : ℕ) (l : Line Nd) (d : Direction) (pushed : List ReceivedMsg) :
    State Nd :=
  let pk := l.dir.receiver.sess.peerIdentityPk
  { st with
    lines := st.lines.set i { l with dir := d }
    msgs := Function.update st.msgs l.target
      (pushed.foldl (fun q m => q.push pk m.text) (st.msgs l.target)) }

/-- The sends of a command, over which lines. -/
def sends (st : State Nd) (n : Nd) (node : Surroundings) (cmd : List UInt8) :
    List (ℕ × Message) :=
  (sendings node cmd).map fun s => (st.object n s.1.id, s.2)

/-- A command of a client is read. -/
def command (st : State Nd) (c : ℕ) (n : Nd) (node : Surroundings) (cmd : List UInt8) :
    State Nd :=
  let handled := handle node (st.msgs n) cmd
  { st with
    clients := st.clients.set c ⟨n, st.sends n node cmd, handled.goesOn⟩
    msgs := Function.update st.msgs n handled.msgs }

end State

/-- The steps of the nodes, of their clients and of the network; `pk` are the identities. -/
inductive Step (pk : Nd → Bytes 32) : State Nd → Event Nd → State Nd → Prop
  | establish (st : State Nd) (a b : Nd) {sA sB : Session} (hkeys : Session.Mirrored sA sB)
      (hA : sA.peerIdentityPk = pk b) (hB : sB.peerIdentityPk = pk a) :
      Step pk st .quiet (st.establish a b sA sB)
  | add {st : State Nd} {i : ℕ} {l : Line Nd} (hi : st.lines[i]? = some l)
      (hstage : l.stage = .waiting) (ip : Bytes 4) (listenPort : UInt16) :
      Step pk st .quiet (st.add i l ip listenPort)
  /-- Bytes arrive, `recv_loop` goes on, or the connection is cut. -/
  | wire {st : State Nd} {i : ℕ} {l : Line Nd} (hi : st.lines[i]? = some l)
      {a : Direction.Action} (hwire : a.attempts = [])
      (hrunning : a = .turn → ∃ id, l.stage = .running id) {pushed : List ReceivedMsg}
      {d : Direction} (hs : l.dir.step a = some (pushed, d)) :
      Step pk st (.pushed l.target i pushed) (st.move i l d pushed)
  | remove {st : State Nd} {i : ℕ} {l : Line Nd} (hi : st.lines[i]? = some l) {id : ℕ}
      (hstage : l.stage = .running id) (hended : l.dir.receiver.ended = true) :
      Step pk st .quiet (st.remove i l id)
  /-- The control socket accepts a client. -/
  | client (st : State Nd) (n : Nd) :
      Step pk st .quiet { st with clients := st.clients ++ [⟨n, [], true⟩] }
  /-- A command is read. What is answered about its sends is left open, as `node.sends` is. -/
  | command {st : State Nd} {c : ℕ} {n : Nd} (hc : st.clients[c]? = some ⟨n, [], true⟩)
      {node : Surroundings} (hnode : node.peers = st.peers n) {cmd : List UInt8}
      (hgoes : crashes node cmd = false) :
      Step pk st
        (.commanded n c cmd (handle node (st.msgs n) cmd).written (st.sends n node cmd))
        (st.command c n node cmd)
  /-- A client sends the next message of its command. -/
  | send {st : State Nd} {c : ℕ} {n : Nd} {i : ℕ} {m : Message} {rest : List (ℕ × Message)}
      {reading : Bool} (hc : st.clients[c]? = some ⟨n, (i, m) :: rest, reading⟩) {l : Line Nd}
      (hi : st.lines[i]? = some l) {transferId : UInt32} {a : Direction.Action}
      (hsend : a.attempts = [(transferId, m)]) {d : Direction} (hs : l.dir.step a = some ([], d)) :
      Step pk st (.attempted c i transferId m)
        { st.move i l d [] with clients := st.clients.set c ⟨n, rest, reading⟩ }

/-- The states that can be reached, with what has been seen on the way. -/
inductive Runs (pk : Nd → Bytes 32) : State Nd → List (Event Nd) → Prop
  | start : Runs pk .start []
  | step {st st' : State Nd} {t : List (Event Nd)} {ev : Event Nd} (h : Runs pk st t)
      (hs : Step pk st ev st') : Runs pk st' (t ++ [ev])

/-! ### What has been seen -/

omit [DecidableEq Nd]

/-- The sends that commands have asked for, by client. -/
def orders (t : List (Event Nd)) : List (ℕ × (ℕ × Message)) :=
  t.flatMap fun
    | .commanded _ c _ _ sends => sends.map (c, ·)
    | _ => []

/-- The sends that have been tried, by client. -/
def done (t : List (Event Nd)) : List (ℕ × (ℕ × Message)) :=
  t.flatMap fun
    | .attempted c i _ m => [(c, (i, m))]
    | _ => []

/-- The sends that have been tried, by line. -/
def attempts (t : List (Event Nd)) : List (ℕ × (UInt32 × Message)) :=
  t.flatMap fun
    | .attempted _ i transferId m => [(i, (transferId, m))]
    | _ => []

/-- The messages that have been pushed, by line. -/
def pushes (t : List (Event Nd)) : List (ℕ × ReceivedMsg) :=
  t.flatMap fun
    | .pushed _ i msgs => msgs.map (i, ·)
    | _ => []

section Concat

variable (t : List (Event Nd)) (ev : Event Nd)

theorem orders_concat : orders (t ++ [ev]) = orders t ++ orders [ev] := List.flatMap_append

theorem done_concat : done (t ++ [ev]) = done t ++ done [ev] := List.flatMap_append

theorem attempts_concat : attempts (t ++ [ev]) = attempts t ++ attempts [ev] :=
  List.flatMap_append

theorem pushes_concat : pushes (t ++ [ev]) = pushes t ++ pushes [ev] := List.flatMap_append

end Concat

/-- The nodes between which each line runs. -/
def State.endpoints (st : State Nd) : List (Nd × Nd) := st.lines.map fun l => (l.source, l.target)

end PeerToPeer.Mesh
