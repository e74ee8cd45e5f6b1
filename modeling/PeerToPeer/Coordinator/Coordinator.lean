import PeerToPeer.Lib.Table
import PeerToPeer.Protocol.Wire

/-!
`coordinator`: the registry of peers and the threads that serve it.

Each connection has a thread of its own. A REGISTER takes its time under the
lock, together with the update; a GET_PEERS takes its time first and the lock
later, so that a peer can have registered after the time it is compared with.
Entries are updated in place and never erased: one that has expired comes back
to life with the next registration of its key.
-/

namespace PeerToPeer.Coordinator

open Lib Crypto Protocol

/-- A reading of the steady clock, in nanoseconds. -/
abbrev Time := ℤ

/-- `PEER_TTL`: thirty seconds. -/
def peerTtl : Time := 30 * 10 ^ 9

/-- `timed_peer`. -/
structure TimedPeer where
  pi : PeerInfo
  lastSeen : Time
  deriving DecidableEq

/-- The key of an entry. -/
abbrev TimedPeer.key (tp : TimedPeer) : Bytes 32 := tp.pi.pubkey

/-- The critical section of REGISTER: the entry with the same public key is
found and assigned to, or a new one is pushed back. -/
def register (peers : List TimedPeer) (pi : PeerInfo) (now : Time) : List TimedPeer :=
  upsert TimedPeer.key peers ⟨pi, now⟩

/-- The critical section of GET_PEERS. -/
def snapshot (peers : List TimedPeer) (now : Time) : List PeerInfo :=
  (peers.filter fun tp => decide (now - tp.lastSeen ≤ peerTtl)).map (·.pi)

/-! ### The threads -/

/-- What the thread of a connection does next. -/
inductive Thread where
  /-- `recv_frame`. -/
  | receiving
  /-- Take the lock for a GET_PEERS, for which the clock showed `now`. -/
  | answering (now : Time)
  | closed
  deriving DecidableEq

/-- A connection, with the address that it comes from. -/
structure Connection where
  ip : Bytes 4
  thread : Thread
  deriving DecidableEq

/-- The coordinator, with the last reading of the clock. -/
structure State where
  clock : Time
  peers : List TimedPeer
  connections : List Connection
  deriving DecidableEq

/-- What can happen next: a connection is accepted, a thread receives a frame or
the end of its stream, or a thread answers. -/
inductive Action where
  | accept (ip : Bytes 4)
  | receive (c : ℕ) (frame : Option Frame) (now : Time)
  | answer (c : ℕ)

/-- What has happened. An `ok` has been sent for each registration. -/
inductive Event where
  | accepted (ip : Bytes 4)
  | registered (c : ℕ) (peer : TimedPeer)
  | asked (c : ℕ) (now : Time)
  | replied (c : ℕ) (now : Time) (frame : Frame)
  | closed (c : ℕ)
  deriving DecidableEq

/-- The connections after the thread of one has gone on. -/
def State.setThread (st : State) (c : ℕ) (ip : Bytes 4) (thread : Thread) : List Connection :=
  st.connections.set c ⟨ip, thread⟩

/-- One turn of the loop of a connection, up to the lock of a GET_PEERS. -/
def handleFrame (st : State) (c : ℕ) (ip : Bytes 4) (frame : Option Frame) (now : Time) :
    State × Event :=
  let close := ({ st with connections := st.setThread c ip .closed }, Event.closed c)
  match frame with
  | none => close
  | some f =>
      if getType f = MsgType.registerNode.code then
        match parseRegister f with
        | none => close
        | some r =>
            let pi : PeerInfo := ⟨ip, r.port, r.pubkey⟩
            ({ st with clock := now, peers := register st.peers pi now }, .registered c ⟨pi, now⟩)
      else if getType f = MsgType.getPeers.code then
        ({ st with clock := now, connections := st.setThread c ip (.answering now) },
          .asked c now)
      else close

/-- One step; there is none for a thread that does something else, and the clock
does not go back. -/
def step (st : State) : Action → Option (State × Event)
  | .accept ip =>
      some ({ st with connections := st.connections ++ [⟨ip, .receiving⟩] }, .accepted ip)
  | .receive c frame now =>
      match st.connections[c]? with
      | some ⟨ip, .receiving⟩ =>
          if now < st.clock then none else some (handleFrame st c ip frame now)
      | _ => none
  | .answer c =>
      match st.connections[c]? with
      | some ⟨ip, .answering now⟩ =>
          some ({ st with connections := st.setThread c ip .receiving },
            .replied c now (buildPeerList (snapshot st.peers now)))
      | _ => none

/-- The states that can be reached, with what has happened on the way. -/
inductive Runs : State → List Event → Prop
  | start (clock : Time) : Runs ⟨clock, [], []⟩ []
  | step {st st' : State} {t : List Event} {ev : Event} (a : Action) (h : Runs st t)
      (hs : Coordinator.step st a = some (st', ev)) : Runs st' (t ++ [ev])

/-! ### What a step does -/

/-- All steps, by what they do to the registry and to the threads. -/
theorem step_cases {st st' : State} {a : Action} {ev : Event} (h : step st a = some (st', ev)) :
    (∃ ip, ev = .accepted ip ∧ st'.peers = st.peers ∧
      st'.connections = st.connections ++ [⟨ip, .receiving⟩]) ∨
    (∃ c ip port pubkey now, st.connections[c]? = some ⟨ip, .receiving⟩ ∧
      ev = .registered c ⟨⟨ip, port, pubkey⟩, now⟩ ∧
      st'.peers = register st.peers ⟨ip, port, pubkey⟩ now ∧ st'.connections = st.connections) ∨
    (∃ c ip now, st.connections[c]? = some ⟨ip, .receiving⟩ ∧ ev = .asked c now ∧
      st'.peers = st.peers ∧ st'.connections = st.setThread c ip (.answering now)) ∨
    (∃ c ip now, st.connections[c]? = some ⟨ip, .answering now⟩ ∧
      ev = .replied c now (buildPeerList (snapshot st.peers now)) ∧
      st'.peers = st.peers ∧ st'.connections = st.setThread c ip .receiving) ∨
    ∃ c ip, st.connections[c]? = some ⟨ip, .receiving⟩ ∧ ev = .closed c ∧
      st'.peers = st.peers ∧ st'.connections = st.setThread c ip .closed := by
  cases a with
  | accept ip =>
      cases h
      exact .inl ⟨ip, rfl, rfl, rfl⟩
  | receive c frame now =>
      simp only [step] at h
      split at h
      · rename_i ip hconn
        split at h
        · cases h
        · rw [Option.some.injEq] at h
          -- what the thread makes of the frame
          unfold handleFrame at h
          split at h
          · cases h
            exact .inr (.inr (.inr (.inr ⟨c, ip, hconn, rfl, rfl, rfl⟩)))
          · split at h
            · split at h
              · cases h
                exact .inr (.inr (.inr (.inr ⟨c, ip, hconn, rfl, rfl, rfl⟩)))
              · cases h
                exact .inr (.inl ⟨c, ip, _, _, now, hconn, rfl, rfl, rfl⟩)
            · split at h
              · cases h
                exact .inr (.inr (.inl ⟨c, ip, now, hconn, rfl, rfl, rfl⟩))
              · cases h
                exact .inr (.inr (.inr (.inr ⟨c, ip, hconn, rfl, rfl, rfl⟩)))
      · cases h
  | answer c =>
      simp only [step] at h
      split at h
      · rename_i ip now hconn
        cases h
        exact .inr (.inr (.inr (.inl ⟨c, ip, now, hconn, rfl, rfl, rfl⟩)))
      · cases h

end PeerToPeer.Coordinator
