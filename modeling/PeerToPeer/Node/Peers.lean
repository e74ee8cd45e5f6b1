import PeerToPeer.Session.Session

/-!
`peers_`: the live connections of a node.

A connection is known by its `peer_conn` object, here by a number that is given
out once. `add_peer` appends and `remove_peer` erases, so the connections that
stay keep their order but not their positions.
-/

namespace PeerToPeer.Node

open Crypto

/-- `peer_conn`, as far as the rest of the node looks at it. -/
structure PeerConn where
  id : ℕ
  sess : Session
  ip : Bytes 4
  listenPort : UInt16
  deriving DecidableEq

/-- The key that the handshake of a connection has authenticated. -/
def PeerConn.identity (c : PeerConn) : Bytes 32 := c.sess.peerIdentityPk

/-- `peers_`, and the next number to be given out. -/
structure Peers where
  conns : List PeerConn
  nextId : ℕ
  id_lt : ∀ c ∈ conns, c.id < nextId
  nodup : (conns.map (·.id)).Nodup

namespace Peers

def empty : Peers := ⟨[], 0, by simp, List.nodup_nil⟩

theorem conns_nodup (ps : Peers) : ps.conns.Nodup := ps.nodup.of_map _

/-- `add_peer`, of a new connection. -/
def addPeer (ps : Peers) (sess : Session) (ip : Bytes 4) (listenPort : UInt16) : Peers where
  conns := ps.conns ++ [⟨ps.nextId, sess, ip, listenPort⟩]
  nextId := ps.nextId + 1
  id_lt := by
    intro c hc
    rcases List.mem_append.mp hc with hc | hc
    · exact Nat.lt_succ_of_lt (ps.id_lt c hc)
    · rw [List.mem_singleton.mp hc]
      exact Nat.lt_succ_self _
  nodup := by
    rw [List.map_append, List.map_singleton]
    refine List.nodup_append'.mpr ⟨ps.nodup, List.nodup_singleton _, ?_⟩
    intro id hid hnew
    obtain ⟨c, hc, rfl⟩ := List.mem_map.mp hid
    exact Nat.ne_of_lt (ps.id_lt c hc) (List.mem_singleton.mp hnew)

/-- `remove_peer`. -/
def removePeer (ps : Peers) (id : ℕ) : Peers where
  conns := ps.conns.filter (·.id ≠ id)
  nextId := ps.nextId
  id_lt c hc := ps.id_lt c (List.mem_of_mem_filter hc)
  nodup := ps.nodup.sublist (List.filter_sublist.map _)

/-- The critical sections that change `peers_`. -/
inductive Op where
  | add (sess : Session) (ip : Bytes 4) (listenPort : UInt16)
  | remove (id : ℕ)
  deriving DecidableEq

def apply (ps : Peers) : Op → Peers
  | .add sess ip listenPort => ps.addPeer sess ip listenPort
  | .remove id => ps.removePeer id

/-- Any number of them. -/
def applyAll (ps : Peers) (ops : List Op) : Peers := ops.foldl apply ps

/-- What is left of `peers_` after some operations: the connections that were not
removed, in their order, and then new ones. -/
theorem applyAll_conns (ps : Peers) (ops : List Op) :
    ∃ added, (ps.applyAll ops).conns =
        ps.conns.filter (fun c => decide (.remove c.id ∉ ops)) ++ added ∧
      ∀ c ∈ added, ps.nextId ≤ c.id := by
  induction ops generalizing ps with
  | nil => exact ⟨[], by simp [applyAll], by simp⟩
  | cons op ops ih =>
      obtain ⟨added, hconns, hadded⟩ := ih (ps.apply op)
      rw [show ps.applyAll (op :: ops) = (ps.apply op).applyAll ops from rfl, hconns]
      cases op with
      | add sess ip listenPort =>
          refine ⟨[⟨ps.nextId, sess, ip, listenPort⟩].filter
            (fun c => decide (.remove c.id ∉ ops)) ++ added, ?_, ?_⟩
          · simp only [apply, addPeer, List.filter_append, List.append_assoc, List.mem_cons,
              reduceCtorEq, false_or]
          · intro c hc
            rcases List.mem_append.mp hc with hc | hc
            · rw [List.mem_singleton.mp (List.mem_of_mem_filter hc)]
            · exact Nat.le_of_succ_le (hadded c hc)
      | remove id =>
          refine ⟨added, ?_, hadded⟩
          simp only [apply, removePeer, List.filter_filter, List.mem_cons, Op.remove.injEq, not_or]
          congr 1
          apply List.filter_congr
          intro c _
          by_cases hid : c.id = id <;> simp [hid]

end Peers

end PeerToPeer.Node
