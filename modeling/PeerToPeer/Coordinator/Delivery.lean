import PeerToPeer.Coordinator.Registry
import PeerToPeer.Net.Tcp

/-!
How a peer list gets to a node.

An entry takes 38 bytes. The coordinator casts the number of entries to sixteen
bits and the length of the frame to 32, and sends whatever comes out; the node
takes frames of at most one mebibyte, which is 27594 entries. What it cannot read
it takes for an empty list.
-/

namespace PeerToPeer.Coordinator

open Lib Crypto Net Protocol

/-- `coordinator_get_peers` on the node, once it is connected: what it makes of
the stream that it gets. -/
def coordinatorGetPeers (incoming : List UInt8) : List PeerInfo :=
  match (recvFrame incoming).1 with
  | none => []
  | some listFrame => (parsePeerList listFrame).getD []

/-- A GET_PEERS over an intact connection: the request arrives, the thread of
connection `c` reads the clock and answers, and the node reads the answer. -/
def getPeersExchange (st : State) (c : ℕ) (now : Time) : Option (List PeerInfo) :=
  match step st (.receive c (recvFrame (frameBytes buildGetPeers)).1 now) with
  | none => none
  | some (st, _) =>
      match step st (.answer c) with
      | some (_, .replied _ _ frame) => some (coordinatorGetPeers (frameBytes frame))
      | _ => none

/-- The largest peer list that fits a frame. -/
def maxPeers : ℕ := 27594

/-- The exchange delivers what the node makes of the snapshot. -/
theorem getPeersExchange_eq {st : State} {c : ℕ} {ip : Bytes 4} {now : Time}
    (hconn : st.connections[c]? = some ⟨ip, .receiving⟩) (hclock : st.clock ≤ now) :
    getPeersExchange st c now =
      some (coordinatorGetPeers (frameBytes (buildPeerList (snapshot st.peers now)))) := by
  have hrequest : (recvFrame (frameBytes buildGetPeers)).1 = some buildGetPeers := by
    have hframe : recvFrame (frameBytes buildGetPeers ++ []) = (some buildGetPeers, []) :=
      recvFrame_frameBytes (by decide) []
    rw [List.append_nil] at hframe
    rw [hframe]
  have hasked : step st (.receive c (some buildGetPeers) now) =
      some ({ st with clock := now, connections := st.setThread c ip (.answering now) },
        .asked c now) := by
    simp only [step, hconn, if_neg (not_lt.mpr hclock)]
    rfl
  have hget : (st.setThread c ip (.answering now))[c]? = some ⟨ip, .answering now⟩ :=
    List.getElem?_set_self (List.getElem?_eq_some_iff.mp hconn).1
  rw [getPeersExchange, hrequest, hasked]
  simp only [step, hget]

/-- Lists within the limit arrive. -/
theorem coordinatorGetPeers_of_le {peers : List PeerInfo} (h : peers.length ≤ maxPeers) :
    coordinatorGetPeers (frameBytes (buildPeerList peers)) = peers := by
  unfold maxPeers at h
  have hframe : recvFrame (frameBytes (buildPeerList peers) ++ []) =
      (some (buildPeerList peers), []) := by
    apply recvFrame_frameBytes
    rw [length_buildPeerList, maxFrame]
    omega
  rw [List.append_nil] at hframe
  rw [coordinatorGetPeers, hframe]
  simp only
  rw [parsePeerList_buildPeerList (by omega), Option.getD_some]

/-- Longer ones do not: the frame is refused, or its length has wrapped and the
count field is too small for the list. -/
theorem coordinatorGetPeers_ne_of_lt {peers : List PeerInfo} (h : maxPeers < peers.length) :
    coordinatorGetPeers (frameBytes (buildPeerList peers)) ≠ peers := by
  unfold maxPeers at h
  have hne : peers ≠ [] := by
    rintro rfl
    simp at h
  have hlen := length_buildPeerList peers
  have hfield : beNat (beBytes 4 ((buildPeerList peers).length % 2 ^ 32)) =
      (buildPeerList peers).length % 2 ^ 32 := by
    rw [beNat_beBytes]
    omega
  rw [coordinatorGetPeers, recvFrame, frameBytes, recvAll_append (length_beBytes _ _)]
  simp only [hfield]
  split
  · exact hne.symm
  · rename_i f hframe
    split at hframe
    · cases hframe
    · rename_i hcap
      unfold maxFrame at hcap
      intro heq
      cases hparse : parsePeerList f with
      | none =>
          rw [hparse, Option.getD_none] at heq
          exact hne heq.symm
      | some list =>
          have hlist := length_of_parsePeerList hparse
          rw [hparse, Option.getD_some] at heq
          rw [heq] at hlist
          have hsmall : (buildPeerList peers).length < 2 ^ 32 := by omega
          rw [Nat.mod_eq_of_lt hsmall] at hcap
          omega

/-- A snapshot arrives exactly when it has at most 27594 entries. -/
theorem getPeersExchange_iff {st : State} {c : ℕ} {ip : Bytes 4} {now : Time}
    (hconn : st.connections[c]? = some ⟨ip, .receiving⟩) (hclock : st.clock ≤ now) :
    getPeersExchange st c now = some (snapshot st.peers now) ↔
      (snapshot st.peers now).length ≤ maxPeers := by
  rw [getPeersExchange_eq hconn hclock, Option.some.injEq]
  constructor
  · intro heq
    by_contra hlt
    exact coordinatorGetPeers_ne_of_lt (Nat.not_le.mp hlt) heq
  · exact coordinatorGetPeers_of_le

/-! ### A large registry -/

/-- A peer that has registered at time zero. -/
def peerAtZero (ip : Bytes 4) (k : Bytes 32) : TimedPeer := ⟨⟨ip, 7000, k⟩, 0⟩

/-- Any keys can register over one connection. -/
theorem runs_registered (ip : Bytes 4) (keys : List (Bytes 32)) :
    ∃ t, Runs ⟨0, table TimedPeer.key (keys.map (peerAtZero ip)), [⟨ip, .receiving⟩]⟩ t := by
  induction keys using List.reverseRecOn with
  | nil => exact ⟨_, .step (.accept ip) (.start 0) rfl⟩
  | append_singleton keys k ih =>
      obtain ⟨t, ht⟩ := ih
      have htype : getType (buildRegister 7000 k) = MsgType.registerNode.code := rfl
      have hstep : step ⟨0, table TimedPeer.key (keys.map (peerAtZero ip)), [⟨ip, .receiving⟩]⟩
          (.receive 0 (some (buildRegister 7000 k)) 0) =
          some (⟨0, upsert TimedPeer.key (table TimedPeer.key (keys.map (peerAtZero ip)))
            (peerAtZero ip k), [⟨ip, .receiving⟩]⟩, .registered 0 (peerAtZero ip k)) := by
        simp only [step, handleFrame, List.getElem?_cons_zero, lt_self_iff_false, if_false, htype,
          if_true, parseRegister_buildRegister, register, peerAtZero]
      rw [List.map_append, List.map_singleton, table_concat]
      exact ⟨_, .step _ ht hstep⟩

theorem getPeersExchange_iff_two :
    getPeersExchange ⟨0, [peerAtZero #v[127, 0, 0, 1] (Vector.replicate 32 1),
        peerAtZero #v[127, 0, 0, 2] (Vector.replicate 32 2)],
      [⟨#v[127, 0, 0, 1], .receiving⟩]⟩ 0 5 =
      some [⟨#v[127, 0, 0, 1], 7000, Vector.replicate 32 1⟩,
        ⟨#v[127, 0, 0, 2], 7000, Vector.replicate 32 2⟩] :=
  (getPeersExchange_iff rfl (by decide)).mpr (by decide)

/-- After 27595 registrations the node gets another list than the snapshot. -/
theorem getPeersExchange_crowd :
    ∃ st t, Runs st t ∧ st.connections[0]? = some ⟨#v[127, 0, 0, 1], .receiving⟩ ∧
      getPeersExchange st 0 st.clock ≠ some (snapshot st.peers st.clock) := by
  obtain ⟨t, ht⟩ := runs_registered #v[127, 0, 0, 1] ((List.range 27595).map (leVector 32))
  refine ⟨_, t, ht, rfl, ?_⟩
  rw [getPeersExchange_eq rfl le_rfl, ne_eq, Option.some.injEq]
  apply coordinatorGetPeers_ne_of_lt
  have hnodup : ((((List.range 27595).map (leVector 32)).map
      (peerAtZero #v[127, 0, 0, 1])).map TimedPeer.key).Nodup := by
    rw [List.map_map, List.map_map]
    apply List.Nodup.map_on _ List.nodup_range
    intro i hi j hj heq
    rw [List.mem_range] at hi hj
    exact leVector_inj (k := 32) (by omega) (by omega) heq
  -- all of them are fresh
  have hfresh : ∀ tp ∈ ((List.range 27595).map (leVector 32)).map (peerAtZero #v[127, 0, 0, 1]),
      decide ((0 : Time) - tp.lastSeen ≤ peerTtl) = true := by
    intro tp htp
    obtain ⟨k, -, rfl⟩ := List.mem_map.mp htp
    rfl
  rw [table_eq_self hnodup, snapshot, List.filter_eq_self.mpr hfresh, List.length_map,
    List.length_map, List.length_map, List.length_range]
  decide

end PeerToPeer.Coordinator
