import PeerToPeer.Node.Dial

/-!
A daemon node: dials, incoming connections, and the refresh.

`run_daemon` dials all peers that it is told of at the start. Every tick of the
refresh fetches the list again and dials the entries to which there is no
connection yet. Incoming connections are accepted at any time. Each dial and each
accepted connection runs in a thread of its own, up to `add_peer`; only the refresh
looks at `peers_` before it starts one, and nobody looks at what the other threads
are about to add. The key of the entry that is dialled is not looked at again: whose
connection it becomes is up to the host that the dial reaches, which may have another
key by then.
-/

namespace PeerToPeer.Node

open Lib Crypto Protocol Handshake

/-- A daemon among honest peers. -/
structure Daemon where
  ipk : Bytes 32
  peers : Peers
  /-- What is left of the list of the start. -/
  initial : List PeerInfo
  /-- What is left of the list of the current tick. -/
  fresh : List PeerInfo
  /-- The threads in `connect_to` that have no TCP connection yet. -/
  dialing : List PeerInfo
  /-- The threads whose dial has reached a host, by the key of this host. -/
  reached : List (Bytes 32)
  /-- The threads that answer an incoming connection, by the peer that dials. -/
  accepting : List (Bytes 32)

namespace Daemon

/-- A daemon that has got the list of the start. -/
def start (ipk : Bytes 32) (initial : List PeerInfo) : Daemon :=
  ⟨ipk, .empty, initial, [], [], [], []⟩

/-- The check of the refresh: there is a connection to the key. -/
def already (st : Daemon) (pubkey : Bytes 32) : Bool :=
  st.peers.conns.any fun pc => pc.identity = pubkey

/-- The steps of a daemon. -/
inductive Action where
  /-- The loop over the list of the start goes on by one entry. -/
  | dialNext
  /-- The refresh has got a list. -/
  | tick (fresh : List PeerInfo)
  /-- The loop of the refresh goes on by one entry. -/
  | checkNext
  /-- `tcp_connect` of a dial is done. The host there has the key `k`, whatever the entry says. -/
  | connected (i : ℕ) (k : Bytes 32)
  /-- `tcp_connect` of a dial throws. -/
  | unreachable (i : ℕ)
  /-- A connection of the peer `k` is accepted. -/
  | accept (k : Bytes 32)
  /-- The handshake of a dial ends with `add_peer`, or fails. -/
  | dialled (i : ℕ) (result : Option NewPeer)
  /-- The handshake of an accepted connection ends with `add_peer`, or fails. -/
  | answered (i : ℕ) (result : Option NewPeer)
  /-- `recv_loop` has come to its end, and `remove_peer` follows. -/
  | disconnect (id : ℕ)

/-- Honest peers prove their own identity. -/
def Proves (k : Bytes 32) (result : Option NewPeer) : Prop :=
  ∀ new, result = some new → new.sess.peerIdentityPk = k

instance (k : Bytes 32) (result : Option NewPeer) : Decidable (Proves k result) :=
  match result with
  | none => .isTrue (fun _ h => nomatch h)
  | some new =>
      if h : new.sess.peerIdentityPk = k then .isTrue (fun _ heq => Option.some.inj heq ▸ h)
      else .isFalse (fun hp => h (hp new rfl))

def step (st : Daemon) : Action → Option Daemon
  | .dialNext =>
      match st.initial with
      | [] => none
      | pi :: rest =>
          if pi.pubkey = st.ipk then some { st with initial := rest }
          else some { st with initial := rest, dialing := st.dialing ++ [pi] }
  | .tick fresh =>
      if st.initial = [] ∧ st.fresh = [] then some { st with fresh := fresh } else none
  | .checkNext =>
      match st.fresh with
      | [] => none
      | pi :: rest =>
          if pi.pubkey = st.ipk ∨ st.already pi.pubkey = true then some { st with fresh := rest }
          else some { st with fresh := rest, dialing := st.dialing ++ [pi] }
  | .connected i k =>
      if i < st.dialing.length then
        some { st with dialing := st.dialing.eraseIdx i, reached := st.reached ++ [k] }
      else none
  | .unreachable i =>
      if i < st.dialing.length then some { st with dialing := st.dialing.eraseIdx i } else none
  | .accept k => some { st with accepting := st.accepting ++ [k] }
  | .dialled i result =>
      match st.reached[i]? with
      | none => none
      | some k =>
          if Proves k result then
            some { st with reached := st.reached.eraseIdx i, peers := st.peers.addResult result }
          else none
  | .answered i result =>
      match st.accepting[i]? with
      | none => none
      | some k =>
          if Proves k result then
            some { st with
              accepting := st.accepting.eraseIdx i, peers := st.peers.addResult result }
          else none
  | .disconnect id => some { st with peers := st.peers.removePeer id }

/-- The identities of the live connections. -/
def live (st : Daemon) : List (Bytes 32) := st.peers.conns.map (·.identity)

/-- The connections that a broadcast sends over: a copy of `peers_`. -/
def broadcast (st : Daemon) : List PeerConn := st.peers.conns

/-- The identities at the other ends of the handshakes under way. -/
def handshakes (st : Daemon) : List (Bytes 32) := st.reached ++ st.accepting

/-- The identity with which a step starts a handshake. -/
def Action.starts : Action → Option (Bytes 32)
  | .connected _ k => some k
  | .accept k => some k
  | _ => none

/-- A handshake with a peer is started only when there is no connection to it
and no other handshake with it under way. -/
def Exclusive (st : Daemon) (a : Action) : Prop :=
  ∀ k, a.starts = some k → k ∉ st.live ∧ k ∉ st.handshakes

/-- The steps of a daemon that meet a condition, one after the other. -/
inductive Steps (C : Daemon → Action → Prop) : Daemon → Daemon → Prop
  | refl (st : Daemon) : Steps C st st
  | tail {st st' st'' : Daemon} (a : Action) (h : Steps C st st') (hC : C st' a)
      (hs : step st' a = some st'') : Steps C st st''

/-- Every interleaving of the steps is allowed. -/
def unrestricted : Daemon → Action → Prop := fun _ _ => True

/-! ### What a step does -/

theorem live_addResult {st : Daemon} {k : Bytes 32} {result : Option NewPeer}
    (h : Proves k result) :
    (st.peers.addResult result).conns.map (·.identity) = st.live ∨
      (st.peers.addResult result).conns.map (·.identity) = st.live ++ [k] := by
  cases result with
  | none => exact .inl rfl
  | some new =>
      right
      simp only [Peers.addResult, Peers.addPeer, List.map_append, List.map_singleton, live]
      rw [PeerConn.identity, h new rfl]

/-- The handshake at a position, and the others. -/
theorem perm_cons_eraseIdx {α : Type} {l : List α} {i : ℕ} {a : α} (h : l[i]? = some a) :
    l.Perm (a :: l.eraseIdx i) := by
  obtain ⟨hi, rfl⟩ := List.getElem?_eq_some_iff.mp h
  exact (List.getElem_cons_eraseIdx_perm hi).symm

/-- A step starts a handshake, ends one with or without a connection, or does
neither and adds no connection. -/
theorem step_cases {st st' : Daemon} {a : Action} (h : step st a = some st') :
    (∃ k, a.starts = some k ∧ st'.live = st.live ∧
      st'.handshakes.Perm (k :: st.handshakes)) ∨
    a.starts = none ∧
      ((∃ k, st.handshakes.Perm (k :: st'.handshakes) ∧
        (st'.live = st.live ∨ st'.live = st.live ++ [k])) ∨
      (st'.handshakes = st.handshakes ∧ st'.live.Sublist st.live)) := by
  cases a with
  | dialNext =>
      -- the loops start dials, not handshakes
      simp only [step] at h
      split at h
      · cases h
      · split at h <;> cases h <;> exact .inr ⟨rfl, .inr ⟨rfl, .refl _⟩⟩
  | tick fresh =>
      simp only [step] at h
      split at h
      · cases h
        exact .inr ⟨rfl, .inr ⟨rfl, .refl _⟩⟩
      · cases h
  | checkNext =>
      simp only [step] at h
      split at h
      · cases h
      · split at h <;> cases h <;> exact .inr ⟨rfl, .inr ⟨rfl, .refl _⟩⟩
  | connected i k =>
      simp only [step] at h
      split at h
      · cases h
        refine .inl ⟨k, rfl, rfl, ?_⟩
        -- a new dial stands between the other dials and the accepted connections
        rw [handshakes, List.append_assoc, List.singleton_append]
        exact List.perm_middle
      · cases h
  | unreachable i =>
      simp only [step] at h
      split at h
      · cases h
        exact .inr ⟨rfl, .inr ⟨rfl, .refl _⟩⟩
      · cases h
  | accept k =>
      cases h
      refine .inl ⟨k, rfl, rfl, ?_⟩
      rw [handshakes, ← List.append_assoc]
      exact List.perm_append_singleton _ _
  | dialled i result =>
      simp only [step] at h
      split at h
      · cases h
      · rename_i k hget
        split at h
        · rename_i hproves
          cases h
          refine .inr ⟨rfl, .inl ⟨k, ?_, live_addResult hproves⟩⟩
          exact (perm_cons_eraseIdx hget).append_right st.accepting
        · cases h
  | answered i result =>
      simp only [step] at h
      split at h
      · cases h
      · rename_i k hget
        split at h
        · rename_i hproves
          cases h
          refine .inr ⟨rfl, .inl ⟨k, ?_, live_addResult hproves⟩⟩
          exact ((perm_cons_eraseIdx hget).append_left _).trans List.perm_middle
        · cases h
  | disconnect id =>
      cases h
      exact .inr ⟨rfl, .inr ⟨rfl, List.filter_sublist.map _⟩⟩

/-! ### Serialised handshakes -/

/-- Connections and handshakes, taken together, are to different peers. -/
def Separate (st : Daemon) : Prop := (st.live ++ st.handshakes).Nodup

theorem step_separate {st st' : Daemon} {a : Action} (h : step st a = some st')
    (hexcl : st.Exclusive a) (hst : st.Separate) : st'.Separate := by
  obtain ⟨k, hk, hlive, hshakes⟩ | ⟨-, ⟨k, hshakes, hlive⟩ | ⟨hshakes, hlive⟩⟩ := step_cases h
  · obtain ⟨hnew, hnew'⟩ := hexcl k hk
    have hperm : (st'.live ++ st'.handshakes).Perm (k :: (st.live ++ st.handshakes)) := by
      rw [hlive]
      exact (hshakes.append_left _).trans List.perm_middle
    rw [Separate, hperm.nodup_iff, List.nodup_cons, List.mem_append]
    exact ⟨not_or.mpr ⟨hnew, hnew'⟩, hst⟩
  · have hperm : (st.live ++ st.handshakes).Perm (st.live ++ k :: st'.handshakes) :=
      hshakes.append_left _
    have hnodup := hperm.nodup_iff.mp hst
    rcases hlive with hlive | hlive
    · rw [Separate, hlive]
      exact hnodup.sublist ((List.sublist_cons_self _ _).append_left _)
    · rw [Separate, hlive, List.append_assoc]
      exact hnodup
  · rw [Separate, hshakes]
    exact List.Nodup.sublist (hlive.append_right _) hst

theorem steps_separate {st st' : Daemon} (h : Steps Exclusive st st') (hst : st.Separate) :
    st'.Separate := by
  induction h with
  | refl => exact hst
  | tail a _ hC hs ih => exact step_separate hs hC ih

/-! ### Overlapping handshakes -/

/-- Every handshake can end with a connection. -/
theorem exists_completes {st : Daemon} {k : Bytes 32} (h : k ∈ st.handshakes) :
    ∃ a st', step st a = some st' ∧ st'.live = st.live ++ [k] ∧
      st.handshakes.Perm (k :: st'.handshakes) := by
  let new : NewPeer := ⟨⟨k, k, k, 0⟩, Vector.replicate 4 0, 0⟩
  have hproves : Proves k (some new) := by
    rintro _ ⟨⟩
    rfl
  have hlive : (st.peers.addResult (some new)).conns.map (·.identity) = st.live ++ [k] := by
    simp only [Peers.addResult, Peers.addPeer, List.map_append, List.map_singleton, live]
    rfl
  rcases List.mem_append.mp h with hdial | hacc
  · obtain ⟨i, hget⟩ := List.getElem?_of_mem hdial
    refine ⟨.dialled i (some new),
      { st with reached := st.reached.eraseIdx i, peers := st.peers.addResult (some new) },
      ?_, hlive, (perm_cons_eraseIdx hget).append_right st.accepting⟩
    simp only [step, hget, if_pos hproves]
  · obtain ⟨i, hget⟩ := List.getElem?_of_mem hacc
    refine ⟨.answered i (some new),
      { st with accepting := st.accepting.eraseIdx i, peers := st.peers.addResult (some new) },
      ?_, hlive, ((perm_cons_eraseIdx hget).append_left _).trans List.perm_middle⟩
    simp only [step, hget, if_pos hproves]

/-- Two handshakes with a peer, or a handshake and a connection, can end as two connections. -/
theorem exists_duplicate {st : Daemon} {k : Bytes 32} (hk : k ∈ st.handshakes)
    (htwice : k ∈ st.live ∨ 2 ≤ st.handshakes.count k) :
    ∃ st', Steps unrestricted st st' ∧ ¬st'.live.Nodup := by
  obtain ⟨a, st₁, hs₁, hlive₁, hshakes₁⟩ := exists_completes hk
  have h₁ : Steps unrestricted st st₁ := .tail a (.refl st) trivial hs₁
  rcases htwice with hlive | hcount
  · refine ⟨st₁, h₁, ?_⟩
    rw [hlive₁]
    exact fun hnodup => (List.nodup_append'.mp hnodup).2.2 hlive (List.mem_singleton_self k)
  · have hk₁ : k ∈ st₁.handshakes := by
      rw [hshakes₁.count_eq, List.count_cons_self] at hcount
      exact List.count_pos_iff.mp (by omega)
    obtain ⟨a', st₂, hs₂, hlive₂, -⟩ := exists_completes hk₁
    refine ⟨st₂, .tail a' h₁ trivial hs₂, ?_⟩
    rw [hlive₂, hlive₁]
    exact fun hnodup => (List.nodup_append'.mp hnodup).2.2
      (List.mem_append_right _ (List.mem_singleton_self k)) (List.mem_singleton_self k)

/-- As long as no handshake is started while another one with the same peer is under
way, or a connection to it is there, no peer has two connections and a broadcast
goes to each of them at most once. Any other start can end with two connections. -/
theorem one_connection (ipk : Bytes 32) (initial : List PeerInfo) :
    (∀ st, Steps Exclusive (start ipk initial) st →
      st.live.Nodup ∧ ∀ k, (st.broadcast.map (·.identity)).count k ≤ 1) ∧
    ∀ st a st', Steps unrestricted (start ipk initial) st → step st a = some st' →
      ¬st.Exclusive a → ∃ st'', Steps unrestricted st' st'' ∧ ¬st''.live.Nodup := by
  constructor
  · intro st h
    have hnodup : st.live.Nodup := (steps_separate h List.nodup_nil).of_append_left
    exact ⟨hnodup, List.nodup_iff_count_le_one.mp hnodup⟩
  · intro st a st' _ hs hexcl
    simp only [Exclusive, not_forall] at hexcl
    obtain ⟨k, hk, hengaged⟩ := hexcl
    rw [not_and_or, not_not, not_not] at hengaged
    obtain ⟨k', hk', hlive, hshakes⟩ | ⟨hnone, -⟩ := step_cases hs
    · obtain rfl : k = k' := Option.some.inj (hk.symm.trans hk')
      refine exists_duplicate (hshakes.mem_iff.mpr List.mem_cons_self) ?_
      rw [hlive, hshakes.count_eq, List.count_cons_self]
      rcases hengaged with hold | hold
      · exact .inl hold
      · exact .inr (Nat.succ_le_succ (List.count_pos_iff.mpr hold))
    · rw [hk] at hnone
      cases hnone

theorem steps_of_foldlM {st st' : Daemon} {actions : List Action}
    (h : actions.foldlM step st = some st') : Steps unrestricted st st' := by
  induction actions using List.reverseRecOn generalizing st' with
  | nil =>
      cases h
      exact .refl st
  | append_singleton rest a ih =>
      rw [List.foldlM_append] at h
      obtain ⟨mid, hmid, hlast⟩ := Option.bind_eq_some_iff.mp h
      exact .tail a (ih hmid) trivial (by simpa using hlast)

/-- A peer registers and dials. While its handshake is under way, the refresh gets
the list, does not find the peer in `peers_`, and dials as well. -/
def crossedDials (k : Bytes 32) : List Action :=
  let new : NewPeer := ⟨⟨k, k, k, 0⟩, (entryFor k).ip, (entryFor k).port⟩
  [.accept k, .tick [entryFor k], .checkNext, .connected 0 k, .answered 0 (some new),
    .dialled 0 (some new)]

theorem one_connection_crossed :
    ∃ st, Steps unrestricted (start (constant 0) []) st ∧ ¬st.live.Nodup ∧
      (st.broadcast.map (·.identity)).count (constant 1) = 2 := by
  have hrun : ((crossedDials (constant 1)).foldlM step (start (constant 0) [])).map live =
      some [constant 1, constant 1] := by
    decide
  obtain ⟨st, hst, hlive⟩ := Option.map_eq_some_iff.mp hrun
  refine ⟨st, steps_of_foldlM hst, ?_, ?_⟩
  · rw [hlive]
    simp
  · change st.live.count (constant 1) = 2
    rw [hlive]
    simp

/-- A peer has started anew, with another key at its old address, and the list still has the
old entry as well. Both entries are dialled, and both dials reach the new key. -/
def staleEntry (old k : Bytes 32) : List Action :=
  let new : NewPeer := ⟨⟨k, k, k, 0⟩, (entryFor k).ip, (entryFor k).port⟩
  [.tick [entryFor old, entryFor k], .checkNext, .checkNext, .connected 0 k, .dialled 0 (some new),
    .connected 0 k, .dialled 0 (some new)]

example : ((staleEntry (constant 1) (constant 2)).foldlM step (start (constant 0) [])).map live =
    some [constant 2, constant 2] := by
  decide

end Daemon

end PeerToPeer.Node
