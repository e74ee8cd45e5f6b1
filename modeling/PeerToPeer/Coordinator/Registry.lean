import PeerToPeer.Coordinator.Coordinator

/-!
What the registry holds, and what GET_PEERS returns.

In every run the registry is the table of all registrations so far, so it holds
one entry for each key: the latest, at the place of the first. A reply lists the
entries that have not expired at the time that was read for it.
-/

namespace PeerToPeer.Coordinator

open Lib Crypto Protocol

/-- The registrations of a run, oldest first. -/
def registrations (t : List Event) : List TimedPeer :=
  t.filterMap fun
    | .registered _ peer => some peer
    | _ => none

@[simp] theorem registrations_concat (t : List Event) (ev : Event) :
    registrations (t ++ [ev]) = registrations t ++ registrations [ev] := by
  rw [registrations, List.filterMap_append]
  rfl

/-- The registry is the table of the registrations. -/
theorem Runs.peers_eq {st : State} {t : List Event} (h : Runs st t) :
    st.peers = table TimedPeer.key (registrations t) := by
  induction h with
  | start clock => rfl
  | step a _ hs ih =>
      rw [registrations_concat]
      obtain ⟨ip, rfl, hpeers, -⟩ | ⟨c, ip, port, pubkey, now, -, rfl, hpeers, -⟩ |
        ⟨c, ip, now, -, rfl, hpeers, -⟩ | ⟨c, ip, now, -, rfl, hpeers, -⟩ |
        ⟨c, ip, -, rfl, hpeers, -⟩ := step_cases hs
      · rw [hpeers, ih]
        exact congrArg _ (List.append_nil _).symm
      · rw [hpeers, ih, register]
        exact (table_concat _ _).symm
      all_goals
        rw [hpeers, ih]
        exact congrArg _ (List.append_nil _).symm

/-- A thread that is about to answer was asked, at the time it has read. -/
theorem Runs.asked {st : State} {t : List Event} (h : Runs st t) {c : ℕ} {ip : Bytes 4}
    {now : Time} (hget : st.connections[c]? = some ⟨ip, .answering now⟩) : .asked c now ∈ t := by
  induction h generalizing c ip now with
  | start clock => cases hget
  | @step st st' t ev a hrun hs ih =>
      rw [List.mem_append]
      -- a thread whose state has been set is answering only after it was asked
      have hset : ∀ {c' : ℕ} {ip' : Bytes 4} {th : Thread},
          (st.setThread c' ip' th)[c]? = some ⟨ip, .answering now⟩ →
            (c' = c ∧ th = .answering now) ∨ st.connections[c]? = some ⟨ip, .answering now⟩ := by
        intro c' ip' th h
        rw [State.setThread, List.getElem?_set] at h
        split at h
        · split at h
          · cases h
            exact .inl ⟨‹_›, rfl⟩
          · cases h
        · exact .inr h
      obtain ⟨ip', rfl, -, hconn⟩ | ⟨c', ip', port, pubkey, now', -, rfl, -, hconn⟩ |
        ⟨c', ip', now', -, rfl, -, hconn⟩ | ⟨c', ip', now', -, rfl, -, hconn⟩ |
        ⟨c', ip', -, rfl, -, hconn⟩ := step_cases hs
      all_goals rw [hconn] at hget
      · rw [List.getElem?_append] at hget
        split at hget
        · exact .inl (ih hget)
        · rw [List.getElem?_singleton] at hget
          split at hget <;> cases hget
      · exact .inl (ih hget)
      · rcases hset hget with ⟨rfl, heq⟩ | hold
        · cases heq
          exact .inr (List.mem_singleton.mpr rfl)
        · exact .inl (ih hold)
      · rcases hset hget with ⟨-, heq⟩ | hold
        · cases heq
        · exact .inl (ih hold)
      · rcases hset hget with ⟨-, heq⟩ | hold
        · cases heq
        · exact .inl (ih hold)

/-- Every reply was made from the registry as it stood then. -/
theorem Runs.replied {st : State} {t : List Event} (h : Runs st t) {before after : List Event}
    {c : ℕ} {now : Time} {frame : Frame} (ht : t = before ++ .replied c now frame :: after) :
    .asked c now ∈ before ∧
      frame = buildPeerList (snapshot (table TimedPeer.key (registrations before)) now) := by
  induction h generalizing after with
  | start clock => simp at ht
  | @step st st' t ev a hrun hs ih =>
      rcases List.eq_nil_or_concat' after with rfl | ⟨after, ev', rfl⟩
      · obtain ⟨rfl, hev⟩ := List.append_inj' ht rfl
        obtain rfl := List.singleton_inj.mp hev
        obtain ⟨ip, hev, -⟩ | ⟨c', ip, port, pubkey, now', -, hev, -⟩ |
          ⟨c', ip, now', -, hev, -⟩ | ⟨c', ip, now', hget, hev, -⟩ | ⟨c', ip, -, hev, -⟩ :=
          step_cases hs
        case inr.inr.inr.inl =>
          cases hev
          rw [← hrun.peers_eq]
          exact ⟨hrun.asked hget, rfl⟩
        all_goals cases hev
      · rw [← List.cons_append, ← List.append_assoc] at ht
        exact ih (List.append_inj' ht rfl).1

/-- The entries of a snapshot. -/
theorem mem_snapshot {peers : List TimedPeer} {now : Time} {pi : PeerInfo} :
    pi ∈ snapshot peers now ↔ ∃ p ∈ peers, p.pi = pi ∧ now - p.lastSeen ≤ peerTtl := by
  simp only [snapshot, List.mem_map, List.mem_filter, decide_eq_true_eq]
  exact ⟨fun ⟨p, ⟨hp, ht⟩, he⟩ => ⟨p, hp, he, ht⟩, fun ⟨p, hp, he, ht⟩ => ⟨p, ⟨hp, ht⟩, he⟩⟩

end PeerToPeer.Coordinator
