import PeerToPeer.Coordinator.Delivery

/-!
Who is on a list.

The clock does not go back, so the entry of a key is never older than a registration of that
key. A key that was registered less than `PEER_TTL` before a request is on the list that
answers it, whatever has been registered in between.
-/

namespace PeerToPeer.Coordinator

open Lib Crypto Protocol

variable {st st' : State} {t : List Event} {ev : Event}

/-- A registration is dated by the clock, which only goes forward. -/
theorem step_clock {a : Action} (h : step st a = some (st', ev)) :
    st.clock ≤ st'.clock ∧ ∀ p ∈ registrations [ev], p.lastSeen = st'.clock := by
  cases a with
  | accept ip =>
      cases h
      exact ⟨le_rfl, by simp [registrations]⟩
  | receive c frame now =>
      simp only [step] at h
      split at h
      · split at h
        · cases h
        · rename_i hclock
          rw [Option.some.injEq] at h
          unfold handleFrame at h
          split at h
          · cases h
            exact ⟨le_rfl, by simp [registrations]⟩
          · split at h
            · split at h
              · cases h
                exact ⟨le_rfl, by simp [registrations]⟩
              · cases h
                exact ⟨not_lt.mp hclock, by simp [registrations]⟩
            · split at h
              · cases h
                exact ⟨not_lt.mp hclock, by simp [registrations]⟩
              · cases h
                exact ⟨le_rfl, by simp [registrations]⟩
      · cases h
  | answer c =>
      simp only [step] at h
      split at h
      · cases h
        exact ⟨le_rfl, by simp [registrations]⟩
      · cases h

/-- Registrations come in the order of their times. -/
theorem Runs.sorted (h : Runs st t) :
    (registrations t).Pairwise (fun p q => p.lastSeen ≤ q.lastSeen) ∧
      ∀ p ∈ registrations t, p.lastSeen ≤ st.clock := by
  induction h with
  | start clock => exact ⟨List.Pairwise.nil, by simp [registrations]⟩
  | @step st st' t ev a _ hs ih =>
      obtain ⟨hclock, hnow⟩ := step_clock hs
      obtain ⟨hsorted, hle⟩ := ih
      rw [registrations_concat]
      constructor
      · refine List.pairwise_append.mpr ⟨hsorted, ?_, ?_⟩
        · rw [List.pairwise_iff_forall_sublist]
          intro p q hpq
          rw [hnow p (hpq.subset (by simp)), hnow q (hpq.subset (by simp))]
        · intro p hp q hq
          rw [hnow q hq]
          exact (hle p hp).trans hclock
      · intro p hp
        rcases List.mem_append.mp hp with hp | hp
        · exact (hle p hp).trans hclock
        · exact (hnow p hp).le

theorem mem_registrations {c : ℕ} {p : TimedPeer} (h : .registered c p ∈ t) :
    p ∈ registrations t :=
  List.mem_filterMap.mpr ⟨_, h, rfl⟩

theorem exists_of_mem_registrations {p : TimedPeer} (h : p ∈ registrations t) :
    ∃ c, .registered c p ∈ t := by
  obtain ⟨ev, hev, hp⟩ := List.mem_filterMap.mp h
  cases ev with
  | registered c q =>
      cases hp
      exact ⟨c, hev⟩
  | _ => cases hp

/-- A key that was registered in time is listed, as it was last registered. -/
theorem Runs.listed (h : Runs st t) {before after : List Event} {c : ℕ} {now : Time}
    {frame : Frame} (ht : t = before ++ .replied c now frame :: after) {p : TimedPeer}
    (hp : p ∈ registrations before) (hfresh : now - p.lastSeen ≤ peerTtl) :
    ∃ entries, frame = buildPeerList entries ∧ entries.length ≤ st.peers.length ∧
      ∃ q ∈ registrations before, q.pi ∈ entries ∧ q.key = p.key := by
  obtain ⟨-, hframe⟩ := h.replied ht
  have hregistrations : registrations t =
      registrations before ++ registrations (.replied c now frame :: after) := by
    rw [ht, registrations, List.filterMap_append]
    rfl
  refine ⟨_, hframe, ?_, ?_⟩
  · rw [h.peers_eq, hregistrations, snapshot, List.length_map]
    exact (List.length_filter_le _ _).trans (length_table_le _ _)
  · have hsorted := (h.sorted).1
    rw [hregistrations] at hsorted
    obtain ⟨q, hlatest, hkey⟩ :
        ∃ q, IsLatest TimedPeer.key (registrations before) q ∧ p.key = q.key := exists_isLatest hp
    have hle : p.lastSeen ≤ q.lastSeen :=
      rel_of_isLatest (fun p => le_refl p.lastSeen) (List.pairwise_append.mp hsorted).1 hp
        hlatest hkey
    refine ⟨q, hlatest.mem, ?_, hkey.symm⟩
    exact mem_snapshot.mpr
      ⟨q, mem_table.mpr hlatest, rfl, (sub_le_sub_left hle now).trans hfresh⟩

end PeerToPeer.Coordinator
