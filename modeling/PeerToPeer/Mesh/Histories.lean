import PeerToPeer.Mesh.Mesh

/-!
What the lines and the clients of a mesh have done.

A step says something about one line or one client, and leaves the others as they are. So
the history of a line is that of its direction, and the sends of a client are those that its
commands have asked for, in order, up to the ones that are pending.
-/

namespace PeerToPeer.Mesh

open Lib Crypto Net Transfer Node Control

variable {Nd : Type} [DecidableEq Nd] {pk : Nd → Bytes 32} {st st' : State Nd}
  {t : List (Event Nd)} {ev : Event Nd}

/-! ### Lines -/

omit [DecidableEq Nd] in
/-- A line that is changed stays between its nodes. -/
theorem endpoints_set {i : ℕ} {l l' : Line Nd} (hi : st.lines[i]? = some l)
    (hlines : st'.lines = st.lines.set i l') (hsource : l'.source = l.source)
    (htarget : l'.target = l.target) : st'.endpoints = st.endpoints := by
  rw [State.endpoints, State.endpoints, hlines]
  apply List.ext_getElem?
  intro j
  rw [List.getElem?_map, List.getElem?_map, List.getElem?_set]
  split
  · rename_i hij
    subst hij
    rw [if_pos (List.getElem?_eq_some_iff.mp hi).1, hi, Option.map_some, Option.map_some,
      hsource, htarget]
  · rfl

/-- Lines stay where they are, between the same nodes. -/
theorem Step.endpoints_prefix (hs : Step pk st ev st') : st.endpoints <+: st'.endpoints := by
  cases hs with
  | establish a b hkeys hA hB =>
      rw [State.endpoints, State.endpoints, State.establish, List.map_append]
      exact List.prefix_append _ _
  | add hi =>
      exact ⟨[], (List.append_nil _).trans (endpoints_set hi rfl (by rfl) (by rfl)).symm⟩
  | wire hi =>
      exact ⟨[], (List.append_nil _).trans (endpoints_set hi rfl (by rfl) (by rfl)).symm⟩
  | remove hi =>
      exact ⟨[], (List.append_nil _).trans (endpoints_set hi rfl (by rfl) (by rfl)).symm⟩
  | client =>
      exact List.prefix_refl _
  | command =>
      exact List.prefix_refl _
  | send hc hi =>
      exact ⟨[], (List.append_nil _).trans (endpoints_set hi rfl (by rfl) (by rfl)).symm⟩

theorem Step.endpoints_get (hs : Step pk st ev st') {i : ℕ} {p : Nd × Nd}
    (h : st.endpoints[i]? = some p) : st'.endpoints[i]? = some p := by
  obtain ⟨more, hmore⟩ := hs.endpoints_prefix
  rw [← hmore, List.getElem?_append_left (List.getElem?_eq_some_iff.mp h).1, h]

omit [DecidableEq Nd] in
theorem endpoints_of_line {i : ℕ} {l : Line Nd} (hi : st.lines[i]? = some l) :
    st.endpoints[i]? = some (l.source, l.target) := by
  rw [State.endpoints, List.getElem?_map, hi, Option.map_some]

omit [DecidableEq Nd] in
theorem length_endpoints : st.endpoints.length = st.lines.length := List.length_map _

theorem Step.length_le (hs : Step pk st ev st') : st.lines.length ≤ st'.lines.length := by
  rw [← length_endpoints, ← length_endpoints]
  exact hs.endpoints_prefix.length_le

/-- A line after a step is new, or has made a step of its direction, or is as before. -/
theorem Step.line_cases (hs : Step pk st ev st') {i : ℕ} {l' : Line Nd}
    (hi : st'.lines[i]? = some l') :
    (st.lines.length ≤ i ∧ ev = .quiet ∧
      st'.endpoints[l'.back]? = some (l'.target, l'.source) ∧ ∃ sender receiver : Session,
        l'.dir = .start sender receiver ∧ sender.kSend = receiver.kRecv ∧
          receiver.peerIdentityPk = pk l'.source) ∨
    ∃ l, st.lines[i]? = some l ∧ l'.source = l.source ∧ l'.target = l.target ∧
      l'.back = l.back ∧
      ((l'.dir = l.dir ∧ lane i (attempts [ev]) = [] ∧ lane i (pushes [ev]) = []) ∨
        ∃ a pushed, l.dir.step a = some (pushed, l'.dir) ∧
          lane i (attempts [ev]) = a.attempts ∧ lane i (pushes [ev]) = pushed) := by
  cases hs with
  | @establish a b sA sB hkeys hA hB =>
      rw [State.establish, List.getElem?_append] at hi
      split at hi
      · exact .inr ⟨l', hi, rfl, rfl, rfl, .inl ⟨rfl, rfl, rfl⟩⟩
      · rename_i hnew
        refine .inl ⟨Nat.not_lt.mp hnew, rfl, ?_⟩
        have hlast : (st.establish a b sA sB).endpoints = st.endpoints ++ [(a, b), (b, a)] := by
          rw [State.endpoints, State.endpoints, State.establish, List.map_append]
          rfl
        have hlen : st.endpoints.length = st.lines.length := length_endpoints
        rw [hlast]
        generalize hj : i - st.lines.length = j at hi
        match j with
        | 0 =>
            cases hi
            refine ⟨?_, _, _, rfl, hkeys.send, hB⟩
            change (st.endpoints ++ [(a, b), (b, a)])[st.lines.length + 1]? = some (b, a)
            rw [List.getElem?_append_right (by omega), hlen, Nat.add_sub_cancel_left]
            rfl
        | 1 =>
            cases hi
            refine ⟨?_, _, _, rfl, hkeys.recv.symm, hA⟩
            change (st.endpoints ++ [(a, b), (b, a)])[st.lines.length]? = some (a, b)
            rw [List.getElem?_append_right (by omega), hlen, Nat.sub_self]
            rfl
        | j + 2 =>
            cases hi
  | @add j l hj hstage ip listenPort =>
      rw [State.add, List.getElem?_set] at hi
      split at hi
      · rename_i hij
        subst hij
        rw [if_pos (List.getElem?_eq_some_iff.mp hj).1] at hi
        cases hi
        exact .inr ⟨l, hj, rfl, rfl, rfl, .inl ⟨rfl, rfl, rfl⟩⟩
      · exact .inr ⟨l', hi, rfl, rfl, rfl, .inl ⟨rfl, rfl, rfl⟩⟩
  | @wire j l hj a hwire hrunning pushed d hstep =>
      rw [State.move, List.getElem?_set] at hi
      have hpushes : pushes [Event.pushed l.target j pushed] = pushed.map (j, ·) :=
        List.flatMap_singleton _ _
      split at hi
      · rename_i hij
        subst hij
        rw [if_pos (List.getElem?_eq_some_iff.mp hj).1] at hi
        cases hi
        refine .inr ⟨l, hj, rfl, rfl, rfl, .inr ⟨a, pushed, hstep, hwire.symm, ?_⟩⟩
        rw [hpushes, lane_map_self]
      · rename_i hij
        refine .inr ⟨l', hi, rfl, rfl, rfl, .inl ⟨rfl, rfl, ?_⟩⟩
        rw [hpushes, lane_map_of_ne hij]
  | @remove j l hj id hstage hended =>
      rw [State.remove, List.getElem?_set] at hi
      split at hi
      · rename_i hij
        subst hij
        rw [if_pos (List.getElem?_eq_some_iff.mp hj).1] at hi
        cases hi
        exact .inr ⟨l, hj, rfl, rfl, rfl, .inl ⟨rfl, rfl, rfl⟩⟩
      · exact .inr ⟨l', hi, rfl, rfl, rfl, .inl ⟨rfl, rfl, rfl⟩⟩
  | client n =>
      exact .inr ⟨l', hi, rfl, rfl, rfl, .inl ⟨rfl, rfl, rfl⟩⟩
  | command hc hnode hgoes =>
      exact .inr ⟨l', hi, rfl, rfl, rfl, .inl ⟨rfl, rfl, rfl⟩⟩
  | @send c n j m rest reading hc l hj transferId a hsend d hstep =>
      rw [State.move, List.getElem?_set] at hi
      have hattempts : attempts [(Event.attempted c j transferId m : Event Nd)] =
          [(transferId, m)].map (j, ·) := rfl
      split at hi
      · rename_i hij
        subst hij
        rw [if_pos (List.getElem?_eq_some_iff.mp hj).1] at hi
        cases hi
        refine .inr ⟨l, hj, rfl, rfl, rfl, .inr ⟨a, [], hstep, ?_, rfl⟩⟩
        rw [hattempts, lane_map_self, hsend]
      · rename_i hij
        refine .inr ⟨l', hi, rfl, rfl, rfl, .inl ⟨rfl, ?_, rfl⟩⟩
        rw [hattempts, lane_map_of_ne hij]

/-- What is seen of a line is seen of one that is there. -/
theorem Step.lt_length (hs : Step pk st ev st') :
    (∀ e ∈ attempts [ev], e.1 < st.lines.length) ∧ ∀ e ∈ pushes [ev], e.1 < st.lines.length := by
  have hnone : (∀ e ∈ ([] : List (ℕ × (UInt32 × Message))), e.1 < st.lines.length) ∧
      ∀ e ∈ ([] : List (ℕ × ReceivedMsg)), e.1 < st.lines.length := ⟨by simp, by simp⟩
  cases hs with
  | establish a b hkeys hA hB =>
      exact hnone
  | add hi =>
      exact hnone
  | @wire j l hj a hwire hrunning pushed d hstep =>
      refine ⟨hnone.1, fun e he => ?_⟩
      have hmem : e ∈ pushed.map (j, ·) := by
        rwa [show pushes [Event.pushed l.target j pushed] = pushed.map (j, ·) from
          List.flatMap_singleton _ _] at he
      obtain ⟨m, -, rfl⟩ := List.mem_map.mp hmem
      exact (List.getElem?_eq_some_iff.mp hj).1
  | remove hi =>
      exact hnone
  | client =>
      exact hnone
  | command hc hnode hgoes =>
      exact hnone
  | send hc hi hsend hstep =>
      refine ⟨fun e he => ?_, hnone.2⟩
      rw [List.mem_singleton.mp he]
      exact (List.getElem?_eq_some_iff.mp hi).1

theorem Runs.lt_length (h : Runs pk st t) :
    (∀ e ∈ attempts t, e.1 < st.lines.length) ∧ ∀ e ∈ pushes t, e.1 < st.lines.length := by
  induction h with
  | start =>
      exact ⟨by simp [attempts], by simp [pushes]⟩
  | step h hs ih =>
      have hle := hs.length_le
      rw [attempts_concat, pushes_concat]
      exact ⟨lt_append ih.1 hs.lt_length.1 hle, lt_append ih.2 hs.lt_length.2 hle⟩

/-- The history of a line. -/
theorem Runs.history (h : Runs pk st t) {i : ℕ} {l : Line Nd} (hi : st.lines[i]? = some l) :
    (∃ sender, l.dir.History sender (lane i (attempts t)) (lane i (pushes t))) ∧
      l.dir.receiver.sess.peerIdentityPk = pk l.source := by
  induction h generalizing i l with
  | start =>
      cases hi
  | @step st st' t ev h hs ih =>
      rw [attempts_concat, pushes_concat, lane_append, lane_append]
      obtain ⟨hnew, rfl, -, sender, receiver, hdir, hkeys, hpk⟩ | ⟨l₀, hi₀, hsource, -, -, hstep⟩ :=
        hs.line_cases hi
      · have hattempts : lane i (attempts t) = [] :=
          lane_eq_nil fun e he => Nat.ne_of_lt (Nat.lt_of_lt_of_le (h.lt_length.1 e he) hnew)
        have hpushes : lane i (pushes t) = [] :=
          lane_eq_nil fun e he => Nat.ne_of_lt (Nat.lt_of_lt_of_le (h.lt_length.2 e he) hnew)
        rw [hattempts, hpushes, hdir]
        exact ⟨⟨sender, Direction.start_history hkeys⟩, hpk⟩
      · obtain ⟨⟨sender, hhist⟩, hpk⟩ := ih hi₀
        rw [hsource]
        obtain ⟨hdir, hattempts, hpushes⟩ | ⟨a, pushed, hmove, hattempts, hpushes⟩ := hstep
        · rw [hdir, hattempts, hpushes, List.append_nil, List.append_nil]
          exact ⟨⟨sender, hhist⟩, hpk⟩
        · rw [hattempts, hpushes, (Direction.step_receiver hmove).1]
          exact ⟨⟨sender, hhist.step hmove⟩, hpk⟩

/-! ### Clients -/

/-- A client after a step is new, or has got a command, or has done a send, or is as before. -/
theorem Step.client_cases (hs : Step pk st ev st') {c : ℕ} {cl' : Client Nd}
    (hc : st'.clients[c]? = some cl') :
    (st.clients.length ≤ c ∧ ev = .quiet ∧ cl'.pending = []) ∨
    ∃ cl, st.clients[c]? = some cl ∧ cl'.node = cl.node ∧
      cl.pending ++ lane c (orders [ev]) = lane c (done [ev]) ++ cl'.pending := by
  have hsame : st.clients[c]? = some cl' → lane c (orders [ev]) = [] → lane c (done [ev]) = [] →
      ∃ cl, st.clients[c]? = some cl ∧ cl'.node = cl.node ∧
        cl.pending ++ lane c (orders [ev]) = lane c (done [ev]) ++ cl'.pending := by
    intro hc horders hdone
    exact ⟨cl', hc, rfl, by rw [horders, hdone, List.append_nil, List.nil_append]⟩
  cases hs with
  | establish a b hkeys hA hB =>
      exact .inr (hsame hc rfl rfl)
  | add hi =>
      exact .inr (hsame hc rfl rfl)
  | wire hi =>
      exact .inr (hsame hc rfl rfl)
  | remove hi =>
      exact .inr (hsame hc rfl rfl)
  | client n =>
      rw [List.getElem?_append] at hc
      split at hc
      · exact .inr (hsame hc rfl rfl)
      · rename_i hnew
        rw [List.getElem?_singleton] at hc
        split at hc
        · cases hc
          exact .inl ⟨Nat.not_lt.mp hnew, rfl, rfl⟩
        · cases hc
  | @command k n hk node hnode cmd hgoes =>
      have horders : orders [Event.commanded n k cmd (handle node (st.msgs n) cmd).written
          (st.sends n node cmd)] = (st.sends n node cmd).map (k, ·) := List.flatMap_singleton _ _
      rw [State.command, List.getElem?_set] at hc
      split at hc
      · rename_i hkc
        subst hkc
        rw [if_pos (List.getElem?_eq_some_iff.mp hk).1] at hc
        cases hc
        refine .inr ⟨_, hk, rfl, ?_⟩
        rw [horders, lane_map_self]
        rfl
      · rename_i hkc
        refine .inr (hsame hc ?_ rfl)
        rw [horders, lane_map_of_ne hkc]
  | @send k n i m rest reading hk l hi transferId a hsend d hstep =>
      have hdone : done [(Event.attempted k i transferId m : Event Nd)] = [(i, m)].map (k, ·) := rfl
      rw [List.getElem?_set] at hc
      split at hc
      · rename_i hkc
        subst hkc
        rw [if_pos (List.getElem?_eq_some_iff.mp hk).1] at hc
        cases hc
        refine .inr ⟨_, hk, rfl, ?_⟩
        rw [hdone, lane_map_self]
        exact List.append_nil ((i, m) :: rest)
      · rename_i hkc
        refine .inr (hsame hc rfl ?_)
        rw [hdone, lane_map_of_ne hkc]

theorem Step.clients_length_le (hs : Step pk st ev st') :
    st.clients.length ≤ st'.clients.length := by
  cases hs with
  | establish a b hkeys hA hB =>
      exact le_refl _
  | add hi =>
      exact le_refl _
  | wire hi =>
      exact le_refl _
  | remove hi =>
      exact le_refl _
  | client n =>
      rw [List.length_append]
      exact Nat.le_add_right _ _
  | command hc hnode hgoes =>
      exact (List.length_set ..).ge
  | send hc =>
      exact (List.length_set ..).ge

/-- What is seen of a client is seen of one that is there. -/
theorem Step.client_lt_length (hs : Step pk st ev st') :
    (∀ e ∈ orders [ev], e.1 < st.clients.length) ∧ ∀ e ∈ done [ev], e.1 < st.clients.length := by
  have hnone : ∀ e ∈ ([] : List (ℕ × (ℕ × Message))), e.1 < st.clients.length := by simp
  cases hs with
  | establish a b hkeys hA hB =>
      exact ⟨hnone, hnone⟩
  | add hi =>
      exact ⟨hnone, hnone⟩
  | wire hi =>
      exact ⟨hnone, hnone⟩
  | remove hi =>
      exact ⟨hnone, hnone⟩
  | client n =>
      exact ⟨hnone, hnone⟩
  | @command k n hk node hnode cmd hgoes =>
      refine ⟨fun e he => ?_, hnone⟩
      have hmem : e ∈ (st.sends n node cmd).map (k, ·) := by
        rwa [show orders [Event.commanded n k cmd (handle node (st.msgs n) cmd).written
          (st.sends n node cmd)] = (st.sends n node cmd).map (k, ·) from
          List.flatMap_singleton _ _] at he
      obtain ⟨s, -, rfl⟩ := List.mem_map.mp hmem
      exact (List.getElem?_eq_some_iff.mp hk).1
  | send hc =>
      refine ⟨hnone, fun e he => ?_⟩
      rw [List.mem_singleton.mp he]
      exact (List.getElem?_eq_some_iff.mp hc).1

theorem Runs.client_lt_length (h : Runs pk st t) :
    (∀ e ∈ orders t, e.1 < st.clients.length) ∧ ∀ e ∈ done t, e.1 < st.clients.length := by
  induction h with
  | start =>
      exact ⟨by simp [orders], by simp [done]⟩
  | step h hs ih =>
      have hle := hs.clients_length_le
      rw [orders_concat, done_concat]
      exact ⟨lt_append ih.1 hs.client_lt_length.1 hle, lt_append ih.2 hs.client_lt_length.2 hle⟩

/-- The sends of a client are those that its commands have asked for, in order. -/
theorem Runs.orders_eq (h : Runs pk st t) {c : ℕ} {cl : Client Nd}
    (hc : st.clients[c]? = some cl) : lane c (orders t) = lane c (done t) ++ cl.pending := by
  induction h generalizing c cl with
  | start =>
      cases hc
  | @step st st' t ev h hs ih =>
      rw [orders_concat, done_concat, lane_append, lane_append]
      obtain ⟨hnew, rfl, hpending⟩ | ⟨cl₀, hc₀, -, hstep⟩ := hs.client_cases hc
      · have horders : lane c (orders t) = [] := lane_eq_nil fun e he =>
          Nat.ne_of_lt (Nat.lt_of_lt_of_le (h.client_lt_length.1 e he) hnew)
        have hdone : lane c (done t) = [] := lane_eq_nil fun e he =>
          Nat.ne_of_lt (Nat.lt_of_lt_of_le (h.client_lt_length.2 e he) hnew)
        rw [horders, hdone, hpending]
        rfl
      · rw [ih hc₀, List.append_assoc, hstep, List.append_assoc]

omit [DecidableEq Nd] in
/-- The sends by client and the sends by line are the same sends. -/
theorem map_attempts (t : List (Event Nd)) :
    (attempts t).map (fun e => (e.1, e.2.2)) = (done t).map (·.2) := by
  rw [attempts, done, List.map_flatMap, List.map_flatMap]
  refine List.flatMap_congr fun ev _ => ?_
  cases ev <;> rfl

/-- A message that was tried has been asked for. -/
theorem Runs.mem_orders (h : Runs pk st t) {i : ℕ} {x : UInt32 × Message}
    (hx : x ∈ lane i (attempts t)) : ∃ e ∈ orders t, e.2.2 = x.2 := by
  have hsend : (i, x.2) ∈ (done t).map (·.2) := by
    rw [← map_attempts]
    exact List.mem_map.mpr ⟨(i, x), mem_lane.mp hx, rfl⟩
  obtain ⟨⟨c, s⟩, hdone, rfl⟩ := List.mem_map.mp hsend
  obtain ⟨cl, hcl⟩ : ∃ cl, st.clients[c]? = some cl :=
    ⟨_, List.getElem?_eq_getElem (h.client_lt_length.2 _ hdone)⟩
  have hlane : (i, x.2) ∈ lane c (orders t) := by
    rw [h.orders_eq hcl]
    exact List.mem_append_left _ (mem_lane.mpr hdone)
  exact ⟨_, mem_lane.mp hlane, rfl⟩

end PeerToPeer.Mesh
