import PeerToPeer.Mesh.Histories

/-!
`received_msgs_` of each node, between the threads of its connections and all its clients.

A RECV of any client takes what has come since the last RECV of any of them, and of that the
last two hundred messages. The shell of the client gets these, however the answer is split
into reads.
-/

namespace PeerToPeer.Mesh

open Lib Crypto Net Transfer Node Control

variable {Nd : Type} [DecidableEq Nd] {pk : Nd → Bytes 32} {st st' : State Nd}
  {t : List (Event Nd)} {ev : Event Nd}

/-- The messages that a node has got, over all its lines. -/
def pushedAt (n : Nd) (t : List (Event Nd)) : List ReceivedMsg :=
  t.flatMap fun
    | .pushed n' _ msgs => if n' = n then msgs else []
    | _ => []

/-- What a step makes of the messages that a node has got since the last RECV. -/
def waitingStep (n : Nd) (w : List ReceivedMsg) : Event Nd → List ReceivedMsg
  | .pushed n' _ msgs => if n' = n then w ++ msgs else w
  | .commanded n' _ cmd _ _ => if n' = n ∧ cmd = ascii "RECV" then [] else w
  | _ => w

/-- The messages that a node has got since the last RECV of a client. -/
def waiting (n : Nd) (t : List (Event Nd)) : List ReceivedMsg := t.foldl (waitingStep n) []

/-- What the shell of a client makes of the answer to RECV: senders and texts. -/
def shellReads (os : Segmentation) (answer : List UInt8) : List (List UInt8 × List UInt8) :=
  (doRecv os ⟨[], answer, 0⟩).1.getD []

/-- What the shells of all clients of a node have got; `os` tells how the reads of each are
split. -/
def shownAt (os : ℕ → Segmentation) (n : Nd) (t : List (Event Nd)) :
    List (List UInt8 × List UInt8) :=
  t.flatMap fun
    | .commanded n' c cmd answer _ =>
        if n' = n ∧ cmd = ascii "RECV" then shellReads (os c) answer else []
    | _ => []

/-- No more than two hundred messages ever come between two RECVs. -/
def NoOverflow (n : Nd) (t : List (Event Nd)) : Prop :=
  ∀ before, before <+: t → (waiting n before).length ≤ 200

theorem pushedAt_concat (n : Nd) (t : List (Event Nd)) (ev : Event Nd) :
    pushedAt n (t ++ [ev]) = pushedAt n t ++ pushedAt n [ev] :=
  List.flatMap_append

theorem shownAt_concat (os : ℕ → Segmentation) (n : Nd) (t : List (Event Nd)) (ev : Event Nd) :
    shownAt os n (t ++ [ev]) = shownAt os n t ++ shownAt os n [ev] :=
  List.flatMap_append

theorem waiting_concat (n : Nd) (t : List (Event Nd)) (ev : Event Nd) :
    waiting n (t ++ [ev]) = waitingStep n (waiting n t) ev := by
  rw [waiting, List.foldl_append]
  rfl

/-! ### The queue -/

theorem handle_recv_eq (node : Surroundings) (msgs : ReceivedMsgs) :
    handle node msgs (ascii "RECV") = ⟨ctlRecv msgs.msgs, .empty, true⟩ := by
  have hcr : dropCr (ascii "RECV") = ascii "RECV" := by decide
  have hrecv := handle_recv node msgs
  rwa [hcr] at hrecv

/-- Only RECV touches the messages. -/
theorem handle_msgs_of_ne (node : Surroundings) (msgs : ReceivedMsgs) {cmd : List UInt8}
    (h : cmd ≠ ascii "RECV") : (handle node msgs cmd).msgs = msgs := by
  simp only [handle, if_neg h]
  split
  · rfl
  split
  · rfl
  split
  · rfl
  split
  · split <;> rfl
  · split <;> rfl

theorem pushAll_msgs {q : ReceivedMsgs} {w : List ReceivedMsg}
    (h : q.msgs = ReceivedMsgs.lastOf w) {pk : Bytes 32} {msgs : List ReceivedMsg}
    (hmsgs : ∀ m ∈ msgs, m.pkHex = pkHex pk) :
    (msgs.foldl (fun q m => q.push pk m.text) q).msgs = ReceivedMsgs.lastOf (w ++ msgs) := by
  induction msgs generalizing q w with
  | nil =>
      rw [List.append_nil]
      exact h
  | cons m msgs ih =>
      obtain ⟨hm, hrest⟩ := List.forall_mem_cons.mp hmsgs
      have hpush : (q.push pk m.text).msgs = ReceivedMsgs.lastOf (w ++ [m]) := by
        rw [ReceivedMsgs.push_msgs h, ← hm]
      rw [List.foldl_cons, ih hpush hrest, List.append_assoc, List.singleton_append]

/-- The queue of a node has the last messages since the last RECV. -/
theorem Runs.msgs_eq (h : Runs pk st t) (n : Nd) :
    (st.msgs n).msgs = ReceivedMsgs.lastOf (waiting n t) := by
  induction h with
  | start =>
      exact ReceivedMsgs.empty_msgs
  | @step st st' t ev h hs ih =>
      rw [waiting_concat]
      cases hs with
      | establish a b hkeys hA hB =>
          exact ih
      | add hi =>
          exact ih
      | @wire i l hi a hwire hrunning pushed d hstep =>
          by_cases hn : l.target = n
          · subst hn
            simp only [State.move, Function.update_self, waitingStep, if_true]
            exact pushAll_msgs ih (Direction.step_receiver hstep).2
          · simp only [State.move, Function.update_of_ne (Ne.symm hn), waitingStep, if_neg hn]
            exact ih
      | remove hi =>
          exact ih
      | client m =>
          exact ih
      | @command c m hc node hnode cmd hgoes =>
          by_cases hm : m = n
          · subst hm
            simp only [State.command, Function.update_self, waitingStep, true_and]
            split
            · rename_i hrecv
              rw [hrecv, handle_recv_eq]
              exact ReceivedMsgs.empty_msgs
            · rename_i hrecv
              rw [handle_msgs_of_ne _ _ hrecv]
              exact ih
          · simp only [State.command, Function.update_of_ne (Ne.symm hm), waitingStep,
              false_and, hm, if_false]
            exact ih
      | @send c m i msg rest reading hc l hi transferId a hsend d hstep =>
          by_cases hn : l.target = n
          · subst hn
            simp only [State.move, Function.update_self, List.foldl_nil, waitingStep]
            exact ih
          · simp only [State.move, Function.update_of_ne (Ne.symm hn), waitingStep]
            exact ih

/-- The answer to a RECV, read by a shell. -/
theorem Step.shellReads_eq {n : Nd} {c : ℕ} {answer : List UInt8} {sends : List (ℕ × Message)}
    (hs : Step pk st (.commanded n c (ascii "RECV") answer sends) st') (os : Segmentation) :
    shellReads os answer = (st.msgs n).msgs.map shown := by
  cases hs with
  | command hc hnode hgoes =>
      rw [handle_recv_eq]
      obtain ⟨r, hread, -⟩ := doRecv_ctlRecv os (st.msgs n)
        (r := ⟨[], ctlRecv (st.msgs n).msgs, 0⟩) rfl
      rw [shellReads, hread]
      rfl

/-- A step in the middle of a run. -/
theorem Runs.split (h : Runs pk st t) {before after : List (Event Nd)}
    (ht : t = before ++ ev :: after) :
    ∃ st₀ st₁, Runs pk st₀ before ∧ Step pk st₀ ev st₁ := by
  induction h generalizing after with
  | start =>
      simp at ht
  | @step st st' t ev' h hs ih =>
      rcases List.eq_nil_or_concat' after with rfl | ⟨after, last, rfl⟩
      · obtain ⟨rfl, hev⟩ := List.append_inj' ht rfl
        obtain rfl := List.singleton_inj.mp hev
        exact ⟨st, st', h, hs⟩
      · rw [← List.cons_append, ← List.append_assoc] at ht
        exact ih (List.append_inj' ht rfl).1

/-- The shell of a client that has sent RECV gets the last messages that its node has got
since the last RECV of any client, at most two hundred. -/
theorem Runs.recv_shows (h : Runs pk st t) {before after : List (Event Nd)} {n : Nd} {c : ℕ}
    {answer : List UInt8} {sends : List (ℕ × Message)}
    (ht : t = before ++ .commanded n c (ascii "RECV") answer sends :: after) (os : Segmentation) :
    shellReads os answer = (ReceivedMsgs.lastOf (waiting n before)).map shown := by
  obtain ⟨st₀, st₁, h₀, hs⟩ := h.split ht
  rw [hs.shellReads_eq os, h₀.msgs_eq n]

/-! ### What is handed out -/

/-- What the shells have got, and what waits, has come over the lines. -/
theorem Runs.shown_sublist (h : Runs pk st t) (os : ℕ → Segmentation) (n : Nd) :
    (shownAt os n t ++ (waiting n t).map shown).Sublist ((pushedAt n t).map shown) := by
  induction h with
  | start =>
      exact List.Sublist.refl _
  | @step st st' t ev h hs ih =>
      rw [shownAt_concat, waiting_concat, pushedAt_concat]
      cases ev with
      | quiet =>
          simpa [shownAt, waitingStep, pushedAt] using ih
      | attempted c i transferId m =>
          simpa [shownAt, waitingStep, pushedAt] using ih
      | pushed m i msgs =>
          by_cases hm : m = n
          · simp only [shownAt, waitingStep, pushedAt, List.flatMap_singleton, if_pos hm,
              List.append_nil, List.map_append, ← List.append_assoc]
            exact ih.append_right _
          · simpa [shownAt, waitingStep, pushedAt, hm] using ih
      | commanded m c cmd answer sends =>
          by_cases hrecv : m = n ∧ cmd = ascii "RECV"
          · obtain ⟨rfl, rfl⟩ := hrecv
            simp only [shownAt, waitingStep, pushedAt, List.flatMap_singleton, and_self, if_true,
              List.append_nil, List.map_nil]
            rw [hs.shellReads_eq (os c), h.msgs_eq m]
            exact (List.Sublist.append_left ((List.drop_sublist _ _).map _) _).trans ih
          · simpa [shownAt, waitingStep, pushedAt, hrecv] using ih

/-- If no queue overflows, it is all that has come. -/
theorem Runs.shown_eq (h : Runs pk st t) (os : ℕ → Segmentation) {n : Nd}
    (hno : NoOverflow n t) :
    shownAt os n t ++ (waiting n t).map shown = (pushedAt n t).map shown := by
  induction h with
  | start =>
      rfl
  | @step st st' t ev h hs ih =>
      have hbefore := ih fun before hbegin => hno before (hbegin.trans (List.prefix_append _ _))
      rw [shownAt_concat, waiting_concat, pushedAt_concat]
      cases ev with
      | quiet =>
          simpa [shownAt, waitingStep, pushedAt] using hbefore
      | attempted c i transferId m =>
          simpa [shownAt, waitingStep, pushedAt] using hbefore
      | pushed m i msgs =>
          by_cases hm : m = n
          · simp only [shownAt, waitingStep, pushedAt, List.flatMap_singleton, if_pos hm,
              List.append_nil, List.map_append, ← List.append_assoc]
            exact congrArg (· ++ msgs.map shown) hbefore
          · simpa [shownAt, waitingStep, pushedAt, hm] using hbefore
      | commanded m c cmd answer sends =>
          by_cases hrecv : m = n ∧ cmd = ascii "RECV"
          · obtain ⟨rfl, rfl⟩ := hrecv
            have hlen := hno t (List.prefix_append _ _)
            have hall : ReceivedMsgs.lastOf (waiting m t) = waiting m t := by
              rw [ReceivedMsgs.lastOf, Nat.sub_eq_zero_of_le hlen, List.drop_zero]
            simp only [shownAt, waitingStep, pushedAt, List.flatMap_singleton, and_self, if_true,
              List.append_nil, List.map_nil]
            rw [hs.shellReads_eq (os c), h.msgs_eq m, hall]
            exact hbefore
          · simpa [shownAt, waitingStep, pushedAt, hrecv] using hbefore

/-- Few messages do not overflow a queue. -/
theorem noOverflow_of_length_le {n : Nd} (h : (pushedAt n t).length ≤ 200) : NoOverflow n t := by
  have hwaiting : ∀ t : List (Event Nd), (waiting n t).length ≤ (pushedAt n t).length := by
    intro t
    induction t using List.reverseRecOn with
    | nil =>
        exact le_refl _
    | append_singleton t ev ih =>
        rw [waiting_concat, pushedAt_concat, List.length_append]
        cases ev with
        | quiet =>
            exact Nat.le_add_right_of_le ih
        | attempted c i transferId m =>
            exact Nat.le_add_right_of_le ih
        | pushed m i msgs =>
            by_cases hm : m = n
            · simp only [waitingStep, pushedAt, List.flatMap_singleton, if_pos hm,
                List.length_append]
              exact Nat.add_le_add_right ih _
            · simp only [waitingStep, if_neg hm]
              exact Nat.le_add_right_of_le ih
        | commanded m c cmd answer sends =>
            rw [waitingStep]
            split
            · exact Nat.zero_le _
            · exact Nat.le_add_right_of_le ih
  rintro before ⟨after, rfl⟩
  have hsplit : pushedAt n (before ++ after) = pushedAt n before ++ pushedAt n after :=
    List.flatMap_append
  rw [hsplit, List.length_append] at h
  exact (hwaiting before).trans ((Nat.le_add_right _ _).trans h)

end PeerToPeer.Mesh
