import PeerToPeer.Control.Screen
import PeerToPeer.Mesh.Mailboxes

/-!
From the commands of all clients to what the shells show.

Whatever the order of the steps, the messages that a node hands out are among those that
clients have asked to be sent to it, each at most as often as it was asked for, and under
the name of the node whose client it was. When everything has come to rest and nothing was
lost, they are exactly these.
-/

namespace PeerToPeer.Mesh

open Lib Crypto Net Transfer Node Control

variable {Nd : Type} [DecidableEq Nd] {pk : Nd → Bytes 32} {st st' : State Nd}
  {t : List (Event Nd)} {ev : Event Nd}

/-! ### Where commands send to -/

theorem mem_of_peerAt {ps : Peers} {idx : ℤ} {c : PeerConn} (h : peerAt ps idx = some c) :
    c ∈ ps.conns := by
  rw [peerAt] at h
  split at h
  · cases h
  · exact List.mem_of_getElem? h

/-- A command sends over connections that are in `peers_`. -/
theorem mem_of_mem_sendings {node : Surroundings} {cmd : List UInt8} {s : PeerConn × Message}
    (h : s ∈ sendings node cmd) : s.1 ∈ node.peers.conns := by
  rw [sendings] at h
  split at h
  · cases h
  split at h
  · obtain ⟨⟨c, text⟩, hsent, rfl⟩ := List.mem_map.mp h
    rw [Option.mem_toList, ctlSend] at hsent
    split at hsent
    · cases hsent
    split at hsent
    · cases hsent
    split at hsent
    · cases hsent
    · rename_i hat
      cases hsent
      exact mem_of_peerAt hat
  split at h
  · obtain ⟨c, hc, rfl⟩ := List.mem_map.mp h
    exact hc
  split at h
  · obtain ⟨⟨c, data⟩, hsent, rfl⟩ := List.mem_map.mp h
    rw [Option.mem_toList, ctlSendFile] at hsent
    split at hsent
    · cases hsent
    split at hsent
    · cases hsent
    split at hsent
    · cases hsent
    · cases hsent
    split at hsent
    · cases hsent
    · rename_i hat
      cases hsent
      exact mem_of_peerAt hat
  · cases h

/-- The opposite line runs the other way. -/
theorem Runs.back (h : Runs pk st t) {i : ℕ} {l : Line Nd} (hi : st.lines[i]? = some l) :
    st.endpoints[l.back]? = some (l.target, l.source) := by
  induction h generalizing i l with
  | start =>
      cases hi
  | step h hs ih =>
      obtain ⟨-, -, hback, -⟩ | ⟨l₀, hi₀, hsource, htarget, hback, -⟩ := hs.line_cases hi
      · exact hback
      · rw [hsource, htarget, hback]
        exact hs.endpoints_get (ih hi₀)

/-- The entries of `peers_` send from their node. -/
theorem Runs.object (h : Runs pk st t) {n : Nd} {c : PeerConn} (hc : c ∈ (st.peers n).conns) :
    ∃ b, st.endpoints[st.object n c.id]? = some (n, b) := by
  induction h generalizing n c with
  | start =>
      cases hc
  | @step st st' t ev h hs ih =>
      have hkeep : ∀ {i : ℕ} {n : Nd}, (∃ b, st.endpoints[i]? = some (n, b)) →
          ∃ b, st'.endpoints[i]? = some (n, b) := fun ⟨b, hb⟩ => ⟨b, hs.endpoints_get hb⟩
      cases hs with
      | establish a b hkeys hA hB =>
          exact hkeep (ih hc)
      | @add i l hi hstage ip listenPort =>
          by_cases hn : n = l.target
          · subst hn
            simp only [State.add, Function.update_self, Peers.addPeer, List.mem_append,
              List.mem_singleton] at hc ⊢
            rcases hc with hc | rfl
            · rw [Function.update_of_ne (Nat.ne_of_lt ((st.peers l.target).id_lt c hc))]
              exact hkeep (ih hc)
            · rw [Function.update_self]
              exact hkeep ⟨l.source, h.back hi⟩
          · simp only [State.add, Function.update_of_ne hn] at hc ⊢
            exact hkeep (ih hc)
      | wire hi =>
          exact hkeep (ih hc)
      | @remove i l hi id hstage hended =>
          by_cases hn : n = l.target
          · subst hn
            simp only [State.remove, Function.update_self] at hc
            exact hkeep (ih (List.mem_of_mem_filter hc))
          · simp only [State.remove, Function.update_of_ne hn] at hc
            exact hkeep (ih hc)
      | client m =>
          exact hkeep (ih hc)
      | command hk hnode hgoes =>
          exact hkeep (ih hc)
      | send hk hi hsend hstep =>
          exact hkeep (ih hc)

/-- A command of a client sends over lines of its node. -/
theorem Runs.source (h : Runs pk st t) {a : Nd} {c : ℕ} {cmd answer : List UInt8}
    {sends : List (ℕ × Message)} (hmem : .commanded a c cmd answer sends ∈ t)
    {s : ℕ × Message} (hs : s ∈ sends) : ∃ b, st.endpoints[s.1]? = some (a, b) := by
  induction h with
  | start =>
      cases hmem
  | step h hstep ih =>
      rcases List.mem_append.mp hmem with hold | hnew
      · obtain ⟨b, hb⟩ := ih hold
        exact ⟨b, hstep.endpoints_get hb⟩
      · rw [List.mem_singleton] at hnew
        subst hnew
        cases hstep with
        | command hk hnode hgoes =>
            obtain ⟨p, hp, rfl⟩ := List.mem_map.mp hs
            exact h.object (hnode ▸ mem_of_mem_sendings hp)

/-- What is pushed over a line is pushed at its target. -/
theorem Runs.target (h : Runs pk st t) {n : Nd} {i : ℕ} {msgs : List ReceivedMsg}
    (hmem : .pushed n i msgs ∈ t) : ∃ a, st.endpoints[i]? = some (a, n) := by
  induction h with
  | start =>
      cases hmem
  | @step st st' t ev h hs ih =>
      have hkeep : ∀ p, st.endpoints[i]? = some p → st'.endpoints[i]? = some p :=
        fun p => hs.endpoints_get
      rcases List.mem_append.mp hmem with hold | hnew
      · obtain ⟨a, ha⟩ := ih hold
        exact ⟨a, hkeep _ ha⟩
      · rw [List.mem_singleton] at hnew
        subst hnew
        cases hs with
        | @wire i l hi a hwire hrunning pushed d hstep =>
            exact ⟨l.source, hkeep _ (endpoints_of_line hi)⟩

/-! ### Sent and delivered -/

/-- A message that is sent over a line, as its target gets it, if that is the node `n`. -/
def stamped (pk : Nd → Bytes 32) (st : State Nd) (n : Nd) (i : ℕ) (m : Message) :
    Option ReceivedMsg :=
  match st.endpoints[i]? with
  | some (a, b) => if b = n then some ⟨pkHex (pk a), m.data⟩ else none
  | none => none

/-- The messages that clients have asked to be sent to a node, each under the name of the node
whose client it was. -/
def addressed (pk : Nd → Bytes 32) (st : State Nd) (n : Nd) (t : List (Event Nd)) :
    List ReceivedMsg :=
  t.flatMap fun
    | .commanded a _ _ _ sends => sends.filterMap fun s =>
        if (st.endpoints[s.1]?).map (·.2) = some n then some ⟨pkHex (pk a), s.2.data⟩ else none
    | _ => []

section Runs

variable (h : Runs pk st t)

include h

theorem Runs.addressed_eq (n : Nd) :
    addressed pk st n t = (orders t).filterMap fun e => stamped pk st n e.2.1 e.2.2 := by
  rw [addressed, orders, List.filterMap_flatMap]
  refine List.flatMap_congr fun ev hev => ?_
  cases ev with
  | commanded a c cmd answer sends =>
      simp only [List.filterMap_map]
      refine List.filterMap_congr fun s hs => ?_
      obtain ⟨b, hb⟩ := h.source hev hs
      simp [stamped, hb]
  | quiet => rfl
  | attempted c i transferId m => rfl
  | pushed n i msgs => rfl

theorem Runs.pushedAt_eq (n : Nd) :
    pushedAt n t = (pushes t).filterMap fun e =>
      if (st.endpoints[e.1]?).map (·.2) = some n then some e.2 else none := by
  rw [pushedAt, pushes, List.filterMap_flatMap]
  refine List.flatMap_congr fun ev hev => ?_
  cases ev with
  | pushed m i msgs =>
      obtain ⟨a, ha⟩ := h.target hev
      simp only [List.filterMap_map, Function.comp_def, ha, Option.map_some, Option.some.injEq]
      split
      · exact List.filterMap_some.symm
      · simp
  | quiet => rfl
  | attempted c i transferId m => rfl
  | commanded a c cmd answer sends => rfl

/-- The tried sends, line by line. -/
theorem Runs.attempts_perm (n : Nd) :
    ((done t).filterMap fun e => stamped pk st n e.2.1 e.2.2).Perm
      ((List.range st.lines.length).flatMap fun i =>
        (lane i (attempts t)).filterMap fun x => stamped pk st n i x.2) := by
  have hdone : ((done t).filterMap fun e => stamped pk st n e.2.1 e.2.2) =
      (attempts t).filterMap fun e => stamped pk st n e.1 e.2.2 := by
    have hmap := congrArg (List.filterMap fun s : ℕ × Message => stamped pk st n s.1 s.2)
      (map_attempts t)
    rw [List.filterMap_map, List.filterMap_map] at hmap
    exact hmap.symm
  rw [hdone]
  exact perm_filterMap_lanes h.lt_length.1 fun i x => stamped pk st n i x.2

theorem Runs.clean_attempts (hclean : ∀ e ∈ orders t, e.2.2.Clean) (i : ℕ) :
    ∀ x ∈ lane i (attempts t), x.2.Clean := by
  intro x hx
  obtain ⟨e, he, heq⟩ := h.mem_orders hx
  exact heq ▸ hclean e he

/-- What a line delivers to a node, and what is sent over it. -/
theorem Runs.line_delivered (hclean : ∀ e ∈ orders t, e.2.2.Clean) (n : Nd) {i : ℕ}
    (hi : i < st.lines.length) :
    let got := (lane i (pushes t)).filterMap fun m =>
      if (st.endpoints[i]?).map (·.2) = some n then some m else none
    let sent := (lane i (attempts t)).filterMap fun x => stamped pk st n i x.2
    got <+: sent ∧ (st.lines[i].target = n → st.lines[i].dir.Settled → got = sent) := by
  have hline : st.lines[i]? = some st.lines[i] := List.getElem?_eq_getElem hi
  obtain ⟨⟨sender, hhist⟩, hpk⟩ := h.history hline
  have hsent := h.clean_attempts hclean i
  simp only [stamped, endpoints_of_line hline, Option.map_some, Option.some.injEq]
  by_cases hn : st.lines[i].target = n
  · simp only [hn, if_true, List.filterMap_some, true_implies]
    rw [List.filterMap_eq_map' , ← hpk]
    exact ⟨hhist.pushed_prefix_attempts hsent, hhist.pushed_eq_attempts hsent⟩
  · simp [hn]

/-- What has come at a node is among what was sent to it. -/
theorem Runs.pushedAt_subperm (hclean : ∀ e ∈ orders t, e.2.2.Clean) (n : Nd) :
    (pushedAt n t).Subperm ((done t).filterMap fun e => stamped pk st n e.2.1 e.2.2) := by
  have hpushes := perm_filterMap_lanes h.lt_length.2 fun i m =>
    if (st.endpoints[i]?).map (·.2) = some n then some m else none
  have hlines := subperm_flatMap (l := List.range st.lines.length) fun i hi =>
    (h.line_delivered hclean n (List.mem_range.mp hi)).1.sublist.subperm
  rw [h.pushedAt_eq n]
  exact hpushes.subperm.trans (hlines.trans (h.attempts_perm n).symm.subperm)

/-- What was sent to a node is among what clients have asked for. -/
theorem Runs.done_subperm (n : Nd) :
    ((done t).filterMap fun e => stamped pk st n e.2.1 e.2.2).Subperm (addressed pk st n t) := by
  have hdone := perm_filterMap_lanes h.client_lt_length.2 fun _ s => stamped pk st n s.1 s.2
  have horders := perm_filterMap_lanes h.client_lt_length.1 fun _ s => stamped pk st n s.1 s.2
  have hclients := subperm_flatMap (l := List.range st.clients.length)
    (f := fun c => (lane c (done t)).filterMap fun s => stamped pk st n s.1 s.2)
    (g := fun c => (lane c (orders t)).filterMap fun s => stamped pk st n s.1 s.2) fun c hc => by
      rw [h.orders_eq (List.getElem?_eq_getElem (List.mem_range.mp hc)), List.filterMap_append]
      exact (List.sublist_append_left _ _).subperm
  rw [h.addressed_eq n]
  exact hdone.subperm.trans (hclients.trans horders.symm.subperm)

end Runs

/-! ### Exactly once -/

/-- Nothing is under way to a node: no client has a send to it pending, and its lines have
delivered everything. -/
structure State.SettledAt (st : State Nd) (n : Nd) : Prop where
  clients : ∀ cl ∈ st.clients, ∀ s ∈ cl.pending, (st.endpoints[s.1]?).map (·.2) ≠ some n
  lines : ∀ l ∈ st.lines, l.target = n → l.dir.Settled

section Settled

variable (h : Runs pk st t) {n : Nd} (hsettled : st.SettledAt n)

include h hsettled

theorem Runs.pushedAt_perm (hclean : ∀ e ∈ orders t, e.2.2.Clean) :
    (pushedAt n t).Perm ((done t).filterMap fun e => stamped pk st n e.2.1 e.2.2) := by
  have hpushes := perm_filterMap_lanes h.lt_length.2 fun i m =>
    if (st.endpoints[i]?).map (·.2) = some n then some m else none
  have hlines : ∀ i ∈ List.range st.lines.length,
      ((lane i (pushes t)).filterMap fun m =>
        if (st.endpoints[i]?).map (·.2) = some n then some m else none) =
        (lane i (attempts t)).filterMap fun x => stamped pk st n i x.2 := by
    intro i hi
    have hlt := List.mem_range.mp hi
    have hline : st.lines[i]? = some st.lines[i] := List.getElem?_eq_getElem hlt
    by_cases hn : st.lines[i].target = n
    · exact (h.line_delivered hclean n hlt).2 hn
        (hsettled.lines _ (List.getElem_mem hlt) hn)
    · simp [stamped, endpoints_of_line hline, hn]
  rw [h.pushedAt_eq n]
  exact hpushes.trans ((List.Perm.of_eq (List.flatMap_congr hlines)).trans
    (h.attempts_perm n).symm)

theorem Runs.done_perm :
    ((done t).filterMap fun e => stamped pk st n e.2.1 e.2.2).Perm (addressed pk st n t) := by
  have hdone := perm_filterMap_lanes h.client_lt_length.2 fun _ s => stamped pk st n s.1 s.2
  have horders := perm_filterMap_lanes h.client_lt_length.1 fun _ s => stamped pk st n s.1 s.2
  have hclients : ∀ c ∈ List.range st.clients.length,
      ((lane c (done t)).filterMap fun s => stamped pk st n s.1 s.2) =
        (lane c (orders t)).filterMap fun s => stamped pk st n s.1 s.2 := by
    intro c hc
    have hlt := List.mem_range.mp hc
    have hpending : (st.clients[c].pending.filterMap fun s => stamped pk st n s.1 s.2) = [] := by
      rw [List.filterMap_eq_nil_iff]
      intro s hs
      have hother := hsettled.clients _ (List.getElem_mem hlt) s hs
      rw [stamped]
      split
      · rename_i a b hends
        rw [hends, Option.map_some, Ne, Option.some.injEq] at hother
        exact if_neg hother
      · rfl
    rw [h.orders_eq (List.getElem?_eq_getElem hlt), List.filterMap_append, hpending,
      List.append_nil]
  rw [h.addressed_eq n]
  exact hdone.trans ((List.Perm.of_eq (List.flatMap_congr hclients)).trans horders.symm)

end Settled

/-- What the shells have got, and what waits, was asked for. -/
theorem Runs.shown_subperm (h : Runs pk st t) (hclean : ∀ e ∈ orders t, e.2.2.Clean)
    (os : ℕ → Segmentation) (n : Nd) :
    (shownAt os n t ++ (waiting n t).map shown).Subperm ((addressed pk st n t).map shown) :=
  (h.shown_sublist os n).subperm.trans
    (subperm_map shown ((h.pushedAt_subperm hclean n).trans (h.done_subperm n)))

/-- Whatever the order of the steps and however connections break: what the shells of a node
have got, with what waits in its queue, is among what clients of all nodes have asked to be
sent to it, each message as often at most, and under the name of its sender. Once nothing is
under way, and if the queue has never overflowed, it is all of that. -/
theorem Runs.exactly_once (h : Runs pk st t) (hclean : ∀ e ∈ orders t, e.2.2.Clean)
    (os : ℕ → Segmentation) (n : Nd) :
    (shownAt os n t ++ (st.msgs n).msgs.map shown).Subperm ((addressed pk st n t).map shown) ∧
    (st.SettledAt n → NoOverflow n t →
      (shownAt os n t ++ (st.msgs n).msgs.map shown).Perm ((addressed pk st n t).map shown)) := by
  rw [h.msgs_eq n]
  constructor
  · have hqueue : ((ReceivedMsgs.lastOf (waiting n t)).map shown).Sublist
        ((waiting n t).map shown) := (List.drop_sublist _ _).map _
    exact (hqueue.append_left _).subperm.trans (h.shown_subperm hclean os n)
  · intro hsettled hno
    have hall : ReceivedMsgs.lastOf (waiting n t) = waiting n t := by
      rw [ReceivedMsgs.lastOf, Nat.sub_eq_zero_of_le (hno t (List.prefix_refl _)), List.drop_zero]
    rw [hall, h.shown_eq os hno]
    exact ((h.pushedAt_perm hsettled hclean).trans (h.done_perm hsettled)).map shown

/-! ### On the screen -/

/-- What a shell reads after one RECV is among what all shells get. -/
theorem shellReads_sublist_shownAt {before after : List (Event Nd)} {n : Nd} {c : ℕ}
    {answer : List UInt8} {sends : List (ℕ × Message)}
    (ht : t = before ++ .commanded n c (ascii "RECV") answer sends :: after)
    (os : Segmentation) : (shellReads os answer).Sublist (shownAt (fun _ => os) n t) := by
  have hevent : shownAt (fun _ => os) n [.commanded n c (ascii "RECV") answer sends] =
      shellReads os answer := by
    rw [shownAt, List.flatMap_singleton]
    exact if_pos ⟨rfl, rfl⟩
  have hsplit : shownAt (fun _ => os) n t = shownAt (fun _ => os) n before ++
      shellReads os answer ++ shownAt (fun _ => os) n after := by
    rw [ht, List.append_cons, ← hevent, ← shownAt_concat]
    exact List.flatMap_append
  rw [hsplit]
  exact (List.sublist_append_right _ _).trans (List.sublist_append_left _ _)

/-- Whatever the messages contain, a user who reads the screen after a RECV finds the messages
that have come since the last one, in order, each under its sender. And if all messages arrive
as they were sent, every message that stands there under a name was asked for by a client of a
node of that name. -/
theorem Runs.screen_reads (h : Runs pk st t) {before after : List (Event Nd)} {n : Nd} {c : ℕ}
    {answer : List UInt8} {sends : List (ℕ × Message)}
    (ht : t = before ++ .commanded n c (ascii "RECV") answer sends :: after) (os : Segmentation) :
    readScreen (screen (shellReads os answer)) =
      ((ReceivedMsgs.lastOf (waiting n before)).map shown).map onScreen ∧
    ((∀ e ∈ orders t, e.2.2.Clean) → (readScreen (screen (shellReads os answer))).Subperm
      (((addressed pk st n t).map shown).map onScreen)) := by
  obtain ⟨st₀, st₁, h₀, hs⟩ := h.split ht
  have hgot := hs.shellReads_eq os
  have hscreen : readScreen (screen (shellReads os answer)) =
      (shellReads os answer).map onScreen := by
    rw [hgot]
    exact readScreen_screen (st₀.msgs n).from_peer
  rw [hscreen]
  constructor
  · rw [hgot, h₀.msgs_eq n]
  · intro hclean
    have hpart := (shellReads_sublist_shownAt ht os).trans
      (List.sublist_append_left _ ((waiting n t).map shown))
    exact subperm_map onScreen
      (hpart.subperm.trans (h.shown_subperm hclean (fun _ => os) n))

/-! ### In order -/

omit [DecidableEq Nd]

/-- The sends over a line, with the clients that have tried them. -/
def triesOver (i : ℕ) (t : List (Event Nd)) : List (ℕ × Message) :=
  (done t).filterMap fun e => if e.2.1 = i then some (e.1, e.2.2) else none

/-- The messages for a line among the sends of a client. -/
def forLine (i : ℕ) (sends : List (ℕ × Message)) : List Message :=
  sends.filterMap fun s => if s.1 = i then some s.2 else none

theorem lane_triesOver (i c : ℕ) (t : List (Event Nd)) :
    lane c (triesOver i t) = forLine i (lane c (done t)) := by
  rw [lane, triesOver, forLine, lane, List.filterMap_filterMap, List.filterMap_filterMap]
  refine List.filterMap_congr fun e _ => ?_
  by_cases hi : e.2.1 = i
  · by_cases hc : e.1 = c
    · simp [hi, hc]
    · simp [hi, hc]
  · by_cases hc : e.1 = c
    · simp [hi, hc]
    · simp [hi, hc]

theorem map_triesOver (i : ℕ) (t : List (Event Nd)) :
    (triesOver i t).map (·.2) = (lane i (attempts t)).map (·.2) := by
  have hmap := congrArg (List.filterMap fun s : ℕ × Message => if s.1 = i then some s.2 else none)
    (map_attempts t)
  rw [List.filterMap_map, List.filterMap_map] at hmap
  rw [triesOver, lane, List.map_filterMap, List.map_filterMap]
  refine Eq.trans (List.filterMap_congr fun e _ => ?_)
    (hmap.symm.trans (List.filterMap_congr fun e _ => ?_))
  · by_cases hi : e.2.1 = i <;> simp [hi]
  · by_cases hi : e.1 = i <;> simp [hi]

/-- What comes out of a line is, in order, a first part of what was sent over it; and there the
messages of every client stand in the order in which its commands have asked for them. -/
theorem Runs.in_order [DecidableEq Nd] (h : Runs pk st t) (hclean : ∀ e ∈ orders t, e.2.2.Clean)
    {i : ℕ} {l : Line Nd} (hi : st.lines[i]? = some l) :
    lane i (pushes t) <+: (triesOver i t).map (fun e => ⟨pkHex (pk l.source), e.2.data⟩) ∧
      ∀ c, lane c (triesOver i t) <+: forLine i (lane c (orders t)) := by
  obtain ⟨⟨sender, hhist⟩, hpk⟩ := h.history hi
  have hprefix := hhist.pushed_prefix_attempts (h.clean_attempts hclean i)
  constructor
  · have hmap := congrArg (List.map fun m : Message =>
      (⟨pkHex (pk l.source), m.data⟩ : ReceivedMsg)) (map_triesOver i t)
    rw [List.map_map, List.map_map] at hmap
    rw [hpk] at hprefix
    exact hprefix.trans (hmap ▸ List.prefix_refl _)
  · intro c
    rw [lane_triesOver]
    by_cases hc : c < st.clients.length
    · rw [h.orders_eq (List.getElem?_eq_getElem hc)]
      exact (List.prefix_append _ _).filterMap _
    · have hnone : lane c (done t) = [] := lane_eq_nil fun e he =>
        Nat.ne_of_lt (Nat.lt_of_lt_of_le (h.client_lt_length.2 e he) (Nat.not_lt.mp hc))
      rw [hnone]
      exact List.nil_prefix

/-! ### Three messages -/

/-- The identities of two nodes whose sessions have zero keys. -/
def zeroPk (_ : Bool) : Bytes 32 := Session.zeroKeys.peerIdentityPk

/-- A byte, sent as it is. -/
def byte (b : UInt8) : Message := ⟨false, [b]⟩

/-- A file of two lines. -/
def note : Message := ⟨true, [0x42, 10, 0x43]⟩

/-- The chunk that the file makes. -/
def noteChunk : List UInt8 := makeChunkFrame 7 0 1 note.data

theorem byte_clean (b : UInt8) : (byte b).Clean where
  nonempty := List.cons_ne_nil _ _
  fits := (by decide : 1 ≤ 65535 * chunkPayloadSize.toNat)
  plain _ := by simp [parseChunkFrame, byte, chunkHeaderSize]

theorem note_clean : note.Clean := ⟨by decide, by decide, fun hwhole => absurd (.inl rfl) hwhole⟩

theorem byte_plaintexts (b : UInt8) : (byte b).plaintexts 0 = [[b]] := by
  have hwhole : ¬(byte b).Chunked :=
    not_or.mpr ⟨Bool.false_ne_true, (by decide : ¬1 > chunkPayloadSize.toNat)⟩
  rw [Message.plaintexts, if_neg hwhole]
  rfl

theorem note_plaintexts : note.plaintexts 7 = [noteChunk] := by decide

/-- A session with zero keys that has sent some frames, and its next frame. -/
def sender (ctr : UInt64) : Session := { Session.zeroKeys with sendCtr := ctr }

def frame (ctr : UInt64) (p : List UInt8) : List UInt8 := frameBytes ((sender ctr).sealFrame p)

theorem length_frame (ctr : UInt64) (p : List UInt8) : (frame ctr p).length = p.length + 33 := by
  rw [frame, length_frameBytes, Session.length_sealFrame]
  omega

/-- A direction between sessions with zero keys, with what has been written, how much of it has
arrived, and what of that was not taken yet. -/
def zeroWire (out : Outgoing) (arrived : ℕ) (buf : List UInt8) : Direction :=
  ⟨out, false, arrived, ⟨Session.zeroKeys, buf, .empty, false⟩⟩

section Packet

variable {m : Message} (hm : m.Clean) {transferId : UInt32} {p : List UInt8}
  (hp : m.plaintexts transferId = [p])

include hm hp

theorem zeroWire_write (ctr : UInt64) (written : List UInt8) (arrived : ℕ) (buf : List UInt8) :
    (zeroWire (sender ctr, written) arrived buf).step (.write transferId m) =
      some ([], zeroWire (sender (ctr + 1), written ++ frame ctr p) arrived buf) := by
  have hlen : m.data.length < 2 ^ 64 :=
    Nat.lt_of_le_of_lt hm.fits (by decide : 65535 * chunkPayloadSize.toNat < 2 ^ 64)
  have hsend : (m.send transferId (sender ctr, written)).1 =
      (sender (ctr + 1), written ++ frame ctr p) := by
    rw [Message.send_fst hm.nonempty hlen, hp]
    rfl
  rw [Direction.step, zeroWire, if_neg Bool.false_ne_true, hsend]
  rfl

theorem zeroWire_turn (out : Outgoing) (arrived : ℕ) (ctr : UInt64) (rest : List UInt8) :
    (zeroWire out arrived (frame ctr p ++ rest)).step .turn =
      some ([⟨pkHex (zeroPk false), m.data⟩], zeroWire out arrived rest) := by
  obtain ⟨hne, hlen⟩ := hm.plaintexts_bound transferId p (hp ▸ List.mem_singleton_self p)
  have hframe : ((sender ctr).sealFrame p).length ≤ maxFrame := by
    rw [Session.length_sealFrame, maxFrame]
    omega
  have hopen : Session.zeroKeys.openFrame ((sender ctr).sealFrame p) = some p := by
    rw [Session.openFrame_sealFrame (a := sender ctr) rfl]
    exact if_neg (by rwa [List.isEmpty_iff])
  have hall :=
    hm.deliverAll_plaintexts transferId (rfl : TransferRegistry.empty transferId = none)
  rw [hp, deliverAll, deliverAll, List.append_nil] at hall
  have htext : (deliver .empty p).1.toList = [m.data] := congrArg Prod.fst hall
  have hchunks : (deliver .empty p).2 = .empty := congrArg Prod.snd hall
  obtain ⟨hready, hturn⟩ := Receiver.turn_of_frame
    (r := ⟨Session.zeroKeys, frame ctr p ++ rest, .empty, false⟩) rfl hframe rfl hopen
  rw [Direction.step, zeroWire, if_pos hready, hturn]
  simp only [htext, hchunks]
  rfl

end Packet

theorem zeroWire_arrive (out : Outgoing) (front : List UInt8) {piece rest : List UInt8}
    (hout : out.2 = front ++ (piece ++ rest)) (buf : List UInt8) :
    (zeroWire out front.length buf).step (.arrive piece.length) =
      some ([], zeroWire out (front ++ piece).length (buf ++ piece)) := by
  have hfits : front.length + piece.length ≤ out.2.length := by
    rw [hout, List.length_append, List.length_append]
    omega
  have hcome : (out.2.drop front.length).take piece.length = piece := by
    rw [hout, List.drop_left, List.take_left]
  rw [Direction.step, zeroWire, if_pos hfits, hcome, ← List.length_append]
  rfl

/-- What goes over the line: the file, and then two bytes. -/
def written : Outgoing :=
  (sender 3, frame 0 noteChunk ++ frame 1 [0x41] ++ frame 2 [0x44])

/-- What comes first: the last frame is not complete. -/
def firstPiece : List UInt8 :=
  frame 0 noteChunk ++ (frame 1 [0x41] ++ (frame 2 [0x44]).take 12)

theorem written_snd : written.2 = firstPiece ++ (frame 2 [0x44]).drop 12 := by
  simp only [written, firstPiece, List.append_assoc, List.take_append_drop]

theorem length_firstPiece : firstPiece.length = 91 := by
  have hchunk : noteChunk.length = 12 := by decide
  simp only [firstPiece, List.length_append, List.length_take, length_frame, hchunk,
    List.length_singleton]
  rfl

theorem written_arrive :
    (zeroWire written 0 []).step (.arrive 91) = some ([], zeroWire written 91 firstPiece) := by
  have h := zeroWire_arrive written [] (written_snd.trans (List.nil_append _).symm) []
  rwa [length_firstPiece, List.nil_append, List.length_nil, length_firstPiece] at h

theorem length_lastPiece : ((frame 2 [0x44]).drop 12).length = 22 := by
  rw [List.length_drop, length_frame]
  rfl

theorem written_arrive_rest :
    (zeroWire written 91 ((frame 2 [0x44]).take 12)).step (.arrive 22) =
      some ([], zeroWire written 113 (frame 2 [0x44] ++ [])) := by
  have hout : written.2 = firstPiece ++ ((frame 2 [0x44]).drop 12 ++ []) := by
    rw [List.append_nil, written_snd]
  have h := zeroWire_arrive written firstPiece hout ((frame 2 [0x44]).take 12)
  rwa [length_firstPiece, length_lastPiece, List.take_append_drop, List.length_append,
    length_firstPiece, length_lastPiece, ← List.append_nil (frame 2 [0x44])] at h

theorem written_settled : (zeroWire written 113 []).Settled where
  intact := rfl
  arrived := by
    rw [zeroWire, written_snd, List.length_append, length_firstPiece, length_lastPiece]
  open_ := rfl
  waits := by decide

/-- Two nodes connect, and two clients of the one and one of the other come. -/
def connected : State Bool where
  lines := [⟨false, true, 1, zeroWire (sender 0, []) 0 [], .running 0⟩,
    ⟨true, false, 0, zeroWire (sender 0, []) 0 [], .running 0⟩]
  clients := [⟨false, [], true⟩, ⟨false, [], true⟩, ⟨true, [], true⟩]
  peers := Function.update (Function.update (fun _ => .empty) true
    (Peers.empty.addPeer Session.zeroKeys (leVector 4 0) 0)) false
    (Peers.empty.addPeer Session.zeroKeys (leVector 4 0) 0)
  object := Function.update (Function.update (fun _ _ => 0) true
    (Function.update (fun _ => 0) 0 1)) false (Function.update (fun _ => 0) 0 0)
  msgs := fun _ => .empty

theorem connected_runs :
    Runs zeroPk connected [.quiet, .quiet, .quiet, .quiet, .quiet, .quiet] := by
  have h₁ : Runs zeroPk _ _ :=
    .step .start (.establish .start false true Session.zeroKeys_mirrored rfl rfl)
  have h₂ := h₁.step (.add (i := 0) rfl rfl (leVector 4 0) 0)
  have h₃ := h₂.step (.add (i := 1) rfl rfl (leVector 4 0) 0)
  exact ((h₃.step (.client _ false)).step (.client _ false)).step (.client _ true)

/-- What a command of a node finds: every path leads to the file. -/
def surroundings (n : Bool) : Surroundings :=
  ⟨connected.peers n, fun _ => some note.data, fun _ => false, fun _ _ => true⟩

theorem Runs.commanded {st : State Bool} {t : List (Event Bool)} (h : Runs zeroPk st t) {c : ℕ}
    {n : Bool} (hc : st.clients[c]? = some ⟨n, [], true⟩) (hpeers : connected.peers n = st.peers n)
    (cmd : List UInt8) (hgoes : crashes (surroundings n) cmd = false) :
    Runs zeroPk (st.command c n (surroundings n) cmd)
      (t ++ [.commanded n c cmd (handle (surroundings n) (st.msgs n) cmd).written
        (st.sends n (surroundings n) cmd)]) :=
  h.step (.command hc hpeers hgoes)

/-- What is seen up to the first RECV: the first client broadcasts a byte, but the file of the
second goes over the line before it. Then the first client sends another byte. -/
def untilFirst (a b c : List UInt8) : List (Event Bool) :=
  [.quiet, .quiet, .quiet, .quiet, .quiet, .quiet,
    .commanded false 0 (ascii "BROADCAST A") a [(0, byte 0x41)],
    .commanded false 1 (ascii "SENDFILE 1 f") b [(0, note)],
    .attempted 1 0 7 note, .attempted 0 0 0 (byte 0x41),
    .commanded false 0 (ascii "SEND 1 D") c [(0, byte 0x44)],
    .attempted 0 0 0 (byte 0x44), .pushed true 0 [],
    .pushed true 0 [⟨pkHex (zeroPk false), note.data⟩],
    .pushed true 0 [⟨pkHex (zeroPk false), [0x41]⟩]]

/-- What is seen after it, up to the second. -/
def untilSecond : List (Event Bool) :=
  [.pushed true 0 [], .pushed true 0 [⟨pkHex (zeroPk false), [0x44]⟩]]

/-- All that is seen, with the answers. -/
def seen (a b c d e : List UInt8) : List (Event Bool) :=
  untilFirst a b c ++ .commanded true 2 (ascii "RECV") d [] ::
    (untilSecond ++ [.commanded true 2 (ascii "RECV") e []])

theorem seen_runs : ∃ st a b c d e, Runs zeroPk st (seen a b c d e) ∧ st.SettledAt true ∧
    st.endpoints = [(false, true), (true, false)] := by
  have h₁ := connected_runs.commanded (c := 0) rfl rfl (ascii "BROADCAST A") rfl
  have h₂ := h₁.commanded (c := 1) rfl rfl (ascii "SENDFILE 1 f") rfl
  have h₃ := h₂.step (.send (c := 1) (i := 0) rfl rfl rfl
    (zeroWire_write note_clean note_plaintexts 0 [] 0 []))
  have h₄ := h₃.step (.send (c := 0) (i := 0) rfl rfl rfl
    (zeroWire_write (byte_clean 0x41) (byte_plaintexts 0x41) 1 _ 0 []))
  have h₅ := h₄.commanded (c := 0) rfl rfl (ascii "SEND 1 D") rfl
  have h₆ := h₅.step (.send (c := 0) (i := 0) rfl rfl rfl
    (zeroWire_write (byte_clean 0x44) (byte_plaintexts 0x44) 2 _ 0 []))
  -- the first two frames arrive, and a part of the third
  have h₇ := h₆.step (.wire (i := 0) rfl (a := .arrive 91) rfl (fun h => nomatch h)
    written_arrive)
  have h₈ := h₇.step (.wire (i := 0) rfl (a := .turn) rfl (fun _ => ⟨0, rfl⟩)
    (zeroWire_turn note_clean note_plaintexts _ _ 0 _))
  have h₉ := h₈.step (.wire (i := 0) rfl (a := .turn) rfl (fun _ => ⟨0, rfl⟩)
    (zeroWire_turn (byte_clean 0x41) (byte_plaintexts 0x41) _ _ 1 _))
  have h₁₀ := h₉.commanded (c := 2) rfl rfl (ascii "RECV") rfl
  have h₁₁ := h₁₀.step (.wire (i := 0) rfl (a := .arrive 22) rfl (fun h => nomatch h)
    written_arrive_rest)
  have h₁₂ := h₁₁.step (.wire (i := 0) rfl (a := .turn) rfl (fun _ => ⟨0, rfl⟩)
    (zeroWire_turn (byte_clean 0x44) (byte_plaintexts 0x44) _ _ 2 []))
  have h₁₃ := h₁₂.commanded (c := 2) rfl rfl (ascii "RECV") rfl
  refine ⟨_, _, _, _, _, _, h₁₃, ⟨?_, ?_⟩, rfl⟩
  · intro cl hcl s hs
    have hnone : cl.pending = [] := by
      rcases hcl with _ | ⟨_, _ | ⟨_, _ | ⟨_, hcl⟩⟩⟩
      · rfl
      · rfl
      · rfl
      · cases hcl
    rw [hnone] at hs
    cases hs
  · intro l hl htarget
    rcases List.mem_pair.mp hl with rfl | rfl
    · exact written_settled
    · cases htarget

theorem seen_clean (a b c d e : List UInt8) : ∀ o ∈ orders (seen a b c d e), o.2.2.Clean := by
  intro o ho
  have hmem : o ∈ [(0, (0, byte 0x41)), (1, (0, note)), (0, (0, byte 0x44))] := ho
  simp only [List.mem_cons, List.not_mem_nil, or_false] at hmem
  rcases hmem with rfl | rfl | rfl
  · exact byte_clean _
  · exact note_clean
  · exact byte_clean _

/-- The three messages as the shell gets them, in the order of the commands. -/
def threeMessages : List (List UInt8 × List UInt8) :=
  [[0x41], note.data, [0x44]].map fun text => (ascii (pkHex (zeroPk false)), text)

theorem addressed_seen {st : State Bool} (hends : st.endpoints = [(false, true), (true, false)])
    (a b c d e : List UInt8) :
    (addressed zeroPk st true (seen a b c d e)).map shown = threeMessages := by
  simp [addressed, seen, untilFirst, untilSecond, hends, threeMessages, shown, byte]

/-- The shell of the other node gets each of the three messages, once. -/
theorem Runs.exactly_once_threeMessages :
    ∃ (st : State Bool) (t : List (Event Bool)), Runs zeroPk st t ∧
      ∀ os, (shownAt os true t ++ (st.msgs true).msgs.map shown).Perm threeMessages := by
  obtain ⟨st, a, b, c, d, e, h, hsettled, hends⟩ := seen_runs
  refine ⟨st, _, h, fun os => ?_⟩
  have hfew : (pushedAt true (seen a b c d e)).length ≤ 200 := by
    simp [pushedAt, seen, untilFirst, untilSecond]
  rw [← addressed_seen hends a b c d e]
  exact (h.exactly_once (seen_clean a b c d e) os true).2 hsettled (noOverflow_of_length_le hfew)

/-- The file has overtaken the first byte, but not the second that of the same client. -/
theorem Runs.in_order_threeMessages :
    ∃ (st : State Bool) (t : List (Event Bool)), Runs zeroPk st t ∧
      triesOver 0 t = [(1, note), (0, byte 0x41), (0, byte 0x44)] ∧
      lane 0 (pushes t) <+:
        (triesOver 0 t).map (fun e => ⟨pkHex (zeroPk false), e.2.data⟩) ∧
      lane 0 (triesOver 0 t) <+: forLine 0 (lane 0 (orders t)) := by
  obtain ⟨st, a, b, c, d, e, h, -, hends⟩ := seen_runs
  have hlen : 0 < st.lines.length := by
    rw [← length_endpoints, hends]
    exact Nat.zero_lt_succ _
  obtain ⟨hpushes, htries⟩ :=
    h.in_order (seen_clean a b c d e) (List.getElem?_eq_getElem hlen)
  exact ⟨st, _, h, rfl, hpushes, htries 0⟩

theorem waiting_untilFirst (a b c : List UInt8) : waiting true (untilFirst a b c) =
    [⟨pkHex (zeroPk false), note.data⟩, ⟨pkHex (zeroPk false), [0x41]⟩] := by
  simp [waiting, waitingStep, untilFirst]

theorem waiting_untilSecond (a b c d : List UInt8) :
    waiting true (untilFirst a b c ++ .commanded true 2 (ascii "RECV") d [] :: untilSecond) =
      [⟨pkHex (zeroPk false), [0x44]⟩] := by
  simp [waiting, waitingStep, untilFirst, untilSecond]

/-- The first RECV gets what has come whole, and the second the rest. -/
theorem Runs.recv_shows_threeMessages : ∃ first second : List UInt8, ∀ os,
    shellReads os first = [(ascii (pkHex (zeroPk false)), note.data),
      (ascii (pkHex (zeroPk false)), [0x41])] ∧
    shellReads os second = [(ascii (pkHex (zeroPk false)), [0x44])] := by
  obtain ⟨st, a, b, c, d, e, h, -⟩ := seen_runs
  have hlater : seen a b c d e =
      (untilFirst a b c ++ .commanded true 2 (ascii "RECV") d [] :: untilSecond) ++
        .commanded true 2 (ascii "RECV") e [] :: [] := by
    rw [seen, List.append_assoc, List.cons_append]
  refine ⟨d, e, fun os => ⟨?_, ?_⟩⟩
  · rw [h.recv_shows rfl os, waiting_untilFirst]
    rfl
  · rw [h.recv_shows hlater os, waiting_untilSecond]
    rfl

/-- The file stands on the screen as one message of two lines. -/
theorem Runs.screen_reads_threeMessages : ∃ answer : List UInt8, ∀ os,
    readScreen (screen (shellReads os answer)) =
      [(ascii (pkHex (zeroPk false)), [[0x42], [0x43]]), (ascii (pkHex (zeroPk false)), [[0x41]])] ∧
    (readScreen (screen (shellReads os answer))).Subperm (threeMessages.map onScreen) := by
  obtain ⟨st, a, b, c, d, e, h, -, hends⟩ := seen_runs
  refine ⟨d, fun os => ?_⟩
  obtain ⟨hreads, hasked⟩ := h.screen_reads rfl os
  have hall := hasked (seen_clean a b c d e)
  rw [addressed_seen hends] at hall
  refine ⟨?_, hall⟩
  rw [hreads, waiting_untilFirst]
  rfl

end PeerToPeer.Mesh
