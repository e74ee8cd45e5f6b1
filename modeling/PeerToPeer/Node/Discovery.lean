import PeerToPeer.Coordinator.Presence
import PeerToPeer.Node.Daemon

/-!
How nodes find each other.

A node calls `coordinator_register_and_get` at its start and at every tick of the refresh: it
registers, waits for the `ok`, asks for the peers, and dials those that are new to it. Any
number of calls are under way at a time, each over a connection of its own, among other
clients that send what they like. A connection may break at any point, and the call returns
the empty list then.
-/

namespace PeerToPeer.Node.Discovery

open Lib Crypto Net Protocol Coordinator

/-! ### Calls -/

/-- Where a call stands. -/
inductive Phase where
  /-- REGISTER has been sent. -/
  | registering
  /-- GET_PEERS has been sent. -/
  | asking
  /-- The list has come. -/
  | returned (peers : List PeerInfo)
  /-- The call has returned the empty list before that. -/
  | failed
  deriving DecidableEq

/-- A call of `coordinator_register_and_get`, with the bytes that are on their way to the
coordinator and back. -/
structure Call where
  pubkey : Bytes 32
  listenPort : UInt16
  phase : Phase
  up : List UInt8
  down : List UInt8

namespace Call

/-- The connection is there, and REGISTER has been sent. -/
def start (pubkey : Bytes 32) (listenPort : UInt16) : Call :=
  ⟨pubkey, listenPort, .registering, frameBytes (buildRegister listenPort pubkey), []⟩

/-- The call is in `recv_frame`. -/
def waiting (call : Call) : Prop := call.phase = .registering ∨ call.phase = .asking

/-- `recv_frame` returns, and the call goes on. -/
def proceed (call : Call) : Call :=
  match recvFrame call.down with
  | (none, rest) => { call with phase := .failed, down := rest }
  | (some frame, rest) =>
      match call.phase with
      | .registering =>
          if getType frame = MsgType.ok.code then
            { call with phase := .asking, up := call.up ++ frameBytes buildGetPeers, down := rest }
          else { call with phase := .failed, down := rest }
      | .asking => { call with phase := .returned ((parsePeerList frame).getD []), down := rest }
      | _ => call

theorem not_waiting_of_returned {call : Call} {peers : List PeerInfo}
    (h : call.phase = .returned peers) : ¬call.waiting := by
  rintro (heq | heq) <;> rw [h] at heq <;> cases heq

theorem not_waiting_of_failed {call : Call} (h : call.phase = .failed) : ¬call.waiting := by
  rintro (heq | heq) <;> rw [h] at heq <;> cases heq

end Call

/-- The entries that `run` and `run_daemon` dial of the list that they get at the start. The
refresh passes over those with a connection as well. -/
def toDial (ipk : Bytes 32) (peers : List PeerInfo) : List PeerInfo :=
  peers.filter fun pi => decide (pi.pubkey ≠ ipk)

/-! ### The calls and the coordinator -/

/-- The coordinator, and the calls by the number of their connection. -/
structure State where
  coordinator : Coordinator.State
  calls : ℕ → Option Call

/-- The connection whose thread makes a step. -/
def thread : Coordinator.Action → Option ℕ
  | .accept _ => none
  | .receive c _ _ => some c
  | .answer c => some c

/-- The thread of a connection takes a frame from it. -/
def takes (c : ℕ) : Coordinator.Action → Bool
  | .receive c' (some _) _ => decide (c' = c)
  | _ => false

/-- What the thread of a connection sends. -/
def sends (c : ℕ) : Coordinator.Event → List UInt8
  | .registered c' _ => if c' = c then frameBytes buildOk else []
  | .replied c' _ frame => if c' = c then frameBytes frame else []
  | _ => []

/-- A call after a step of the coordinator. -/
def Call.served (call : Call) (c : ℕ) (a : Coordinator.Action) (ev : Coordinator.Event) : Call :=
  { call with
    up := if takes c a then (recvFrame call.up).2 else call.up
    down := call.down ++ sends c ev }

/-- Threads get what the calls have sent; from other clients, anything. -/
def State.Delivers (st : State) : Coordinator.Action → Prop
  | .receive c (some frame) _ => ∀ call, st.calls c = some call →
      frameReady call.up = true ∧ (recvFrame call.up).1 = some frame
  | _ => True

/-- The steps of the nodes, of the coordinator and of its other clients, with what has
happened at the coordinator. -/
inductive Step : State → List Coordinator.Event → State → Prop
  | call {st : State} {ip : Bytes 4} {co : Coordinator.State} {ev : Coordinator.Event}
      (hs : Coordinator.step st.coordinator (.accept ip) = some (co, ev)) (pubkey : Bytes 32)
      (listenPort : UInt16) :
      Step st [ev] ⟨co, Function.update st.calls st.coordinator.connections.length
        (some (.start pubkey listenPort))⟩
  | serve {st : State} {a : Coordinator.Action} {co : Coordinator.State}
      {ev : Coordinator.Event} (hs : Coordinator.step st.coordinator a = some (co, ev))
      (hin : st.Delivers a) :
      Step st [ev] ⟨co, fun c => (st.calls c).map fun call => call.served c a ev⟩
  | proceed {st : State} {c : ℕ} {call : Call} (hc : st.calls c = some call)
      (hwaiting : call.waiting) (hready : frameReady call.down = true) :
      Step st [] { st with calls := Function.update st.calls c (some call.proceed) }
  /-- The connection of a call is lost. -/
  | fail {st : State} {c : ℕ} {call : Call} (hc : st.calls c = some call)
      (hwaiting : call.waiting) :
      Step st []
        { st with calls := Function.update st.calls c (some { call with phase := .failed }) }

/-- The states that can be reached, with what has happened at the coordinator. -/
inductive Runs : State → List Coordinator.Event → Prop
  | start (clock : Time) : Runs ⟨⟨clock, [], []⟩, fun _ => none⟩ []
  | step {st st' : State} {t evs : List Coordinator.Event} (h : Runs st t)
      (hs : Step st evs st') : Runs st' (t ++ evs)

/-- The coordinator serves the calls as it serves anyone. -/
theorem Runs.coordinator {st : State} {t : List Coordinator.Event} (h : Runs st t) :
    Coordinator.Runs st.coordinator t := by
  induction h with
  | start clock => exact .start clock
  | step _ hs ih =>
      cases hs with
      | call hs => exact .step _ ih hs
      | serve hs => exact .step _ ih hs
      | proceed => exact (List.append_nil _).symm ▸ ih
      | fail => exact (List.append_nil _).symm ▸ ih

/-! ### What a call has come to -/

/-- The thread of a connection is not about to answer. -/
def Idle (co : Coordinator.State) (c : ℕ) : Prop :=
  ∀ ip now, co.connections[c]? ≠ some ⟨ip, .answering now⟩

/-- The registration of a call has been made. -/
def Registered (t : List Coordinator.Event) (c : ℕ) (call : Call) : Prop :=
  ∃ p, .registered c p ∈ t ∧ p.pi.port = call.listenPort ∧ p.key = call.pubkey

/-- A call has been answered after that. -/
def Replied (t : List Coordinator.Event) (c : ℕ) (call : Call) (frame : Frame) : Prop :=
  ∃ before now after, t = before ++ .replied c now frame :: after ∧ Registered before c call

/-- A call, the bytes on its connection and the thread at the other end fit together. -/
inductive Stands (co : Coordinator.State) (t : List Coordinator.Event) (c : ℕ) (call : Call) :
    Prop
  | registering (hphase : call.phase = .registering)
      (hup : call.up = frameBytes (buildRegister call.listenPort call.pubkey))
      (hdown : call.down = []) (hidle : Idle co c)
  | registered (hphase : call.phase = .registering) (hup : call.up = [])
      (hdown : call.down = frameBytes buildOk) (hreg : Registered t c call) (hidle : Idle co c)
  | asking (hphase : call.phase = .asking) (hup : call.up = frameBytes buildGetPeers)
      (hdown : call.down = []) (hreg : Registered t c call) (hidle : Idle co c)
  | asked (hphase : call.phase = .asking) (hup : call.up = []) (hdown : call.down = [])
      (hreg : Registered t c call)
  | replied {frame : Frame} (hphase : call.phase = .asking) (hup : call.up = [])
      (hdown : call.down = frameBytes frame) (hreplied : Replied t c call frame)
      (hidle : Idle co c)
  | returned {frame : Frame}
      (hphase : call.phase = .returned (coordinatorGetPeers (frameBytes frame)))
      (hreplied : Replied t c call frame)
  | failed (hphase : call.phase = .failed)

section Stands

variable {co co' : Coordinator.State} {t : List Coordinator.Event} {c : ℕ} {call : Call}

theorem Registered.append (h : Registered t c call) (more : List Coordinator.Event) :
    Registered (t ++ more) c call := by
  obtain ⟨p, hp, hpi⟩ := h
  exact ⟨p, List.mem_append_left _ hp, hpi⟩

theorem Replied.append {frame : Frame} (h : Replied t c call frame)
    (more : List Coordinator.Event) : Replied (t ++ more) c call frame := by
  obtain ⟨before, now, after, rfl, hreg⟩ := h
  exact ⟨before, now, after ++ more, by simp, hreg⟩

/-- What happens elsewhere does not matter. -/
theorem Stands.append (h : Stands co t c call) (hidle : Idle co c → Idle co' c)
    (more : List Coordinator.Event) : Stands co' (t ++ more) c call := by
  cases h with
  | registering hphase hup hdown hold => exact .registering hphase hup hdown (hidle hold)
  | registered hphase hup hdown hreg hold =>
      exact .registered hphase hup hdown (hreg.append more) (hidle hold)
  | asking hphase hup hdown hreg hold =>
      exact .asking hphase hup hdown (hreg.append more) (hidle hold)
  | asked hphase hup hdown hreg => exact .asked hphase hup hdown (hreg.append more)
  | replied hphase hup hdown hreplied hold =>
      exact .replied hphase hup hdown (hreplied.append more) (hidle hold)
  | returned hphase hreplied => exact .returned hphase (hreplied.append more)
  | failed hphase => exact .failed hphase

/-- A call that is over stays as it is. -/
theorem Stands.of_not_waiting (h : Stands co t c call) (hover : ¬call.waiting) {call' : Call}
    (hphase' : call'.phase = call.phase) (hport : call'.listenPort = call.listenPort)
    (hpk : call'.pubkey = call.pubkey) (more : List Coordinator.Event) :
    Stands co' (t ++ more) c call' := by
  cases h with
  | registering hphase => exact absurd (.inl hphase) hover
  | registered hphase => exact absurd (.inl hphase) hover
  | asking hphase => exact absurd (.inr hphase) hover
  | asked hphase => exact absurd (.inr hphase) hover
  | replied hphase => exact absurd (.inr hphase) hover
  | returned hphase hreplied =>
      refine .returned (hphase'.trans hphase) ?_
      obtain ⟨before, now, after, rfl, p, hp, hpi⟩ := hreplied
      exact ⟨before, now, after ++ more, by simp, p, hp, by rw [hport, hpk]; exact hpi⟩
  | failed hphase => exact .failed (hphase'.trans hphase)

theorem idle_setThread (h : Idle co c) {c' : ℕ} {ip : Bytes 4} {th : Thread}
    (hth : c' ≠ c ∨ ∀ now, th ≠ .answering now)
    (hconn : co'.connections = co.setThread c' ip th) : Idle co' c := by
  intro ip' now hget
  rw [hconn, State.setThread, List.getElem?_set] at hget
  split at hget
  · rename_i heq
    split at hget
    · cases hget
      rcases hth with hne | hth
      · exact hne heq
      · exact hth now rfl
    · cases hget
  · exact h ip' now hget

/-- Other threads, and the end of the connection, leave a call alone. -/
theorem step_elsewhere {a : Coordinator.Action} {ev : Coordinator.Event}
    (hs : Coordinator.step co a = some (co', ev)) (htakes : takes c a = false)
    (hanswer : a ≠ .answer c) : sends c ev = [] ∧ (Idle co c → Idle co' c) := by
  cases a with
  | accept ip =>
      cases hs
      refine ⟨rfl, fun h ip' now hget => ?_⟩
      rw [List.getElem?_append] at hget
      split at hget
      · exact h ip' now hget
      · rw [List.getElem?_singleton] at hget
        split at hget <;> cases hget
  | receive c' frame now =>
      simp only [Coordinator.step] at hs
      split at hs
      · split at hs
        · cases hs
        · rw [Option.some.injEq] at hs
          cases frame with
          | none =>
              cases hs
              refine ⟨rfl, fun h => idle_setThread h (.inr ?_) rfl⟩
              intro now' heq
              cases heq
          | some f =>
              have hne : c' ≠ c := by simpa [takes] using htakes
              simp only [handleFrame] at hs
              split at hs
              · split at hs
                · cases hs
                  exact ⟨rfl, fun h => idle_setThread h (.inl hne) rfl⟩
                · cases hs
                  exact ⟨if_neg hne, id⟩
              · split at hs
                · cases hs
                  exact ⟨rfl, fun h => idle_setThread h (.inl hne) rfl⟩
                · cases hs
                  exact ⟨rfl, fun h => idle_setThread h (.inl hne) rfl⟩
      · cases hs
  | answer c' =>
      have hne : c' ≠ c := fun heq => hanswer (heq ▸ rfl)
      simp only [Coordinator.step] at hs
      split at hs
      · cases hs
        exact ⟨if_neg hne, fun h => idle_setThread h (.inl hne) rfl⟩
      · cases hs

/-- The thread of a connection gets a REGISTER. -/
theorem step_register {pubkey : Bytes 32} {port : UInt16} {now : Time}
    {ev : Coordinator.Event}
    (hs : Coordinator.step co (.receive c (some (buildRegister port pubkey)) now) =
      some (co', ev)) (hidle : Idle co c) :
    Idle co' c ∧ ∃ p : TimedPeer, ev = .registered c p ∧ p.pi.port = port ∧ p.key = pubkey := by
  have htype : getType (buildRegister port pubkey) = MsgType.registerNode.code := rfl
  simp only [Coordinator.step] at hs
  split at hs
  · split at hs
    · cases hs
    · simp only [handleFrame, htype, if_true, parseRegister_buildRegister, Option.some.injEq] at hs
      cases hs
      exact ⟨hidle, _, rfl, rfl, rfl⟩
  · cases hs

/-- The thread of a connection gets a GET_PEERS. -/
theorem step_getPeers {now : Time} {ev : Coordinator.Event}
    (hs : Coordinator.step co (.receive c (some buildGetPeers) now) = some (co', ev)) :
    ev = .asked c now := by
  have hregister : MsgType.getPeers.code ≠ MsgType.registerNode.code := by decide
  have htype : getType buildGetPeers = MsgType.getPeers.code := rfl
  simp only [Coordinator.step] at hs
  split at hs
  · split at hs
    · cases hs
    · rw [handleFrame, htype, if_neg hregister, if_pos rfl] at hs
      cases hs
      rfl
  · cases hs

/-- The thread of a connection answers, if it was asked. -/
theorem step_answer {ev : Coordinator.Event}
    (hs : Coordinator.step co (.answer c) = some (co', ev)) :
    ¬Idle co c ∧ Idle co' c ∧ ∃ now frame, ev = .replied c now frame := by
  simp only [Coordinator.step] at hs
  split at hs
  · rename_i ip now hget
    cases hs
    refine ⟨fun h => h ip now hget, ?_, now, _, rfl⟩
    intro ip' now' hget'
    rw [State.setThread, List.getElem?_set_self (List.getElem?_eq_some_iff.mp hget).1] at hget'
    cases hget'
  · cases hs

theorem recvFrame_whole {data : Frame} (h : data.length ≤ maxFrame) :
    recvFrame (frameBytes data) = (some data, []) := by
  have := recvFrame_frameBytes h []
  rwa [List.append_nil] at this

theorem recvFrame_buildRegister (port : UInt16) (pubkey : Bytes 32) :
    recvFrame (frameBytes (buildRegister port pubkey)) =
      (some (buildRegister port pubkey), []) := by
  apply recvFrame_whole
  simp [buildRegister, maxFrame]

/-- The call and the coordinator's thread for it go on together. -/
theorem Stands.serve (h : Stands co t c call) {a : Coordinator.Action} {ev : Coordinator.Event}
    (hs : Coordinator.step co a = some (co', ev))
    (hin : ∀ frame now, a = .receive c (some frame) now →
      frameReady call.up = true ∧ (recvFrame call.up).1 = some frame) :
    Stands co' (t ++ [ev]) c (call.served c a ev) := by
  by_cases hwaiting : call.waiting
  swap
  · apply h.of_not_waiting hwaiting <;> rfl
  by_cases htakes : takes c a = true
  · obtain ⟨frame, now, rfl⟩ : ∃ frame now, a = .receive c (some frame) now := by
      unfold takes at htakes
      split at htakes
      · exact ⟨_, _, by rw [of_decide_eq_true htakes]⟩
      · cases htakes
    obtain ⟨hready, hframe⟩ := hin frame now rfl
    cases h with
    | registering hphase hup hdown hidle =>
        rw [hup, recvFrame_buildRegister, Option.some.injEq] at hframe
        subst hframe
        obtain ⟨hidle', p, rfl, hport, hpk⟩ := step_register hs hidle
        refine .registered hphase ?_ ?_ ⟨p, by simp, hport, hpk⟩ hidle'
        · rw [Call.served, if_pos htakes, hup, recvFrame_buildRegister]
        · rw [Call.served, hdown]
          exact if_pos rfl
    | asking hphase hup hdown hreg hidle =>
        rw [hup, recvFrame_whole (by decide), Option.some.injEq] at hframe
        subst hframe
        obtain rfl := step_getPeers hs
        refine .asked hphase ?_ ?_ (hreg.append _)
        · rw [Call.served, if_pos htakes, hup, recvFrame_whole (by decide)]
        · rw [Call.served, hdown]
          rfl
    | registered hphase hup hdown hreg hidle =>
        rw [hup] at hready
        cases hready
    | asked hphase hup hdown hreg =>
        rw [hup] at hready
        cases hready
    | replied hphase hup hdown hreplied hidle =>
        rw [hup] at hready
        cases hready
    | returned hphase hreplied => exact absurd hwaiting (Call.not_waiting_of_returned hphase)
    | failed hphase => exact absurd hwaiting (Call.not_waiting_of_failed hphase)
  · rw [Bool.not_eq_true] at htakes
    have hup' : (call.served c a ev).up = call.up := by
      rw [Call.served, htakes]
      rfl
    by_cases hanswer : a = .answer c
    · subst hanswer
      obtain ⟨hbusy, hidle', now, frame, rfl⟩ := step_answer hs
      have hdown' : (call.served c (.answer c) (.replied c now frame)).down =
          call.down ++ frameBytes frame := congrArg (call.down ++ ·) (if_pos rfl)
      cases h with
      | registering _ _ _ hidle => exact absurd hidle hbusy
      | registered _ _ _ _ hidle => exact absurd hidle hbusy
      | asking _ _ _ _ hidle => exact absurd hidle hbusy
      | asked hphase hup hdown hreg =>
          refine .replied hphase (hup'.trans hup) ?_ ⟨t, now, [], rfl, hreg⟩ hidle'
          rw [hdown', hdown]
          rfl
      | replied _ _ _ _ hidle => exact absurd hidle hbusy
      | returned hphase hreplied => exact absurd hwaiting (Call.not_waiting_of_returned hphase)
      | failed hphase => exact absurd hwaiting (Call.not_waiting_of_failed hphase)
    · obtain ⟨hsends, hidle⟩ := step_elsewhere hs htakes hanswer
      have hserved : call.served c a ev = call := by
        rw [Call.served, htakes, hsends, List.append_nil]
        rfl
      rw [hserved]
      exact h.append hidle _

/-- The call reads what it was sent. -/
theorem Stands.proceed (h : Stands co t c call) (hwaiting : call.waiting)
    (hready : frameReady call.down = true) : Stands co t c call.proceed := by
  cases h with
  | registered hphase hup hdown hreg hidle =>
      have hproceed : call.proceed =
          { call with phase := .asking, up := frameBytes buildGetPeers, down := [] } := by
        rw [Call.proceed, hdown, recvFrame_whole (by decide)]
        simp only [hphase, getType_buildOk, if_true, hup, List.nil_append]
      rw [hproceed]
      exact .asking rfl rfl rfl hreg hidle
  | replied hphase hup hdown hreplied hidle =>
      rename_i frame
      rw [Call.proceed, hdown]
      split
      · exact .failed rfl
      · rename_i f rest hframe
        simp only [hphase]
        refine .returned ?_ hreplied
        simp only [coordinatorGetPeers, hframe]
  | registering hphase hup hdown hidle =>
      rw [hdown] at hready
      cases hready
  | asking hphase hup hdown hreg hidle =>
      rw [hdown] at hready
      cases hready
  | asked hphase hup hdown hreg =>
      rw [hdown] at hready
      cases hready
  | returned hphase hreplied => exact absurd hwaiting (Call.not_waiting_of_returned hphase)
  | failed hphase => exact absurd hwaiting (Call.not_waiting_of_failed hphase)

end Stands

/-! ### Runs -/

theorem update_some_cases {calls : ℕ → Option Call} {c c' : ℕ} {new call : Call}
    (h : Function.update calls c' (some new) c = some call) :
    c = c' ∧ new = call ∨ c ≠ c' ∧ calls c = some call := by
  by_cases heq : c = c'
  · subst heq
    rw [Function.update_self, Option.some.injEq] at h
    exact .inl ⟨rfl, h⟩
  · rw [Function.update_of_ne heq] at h
    exact .inr ⟨heq, h⟩

theorem Runs.stands {st : State} {t : List Coordinator.Event} (h : Runs st t) {c : ℕ}
    {call : Call} (hc : st.calls c = some call) : Stands st.coordinator t c call := by
  induction h generalizing c call with
  | start clock => cases hc
  | @step st st' t evs hrun hs ih =>
      cases hs with
      | @call ip co ev hs pubkey listenPort =>
          rcases update_some_cases hc with ⟨rfl, rfl⟩ | ⟨-, hold⟩
          · cases hs
            refine .registering rfl rfl rfl fun ip' now hget => ?_
            rw [List.getElem?_concat_length] at hget
            cases hget
          · exact (ih hold).append (step_elsewhere hs rfl nofun).2 _
      | @serve a co ev hs hin =>
          obtain ⟨call, hold, rfl⟩ := Option.map_eq_some_iff.mp hc
          refine (ih hold).serve hs ?_
          rintro frame now rfl
          exact hin call hold
      | @proceed c' call' hc' hwaiting hready =>
          rw [List.append_nil]
          rcases update_some_cases hc with ⟨rfl, rfl⟩ | ⟨-, hold⟩
          · exact (ih hc').proceed hwaiting hready
          · exact ih hold
      | @fail c' call' hc' hwaiting =>
          rw [List.append_nil]
          rcases update_some_cases hc with ⟨rfl, rfl⟩ | ⟨-, hold⟩
          · exact .failed rfl
          · exact ih hold

/-- What a call has returned is what the coordinator answered after its registration. -/
theorem Runs.replied {st : State} {t : List Coordinator.Event} (h : Runs st t) {c : ℕ}
    {call : Call} (hc : st.calls c = some call) {peers : List PeerInfo}
    (hphase : call.phase = .returned peers) :
    ∃ frame, Replied t c call frame ∧ peers = coordinatorGetPeers (frameBytes frame) := by
  cases h.stands hc with
  | returned hphase' hreplied =>
      rw [hphase, Phase.returned.injEq] at hphase'
      exact ⟨_, hreplied, hphase'⟩
  | registering hphase' => cases hphase.symm.trans hphase'
  | registered hphase' => cases hphase.symm.trans hphase'
  | asking hphase' => cases hphase.symm.trans hphase'
  | asked hphase' => cases hphase.symm.trans hphase'
  | replied hphase' => cases hphase.symm.trans hphase'
  | failed hphase' => cases hphase.symm.trans hphase'

/-- An answer lists the calls that were registered before, as far as they have not expired. -/
theorem Runs.finds {st : State} {t : List Coordinator.Event} (h : Runs st t)
    {before after : List Coordinator.Event} {b : ℕ} {now : Time} {frame : Frame}
    (ht : t = before ++ .replied b now frame :: after) {a : ℕ} {ca : Call}
    (hreg : Registered before a ca)
    (hfresh : ∀ p now, .registered a p ∈ t → .asked b now ∈ t → now - p.lastSeen ≤ peerTtl)
    (hsize : st.coordinator.peers.length ≤ maxPeers) :
    ∃ pi ∈ coordinatorGetPeers (frameBytes frame), pi.pubkey = ca.pubkey ∧
      ∃ c now, .registered c ⟨pi, now⟩ ∈ t := by
  obtain ⟨p, hp, -, hpk⟩ := hreg
  have hasked := (h.coordinator.replied ht).1
  have hbefore : ∀ ev ∈ before, ev ∈ t := fun ev hev => ht ▸ List.mem_append_left _ hev
  obtain ⟨entries, rfl, hlength, q, hq, hmem, hkey⟩ := h.coordinator.listed ht
    (mem_registrations hp) (hfresh p now (hbefore _ hp) (hbefore _ hasked))
  obtain ⟨c, hc⟩ := exists_of_mem_registrations hq
  rw [coordinatorGetPeers_of_le (hlength.trans hsize)]
  exact ⟨q.pi, hmem, hkey.trans hpk, c, q.lastSeen, hbefore _ hc⟩

theorem mem_toDial {ipk : Bytes 32} {peers : List PeerInfo} {pi : PeerInfo} :
    pi ∈ toDial ipk peers ↔ pi ∈ peers ∧ pi.pubkey ≠ ipk := by
  rw [toDial, List.mem_filter, decide_eq_true_eq]

/-- `run_daemon` comes to dial these entries. -/
theorem dialNext_all (st : Daemon) :
    (List.replicate st.initial.length Daemon.Action.dialNext).foldlM Daemon.step st =
      some { st with initial := [], dialing := st.dialing ++ toDial st.ipk st.initial } := by
  obtain ⟨ipk, peers, initial, fresh, dialing, reached, accepting⟩ := st
  induction initial generalizing dialing with
  | nil => simp [toDial]
  | cons pi rest ih =>
      rw [List.length_cons, List.replicate_succ, List.foldlM_cons]
      by_cases hself : pi.pubkey = ipk
      · simp only [Daemon.step, if_pos hself]
        simpa [toDial, hself] using ih dialing
      · simp only [Daemon.step, if_neg hself]
        simpa [toDial, hself] using ih (dialing ++ [pi])

/-- Two nodes have called `coordinator_register_and_get` and have got their lists, neither of
them later than the registration of the other allows. Then one of the two dials the other, at
the address and the port of a registration of its key. -/
theorem Runs.rendezvous {st : State} {t : List Coordinator.Event} (h : Runs st t) {a b : ℕ}
    {ca cb : Call} (ha : st.calls a = some ca) (hb : st.calls b = some cb)
    {la lb : List PeerInfo} (hla : ca.phase = .returned la) (hlb : cb.phase = .returned lb)
    (hne : ca.pubkey ≠ cb.pubkey)
    (hfresh : ∀ p now, .registered a p ∈ t → .asked b now ∈ t → now - p.lastSeen ≤ peerTtl)
    (hfresh' : ∀ p now, .registered b p ∈ t → .asked a now ∈ t → now - p.lastSeen ≤ peerTtl)
    (hsize : st.coordinator.peers.length ≤ maxPeers) :
    (∃ pi ∈ toDial cb.pubkey lb, pi.pubkey = ca.pubkey ∧
      ∃ c now, .registered c ⟨pi, now⟩ ∈ t) ∨
    ∃ pi ∈ toDial ca.pubkey la, pi.pubkey = cb.pubkey ∧
      ∃ c now, .registered c ⟨pi, now⟩ ∈ t := by
  obtain ⟨fa, ⟨beforeA, nowA, afterA, htA, hregA⟩, rfl⟩ := h.replied ha hla
  obtain ⟨fb, ⟨beforeB, nowB, afterB, htB, hregB⟩, rfl⟩ := h.replied hb hlb
  -- the call that is answered last finds the other one
  have hprefixA : beforeA <+: t := htA ▸ List.prefix_append _ _
  have hprefixB : beforeB <+: t := htB ▸ List.prefix_append _ _
  rcases List.prefix_or_prefix_of_prefix hprefixA hprefixB with ⟨more, hmore⟩ | ⟨more, hmore⟩
  · obtain ⟨pi, hpi, hpk, hc⟩ := h.finds htB (hmore ▸ hregA.append more) hfresh hsize
    exact .inl ⟨pi, mem_toDial.mpr ⟨hpi, hpk ▸ hne⟩, hpk, hc⟩
  · obtain ⟨pi, hpi, hpk, hc⟩ := h.finds htA (hmore ▸ hregB.append more) hfresh' hsize
    exact .inr ⟨pi, mem_toDial.mpr ⟨hpi, hpk ▸ hne.symm⟩, hpk, hc⟩

/-- The keys of two nodes. -/
def keyOf (x : UInt8) : Bytes 32 := Vector.replicate 32 x

/-- Two nodes register before either of them asks. -/
theorem Runs.rendezvous_crossed :
    ∃ st t la lb, Runs st t ∧
      ((∃ pi ∈ toDial (keyOf 2) lb, pi.pubkey = keyOf 1 ∧
        ∃ c now, .registered c ⟨pi, now⟩ ∈ t) ∨
      ∃ pi ∈ toDial (keyOf 1) la, pi.pubkey = keyOf 2 ∧
        ∃ c now, .registered c ⟨pi, now⟩ ∈ t) := by
  have h₀ := Runs.step (.start 0) (.call
    (rfl : Coordinator.step _ (.accept #v[10, 0, 0, 1]) = _) (keyOf 1) 7000)
  have h₁ := Runs.step h₀ (.call
    (rfl : Coordinator.step _ (.accept #v[10, 0, 0, 2]) = _) (keyOf 2) 7000)
  have h₂ := Runs.step h₁ (.serve (a := .receive 0 (some (buildRegister 7000 (keyOf 1))) 1) rfl
    (by rintro _ ⟨⟩; exact ⟨rfl, rfl⟩))
  have h₃ := Runs.step h₂ (.serve (a := .receive 1 (some (buildRegister 7000 (keyOf 2))) 2) rfl
    (by rintro _ ⟨⟩; exact ⟨rfl, rfl⟩))
  have h₄ := Runs.step h₃ (.proceed (c := 0) rfl (.inl rfl) rfl)
  have h₅ := Runs.step h₄ (.proceed (c := 1) rfl (.inl rfl) rfl)
  have h₆ := Runs.step h₅ (.serve (a := .receive 0 (some buildGetPeers) 3) rfl
    (by rintro _ ⟨⟩; exact ⟨rfl, rfl⟩))
  have h₇ := Runs.step h₆ (.serve (a := .receive 1 (some buildGetPeers) 4) rfl
    (by rintro _ ⟨⟩; exact ⟨rfl, rfl⟩))
  have h₈ := Runs.step h₇ (.serve (a := .answer 1) rfl trivial)
  have h₉ := Runs.step h₈ (.serve (a := .answer 0) rfl trivial)
  have h₁₀ := Runs.step h₉ (.proceed (c := 0) rfl (.inr rfl) rfl)
  have h₁₁ := Runs.step h₁₀ (.proceed (c := 1) rfl (.inr rfl) rfl)
  refine ⟨_, _, _, _, h₁₁,
    h₁₁.rendezvous (a := 0) (b := 1) rfl rfl rfl rfl (by decide) ?_ ?_ (by decide)⟩
  all_goals
    intro p now hp hnow
    simp only [List.mem_append, List.mem_singleton, List.not_mem_nil, reduceCtorEq, or_false,
      false_or, Coordinator.Event.registered.injEq, Coordinator.Event.asked.injEq, zero_ne_one,
      one_ne_zero, false_and, true_and] at hp hnow
    rw [hp, hnow]
    decide

end PeerToPeer.Node.Discovery
