import PeerToPeer.Control.Shell

/-!
The messages that the shell shows.

`recv_loop` pushes a message while it holds the lock of the queue, and `ctl_recv` takes
all messages out while it holds it. So deliveries and RECV commands come one after the
other, in some order. The shell gets what came since the last RECV, and of that the
last two hundred.
-/

namespace PeerToPeer.Control

open Crypto Node

inductive Event
  | /-- `recv_loop` has a text of a peer. -/
    deliver (pk : Bytes 32) (text : List UInt8)
  | /-- The shell calls `do_recv`. -/
    recv (node : Surroundings)

/-- A message as `do_recv` has it before it is shown: the sender and the text. -/
def shown (m : ReceivedMsg) : List UInt8 × List UInt8 := (ascii m.pkHex, m.text)

/-- What each `do_recv` decodes, along a run. -/
def decoded (w : Wires) (msgs : ReceivedMsgs) (link : Link) :
    List Event → List (Option (List (List UInt8 × List UInt8)))
  | [] => []
  | .deliver pk text :: events => decoded w (msgs.push pk text) link events
  | .recv node :: events =>
      let (handled, link) := link.sendCmd w node msgs (ascii "RECV")
      let (got, shell) := doRecv w.toShell link.shell
      got :: decoded w handled.msgs { link with shell := shell } events

/-- What each `do_recv` should decode; `pending` has come since the last one. -/
def delivered (pending : List ReceivedMsg) :
    List Event → List (List (List UInt8 × List UInt8))
  | [] => []
  | .deliver pk text :: events => delivered (pending ++ [⟨pkHex pk, text⟩]) events
  | .recv _ :: events => (ReceivedMsgs.lastOf pending).map shown :: delivered [] events

/-- One exchange of RECV. -/
theorem Link.Idle.recv {link : Link} (h : link.Idle) (w : Wires) (node : Surroundings)
    (msgs : ReceivedMsgs) :
    ∃ link' shell, link.sendCmd w node msgs (ascii "RECV") =
        (⟨ctlRecv msgs.msgs, .empty, true⟩, link') ∧
      doRecv w.toShell link'.shell = (some (msgs.msgs.map shown), shell) ∧
      Link.Idle { link' with shell := shell } := by
  have hline : 10 ∉ ascii "RECV" := by decide
  obtain ⟨link', hcmd, hshell, hdaemon⟩ := h.sendCmd w node msgs hline
  rw [handle_recv] at hcmd hshell
  obtain ⟨shell, hrecv, hunread⟩ := doRecv_ctlRecv w.toShell msgs hshell
  exact ⟨link', shell, hcmd, hrecv, hunread, hdaemon⟩

theorem decoded_of_pending (w : Wires) {msgs : ReceivedMsgs} {pending : List ReceivedMsg}
    (hmsgs : msgs.msgs = ReceivedMsgs.lastOf pending) {link : Link} (hidle : link.Idle)
    (events : List Event) :
    decoded w msgs link events = (delivered pending events).map some := by
  induction events generalizing msgs pending link with
  | nil => rfl
  | cons event events ih =>
      cases event with
      | deliver pk text =>
          rw [decoded, delivered]
          exact ih (ReceivedMsgs.push_msgs hmsgs pk text) hidle
      | recv node =>
          obtain ⟨link', shell, hcmd, hrecv, hidle'⟩ := hidle.recv w node msgs
          rw [decoded, hcmd, delivered, List.map_cons]
          simp only [hrecv]
          rw [ih ReceivedMsgs.empty_msgs hidle', hmsgs]

/-- Every RECV shows the last messages since the one before, at most two hundred, as they
were delivered. -/
theorem decoded_eq_delivered (w : Wires) (events : List Event) :
    decoded w .empty .fresh events = (delivered [] events).map some :=
  decoded_of_pending w ReceivedMsgs.empty_msgs Link.fresh_idle events

end PeerToPeer.Control
