import PeerToPeer.Control.Mailbox

/-!
`handle_control_client`: the daemon's end of the control socket.

Each line is one command. A line that is none of them is passed over in silence.
-/

namespace PeerToPeer.Control

open Lib Crypto Net Node

/-- What the commands find besides the messages: the connections, the files (and the paths
that open but cannot be read, such as directories), and whether a send succeeds. -/
structure Surroundings where
  peers : Peers
  files : List UInt8 → Option (List UInt8)
  unreadable : List UInt8 → Bool
  sends : PeerConn → List UInt8 → Bool

/-- `inet_ntop` for an address of four bytes. -/
def inetNtop (ip : Bytes 4) : List UInt8 :=
  ((ip.toList.map fun b => decimal b.toNat).intersperse (ascii ".")).flatten

/-- What `ctl_broadcast` writes: the number of connections that the text went over. -/
def ctlBroadcast (sends : PeerConn → List UInt8 → Bool) (ps : Peers) (text : List UInt8) :
    List UInt8 :=
  ascii "OK " ++ decimal (ps.conns.countP (sends · text))

/-- What follows a word, if there is anything: `size() > n && substr(0, n) == word`. -/
def argsOf (word cmd : List UInt8) : Option (List UInt8) :=
  if cmd.length > word.length ∧ cmd.take word.length = word then some (cmd.drop word.length)
  else none

/-- SENDFILE gets to reading its file, and the reading fails: the exception that the file
buffer throws is caught by nobody. -/
def throws (node : Surroundings) (args : List UInt8) : Bool :=
  match splitArgs args with
  | none => false
  | some (front, path) => (stoi front).isSome && node.unreadable path

/-- What a command does to the client: what is written, the messages that are left, and
whether the daemon goes on reading. -/
structure Handled where
  written : List UInt8
  msgs : ReceivedMsgs
  goesOn : Bool

/-- One turn of `handle_control_client`. -/
def handle (node : Surroundings) (msgs : ReceivedMsgs) (cmd : List UInt8) : Handled :=
  if cmd = ascii "LIST" then ⟨ctlList inetNtop node.peers, msgs, true⟩
  else if let some args := argsOf (ascii "SEND ") cmd then
    ⟨(ctlSend node.sends node.peers args).reply ++ [10], msgs, true⟩
  else if let some text := argsOf (ascii "BROADCAST ") cmd then
    ⟨ctlBroadcast node.sends node.peers text ++ [10], msgs, true⟩
  else if let some args := argsOf (ascii "SENDFILE ") cmd then
    if throws node args then ⟨[], msgs, false⟩
    else ⟨(ctlSendFile node.files node.sends node.peers args).reply ++ [10], msgs, true⟩
  else if cmd = ascii "RECV" then ⟨ctlRecv msgs.msgs, .empty, true⟩
  else if cmd = ascii "QUIT" then ⟨[], msgs, false⟩
  else ⟨[], msgs, true⟩

/-- `handle_control_client`, up to the read that waits for the next command. -/
def serve (os : Segmentation) (node : Surroundings) (msgs : ReceivedMsgs) (r : LineReader) :
    Handled × LineReader :=
  match h : r.readLine os with
  | (none, r) => (⟨[], msgs, true⟩, r)
  | (some cmd, r') =>
      let first := handle node msgs cmd
      if first.goesOn then
        have := LineReader.unread_of_readLine h
        let (rest, r) := serve os node first.msgs r'
        (⟨first.written ++ rest.written, rest.msgs, rest.goesOn⟩, r)
      else (first, r')
  termination_by r.unread.length

/-- A single command that is served when nothing else is waiting. -/
theorem serve_line (os : Segmentation) (node : Surroundings) (msgs : ReceivedMsgs)
    {r : LineReader} {line : List UInt8} (hline : 10 ∉ line) (h : r.unread = line ++ [10]) :
    ∃ r', serve os node msgs r = (handle node msgs (dropCr line), r') ∧ r'.unread = [] := by
  obtain ⟨r₁, hread, h₁⟩ := LineReader.readLine_of_cutAt os
    (h ▸ cutAt_append hline [] : cutAt 10 r.unread = some (line, []))
  rw [serve]
  split
  · rename_i hnone
    rw [hnone] at hread
    cases hread
  · rename_i cmd r' hsome
    rw [hsome, Prod.mk.injEq, Option.some.injEq] at hread
    obtain ⟨rfl, rfl⟩ := hread
    simp only
    split
    · rename_i hgoesOn
      -- the next read finds nothing
      obtain ⟨r₂, hwait, h₂⟩ := LineReader.readLine_of_notMem os (r := r') (by simp [h₁])
      refine ⟨r₂, ?_, h₂.trans h₁⟩
      rw [serve]
      split
      · rename_i hnone
        rw [hwait, Prod.mk.injEq] at hnone
        obtain ⟨-, rfl⟩ := hnone
        rw [List.append_nil, ← hgoesOn]
      · rename_i hsome
        rw [hwait] at hsome
        cases hsome
    · exact ⟨r', rfl, h₁⟩

end PeerToPeer.Control
