import PeerToPeer.Control.Inbox

/-!
Shell and daemon in step.

The shell decides by its own tests which command a line of the user stands for; the
daemon decides by others which command it has got. In between the line reader drops a
carriage return at the end. The two agree except on a command whose only argument is a
carriage return: the shell sends it and waits, and the daemon sees no argument and stays
silent.
-/

namespace PeerToPeer.Control

open Lib Crypto Net Node

/-! ### The lines of the user -/

/-- A line that `getline` can return. -/
structure Line where
  bytes : List UInt8
  noFeed : 10 ∉ bytes

/-- What follows the word of a command: something, on the same line. -/
structure Args extends Line where
  ne_nil : bytes ≠ []

/-- `line.size() > n && line.substr(0, n) == word`, and what follows. -/
def Line.argsOf (word : List UInt8) (line : Line) : Option Args :=
  if h : line.bytes.length > word.length ∧ line.bytes.take word.length = word then
    some
      { bytes := line.bytes.drop word.length
        noFeed := fun hc => line.noFeed (List.mem_of_mem_drop hc)
        ne_nil := by
          rw [Ne, List.drop_eq_nil_iff]
          omega }
  else none

/-- The commands that the shell sends. -/
inductive Request
  | list
  | recv
  | send (args : Args)
  | sendFile (args : Args)
  | broadcast (args : Args)
  | quit

/-- What is sent for a command. -/
def Request.cmd : Request → List UInt8
  | .list => ascii "LIST"
  | .recv => ascii "RECV"
  | .send args => ascii "SEND " ++ args.bytes
  | .sendFile args => ascii "SENDFILE " ++ args.bytes
  | .broadcast args => ascii "BROADCAST " ++ args.bytes
  | .quit => ascii "QUIT"

/-- The command that a line stands for, if it is one. -/
def Line.request (line : Line) : Option Request :=
  if line.bytes = ascii "/quit" ∨ line.bytes = ascii "/exit" then some .quit
  else if line.bytes = ascii "/peers" then some .list
  else if line.bytes = ascii "/msgs" then some .recv
  else if let some args := line.argsOf (ascii "/msg ") then some (.send args)
  else if let some args := line.argsOf (ascii "/file ") then some (.sendFile args)
  else if let some args := line.argsOf (ascii "/all ") then some (.broadcast args)
  else none

/-- The main loop of `run_shell`: messages are drained before every prompt, and the
loop ends at the end of the input or at /quit. -/
def prompts : List Line → List Request
  | [] => [.recv]
  | line :: lines =>
      .recv :: match line.request with
        | none => prompts lines
        | some .quit => [.quit]
        | some req => req :: prompts lines

/-- The commands of `run_shell`. -/
def requests (lines : List Line) : List Request := .list :: prompts lines

/-! ### Exchanges -/

/-- What the shell reads after a command, and whether every read got its line. -/
def readAnswer (os : Segmentation) (r : LineReader) : Request → Bool × LineReader
  | .list => ((doList os r).1.isSome, (doList os r).2)
  | .recv => ((doRecv os r).1.isSome, (doRecv os r).2)
  | .quit => (true, r)
  | _ => ((r.readLine os).1.isSome, (r.readLine os).2)

/-- A command, what the daemon wrote for it, whether the shell got all the lines it waited
for, and the socket then. -/
structure Exchange where
  request : Request
  written : List UInt8
  answered : Bool
  left : Link

def exchange (w : Wires) (node : Surroundings) (msgs : ReceivedMsgs) (link : Link)
    (req : Request) : Exchange :=
  let (handled, link) := link.sendCmd w node msgs req.cmd
  let (answered, shell) := readAnswer w.toShell link.shell req
  ⟨req, handled.written, answered, { link with shell := shell }⟩

/-- The exchanges for some commands; `env` is what each of them finds. The shell comes to
an end when it waits in vain. -/
def exchanges (w : Wires) (env : ℕ → Surroundings × ReceivedMsgs) :
    ℕ → Link → List Request → List Exchange
  | _, _, [] => []
  | n, link, req :: reqs =>
      let e := exchange w (env n).1 (env n).2 link req
      e :: if e.answered then exchanges w env (n + 1) e.left reqs else []

/-- `run_shell`, connected to a daemon. -/
def runShell (w : Wires) (env : ℕ → Surroundings × ReceivedMsgs) (lines : List Line) :
    List Exchange :=
  exchanges w env 0 .fresh (requests lines)

/-- One complete answer of the shape that a command asks for. -/
def Request.Complete (answer : List UInt8) : Request → Prop
  | .list => ∃ lines, (∀ l ∈ lines, 10 ∉ l) ∧ answer = counted (ascii "PEERS ") lines
  | .recv => ∃ lines, (∀ l ∈ lines, 10 ∉ l) ∧ answer = counted (ascii "MSGS ") lines
  | .quit => answer = []
  | _ => ∃ line, 10 ∉ line ∧ answer = line ++ [10]

/-- The answer is complete, the shell has read it, and nothing is left of it. -/
structure Exchange.InStep (e : Exchange) : Prop where
  complete : e.request.Complete e.written
  answered : e.answered = true
  idle : e.left.Idle

/-- What a command needs so that it is answered in step. -/
def Request.Meets (node : Surroundings) : Request → Prop
  | .list => node.peers.conns.length < 2 ^ 31
  | .send args => args.bytes ≠ [13]
  | .broadcast args => args.bytes ≠ [13]
  | .sendFile args => args.bytes ≠ [13] ∧ throws node (dropCr args.bytes) = false
  | _ => True

/-! ### The daemon's tests -/

theorem dropCr_append (word : List UInt8) {args : List UInt8} (h : args ≠ []) :
    dropCr (word ++ args) = word ++ dropCr args := by
  rw [dropCr, dropCr, List.getLast?_append_of_ne_nil _ h]
  split
  · exact List.dropLast_append_of_ne_nil h
  · rfl

theorem dropCr_eq_nil_iff {args : List UInt8} (h : args ≠ []) : dropCr args = [] ↔ args = [13] := by
  rw [dropCr]
  constructor
  · intro hnil
    split at hnil
    · rename_i hlast
      obtain ⟨front, rfl⟩ := List.getLast?_eq_some_iff.mp hlast
      rw [List.dropLast_concat] at hnil
      rw [hnil, List.nil_append]
    · exact absurd hnil h
  · rintro rfl
    rfl

theorem notMem_dropCr {args : List UInt8} (h : 10 ∉ args) : 10 ∉ dropCr args := by
  rw [dropCr]
  split
  · exact fun hc => h (List.mem_of_mem_dropLast hc)
  · exact h

theorem argsOf_append (word : List UInt8) {args : List UInt8} (h : args ≠ []) :
    argsOf word (word ++ args) = some args := by
  have hlen := List.length_pos_iff.mpr h
  rw [argsOf, if_pos ⟨by rw [List.length_append]; omega, List.take_left⟩, List.drop_left]

/-- A word that differs from a text at a position does so whatever follows it. -/
theorem append_ne {other text : List UInt8} {i : ℕ} (hi : i < other.length)
    (h : other[i]? ≠ text[i]?) (args : List UInt8) : other ++ args ≠ text := by
  rintro rfl
  exact h (List.getElem?_append_left hi).symm

/-- Another word. -/
theorem argsOf_append_of_ne {word other : List UInt8} {i : ℕ} (hword : i < word.length)
    (hi : i < other.length) (h : other[i]? ≠ word[i]?) (args : List UInt8) :
    argsOf word (other ++ args) = none := by
  rw [argsOf, if_neg]
  rintro ⟨-, htake⟩
  have hsplit := List.take_append_drop word.length (other ++ args)
  rw [htake] at hsplit
  rw [← List.getElem?_append_left hword] at h
  exact append_ne hi h args hsplit.symm

section Handle

variable (node : Surroundings) (msgs : ReceivedMsgs)

theorem handle_list :
    handle node msgs (dropCr (ascii "LIST")) = ⟨ctlList inetNtop node.peers, msgs, true⟩ := by
  have hcr : dropCr (ascii "LIST") = ascii "LIST" := by decide
  rw [hcr, handle, if_pos rfl]

theorem handle_quit : handle node msgs (dropCr (ascii "QUIT")) = ⟨[], msgs, false⟩ := by
  have hcr : dropCr (ascii "QUIT") = ascii "QUIT" := by decide
  have hlist : ascii "QUIT" ≠ ascii "LIST" := by decide
  have hsend : argsOf (ascii "SEND ") (ascii "QUIT") = none := by decide
  have hbroadcast : argsOf (ascii "BROADCAST ") (ascii "QUIT") = none := by decide
  have hfile : argsOf (ascii "SENDFILE ") (ascii "QUIT") = none := by decide
  have hrecv : ascii "QUIT" ≠ ascii "RECV" := by decide
  rw [hcr, handle, if_neg hlist, hsend, hbroadcast, hfile]
  simp only [if_neg hrecv, if_true]

/-- A word that is not followed by anything is passed over. -/
theorem handle_word {word : List UInt8}
    (h : word ∈ [ascii "SEND ", ascii "SENDFILE ", ascii "BROADCAST "]) :
    handle node msgs word = ⟨[], msgs, true⟩ := by
  have hnone : word ≠ ascii "LIST" ∧ argsOf (ascii "SEND ") word = none ∧
      argsOf (ascii "BROADCAST ") word = none ∧ argsOf (ascii "SENDFILE ") word = none ∧
      word ≠ ascii "RECV" ∧ word ≠ ascii "QUIT" := by
    revert word
    decide
  obtain ⟨hlist, hsend, hbroadcast, hfile, hrecv, hquit⟩ := hnone
  rw [handle, if_neg hlist, hsend, hbroadcast, hfile]
  simp only [if_neg hrecv, if_neg hquit]

variable {args : List UInt8} (hargs : args ≠ [])
include hargs

theorem handle_send :
    handle node msgs (ascii "SEND " ++ args) =
      ⟨(ctlSend node.sends node.peers args).reply ++ [10], msgs, true⟩ := by
  have hlist : ascii "SEND " ++ args ≠ ascii "LIST" :=
    append_ne (i := 0) (by decide) (by decide) args
  rw [handle, if_neg hlist, argsOf_append _ hargs]

theorem handle_broadcast :
    handle node msgs (ascii "BROADCAST " ++ args) =
      ⟨ctlBroadcast node.sends node.peers args ++ [10], msgs, true⟩ := by
  have hlist : ascii "BROADCAST " ++ args ≠ ascii "LIST" :=
    append_ne (i := 0) (by decide) (by decide) args
  have hsend : argsOf (ascii "SEND ") (ascii "BROADCAST " ++ args) = none :=
    argsOf_append_of_ne (i := 0) (by decide) (by decide) (by decide) _
  rw [handle, if_neg hlist, hsend, argsOf_append _ hargs]

theorem handle_sendFile :
    handle node msgs (ascii "SENDFILE " ++ args) =
      if throws node args then ⟨[], msgs, false⟩
      else ⟨(ctlSendFile node.files node.sends node.peers args).reply ++ [10], msgs, true⟩ := by
  have hlist : ascii "SENDFILE " ++ args ≠ ascii "LIST" :=
    append_ne (i := 0) (by decide) (by decide) args
  have hsend : argsOf (ascii "SEND ") (ascii "SENDFILE " ++ args) = none :=
    argsOf_append_of_ne (i := 4) (by decide) (by decide) (by decide) _
  have hbroadcast : argsOf (ascii "BROADCAST ") (ascii "SENDFILE " ++ args) = none :=
    argsOf_append_of_ne (i := 0) (by decide) (by decide) (by decide) _
  rw [handle, if_neg hlist, hsend, hbroadcast, argsOf_append _ hargs]

end Handle

/-! ### The answers -/

theorem notMem_ctlSend (sends : PeerConn → List UInt8 → Bool) (ps : Peers) (args : List UInt8) :
    10 ∉ (ctlSend sends ps args).reply := by
  rw [ctlSend]
  split
  · decide
  split
  · decide
  split
  · decide
  · simp only
    split
    · decide
    · decide

/-- The path that an answer repeats is on one line, since the command was. -/
theorem notMem_ctlSendFile (files : List UInt8 → Option (List UInt8))
    (sends : PeerConn → List UInt8 → Bool) (ps : Peers) {args : List UInt8} (h : 10 ∉ args) :
    10 ∉ (ctlSendFile files sends ps args).reply := by
  rw [ctlSendFile]
  split
  · decide
  rename_i front path hsplit
  have hpath : 10 ∉ path := by
    rw [(cutAt_eq_some (hsplit : cutAt 32 args = _)).1] at h
    exact fun hc => h (by simp [hc])
  split
  · decide
  split
  · have hword : 10 ∉ ascii "ERR cannot open: " := by decide
    simp only [List.mem_append, not_or]
    exact ⟨hword, hpath⟩
  · decide
  split
  · decide
  · simp only
    split
    · have hwords : 10 ∉ ascii "OK " ∧ 10 ∉ ascii " bytes" := by decide
      simp only [List.mem_append, not_or]
      exact ⟨⟨hwords.1, fun hc => (mem_decimal hc).1 rfl⟩, hwords.2⟩
    · decide

theorem notMem_ctlBroadcast (sends : PeerConn → List UInt8 → Bool) (ps : Peers)
    (text : List UInt8) : 10 ∉ ctlBroadcast sends ps text := by
  have hword : 10 ∉ ascii "OK " := by decide
  rw [ctlBroadcast]
  simp only [List.mem_append, not_or]
  exact ⟨hword, fun hc => (mem_decimal hc).1 rfl⟩

/-- A line of the answer to LIST, without its end. -/
def listEntry (n : ℕ) (c : PeerConn) : List UInt8 :=
  decimal n ++ ascii " " ++ ascii (pkHex c.identity) ++ ascii " " ++ inetNtop c.ip ++ ascii ":" ++
    if c.listenPort = 0 then ascii "?" else decimal c.listenPort.toNat

theorem mem_or_eq_of_mem_intersperse {α : Type*} {sep x : α} {l : List α}
    (h : x ∈ l.intersperse sep) : x ∈ l ∨ x = sep := by
  induction l with
  | nil => exact .inl h
  | cons a l ih =>
      cases l with
      | nil => exact .inl h
      | cons b l =>
          rw [List.intersperse_cons_cons] at h
          rcases List.mem_cons.mp h with rfl | h
          · exact .inl (List.mem_cons_self ..)
          rcases List.mem_cons.mp h with rfl | h
          · exact .inr rfl
          · exact (ih h).imp_left (List.mem_cons_of_mem a)

theorem notMem_inetNtop (ip : Bytes 4) : 10 ∉ inetNtop ip := by
  rw [inetNtop, List.mem_flatten]
  rintro ⟨part, hpart, hc⟩
  rcases mem_or_eq_of_mem_intersperse hpart with hpart | rfl
  · obtain ⟨b, -, rfl⟩ := List.mem_map.mp hpart
    exact (mem_decimal hc).1 rfl
  · revert hc
    decide

theorem notMem_listEntry (n : ℕ) (c : PeerConn) : 10 ∉ listEntry n c := by
  have hwords : 10 ∉ ascii " " ∧ 10 ∉ ascii ":" ∧ 10 ∉ ascii "?" := by decide
  have hnumber : ∀ k, 10 ∉ decimal k := fun k hc => (mem_decimal hc).1 rfl
  have hport : 10 ∉ if c.listenPort = 0 then ascii "?" else decimal c.listenPort.toNat := by
    split
    · exact hwords.2.2
    · exact hnumber _
  rw [listEntry]
  simp only [List.mem_append, not_or]
  exact ⟨⟨⟨⟨⟨⟨hnumber n, hwords.1⟩, fun hc => (mem_pkHex hc).1 rfl⟩, hwords.1⟩,
    notMem_inetNtop c.ip⟩, hwords.2.1⟩, hport⟩

theorem ctlList_eq_counted (ps : Peers) :
    ctlList inetNtop ps =
      counted (ascii "PEERS ") (ps.conns.mapIdx fun i c => listEntry (i + 1) c) := by
  have hlines : listLines inetNtop ps =
      (ps.conns.mapIdx fun i c => listEntry (i + 1) c).map (· ++ [10]) := by
    apply List.ext_getElem?
    intro i
    rw [listLines, List.getElem?_map, List.getElem?_mapIdx, List.getElem?_mapIdx, Option.map_map]
    rfl
  rw [ctlList, hlines, counted, List.length_mapIdx, List.flatMap_def]

/-! ### In step -/

section Step

variable {w : Wires} {node : Surroundings} {msgs : ReceivedMsgs} {link : Link}

/-- The line that is sent for a command. -/
theorem Request.notMem_cmd (req : Request) : 10 ∉ req.cmd := by
  have hword : ∀ word ∈ [ascii "SEND ", ascii "SENDFILE ", ascii "BROADCAST "], 10 ∉ word := by
    decide
  have hargs : ∀ (args : Args), ∀ word ∈ [ascii "SEND ", ascii "SENDFILE ", ascii "BROADCAST "],
      10 ∉ word ++ args.bytes := by
    intro args word hmem hc
    exact (List.mem_append.mp hc).elim (hword word hmem) args.noFeed
  cases req with
  | list => decide
  | recv => decide
  | quit => decide
  | send args => exact hargs args _ (by simp)
  | sendFile args => exact hargs args _ (by simp)
  | broadcast args => exact hargs args _ (by simp)

/-- The commands that are answered by one line. -/
def Request.IsLine (req : Request) : Prop := ∃ args, req = .send args ∨ req = .sendFile args ∨
  req = .broadcast args

theorem readAnswer_of_isLine {req : Request} (h : req.IsLine) (os : Segmentation)
    (r : LineReader) :
    readAnswer os r req = ((r.readLine os).1.isSome, (r.readLine os).2) := by
  obtain ⟨args, rfl | rfl | rfl⟩ := h
  · rfl
  · rfl
  · rfl

theorem complete_of_isLine {req : Request} (h : req.IsLine) (answer : List UInt8) :
    req.Complete answer ↔ ∃ line, 10 ∉ line ∧ answer = line ++ [10] := by
  obtain ⟨args, rfl | rfl | rfl⟩ := h
  · rfl
  · rfl
  · rfl

/-- A command that is answered by one line, and by no more. -/
theorem inStep_of_line (hidle : link.Idle) {req : Request} (hreq : req.IsLine)
    {line : List UInt8} (hline : 10 ∉ line)
    (hwritten : (handle node msgs (dropCr req.cmd)).written = line ++ [10]) :
    (exchange w node msgs link req).InStep := by
  obtain ⟨link', hcmd, hshell, hdaemon⟩ := hidle.sendCmd w node msgs req.notMem_cmd
  rw [hwritten] at hshell
  obtain ⟨shell, hread, hunread⟩ := LineReader.readLine_of_cutAt w.toShell
    (hshell ▸ cutAt_append hline [] : cutAt 10 link'.shell.unread = some (line, []))
  rw [exchange, hcmd]
  simp only [readAnswer_of_isLine hreq, hread]
  exact ⟨(complete_of_isLine hreq _).mpr ⟨line, hline, hwritten⟩, rfl, hunread, hdaemon⟩

/-- A command that nothing is written for. -/
theorem not_inStep_of_silent (hidle : link.Idle) {req : Request} (hreq : req.IsLine)
    (hwritten : (handle node msgs (dropCr req.cmd)).written = []) :
    ¬(exchange w node msgs link req).InStep := by
  obtain ⟨link', hcmd, -, -⟩ := hidle.sendCmd w node msgs req.notMem_cmd
  intro h
  have hcomplete := h.complete
  rw [exchange, hcmd] at hcomplete
  obtain ⟨line, -, hanswer⟩ := (complete_of_isLine hreq _).mp hcomplete
  have hanswer : (handle node msgs (dropCr req.cmd)).written = line ++ [10] := hanswer
  rw [hwritten] at hanswer
  exact absurd hanswer.symm (List.append_ne_nil_of_right_ne_nil _ (by simp))

section Words

variable {word : List UInt8} {args : Args} {req : Request} (hcmd : req.cmd = word ++ args.bytes)
include hcmd

/-- A carriage return for the only argument: the daemon sees the bare word. -/
theorem not_inStep_of_return (hidle : link.Idle) (hreq : req.IsLine)
    (hword : word ∈ [ascii "SEND ", ascii "SENDFILE ", ascii "BROADCAST "])
    (hargs : args.bytes = [13]) : ¬(exchange w node msgs link req).InStep := by
  refine not_inStep_of_silent hidle hreq ?_
  rw [hcmd, dropCr_append _ args.ne_nil, (dropCr_eq_nil_iff args.ne_nil).mpr hargs,
    List.append_nil, handle_word node msgs hword]

/-- Any other arguments, and an answer to them. -/
theorem inStep_of_answer (hidle : link.Idle) (hreq : req.IsLine) (hargs : args.bytes ≠ [13])
    {line : List UInt8} (hline : 10 ∉ line)
    (hanswer : dropCr args.bytes ≠ [] →
      (handle node msgs (word ++ dropCr args.bytes)).written = line ++ [10]) :
    (exchange w node msgs link req).InStep := by
  refine inStep_of_line hidle hreq hline ?_
  rw [hcmd, dropCr_append _ args.ne_nil]
  exact hanswer (mt (dropCr_eq_nil_iff args.ne_nil).mp hargs)

end Words

theorem inStep_send_iff (hidle : link.Idle) (args : Args) :
    (exchange w node msgs link (.send args)).InStep ↔ args.bytes ≠ [13] := by
  constructor
  · exact fun h hargs => not_inStep_of_return rfl hidle ⟨args, .inl rfl⟩ (by simp) hargs h
  · intro hargs
    refine inStep_of_answer rfl hidle ⟨args, .inl rfl⟩ hargs
      (notMem_ctlSend node.sends node.peers (dropCr args.bytes)) fun hne => ?_
    rw [handle_send node msgs hne]

theorem inStep_broadcast_iff (hidle : link.Idle) (args : Args) :
    (exchange w node msgs link (.broadcast args)).InStep ↔ args.bytes ≠ [13] := by
  constructor
  · exact fun h hargs => not_inStep_of_return rfl hidle ⟨args, .inr (.inr rfl)⟩ (by simp) hargs h
  · intro hargs
    refine inStep_of_answer rfl hidle ⟨args, .inr (.inr rfl)⟩ hargs
      (notMem_ctlBroadcast node.sends node.peers (dropCr args.bytes)) fun hne => ?_
    rw [handle_broadcast node msgs hne]

theorem inStep_sendFile_iff (hidle : link.Idle) (args : Args) :
    (exchange w node msgs link (.sendFile args)).InStep ↔
      args.bytes ≠ [13] ∧ throws node (dropCr args.bytes) = false := by
  by_cases hargs : args.bytes = [13]
  · exact iff_of_false (not_inStep_of_return rfl hidle ⟨args, .inr (.inl rfl)⟩ (by simp) hargs)
      fun h => h.1 hargs
  have hhandle := handle_sendFile node msgs (mt (dropCr_eq_nil_iff args.ne_nil).mp hargs)
  cases hthrows : throws node (dropCr args.bytes) with
  | true =>
      -- the daemon ends without a word
      rw [if_pos hthrows] at hhandle
      refine iff_of_false (not_inStep_of_silent hidle ⟨args, .inr (.inl rfl)⟩ ?_) (by simp)
      rw [Request.cmd, dropCr_append _ args.ne_nil, hhandle]
  | false =>
      rw [if_neg (by simp [hthrows])] at hhandle
      refine iff_of_true (inStep_of_answer rfl hidle ⟨args, .inr (.inl rfl)⟩ hargs
        (notMem_ctlSendFile node.files node.sends node.peers (notMem_dropCr args.noFeed))
        fun _ => ?_) ⟨hargs, rfl⟩
      rw [hhandle]

theorem inStep_recv (hidle : link.Idle) : (exchange w node msgs link .recv).InStep := by
  obtain ⟨link', shell, hcmd, hrecv, hidle'⟩ := hidle.recv w node msgs
  rw [exchange, Request.cmd, hcmd]
  simp only [readAnswer, hrecv]
  refine ⟨⟨msgs.msgs.map msgLine, ?_, ctlRecv_eq_counted _⟩, rfl, hidle'⟩
  intro l hl
  obtain ⟨m, hm, rfl⟩ := List.mem_map.mp hl
  exact (notMem_msgLine (msgs.from_peer m hm)).1

theorem inStep_quit (hidle : link.Idle) : (exchange w node msgs link .quit).InStep := by
  obtain ⟨link', hcmd, hshell, hdaemon⟩ :=
    hidle.sendCmd w node msgs (Request.notMem_cmd .quit)
  rw [Request.cmd, handle_quit] at hcmd hshell
  rw [exchange, Request.cmd, hcmd]
  exact ⟨rfl, rfl, hshell, hdaemon⟩

theorem inStep_list_iff (hidle : link.Idle) :
    (exchange w node msgs link .list).InStep ↔ node.peers.conns.length < 2 ^ 31 := by
  obtain ⟨link', hcmd, hshell, hdaemon⟩ :=
    hidle.sendCmd w node msgs (Request.notMem_cmd .list)
  rw [Request.cmd, handle_list] at hcmd hshell
  simp only [ctlList_eq_counted] at hcmd hshell
  set lines := node.peers.conns.mapIdx fun i c => listEntry (i + 1) c with hlines
  have hlen : lines.length = node.peers.conns.length := List.length_mapIdx
  have hfeed : ∀ l ∈ lines, 10 ∉ l := by
    intro l hl
    obtain ⟨i, hi, rfl⟩ := List.mem_mapIdx.mp hl
    exact notMem_listEntry _ _
  have hword : (ascii "PEERS ").length = 6 := by decide
  rw [exchange, Request.cmd, hcmd, ← hlen]
  simp only [readAnswer, doList, ← hword]
  by_cases hlt : lines.length < 2 ^ 31
  · obtain ⟨shell, hread, hunread⟩ :=
      readCounted_of_lt (by decide) (by decide) w.toShell hfeed hlt hshell
    rw [hread]
    exact iff_of_true ⟨⟨lines, hfeed, rfl⟩, rfl, hunread, hdaemon⟩ hlt
  · -- the header is read, and the lines stay
    obtain ⟨shell, hread, hunread⟩ :=
      readCounted_of_ge (by decide) (by decide) w.toShell (Nat.not_lt.mp hlt) hshell
    rw [hread]
    refine iff_of_false (fun h => ?_) hlt
    have hleft : lines.flatMap (· ++ [10]) = [] := hunread.symm.trans h.idle.shell
    obtain ⟨l, ls, hcons⟩ := List.exists_cons_of_length_pos
      (lt_of_lt_of_le (by norm_num) (Nat.not_lt.mp hlt) : 0 < lines.length)
    rw [hcons, List.flatMap_cons] at hleft
    simp at hleft

/-- An exchange that starts with nothing waiting is in step exactly when the command
meets its condition. -/
theorem inStep_iff (hidle : link.Idle) (req : Request) :
    (exchange w node msgs link req).InStep ↔ req.Meets node := by
  cases req with
  | list => exact inStep_list_iff hidle
  | recv => exact iff_of_true (inStep_recv hidle) trivial
  | send args => exact inStep_send_iff hidle args
  | sendFile args => exact inStep_sendFile_iff hidle args
  | broadcast args => exact inStep_broadcast_iff hidle args
  | quit => exact iff_of_true (inStep_quit hidle) trivial

end Step

/-- The whole run. -/
theorem exchanges_inStep_iff (w : Wires) (env : ℕ → Surroundings × ReceivedMsgs) (n : ℕ)
    {link : Link} (hidle : link.Idle) (reqs : List Request) :
    (∀ e ∈ exchanges w env n link reqs, e.InStep) ↔
      ∀ (i : ℕ) (req : Request), reqs[i]? = some req → req.Meets (env (n + i)).1 := by
  induction reqs generalizing n link with
  | nil => simp [exchanges]
  | cons req reqs ih =>
      have hstep : (exchange w (env n).1 (env n).2 link req).InStep ↔ req.Meets (env n).1 :=
        inStep_iff hidle req
      rw [exchanges]
      constructor
      · intro h
        have hfirst := h _ (List.mem_cons_self ..)
        rw [if_pos hfirst.answered] at h
        have hrest := (ih (n + 1) hfirst.idle).mp fun e he => h e (List.mem_cons_of_mem _ he)
        intro i r hr
        cases i with
        | zero =>
            obtain rfl : req = r := by simpa using hr
            exact hstep.mp hfirst
        | succ i =>
            have hmeets := hrest i r (by simpa using hr)
            rwa [show n + 1 + i = n + (i + 1) by omega] at hmeets
      · intro h
        have hfirst := hstep.mpr (h 0 req rfl)
        rw [if_pos hfirst.answered]
        have hrest := (ih (n + 1) hfirst.idle).mpr fun i r hr => by
          rw [show n + 1 + i = n + (i + 1) by omega]
          exact h (i + 1) r hr
        intro e he
        rcases List.mem_cons.mp he with rfl | he
        · exact hfirst
        · exact hrest e he

/-- Shell and daemon stay in step. -/
def Lockstep (w : Wires) (env : ℕ → Surroundings × ReceivedMsgs) (lines : List Line) : Prop :=
  ∀ e ∈ runShell w env lines, e.InStep

/-- Shell and daemon stay in step exactly when every command that the shell sends meets its
condition: no carriage return for its only argument, no file that cannot be read, and no
list of peers that is too long to be counted in an `int`. -/
theorem lockstep_iff (w : Wires) (env : ℕ → Surroundings × ReceivedMsgs) (lines : List Line) :
    Lockstep w env lines ↔
      ∀ (n : ℕ) (req : Request), (requests lines)[n]? = some req → req.Meets (env n).1 := by
  rw [Lockstep, runShell, exchanges_inStep_iff w env 0 Link.fresh_idle]
  simp only [Nat.zero_add]

/-- A node without peers and files. -/
def bareNode : Surroundings := ⟨.empty, fun _ => none, fun _ => false, fun _ _ => false⟩

/-- /msg, a blank and a carriage return: the shell waits for an answer that is not sent. -/
theorem not_lockstep_return :
    ¬Lockstep ⟨.whole, .whole⟩ (fun _ => (bareNode, .empty))
      [⟨ascii "/msg \r", by decide⟩] := by
  rw [Lockstep, runShell, exchanges_inStep_iff _ _ 0 Link.fresh_idle]
  intro h
  exact h 2 (.send ⟨⟨[13], by decide⟩, by decide⟩) rfl rfl

end PeerToPeer.Control
