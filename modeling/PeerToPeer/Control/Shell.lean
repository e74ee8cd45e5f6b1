import PeerToPeer.Control.Server

/-!
`run_shell`: the other end of the control socket.

The shell writes a command and then reads what it takes for the whole answer: one line,
or a header and as many lines as the header says. It does nothing else before it has
them, so the two ends take turns; when the bytes of an answer arrive is a matter of how
the reads are split.
-/

namespace PeerToPeer.Control

open Lib Crypto Net Node

/-- How each direction of the socket is split into reads. -/
structure Wires where
  toShell : Segmentation
  toDaemon : Segmentation

/-- The two ends of the socket. -/
structure Link where
  shell : LineReader
  daemon : LineReader

namespace Link

/-- A new connection. -/
def fresh : Link := ⟨⟨[], [], 0⟩, ⟨[], [], 0⟩⟩

/-- Nothing is waiting to be read. -/
structure Idle (link : Link) : Prop where
  shell : link.shell.unread = []
  daemon : link.daemon.unread = []

theorem fresh_idle : fresh.Idle := ⟨rfl, rfl⟩

/-- `send_cmd`, and what the daemon does then. -/
def sendCmd (w : Wires) (node : Surroundings) (msgs : ReceivedMsgs) (link : Link)
    (cmd : List UInt8) : Handled × Link :=
  let (handled, daemon) := serve w.toDaemon node msgs (link.daemon.receive (cmd ++ [10]))
  (handled, ⟨link.shell.receive handled.written, daemon⟩)

theorem Idle.sendCmd {link : Link} (h : link.Idle) (w : Wires) (node : Surroundings)
    (msgs : ReceivedMsgs) {cmd : List UInt8} (hcmd : 10 ∉ cmd) :
    ∃ link', link.sendCmd w node msgs cmd = (handle node msgs (dropCr cmd), link') ∧
      link'.shell.unread = (handle node msgs (dropCr cmd)).written ∧
      link'.daemon.unread = [] := by
  obtain ⟨r, hserve, hr⟩ := serve_line w.toDaemon node msgs
    (r := link.daemon.receive (cmd ++ [10])) hcmd (by simp [h.daemon])
  refine ⟨⟨link.shell.receive (handle node msgs (dropCr cmd)).written, r⟩, ?_, ?_, hr⟩
  · rw [Link.sendCmd, hserve]
  · rw [LineReader.unread_receive, h.shell, List.nil_append]

end Link

/-! ### Reading the answers -/

/-- `stoi(hdr->substr(n))`; there is no number if the header is too short. -/
def countAfter (n : ℕ) (hdr : List UInt8) : Option ℤ :=
  if hdr.length < n then none else stoi (hdr.drop n)

/-- A header with a number behind its first `n` bytes, and as many lines. -/
def readCounted (os : Segmentation) (n : ℕ) (r : LineReader) :
    Option (List (List UInt8)) × LineReader :=
  match r.readLine os with
  | (none, r) => (none, r)
  | (some hdr, r) =>
      match countAfter n hdr with
      | none => (some [], r)
      | some count => r.readLines os count.toNat

/-- `do_list`, after LIST is sent: the lines to show. -/
def doList (os : Segmentation) (r : LineReader) : Option (List (List UInt8)) × LineReader :=
  readCounted os 6 r

/-- `do_recv`, after RECV is sent: the messages to show. -/
def doRecv (os : Segmentation) (r : LineReader) :
    Option (List (List UInt8 × List UInt8)) × LineReader :=
  let (lines, r) := readCounted os 5 r
  (lines.map fun lines => lines.filterMap decodeLine, r)

theorem dropCr_of_notMem {line : List UInt8} (h : 13 ∉ line) : dropCr line = line :=
  if_neg fun hlast => h (List.mem_of_getLast? hlast)

theorem mem_decimal {n : ℕ} {c : UInt8} (h : c ∈ decimal n) : c ≠ 10 ∧ c ≠ 13 := by
  have hspace := (not_isSpace_of_isDigit ((decimal_spec n).2.1 c h)).1
  constructor
  · rintro rfl
    cases hspace
  · rintro rfl
    cases hspace

/-- An answer with a header and some lines. -/
def counted (word : List UInt8) (lines : List (List UInt8)) : List UInt8 :=
  word ++ decimal lines.length ++ ascii "\n" ++ lines.flatMap (· ++ [10])

section Counted

variable {word : List UInt8} {lines : List (List UInt8)} (hfeed : 10 ∉ word) (hreturn : 13 ∉ word)
include hfeed hreturn

/-- The header is read, and its number. -/
theorem readLine_counted (os : Segmentation) {r : LineReader}
    (h : r.unread = counted word lines) :
    ∃ r', r.readLine os = (some (word ++ decimal lines.length), r') ∧
      r'.unread = lines.flatMap (· ++ [10]) := by
  have hhdr : 10 ∉ word ++ decimal lines.length ∧ 13 ∉ word ++ decimal lines.length := by
    simp only [List.mem_append, not_or]
    exact ⟨⟨hfeed, fun hc => (mem_decimal hc).1 rfl⟩, hreturn, fun hc => (mem_decimal hc).2 rfl⟩
  have hcut : cutAt 10 r.unread =
      some (word ++ decimal lines.length, lines.flatMap (· ++ [10])) := by
    rw [h, counted, List.append_assoc]
    exact cutAt_append hhdr.1 _
  obtain ⟨r', hread, hr'⟩ := LineReader.readLine_of_cutAt os hcut
  rw [dropCr_of_notMem hhdr.2] at hread
  exact ⟨r', hread, hr'⟩

omit hfeed hreturn in
theorem countAfter_decimal (k : ℕ) :
    countAfter word.length (word ++ decimal k) = if k < 2 ^ 31 then some (k : ℤ) else none := by
  rw [countAfter, if_neg (by simp), List.drop_left, stoi_decimal]

/-- The whole answer is read when its number fits an `int`. -/
theorem readCounted_of_lt (os : Segmentation) (hlines : ∀ l ∈ lines, 10 ∉ l)
    (hlt : lines.length < 2 ^ 31) {r : LineReader} (h : r.unread = counted word lines) :
    ∃ r', readCounted os word.length r = (some (lines.map dropCr), r') ∧ r'.unread = [] := by
  obtain ⟨r₁, hhdr, h₁⟩ := readLine_counted hfeed hreturn os h
  rw [← List.append_nil (lines.flatMap _)] at h₁
  obtain ⟨r₂, hrest, h₂⟩ := LineReader.readLines_eq os hlines h₁
  refine ⟨r₂, ?_, h₂⟩
  rw [readCounted, hhdr]
  simp only
  rw [countAfter_decimal, if_pos hlt]
  simpa using hrest

/-- Else only the header is read. -/
theorem readCounted_of_ge (os : Segmentation) (hge : 2 ^ 31 ≤ lines.length) {r : LineReader}
    (h : r.unread = counted word lines) :
    ∃ r', readCounted os word.length r = (some [], r') ∧
      r'.unread = lines.flatMap (· ++ [10]) := by
  obtain ⟨r₁, hhdr, h₁⟩ := readLine_counted hfeed hreturn os h
  refine ⟨r₁, ?_, h₁⟩
  rw [readCounted, hhdr]
  simp only
  rw [countAfter_decimal, if_neg (Nat.not_lt.mpr hge)]

end Counted

/-! ### RECV -/

theorem handle_recv (node : Surroundings) (msgs : ReceivedMsgs) :
    handle node msgs (dropCr (ascii "RECV")) = ⟨ctlRecv msgs.msgs, .empty, true⟩ := by
  have hcr : dropCr (ascii "RECV") = ascii "RECV" := by decide
  have hlist : ascii "RECV" ≠ ascii "LIST" := by decide
  have hsend : argsOf (ascii "SEND ") (ascii "RECV") = none := by decide
  have hbroadcast : argsOf (ascii "BROADCAST ") (ascii "RECV") = none := by decide
  have hfile : argsOf (ascii "SENDFILE ") (ascii "RECV") = none := by decide
  rw [hcr, handle, if_neg hlist, hsend, hbroadcast, hfile]
  simp only [if_true]

theorem ctlRecv_eq_counted (msgs : List ReceivedMsg) :
    ctlRecv msgs = counted (ascii "MSGS ") (msgs.map msgLine) := by
  rw [ctlRecv, counted, List.length_map, List.flatMap_map]

/-- `do_recv` gets the messages that `ctl_recv` has written. -/
theorem doRecv_ctlRecv (os : Segmentation) (msgs : ReceivedMsgs) {r : LineReader}
    (h : r.unread = ctlRecv msgs.msgs) :
    ∃ r', doRecv os r = (some (msgs.msgs.map fun m => (ascii m.pkHex, m.text)), r') ∧
      r'.unread = [] := by
  rw [ctlRecv_eq_counted] at h
  have hlines : ∀ l ∈ msgs.msgs.map msgLine, 10 ∉ l ∧ 13 ∉ l := by
    intro l hl
    obtain ⟨m, hm, rfl⟩ := List.mem_map.mp hl
    exact notMem_msgLine (msgs.from_peer m hm)
  have hlen : (msgs.msgs.map msgLine).length < 2 ^ 31 := by
    rw [List.length_map]
    exact lt_of_le_of_lt msgs.length_le (by norm_num)
  obtain ⟨r', hread, hr'⟩ := readCounted_of_lt (by decide) (by decide) os
    (fun l hl => (hlines l hl).1) hlen h
  refine ⟨r', ?_, hr'⟩
  have hdecode : ((msgs.msgs.map msgLine).map dropCr).filterMap decodeLine =
      msgs.msgs.map fun m => (ascii m.pkHex, m.text) := by
    rw [List.map_congr_left fun l hl => dropCr_of_notMem (hlines l hl).2, List.map_id',
      List.filterMap_map, ← List.filterMap_eq_map]
    exact List.filterMap_congr fun m hm => decodeLine_msgLine (msgs.from_peer m hm)
  have hword : (ascii "MSGS ").length = 5 := by decide
  rw [doRecv, ← hword, hread]
  simp only [Option.map_some, hdecode]

end PeerToPeer.Control
