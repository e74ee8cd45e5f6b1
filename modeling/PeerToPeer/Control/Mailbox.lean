import PeerToPeer.Control.Lines
import PeerToPeer.Node.Control

/-!
`received_msgs_` and how its entries travel to the shell.

The queue keeps the last two hundred messages. RECV empties it into a header and one
line for each message, with backslashes, line feeds and carriage returns of the text
escaped. The shell cuts a line at the first blank and undoes the escaping.
-/

namespace PeerToPeer.Control

open Crypto Node

/-! ### Escaping -/

def escapeByte (c : UInt8) : List UInt8 :=
  if c = 92 then [92, 92] else if c = 10 then [92, 110] else if c = 13 then [92, 114] else [c]

/-- `escape_ctl`. -/
def escapeCtl (s : List UInt8) : List UInt8 := s.flatMap escapeByte

/-- `unescape_ctl`: a backslash before any other character stands for itself, and so does
one at the end. -/
def unescapeCtl : List UInt8 → List UInt8
  | [] => []
  | [c] => [c]
  | c :: d :: rest =>
      if c = 92 then
        if d = 110 then 10 :: unescapeCtl rest
        else if d = 114 then 13 :: unescapeCtl rest
        else if d = 92 then 92 :: unescapeCtl rest
        else c :: unescapeCtl (d :: rest)
      else c :: unescapeCtl (d :: rest)

theorem unescapeCtl_cons_of_ne {c : UInt8} (h : c ≠ 92) (rest : List UInt8) :
    unescapeCtl (c :: rest) = c :: unescapeCtl rest := by
  cases rest with
  | nil => rfl
  | cons d rest => rw [unescapeCtl, if_neg h]

/-- The shell gets back what the daemon has escaped. -/
theorem unescapeCtl_escapeCtl (s : List UInt8) : unescapeCtl (escapeCtl s) = s := by
  induction s with
  | nil => rfl
  | cons c s ih =>
      rw [escapeCtl, List.flatMap_cons, ← escapeCtl]
      by_cases hbackslash : c = 92
      · subst hbackslash
        simp [escapeByte, unescapeCtl, ih]
      by_cases hfeed : c = 10
      · subst hfeed
        simp [escapeByte, unescapeCtl, ih]
      by_cases hreturn : c = 13
      · subst hreturn
        simp [escapeByte, unescapeCtl, ih]
      · rw [escapeByte, if_neg hbackslash, if_neg hfeed, if_neg hreturn, List.singleton_append,
          unescapeCtl_cons_of_ne hbackslash, ih]

/-- An escaped text fits on a line. -/
theorem notMem_escapeCtl (s : List UInt8) : 10 ∉ escapeCtl s ∧ 13 ∉ escapeCtl s := by
  have hbyte : ∀ c, 10 ∉ escapeByte c ∧ 13 ∉ escapeByte c := by
    intro c
    rw [escapeByte]
    split
    · decide
    split
    · decide
    split
    · decide
    · rename_i hfeed hreturn
      simp only [List.mem_singleton]
      exact ⟨Ne.symm hfeed, Ne.symm hreturn⟩
  simp only [escapeCtl, List.mem_flatMap, not_exists, not_and]
  exact ⟨fun c _ => (hbyte c).1, fun c _ => (hbyte c).2⟩

/-! ### The queue -/

/-- `received_msgs_`: at most two hundred messages of peers. -/
structure ReceivedMsgs where
  msgs : List ReceivedMsg
  length_le : msgs.length ≤ 200
  from_peer : ∀ m ∈ msgs, ∃ pk : Bytes 32, m.pkHex = pkHex pk

namespace ReceivedMsgs

def empty : ReceivedMsgs := ⟨[], by simp, by simp⟩

/-- The end of `recv_loop`: a full queue loses its first message. -/
def push (q : ReceivedMsgs) (pk : Bytes 32) (text : List UInt8) : ReceivedMsgs where
  msgs := (if q.msgs.length ≥ 200 then q.msgs.tail else q.msgs) ++ [⟨pkHex pk, text⟩]
  length_le := by
    have := q.length_le
    split
    · simp
      omega
    · simp
      omega
  from_peer := by
    intro m hm
    rcases List.mem_append.mp hm with hm | hm
    · split at hm
      · exact q.from_peer m (List.mem_of_mem_tail hm)
      · exact q.from_peer m hm
    · rw [List.mem_singleton.mp hm]
      exact ⟨pk, rfl⟩

/-- The last two hundred of some messages. -/
def lastOf (l : List ReceivedMsg) : List ReceivedMsg := l.drop (l.length - 200)

theorem empty_msgs : empty.msgs = lastOf [] := List.drop_nil.symm

/-- The queue has the last two hundred messages that were pushed. -/
theorem push_msgs {q : ReceivedMsgs} {l : List ReceivedMsg} (h : q.msgs = lastOf l)
    (pk : Bytes 32) (text : List UInt8) :
    (q.push pk text).msgs = lastOf (l ++ [⟨pkHex pk, text⟩]) := by
  have hlen : q.msgs.length = min l.length 200 := by
    rw [h, lastOf, List.length_drop]
    omega
  rw [push, lastOf, List.length_append, List.length_singleton]
  simp only [hlen]
  by_cases hfull : 200 ≤ l.length
  · rw [if_pos (by omega), h, lastOf, List.tail_drop, List.drop_append_of_le_length (by omega),
      show l.length - 200 + 1 = l.length + 1 - 200 by omega]
  · rw [if_neg (by omega), h, lastOf, show l.length - 200 = 0 by omega,
      show l.length + 1 - 200 = 0 by omega, List.drop_zero, List.drop_zero]

end ReceivedMsgs

/-! ### RECV -/

/-- The line for a message. -/
def msgLine (m : ReceivedMsg) : List UInt8 := ascii m.pkHex ++ ascii " " ++ escapeCtl m.text

/-- What `ctl_recv` writes. -/
def ctlRecv (msgs : List ReceivedMsg) : List UInt8 :=
  ascii "MSGS " ++ decimal msgs.length ++ ascii "\n" ++ msgs.flatMap (msgLine · ++ [10])

/-- What `do_recv` makes of a line: the sender and the text. A line without a blank is
skipped. -/
def decodeLine (esc : List UInt8) : Option (List UInt8 × List UInt8) :=
  (cutAt 32 esc).map fun (pk, text) => (pk, unescapeCtl text)

/-- The prefix of a key is made of hexadecimal digits. -/
theorem mem_pkHex {pk : Bytes 32} {c : UInt8} (h : c ∈ ascii (pkHex pk)) :
    c ≠ 10 ∧ c ≠ 13 ∧ c ≠ 32 := by
  have hdigit : ∀ n < 16, UInt8.ofNat (hexDigit n).toNat ≠ 10 ∧
      UInt8.ofNat (hexDigit n).toNat ≠ 13 ∧ UInt8.ofNat (hexDigit n).toNat ≠ 32 := by
    decide
  rw [ascii, pkHex, String.toList_ofList, List.mem_map] at h
  obtain ⟨d, hd, rfl⟩ := h
  obtain ⟨b, -, hb⟩ := List.mem_flatMap.mp hd
  have hlt := b.toNat_lt
  rcases List.mem_cons.mp hb with rfl | hb
  · exact hdigit _ (by omega)
  · rw [List.mem_singleton.mp hb]
    exact hdigit _ (by omega)

section Line

variable {m : ReceivedMsg} (h : ∃ pk : Bytes 32, m.pkHex = pkHex pk)
include h

theorem notMem_msgLine : 10 ∉ msgLine m ∧ 13 ∉ msgLine m := by
  obtain ⟨pk, hpk⟩ := h
  have hesc := notMem_escapeCtl m.text
  have hblank : (10 : UInt8) ∉ ascii " " ∧ (13 : UInt8) ∉ ascii " " := by decide
  simp only [msgLine, hpk, List.mem_append, not_or]
  exact ⟨⟨⟨fun hc => (mem_pkHex hc).1 rfl, hblank.1⟩, hesc.1⟩,
    ⟨fun hc => (mem_pkHex hc).2.1 rfl, hblank.2⟩, hesc.2⟩

/-- A line is decoded to the message it was made from. -/
theorem decodeLine_msgLine : decodeLine (msgLine m) = some (ascii m.pkHex, m.text) := by
  obtain ⟨pk, hpk⟩ := h
  have hfront : 32 ∉ ascii m.pkHex := fun hc => (mem_pkHex (hpk ▸ hc)).2.2 rfl
  have hline : msgLine m = ascii m.pkHex ++ 32 :: escapeCtl m.text := by
    rw [msgLine, List.append_assoc]
    rfl
  rw [decodeLine, hline, cutAt_append hfront, Option.map_some]
  simp only [unescapeCtl_escapeCtl]

end Line

end PeerToPeer.Control
