import PeerToPeer.Control.Lockstep

/-!
Sends to a number of a listing.

LIST numbers the connections as they stand in `peers_`; SEND and SENDFILE look
their number up in `peers_` as it stands when they come. In between connections
are added at the end and erased anywhere.
-/

namespace PeerToPeer.Control

open Lib Crypto Net Node

/-! ### Positions -/

/-- The entry at a position is still there after a filter exactly when nothing up
to it was dropped. -/
theorem getElem?_filter_append_iff {α : Type} {l added : List α} (hl : l.Nodup)
    (hadded : ∀ x ∈ added, x ∉ l) (keep : α → Bool) {j : ℕ} (hj : j < l.length) :
    (l.filter keep ++ added)[j]? = l[j]? ↔ ∀ x ∈ l.take (j + 1), keep x = true := by
  have hsplit : l = l.take j ++ l[j] :: l.drop (j + 1) := by
    rw [← List.drop_eq_getElem_cons hj, List.take_append_drop]
  rw [List.getElem?_eq_getElem hj, List.take_succ_eq_append_getElem hj]
  constructor
  · intro h
    have hlt : j < (l.filter keep).length := by
      by_contra hle
      rw [List.getElem?_append_right (Nat.not_lt.mp hle)] at h
      exact hadded _ (List.mem_of_getElem? h) (List.getElem_mem hj)
    rw [List.getElem?_append_left hlt] at h
    have hkept : keep l[j] = true := List.of_mem_filter (List.mem_of_getElem? h)
    -- the entry stands behind what is left of the first `j`, and it stands at `j`
    have hfilter : l.filter keep =
        (l.take j).filter keep ++ l[j] :: (l.drop (j + 1)).filter keep := by
      conv_lhs => rw [hsplit]
      rw [List.filter_append, List.filter_cons_of_pos hkept]
    have hat : (l.filter keep)[((l.take j).filter keep).length]? = some l[j] := by
      rw [hfilter, List.getElem?_append_right (le_refl _), Nat.sub_self, List.getElem?_cons_zero]
    have hlen : ((l.take j).filter keep).length = j :=
      (List.getElem?_inj (List.getElem?_eq_some_iff.mp hat).1 (hl.filter keep)).mp
        (hat.trans h.symm)
    have hall := List.length_filter_eq_length_iff.mp
      (hlen.trans (by rw [List.length_take]; omega : j = (l.take j).length))
    intro x hx
    rcases List.mem_append.mp hx with hx | hx
    · exact hall x hx
    · rw [List.mem_singleton.mp hx]
      exact hkept
  · intro h
    have htake : (l.take j).filter keep = l.take j :=
      List.filter_eq_self.mpr fun x hx => h x (List.mem_append_left _ hx)
    have hkept : keep l[j] = true := h _ (List.mem_append_right _ (List.mem_singleton_self _))
    have hlen : (l.take j).length = j := by
      rw [List.length_take]
      omega
    conv_lhs => rw [hsplit]
    rw [List.filter_append, htake, List.filter_cons_of_pos hkept, List.append_assoc,
      List.getElem?_append_right (by omega), hlen, Nat.sub_self, List.cons_append,
      List.getElem?_cons_zero]

/-! ### The commands -/

/-- The commands that name a connection by its number. -/
inductive Numbered
  | send (text : List UInt8)
  | sendFile (path : List UInt8)

namespace Numbered

/-- A command as it comes over the control socket. -/
def cmd (n : ℕ) : Numbered → List UInt8
  | .send text => ascii "SEND " ++ (decimal n ++ 32 :: text)
  | .sendFile path => ascii "SENDFILE " ++ (decimal n ++ 32 :: path)

/-- What a command does. There is no result if an exception ends the daemon. -/
def result (node : Surroundings) (n : ℕ) : Numbered → Option CtlResult
  | .send text => some (ctlSend node.sends node.peers (decimal n ++ 32 :: text))
  | .sendFile path =>
      if throws node (decimal n ++ 32 :: path) then none
      else some (ctlSendFile node.files node.sends node.peers (decimal n ++ 32 :: path))

/-- The file of a command can be opened and not be read. -/
def unreadable (node : Surroundings) : Numbered → Bool
  | .send _ => false
  | .sendFile path => node.unreadable path

/-- The file of a command is missing or empty. -/
def NoData (node : Surroundings) : Numbered → Prop
  | .send _ => False
  | .sendFile path => node.files path = none ∨ node.files path = some []

/-- `handle_control_client` answers with what the command has come to. -/
theorem handle_cmd (node : Surroundings) (msgs : ReceivedMsgs) (n : ℕ) (c : Numbered) :
    handle node msgs (c.cmd n) =
      match c.result node n with
      | none => ⟨[], msgs, false⟩
      | some r => ⟨r.reply ++ [10], msgs, true⟩ := by
  cases c with
  | send text => exact handle_send node msgs (by simp)
  | sendFile path =>
      rw [cmd, handle_sendFile node msgs (by simp), result]
      split <;> rfl

end Numbered

/-! ### Numbered sends -/

/-- The connection that LIST shows with a number. -/
def shownAt (ps : Peers) (n : ℕ) : Option PeerConn := if n = 0 then none else ps.conns[n - 1]?

/-- Line `n` of the reply shows the connection at this number. -/
theorem listLines_eq (ipText : Bytes 4 → List UInt8) (ps : Peers) {n : ℕ} (hn : n ≠ 0) :
    (listLines ipText ps)[n - 1]? = (shownAt ps n).map (listLine ipText n) := by
  rw [listLines, List.getElem?_mapIdx, shownAt, if_neg hn, show n - 1 + 1 = n by omega]

/-- A command went to the connection that LIST had shown with the number, or it
was answered with an error. -/
def Goes (listed : Peers) (n : ℕ) (r : CtlResult) : Prop :=
  match r.sent with
  | some (target, _) => shownAt listed n = some target
  | none => ascii "ERR" <+: r.reply

/-- SEND or SENDFILE with the number `n` does not go to a connection that LIST did
not show with this number, and is answered. -/
def Numbered.Right (listed : Peers) (node : Surroundings) (msgs : ReceivedMsgs) (n : ℕ)
    (c : Numbered) : Prop :=
  ∃ r, c.result node n = some r ∧ Goes listed n r ∧
    (handle node msgs (c.cmd n)).written = r.reply ++ [10]

/-- The connection that a number leads to now is the one that was shown. -/
def LeadsRight (listed now : Peers) (n : ℕ) : Prop :=
  ∀ target, (stoi (decimal n)).bind (peerAt now) = some target → shownAt listed n = some target

/-- What is written is settled by what the command has come to. -/
theorem Numbered.right_iff {listed : Peers} {node : Surroundings} {msgs : ReceivedMsgs} {n : ℕ}
    {c : Numbered} :
    c.Right listed node msgs n ↔ ∃ r, c.result node n = some r ∧ Goes listed n r := by
  constructor
  · rintro ⟨r, hr, hgoes, -⟩
    exact ⟨r, hr, hgoes⟩
  · rintro ⟨r, hr, hgoes⟩
    refine ⟨r, hr, hgoes, ?_⟩
    rw [Numbered.handle_cmd, hr]

theorem goes_ctlSend_iff {listed now : Peers} {n : ℕ} (sends : PeerConn → List UInt8 → Bool)
    (text : List UInt8) :
    Goes listed n (ctlSend sends now (decimal n ++ 32 :: text)) ↔ LeadsRight listed now n := by
  simp only [ctlSend, splitArgs_decimal, LeadsRight]
  cases hidx : stoi (decimal n) with
  | none => exact iff_of_true ⟨_, rfl⟩ fun _ h => by cases h
  | some idx =>
      simp only [Option.bind_some]
      cases hat : peerAt now idx with
      | none => exact iff_of_true ⟨_, rfl⟩ fun _ h => by cases h
      | some target => simp [Goes]

/-- SENDFILE looks at the file first. -/
theorem goes_ctlSendFile_iff {listed now : Peers} {n : ℕ} {files : List UInt8 → Option (List UInt8)}
    (sends : PeerConn → List UInt8 → Bool) (path : List UInt8) :
    Goes listed n (ctlSendFile files sends now (decimal n ++ 32 :: path)) ↔
      LeadsRight listed now n ∨ files path = none ∨ files path = some [] := by
  simp only [ctlSendFile, splitArgs_decimal, LeadsRight]
  cases hidx : stoi (decimal n) with
  | none => exact iff_of_true ⟨_, rfl⟩ (.inl fun _ h => by cases h)
  | some idx =>
      simp only [Option.bind_some]
      rcases hfile : files path with _ | _ | ⟨b, data⟩
      · exact iff_of_true ⟨_, rfl⟩ (.inr (.inl rfl))
      · exact iff_of_true ⟨_, rfl⟩ (.inr (.inr rfl))
      · cases hat : peerAt now idx with
        | none => exact iff_of_true ⟨_, rfl⟩ (.inl fun _ h => by cases h)
        | some target => simp [Goes]

/-- The exception needs a number that can be read. -/
theorem throws_decimal (node : Surroundings) (n : ℕ) (path : List UInt8) :
    throws node (decimal n ++ 32 :: path) = (decide (n < 2 ^ 31) && node.unreadable path) := by
  simp only [throws, splitArgs_decimal, stoi_decimal]
  by_cases hlt : n < 2 ^ 31
  · rw [if_pos hlt, decide_eq_true hlt, Option.isSome_some]
  · rw [if_neg hlt, decide_eq_false hlt, Option.isSome_none]

/-- The entry that a number leads to. -/
theorem peerAt_decimal (ps : Peers) {n : ℕ} (hn : n ≠ 0) :
    (stoi (decimal n)).bind (peerAt ps) = if n < 2 ^ 31 then ps.conns[n - 1]? else none := by
  rw [stoi_decimal]
  by_cases hlt : n < 2 ^ 31
  · rw [if_pos hlt, if_pos hlt, Option.bind_some, peerAt, Int.toNat_natCast,
      show ((n : ℤ) - 1).toNat = n - 1 by omega]
    split
    · rename_i hout
      rw [List.getElem?_eq_none]
      omega
    · rfl
  · rw [if_neg hlt, if_neg hlt, Option.bind_none]

/-- A number leads to the connection that was shown with it, after some connects and
disconnects, exactly when none of the connections up to it is gone, or too few are left, or
the number does not fit an `int`. -/
theorem leadsRight_iff (ps : Peers) (ops : List Peers.Op) {n : ℕ} (hn : n ≠ 0)
    (hle : n ≤ ps.conns.length) :
    LeadsRight ps (ps.applyAll ops) n ↔
      (∀ c ∈ ps.conns.take n, .remove c.id ∉ ops) ∨ (ps.applyAll ops).conns.length < n ∨
        2 ^ 31 ≤ n := by
  obtain ⟨added, hconns, hadded⟩ := ps.applyAll_conns ops
  -- new connections are none of the listed ones
  have hnew : ∀ c ∈ added, c ∉ ps.conns := fun c hc hold =>
    absurd (ps.id_lt c hold) (Nat.not_lt.mpr (hadded c hc))
  have hj : n - 1 < ps.conns.length := by omega
  have hposition := getElem?_filter_append_iff ps.conns_nodup hnew
    (fun c => decide (.remove c.id ∉ ops)) hj
  rw [← hconns, show n - 1 + 1 = n by omega] at hposition
  simp only [decide_eq_true_eq] at hposition
  rw [← hposition, LeadsRight, peerAt_decimal _ hn, shownAt, if_neg hn]
  constructor
  · intro h
    by_cases hlt : n < 2 ^ 31
    · by_cases hlen : (ps.applyAll ops).conns.length < n
      · exact .inr (.inl hlen)
      · have hget : n - 1 < (ps.applyAll ops).conns.length := by omega
        left
        rw [List.getElem?_eq_getElem hget]
        exact (h _ (by rw [if_pos hlt, List.getElem?_eq_getElem hget])).symm
    · exact .inr (.inr (Nat.not_lt.mp hlt))
  · rintro (h | h | h) target htarget
    · split at htarget
      · rw [← h, htarget]
      · cases htarget
    · split at htarget
      · rw [List.getElem?_eq_none (by omega)] at htarget
        cases htarget
      · cases htarget
    · rw [if_neg (Nat.not_lt.mpr h)] at htarget
      cases htarget

/-- A number of a LIST reply is safe to use after some connects and disconnects exactly when
it does not fit an `int`, or the file can be read if it can be opened, and none of the
connections up to it is gone, or too few are left, or there is nothing to send. -/
theorem numbered_send_iff (ps : Peers) (ops : List Peers.Op) {n : ℕ} (hn : n ≠ 0)
    (hle : n ≤ ps.conns.length) {node : Surroundings} (hnode : node.peers = ps.applyAll ops)
    (msgs : ReceivedMsgs) (c : Numbered) :
    c.Right ps node msgs n ↔
      2 ^ 31 ≤ n ∨ c.unreadable node = false ∧
        ((∀ pc ∈ ps.conns.take n, .remove pc.id ∉ ops) ∨ node.peers.conns.length < n ∨
          c.NoData node) := by
  have hleads := leadsRight_iff ps ops hn hle
  rw [← hnode] at hleads
  rw [Numbered.right_iff]
  cases c with
  | send text =>
      simp only [Numbered.result, Option.some.injEq, exists_eq_left', goes_ctlSend_iff, hleads,
        Numbered.unreadable, Numbered.NoData]
      tauto
  | sendFile path =>
      simp only [Numbered.result, throws_decimal, Numbered.unreadable, Numbered.NoData]
      by_cases hlt : n < 2 ^ 31
      · cases hread : node.unreadable path with
        | true =>
            -- the daemon ends over the file
            refine iff_of_false ?_ ?_
            · rintro ⟨r, hr, -⟩
              rw [if_pos (by rw [decide_eq_true hlt, Bool.true_and])] at hr
              cases hr
            · rintro (hge | ⟨hfalse, -⟩)
              · exact Nat.not_le.mpr hlt hge
              · cases hfalse
        | false =>
            simp only [hlt, decide_true, Bool.true_and, Bool.false_eq_true, if_false,
              Option.some.injEq, exists_eq_left', goes_ctlSendFile_iff, hleads]
            tauto
      · simp only [hlt, decide_false, Bool.false_and, Bool.false_eq_true, if_false,
          Option.some.injEq, exists_eq_left', goes_ctlSendFile_iff, hleads]
        have hge := Nat.not_lt.mp hlt
        tauto

/-- A session with the peer of a given identity. -/
def sessionWith (identity : UInt8) : Session where
  peerIdentityPk := Vector.replicate 32 identity
  kSend := Vector.replicate 32 0
  kRecv := Vector.replicate 32 0

/-- A node with two connections. -/
def twoPeers : Peers :=
  (Peers.empty.addPeer (sessionWith 1) (Vector.replicate 4 127) 7001).addPeer (sessionWith 2)
    (Vector.replicate 4 127) 7002

/-- A node in which SENDFILE finds a file of one byte under any path but the root. -/
def twoPeersNode (ps : Peers) : Surroundings :=
  ⟨ps, fun path => if path = ascii "/" then none else some [0x41], fun path => path = ascii "/",
    fun _ _ => true⟩

theorem numbered_send_iff_second :
    (Numbered.sendFile (ascii "/a")).Right twoPeers (twoPeersNode (twoPeers.applyAll [.remove 1]))
      .empty 1 :=
  (numbered_send_iff twoPeers [.remove 1] (by decide) (by decide) rfl .empty _).mpr
    (.inr ⟨by decide, .inl (by decide)⟩)

/-- Once the first connection is gone, its number leads to the second. And a directory ends the
daemon. -/
theorem numbered_send_shifted :
    ¬(Numbered.send (ascii "A")).Right twoPeers (twoPeersNode (twoPeers.applyAll [.remove 0]))
      .empty 1 ∧
    ¬(Numbered.sendFile (ascii "/")).Right twoPeers (twoPeersNode twoPeers) .empty 1 := by
  constructor
  · rw [Numbered.right_iff]
    simp only [Numbered.result, Option.some.injEq, exists_eq_left', goes_ctlSend_iff]
    intro h
    have hwrong := h ⟨1, sessionWith 2, Vector.replicate 4 127, 7002⟩ (by
      rw [peerAt_decimal _ (by decide), if_pos (by decide)]
      rfl)
    exact absurd hwrong (by decide)
  · rintro ⟨r, hr, -⟩
    rw [Numbered.result, throws_decimal, if_pos (by decide)] at hr
    cases hr

end PeerToPeer.Control
