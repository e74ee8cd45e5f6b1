import PeerToPeer.Session.Session
import Mathlib.Data.List.NodupEquivFin

/-!
A session as a channel.

Over an intact connection the receiver gets every plaintext that is not empty;
an empty one is taken for a failed authentication. Under an attacker who feeds
the receiver's connection, the receiver accepts a genuine frame wherever it
turns up, so the order and number of deliveries are those of the network.
-/

namespace PeerToPeer

open Lib Crypto Net Protocol

namespace Session

/-! ### Intact connections -/

/-- The results of `recv` over an intact connection. -/
theorem recvMany_sendAll_eq {a b : Session} (h : a.kSend = b.kRecv) {ms : List (List UInt8)}
    (hlen : ∀ m ∈ ms, m.length ≤ 2 ^ 20 - 29) :
    b.recvMany ms.length (a.sendAll [] ms) =
      ms.map fun m => if m.isEmpty then none else some m := by
  have hframes : ∀ f ∈ a.sentFrames ms, f.length ≤ maxFrame := by
    intro f hf
    obtain ⟨m, hm, hfm⟩ := length_mem_sentFrames hf
    have := hlen m hm
    unfold maxFrame
    omega
  have hstream := framesOf_flatMap hframes
  rw [length_sentFrames] at hstream
  rw [recvMany_eq, sendAll_eq, List.nil_append, hstream, List.map_map,
    ← map_openFrame_sentFrames h]
  rfl

/-- Two sessions with mirrored keys. -/
structure Mirrored (a b : Session) : Prop where
  send : a.kSend = b.kRecv
  recv : a.kRecv = b.kSend

/-- A channel delivers exactly what was sent if and only if no plaintext is
empty. -/
theorem recvMany_sendAll_iff {a b : Session} (h : Mirrored a b) (ms : List (List UInt8))
    (hlen : ∀ m ∈ ms, m.length ≤ 2 ^ 20 - 29) :
    b.recvMany ms.length (a.sendAll [] ms) = ms.map some ↔ ∀ m ∈ ms, m ≠ [] := by
  rw [recvMany_sendAll_eq h.send hlen, List.map_inj_left]
  constructor
  · rintro heq m hm rfl
    simpa using heq [] hm
  · intro hne m hm
    simp [hne m hm]

/-- The two ends of a channel under zero keys. -/
def zeroKeys : Session := ⟨leVector 32 0, leVector 32 0, leVector 32 0, 0⟩

theorem zeroKeys_mirrored : Mirrored zeroKeys zeroKeys := ⟨rfl, rfl⟩

theorem recvMany_sendAll_iff_hello :
    zeroKeys.recvMany 2 (zeroKeys.sendAll [] [[0x68, 0x69], [0x21]]) =
      [some [0x68, 0x69], some [0x21]] :=
  (recvMany_sendAll_iff zeroKeys_mirrored [[0x68, 0x69], [0x21]] (by decide)).mpr
    (by decide)

/-- An empty plaintext never arrives. -/
theorem recvMany_sendAll_empty :
    ¬∀ (a b : Session) (ms : List (List UInt8)), Mirrored a b →
      (∀ m ∈ ms, m.length ≤ 2 ^ 20 - 29) →
      b.recvMany ms.length (a.sendAll [] ms) = ms.map some := by
  intro h
  have hrecv := h zeroKeys zeroKeys [[]] zeroKeys_mirrored (by decide)
  rw [recvMany_sendAll_eq zeroKeys_mirrored.send (by decide)] at hrecv
  cases hrecv

/-- The nonces of successive frames count up. -/
theorem map_nonce_sentFrames (s : Session) (ms : List (List UInt8)) :
    (s.sentFrames ms).map (fun f => (parseEncrypted f).map (·.nonce)) =
      (List.range ms.length).map fun i => some (counterNonce (s.sendCtr + UInt64.ofNat i)) := by
  induction ms generalizing s with
  | nil => rfl
  | cons m ms ih =>
      have hnonce : parseEncrypted (s.sealFrame m) =
          some ⟨counterNonce s.sendCtr, Aead.sealBlob s.kSend (counterNonce s.sendCtr) m []⟩ :=
        parseEncrypted_buildEncrypted _ (by rw [Aead.length_sealBlob]; omega)
      have hnext : ∀ c : UInt64, s.sendCtr + 1 + c = s.sendCtr + (c + 1) := fun c => by
        rw [UInt64.add_assoc, UInt64.add_comm 1]
      rw [sentFrames, List.map_cons, ih, List.length_cons, List.range_succ_eq_map, List.map_cons,
        List.map_map, hnonce]
      simp [Function.comp_def, send, hnext]

/-- No two frames of a session are equal, as long as the counter does not come round. -/
theorem nodup_sentFrames (s : Session) {ms : List (List UInt8)} (h : ms.length ≤ 2 ^ 64) :
    (s.sentFrames ms).Nodup := by
  refine List.Nodup.of_map (fun f => (parseEncrypted f).map (·.nonce)) ?_
  rw [map_nonce_sentFrames]
  refine List.Nodup.map_on ?_ List.nodup_range
  intro i hi j hj heq
  have hctr := counterNonce_inj (Option.some.inj heq)
  have hnat := congrArg UInt64.toNat (UInt64.add_right_inj _ |>.mp hctr)
  rw [List.mem_range] at hi hj
  rwa [UInt64.toNat_ofNat', UInt64.toNat_ofNat', Nat.mod_eq_of_lt (by omega),
    Nat.mod_eq_of_lt (by omega)] at hnat

/-! ### Connections that an attacker feeds -/

/-- The frames that `n` calls of `recv` take from a stream. -/
def takenFrames (n : ℕ) (stream : List UInt8) : List Frame := (framesOf n stream).filterMap id

/-- The plaintexts that `n` calls of `recv` return. -/
def delivered (b : Session) (n : ℕ) (stream : List UInt8) : List (List UInt8) :=
  (b.recvMany n stream).filterMap id

/-- The attacker has not made up a frame that opens: what the receiver takes
from the stream was sent, or it fails to open. -/
def Unforged (b : Session) (sent : List Frame) (n : ℕ) (stream : List UInt8) : Prop :=
  ∀ f ∈ takenFrames n stream, f ∈ sent ∨ b.openFrame f = none

/-- The genuine frame `f` was sent after the genuine frame `g`. -/
def Later (sent : List Frame) (g f : Frame) : Prop :=
  ∀ i j : ℕ, sent[j]? = some g → sent[i]? = some f → j < i

theorem delivered_eq (b : Session) (n : ℕ) (stream : List UInt8) :
    b.delivered n stream = (takenFrames n stream).filterMap b.openFrame := by
  rw [delivered, recvMany_eq, takenFrames, List.filterMap_map, List.filterMap_filterMap]
  rfl

theorem filterMap_openFrame_sentFrames {a b : Session} (h : a.kSend = b.kRecv)
    (ms : List (List UInt8)) :
    ((a.sentFrames ms).filterMap b.openFrame).Sublist ms := by
  induction ms generalizing a with
  | nil => exact List.Sublist.refl _
  | cons m ms ih =>
      rw [sentFrames, List.filterMap_cons, openFrame_sealFrame h]
      split
      · exact (ih (a := (a.send [] m).1) h).cons _
      · rename_i heq
        split at heq
        · cases heq
        · cases heq
          exact (ih (a := (a.send [] m).1) h).cons_cons _

/-- Genuine frames taken in the order in which they were sent form a
subsequence of what was sent. -/
theorem sublist_of_pairwise_later {sent fs : List Frame} (hmem : ∀ f ∈ fs, f ∈ sent)
    (hlater : fs.Pairwise (Later sent)) : fs.Sublist sent := by
  have hindex : ∀ k : Fin fs.length, ∃ i : Fin sent.length, sent.get i = fs.get k := fun k =>
    List.get_of_mem (hmem _ (List.get_mem fs k))
  choose index hindex using hindex
  have hget : ∀ k, sent[(index k : ℕ)]? = some (fs.get k) := by
    intro k
    rw [← hindex k]
    simp
  have hmono : StrictMono index := fun k l hkl =>
    List.pairwise_iff_get.mp hlater k l hkl _ _ (hget k) (hget l)
  rw [List.sublist_iff_exists_fin_orderEmbedding_get_eq]
  exact ⟨OrderEmbedding.ofStrictMono index hmono, fun k => (hindex k).symm⟩

/-- When every genuine frame fed to the receiver was sent after the genuine
frames fed before, the receiver returns a subsequence of what was sent. -/
theorem sublist_of_later {a b : Session} (h : a.kSend = b.kRecv) {ms : List (List UInt8)} {n : ℕ}
    {stream : List UInt8} (hforge : b.Unforged (a.sentFrames ms) n stream)
    (hlater : (takenFrames n stream).Pairwise (Later (a.sentFrames ms))) :
    (b.delivered n stream).Sublist ms := by
  set sent := a.sentFrames ms with hsent
  set genuine := (takenFrames n stream).filter (· ∈ sent) with hgenuine
  have hdelivered : b.delivered n stream = genuine.filterMap b.openFrame := by
    rw [delivered_eq, hgenuine, List.filterMap_filter]
    apply List.filterMap_congr
    intro f hf
    rcases hforge f hf with hmem | hnone
    · simp [hmem]
    · simp [hnone]
  have hsub : genuine.Sublist sent := by
    apply sublist_of_pairwise_later
    · intro f hf
      simpa using (List.mem_filter.mp hf).2
    · exact hlater.filter _
  rw [hdelivered]
  exact (hsub.filterMap b.openFrame).trans (filterMap_openFrame_sentFrames h ms)

theorem openFrame_of_sentFrames {a b : Session} (h : a.kSend = b.kRecv) {ms : List (List UInt8)}
    (hne : [] ∉ ms) {i : ℕ} {f : Frame} (hi : (a.sentFrames ms)[i]? = some f) :
    ∃ m, ms[i]? = some m ∧ b.openFrame f = some m := by
  have hmap := congrArg (·[i]?) (map_openFrame_sentFrames h ms)
  simp only [List.getElem?_map, hi, Option.map_some] at hmap
  obtain ⟨m, hm, hopen⟩ := Option.map_eq_some_iff.mp hmap.symm
  have hmne : m ≠ [] := by
    rintro rfl
    exact hne (List.mem_of_getElem? hm)
  refine ⟨m, hm, ?_⟩
  rw [← hopen]
  simp [hmne]

theorem pairwise_idxOf_lt {α : Type} [BEq α] [LawfulBEq α] {l : List α} (h : l.Nodup) :
    l.Pairwise fun x y => l.idxOf x < l.idxOf y := by
  rw [List.pairwise_iff_getElem]
  intro i j hi hj hij
  rwa [h.idxOf_getElem, h.idxOf_getElem]

/-- Distinct plaintexts that arrive in order were fed in order. -/
theorem later_of_sublist {a b : Session} (h : a.kSend = b.kRecv) {ms : List (List UInt8)} {n : ℕ}
    {stream : List UInt8} (hnodup : ms.Nodup) (hne : [] ∉ ms)
    (hsub : (b.delivered n stream).Sublist ms) :
    (takenFrames n stream).Pairwise (Later (a.sentFrames ms)) := by
  have horder := (pairwise_idxOf_lt hnodup).sublist hsub
  rw [delivered_eq, List.pairwise_filterMap] at horder
  refine horder.imp ?_
  intro g f hgf i j hj hi
  obtain ⟨x, hx, hgx⟩ := openFrame_of_sentFrames h hne hj
  obtain ⟨y, hy, hfy⟩ := openFrame_of_sentFrames h hne hi
  have hlt := hgf x hgx y hfy
  obtain ⟨hjlt, rfl⟩ := List.getElem?_eq_some_iff.mp hx
  obtain ⟨hilt, rfl⟩ := List.getElem?_eq_some_iff.mp hy
  rwa [hnodup.idxOf_getElem, hnodup.idxOf_getElem] at hlt

/-- What the receiver returns is a subsequence of what was sent when every
genuine frame fed to it was sent after the genuine frames fed before. For
distinct plaintexts that are not empty this is exact; equal ones can change
places unseen. -/
theorem delivered_sublist {a b : Session} (h : Mirrored a b) (ms : List (List UInt8)) (n : ℕ)
    (stream : List UInt8) (hforge : b.Unforged (a.sentFrames ms) n stream) :
    ((takenFrames n stream).Pairwise (Later (a.sentFrames ms)) →
      (b.delivered n stream).Sublist ms) ∧
    (ms.Nodup → [] ∉ ms → (b.delivered n stream).Sublist ms →
      (takenFrames n stream).Pairwise (Later (a.sentFrames ms))) :=
  ⟨sublist_of_later h.send hforge, later_of_sublist h.send⟩

/-- The frame of a one-byte message under zero keys. -/
def oneFrame : Frame := zeroKeys.sealFrame [0x41]

theorem oneFrame_length : oneFrame.length = 30 := length_sealFrame _ _

theorem sentFrames_one : zeroKeys.sentFrames [[0x41]] = [oneFrame] := rfl

theorem openFrame_oneFrame : zeroKeys.openFrame oneFrame = some [0x41] :=
  openFrame_sealFrame zeroKeys_mirrored.send [0x41]

theorem takenFrames_flatMap (fs : List Frame) (h : ∀ f ∈ fs, f.length ≤ maxFrame) :
    takenFrames fs.length (fs.flatMap frameBytes) = fs := by
  rw [takenFrames, framesOf_flatMap h, List.filterMap_map]
  exact List.filterMap_some

/-- The frame of the last of three messages. -/
def lastFrame : Frame := sealFrame { zeroKeys with sendCtr := 2 } [0x43]

theorem lastFrame_length : lastFrame.length = 30 := length_sealFrame _ _

theorem sentFrames_three : ∃ f, zeroKeys.sentFrames [[0x41], [0x42], [0x43]] =
    [oneFrame, f, lastFrame] := ⟨_, rfl⟩

/-- The network drops the second of three messages and puts a frame of its own in its place. -/
theorem delivered_sublist_dropped :
    (zeroKeys.delivered 3 ([oneFrame, [0x20, 0x00], lastFrame].flatMap frameBytes)).Sublist
      [[0x41], [0x42], [0x43]] := by
  have htaken : takenFrames 3 ([oneFrame, [0x20, 0x00], lastFrame].flatMap frameBytes) =
      [oneFrame, [0x20, 0x00], lastFrame] :=
    takenFrames_flatMap [oneFrame, [0x20, 0x00], lastFrame]
      (by simp [oneFrame_length, lastFrame_length, maxFrame])
  obtain ⟨f, hsent⟩ := sentFrames_three
  have hnodup : (zeroKeys.sentFrames [[0x41], [0x42], [0x43]]).Nodup :=
    nodup_sentFrames zeroKeys (by decide)
  have hinvented : ([0x20, 0x00] : Frame) ∉ zeroKeys.sentFrames [[0x41], [0x42], [0x43]] := by
    intro hmem
    obtain ⟨m, -, hlen⟩ := length_mem_sentFrames hmem
    exact absurd hlen (by simp)
  rw [hsent] at hnodup hinvented
  refine (delivered_sublist zeroKeys_mirrored _ 3 _ ?_).1 ?_
  · intro g hg
    rw [htaken] at hg
    rw [hsent]
    rcases List.mem_cons.mp hg with rfl | hg
    · exact .inl List.mem_cons_self
    rcases List.mem_pair.mp hg with rfl | rfl
    · exact .inr rfl
    · exact .inl (by simp)
  · rw [htaken, hsent, List.pairwise_cons, List.pairwise_pair, List.forall_mem_cons,
      List.forall_mem_singleton]
    -- the invented frame stands nowhere among those that were sent
    refine ⟨⟨fun i j _ hi => absurd (List.mem_of_getElem? hi) hinvented, fun i j hj hi => ?_⟩,
      fun i j hj _ => absurd (List.mem_of_getElem? hj) hinvented⟩
    have hfirst : 0 = j := (List.getElem?_inj (by simp) hnodup).mp (hj.symm ▸ rfl)
    have hlast : 2 = i := (List.getElem?_inj (by simp) hnodup).mp (hi.symm ▸ rfl)
    omega

/-- A replayed frame is delivered again. -/
theorem delivered_replay :
    ¬∀ (a b : Session) (ms : List (List UInt8)) (n : ℕ) (stream : List UInt8), Mirrored a b →
      b.Unforged (a.sentFrames ms) n stream → (b.delivered n stream).Sublist ms := by
  intro h
  have htaken : takenFrames 2 ([oneFrame, oneFrame].flatMap frameBytes) = [oneFrame, oneFrame] :=
    takenFrames_flatMap [oneFrame, oneFrame] (by simp [oneFrame_length, maxFrame])
  have hsub := h zeroKeys zeroKeys [[0x41]] 2 ([oneFrame, oneFrame].flatMap frameBytes)
    zeroKeys_mirrored (by
      intro f hf
      rw [htaken] at hf
      left
      simpa [sentFrames_one] using hf)
  rw [delivered_eq, htaken] at hsub
  simp [openFrame_oneFrame] at hsub

end Session

end PeerToPeer
