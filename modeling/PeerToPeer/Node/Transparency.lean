import PeerToPeer.Node.Node
import PeerToPeer.Session.Channel
import PeerToPeer.Transfer.Lossless

/-!
What one node sends is what the other delivers, unless a short message looks
like a chunk.

A short message that parses as a chunk is stripped of nine bytes at least, and
the open transfers never give back more bytes than they were given. So one such
message is enough for the deliveries to differ from what was sent.
-/

namespace PeerToPeer.Node

open Lib Crypto Net Protocol Transfer

/-! ### The sender -/

/-- The session messages for one text. -/
def plaintexts (m : UInt32 × List UInt8) : List (List UInt8) :=
  if m.2.length > chunkPayloadSize.toNat then
    framesFrom m.1 (totalChunks chunkPayloadSize m.2) 0
      (pieces chunkPayloadSize.toNat (totalChunks chunkPayloadSize m.2).toNat m.2)
  else [m.2]

/-- Sending session messages one after the other. -/
def sendPlaintexts (out : Outgoing) (ps : List (List UInt8)) : Outgoing :=
  ps.foldl (fun out p => (sendMsg out p).1) out

theorem sendPlaintexts_snd (out : Outgoing) (ps : List (List UInt8)) :
    (sendPlaintexts out ps).2 = out.1.sendAll out.2 ps := by
  induction ps generalizing out with
  | nil => rfl
  | cons p ps ih =>
      rw [sendPlaintexts, List.foldl_cons, ← sendPlaintexts, ih]
      rfl

theorem sendText_fst {m : UInt32 × List UInt8} (hlen : m.2.length < 2 ^ 64)
    (out : Outgoing) : (sendText out m.1 m.2).1 = sendPlaintexts out (plaintexts m) := by
  unfold sendText plaintexts
  split
  · rename_i hlong
    have hne : m.2 ≠ [] := by
      intro h
      rw [h] at hlong
      exact absurd hlong (Nat.not_lt_zero _)
    rw [sendChunkedMsg, sendChunked_eq sendMsg (fun _ _ => rfl) m.1 hne hlen]
    rfl
  · rfl

theorem sendTexts_eq {msgs : List (UInt32 × List UInt8)} (hlen : ∀ m ∈ msgs, m.2.length < 2 ^ 64)
    (out : Outgoing) : sendTexts out msgs = sendPlaintexts out (msgs.flatMap plaintexts) := by
  induction msgs generalizing out with
  | nil => rfl
  | cons m msgs ih =>
      obtain ⟨hm, hmsgs⟩ := List.forall_mem_cons.mp hlen
      rw [sendTexts, ih hmsgs, sendText_fst hm, List.flatMap_cons, sendPlaintexts, sendPlaintexts,
        sendPlaintexts, List.foldl_append]

/-! ### The receiver -/

/-- The texts delivered for a list of session messages, and the open transfers. -/
def deliverAll (chunks : TransferRegistry) :
    List (List UInt8) → List (List UInt8) × TransferRegistry
  | [] => ([], chunks)
  | p :: ps =>
      ((deliver chunks p).1.toList ++ (deliverAll (deliver chunks p).2 ps).1,
        (deliverAll (deliver chunks p).2 ps).2)

theorem deliverAll_append (chunks : TransferRegistry) (ps qs : List (List UInt8)) :
    deliverAll chunks (ps ++ qs) =
      ((deliverAll chunks ps).1 ++ (deliverAll (deliverAll chunks ps).2 qs).1,
        (deliverAll (deliverAll chunks ps).2 qs).2) := by
  induction ps generalizing chunks with
  | nil => rfl
  | cons p ps ih => simp [deliverAll, ih]

/-- `recv_loop` over an intact connection. -/
theorem recvLoop_sendAll {a b : Session} (h : a.kSend = b.kRecv) {ps : List (List UInt8)}
    (hne : ∀ p ∈ ps, p ≠ []) (hlen : ∀ p ∈ ps, p.length ≤ 2 ^ 20 - 29)
    (chunks : TransferRegistry) :
    recvLoop b (a.sendAll [] ps) chunks =
      (deliverAll chunks ps).1.map fun text => ⟨pkHex b.peerIdentityPk, text⟩ := by
  induction ps generalizing a chunks with
  | nil =>
      rw [recvLoop]
      rfl
  | cons p ps ih =>
      obtain ⟨hp, hps⟩ := List.forall_mem_cons.mp hne
      obtain ⟨hlp, hlps⟩ := List.forall_mem_cons.mp hlen
      have hrecv : b.recv (a.sendAll [] (p :: ps)) =
          (some p, (a.send [] p).1.sendAll [] ps) := by
        rw [Session.sendAll_eq, Session.sentFrames, List.flatMap_cons, List.nil_append,
          Session.recv,
          recvFrame_frameBytes (by rw [Session.length_sealFrame]; unfold maxFrame; omega),
          Session.sendAll_eq, List.nil_append]
        simp only [Session.openFrame_sealFrame h]
        simp [hp]
      rw [recvLoop]
      split
      · rename_i hnone
        rw [hrecv] at hnone
        cases hnone
      · rename_i hsome
        rw [hrecv] at hsome
        obtain ⟨hmsg, hrest⟩ := Prod.mk.inj hsome
        cases hmsg
        rw [← hrest, deliverAll, List.map_append, ← ih (a := (a.send [] p).1) h hps hlps]

/-! ### Chunks -/

/-- Chunk frames parse. -/
theorem isSome_parse_framesFrom {transferId : UInt32} {total index : UInt16}
    {qs : List (List UInt8)} (h : index.toNat + qs.length ≤ total.toNat) :
    ∀ f ∈ framesFrom transferId total index qs, (parseChunkFrame f).isSome = true := by
  induction qs generalizing index with
  | nil => simp [framesFrom]
  | cons q qs ih =>
      rw [List.length_cons] at h
      have hlt : index < total := UInt16.lt_iff_toNat_lt.mpr (by omega)
      have hnext := toNat_add_one (UInt16.lt_iff_toNat_lt.mp hlt)
      rw [framesFrom, List.forall_mem_cons]
      refine ⟨?_, ih (by omega)⟩
      rw [parseChunkFrame_makeChunkFrame hlt]
      rfl

theorem length_framesFrom {transferId : UInt32} {total index : UInt16} {qs : List (List UInt8)}
    {n : ℕ} (h : ∀ q ∈ qs, q.length ≤ n) :
    ∀ f ∈ framesFrom transferId total index qs, f ≠ [] ∧ f.length ≤ n + 9 := by
  induction qs generalizing index with
  | nil => simp [framesFrom]
  | cons q qs ih =>
      obtain ⟨hq, hqs⟩ := List.forall_mem_cons.mp h
      rw [framesFrom, List.forall_mem_cons]
      refine ⟨⟨List.cons_ne_nil _ _, ?_⟩, ih hqs⟩
      rw [length_makeChunkFrame]
      omega

/-- Chunks only: `recv_loop` passes them to the registry. -/
theorem deliverAll_of_isSome {ps : List (List UInt8)}
    (h : ∀ p ∈ ps, (parseChunkFrame p).isSome = true) (chunks : TransferRegistry) :
    deliverAll chunks ps =
      ((chunks.ingestFrames ps).1.filterMap id, (chunks.ingestFrames ps).2) := by
  induction ps generalizing chunks with
  | nil => rfl
  | cons p ps ih =>
      obtain ⟨hp, hps⟩ := List.forall_mem_cons.mp h
      obtain ⟨ci, hci⟩ := Option.isSome_iff_exists.mp hp
      simp only [deliverAll, deliver, TransferRegistry.ingestFrames, hci, ih hps]
      rcases chunks.ingest ci with ⟨_ | text, chunks'⟩ <;> rfl

/-- A message that can be sent whole: it is not empty and takes at most 65535
chunks. -/
structure Sendable (m : UInt32 × List UInt8) : Prop where
  nonempty : m.2 ≠ []
  fits : m.2.length ≤ 65535 * chunkPayloadSize.toNat

section Message

variable {m : UInt32 × List UInt8} (hm : Sendable m)

include hm

theorem Sendable.totalChunks_eq :
    (totalChunks chunkPayloadSize m.2).toNat = chunkCount chunkPayloadSize m.2 := by
  have hfits := hm.fits
  have hpayload : chunkPayloadSize.toNat = 8192 := rfl
  have hcount : chunkCount chunkPayloadSize m.2 < 2 ^ 16 := by
    rw [chunkCount, Nat.div_lt_iff_lt_mul (by decide)]
    omega
  rw [totalChunks_toNat (by decide) (by omega), if_pos (by omega), Nat.mod_eq_of_lt hcount]

theorem Sendable.plaintexts_bound : ∀ p ∈ plaintexts m, p ≠ [] ∧ p.length ≤ 2 ^ 20 - 29 := by
  have hpayload : chunkPayloadSize.toNat = 8192 := rfl
  unfold plaintexts
  split
  · intro p hp
    have hpieces : ∀ q ∈ pieces chunkPayloadSize.toNat
        (totalChunks chunkPayloadSize m.2).toNat m.2, q.length ≤ 8192 := by
      intro q hq
      obtain ⟨i, -, rfl⟩ := List.mem_map.mp hq
      rw [List.length_take]
      omega
    obtain ⟨hne, hlen⟩ := length_framesFrom hpieces p hp
    exact ⟨hne, by omega⟩
  · intro p hp
    rw [List.mem_singleton] at hp
    subst hp
    exact ⟨hm.nonempty, by omega⟩

/-- A message that is not taken for a chunk is delivered, and leaves no trace. -/
theorem Sendable.deliverAll_plaintexts {chunks : TransferRegistry} (hchunks : chunks m.1 = none)
    (hplain : m.2.length ≤ chunkPayloadSize.toNat → parseChunkFrame m.2 = none) :
    deliverAll chunks (plaintexts m) = ([m.2], chunks) := by
  unfold plaintexts
  split
  · rw [deliverAll_of_isSome (isSome_parse_framesFrom (by simp)),
      TransferRegistry.ingestFrames_pieces hchunks hm.nonempty (by decide) hm.totalChunks_eq]
    simp
  · rename_i hshort
    simp [deliverAll, deliver, hplain (Nat.not_lt.mp hshort)]

end Message

/-- Nothing is lost as long as no short message parses as a chunk. -/
theorem deliverAll_flatMap {msgs : List (UInt32 × List UInt8)} (hmsgs : ∀ m ∈ msgs, Sendable m)
    (hplain : ∀ m ∈ msgs, m.2.length ≤ chunkPayloadSize.toNat → parseChunkFrame m.2 = none) :
    deliverAll .empty (msgs.flatMap plaintexts) = (msgs.map (·.2), .empty) := by
  induction msgs with
  | nil => rfl
  | cons m msgs ih =>
      obtain ⟨hm, hmsgs⟩ := List.forall_mem_cons.mp hmsgs
      obtain ⟨hp, hplain⟩ := List.forall_mem_cons.mp hplain
      rw [List.flatMap_cons, deliverAll_append, hm.deliverAll_plaintexts rfl hp]
      simp only
      rw [ih hmsgs hplain]
      rfl

/-! ### Counting bytes -/

noncomputable instance fintypeUInt32 : Fintype UInt32 :=
  Fintype.ofInjective UInt32.toFin fun _ _ => UInt32.toFin_inj.mp

/-- The bytes that a row of slots holds. -/
def held (r : ChunkReassembler) : ℕ := (contents r.slots).length

/-- The bytes that the open transfers hold. -/
noncomputable def heldAll (chunks : TransferRegistry) : ℕ := weight held chunks

theorem heldAll_empty : heldAll .empty = 0 := by
  simp [heldAll, weight, TransferRegistry.empty]

/-- The row that a chunk goes to weighs what the registry holds for it. -/
theorem held_entry (chunks : TransferRegistry) (transferId : UInt32) (total : UInt16) :
    held (chunks.entry transferId total) = (chunks transferId).elim 0 held := by
  unfold TransferRegistry.entry
  cases chunks transferId with
  | none => simp [held, ChunkReassembler.new]
  | some r => rfl

/-- What is put in, is held or comes out. -/
theorem add_bytes (r : ChunkReassembler) (index : UInt16) (data : List UInt8) :
    (∃ r', r.add index data = (none, r') ∧ held r' ≤ held r + data.length) ∨
      ∃ out r', r.add index data = (some out, r') ∧ out.length = held r + data.length := by
  unfold ChunkReassembler.add
  split
  · exact .inl ⟨r, rfl, Nat.le_add_right _ _⟩
  · rename_i hfree
    have hfill : held (r.fill index data hfree) = held r + data.length :=
      length_contents_set (ChunkReassembler.getElem?_of_not_taken hfree) data
    simp only
    split
    · exact .inl ⟨_, rfl, hfill.le⟩
    · exact .inr ⟨_, _, rfl, hfill⟩

theorem ingest_bytes (chunks : TransferRegistry) (ci : ChunkInfo) :
    (chunks.ingest ci).1.elim 0 List.length + heldAll (chunks.ingest ci).2 ≤
      heldAll chunks + ci.data.length := by
  have hentry := held_entry chunks ci.transferId ci.total
  have hset := weight_update held chunks ci.transferId
  rw [TransferRegistry.ingest_eq]
  obtain ⟨r', hadd, hle⟩ | ⟨out, r', hadd, heq⟩ :=
    add_bytes (chunks.entry ci.transferId ci.total) ci.index ci.data
  · have := hset (some r')
    simp only [Option.elim_some] at this
    simp only [hadd, heldAll, TransferRegistry.set, Option.isSome_none, Bool.false_eq_true,
      if_false, Option.elim_none]
    omega
  · have := hset none
    simp only [Option.elim_none] at this
    simp only [hadd, heldAll, TransferRegistry.set, Option.isSome_some, if_true,
      Option.elim_some]
    omega

/-- The bytes of a session message that can still be delivered. -/
def payload (p : List UInt8) : ℕ := (parseChunkFrame p).elim p.length (·.data.length)

theorem deliverAll_bytes (chunks : TransferRegistry) (ps : List (List UInt8)) :
    ((deliverAll chunks ps).1.map List.length).sum + heldAll (deliverAll chunks ps).2 ≤
      heldAll chunks + (ps.map payload).sum := by
  induction ps generalizing chunks with
  | nil => simp [deliverAll]
  | cons p ps ih =>
      have hlater := ih (deliver chunks p).2
      have hnow : ((deliver chunks p).1.toList.map List.length).sum +
          heldAll (deliver chunks p).2 ≤ heldAll chunks + payload p := by
        unfold deliver payload
        cases parseChunkFrame p with
        | none => simp [Nat.add_comm]
        | some ci =>
            have := ingest_bytes chunks ci
            cases hout : (chunks.ingest ci).1 <;> simp_all
      simp only [deliverAll, List.map_append, List.sum_append, List.map_cons, List.sum_cons]
      omega

theorem data_length_of_parse {p : List UInt8} {ci : ChunkInfo} (h : parseChunkFrame p = some ci) :
    ci.data.length + 9 = p.length := by
  unfold parseChunkFrame at h
  split at h
  · cases h
  · rename_i hlen
    split at h
    · cases h
    · simp only at h
      split at h
      · cases h
      · cases h
        simp only [chunkHeaderSize, List.length_drop] at hlen ⊢
        omega

theorem payload_framesFrom {transferId : UInt32} {total index : UInt16} {qs : List (List UInt8)}
    (h : index.toNat + qs.length ≤ total.toNat) :
    ((framesFrom transferId total index qs).map payload).sum = qs.flatten.length := by
  induction qs generalizing index with
  | nil => rfl
  | cons q qs ih =>
      rw [List.length_cons] at h
      have hlt : index < total := UInt16.lt_iff_toNat_lt.mpr (by omega)
      have hnext := toNat_add_one (UInt16.lt_iff_toNat_lt.mp hlt)
      rw [framesFrom, List.map_cons, List.sum_cons, ih (by omega), payload,
        parseChunkFrame_makeChunkFrame hlt, List.flatten_cons, List.length_append]
      rfl

/-- A short message that parses as a chunk. -/
def LooksLikeChunk (m : UInt32 × List UInt8) : Prop :=
  m.2.length ≤ chunkPayloadSize.toNat ∧ (parseChunkFrame m.2).isSome = true

theorem Sendable.payload_plaintexts_le {m : UInt32 × List UInt8} (hm : Sendable m) :
    ((plaintexts m).map payload).sum ≤ m.2.length := by
  unfold plaintexts
  split
  · rw [payload_framesFrom (by simp), hm.totalChunks_eq,
      flatten_pieces_of_le (le_chunkCount_mul (by decide))]
  · simp only [List.map_singleton, List.sum_singleton, payload]
    cases hparse : parseChunkFrame m.2 with
    | none => exact le_refl _
    | some ci =>
        have := data_length_of_parse hparse
        simp only [Option.elim_some]
        omega

theorem LooksLikeChunk.payload_plaintexts_lt {m : UInt32 × List UInt8} (h : LooksLikeChunk m) :
    ((plaintexts m).map payload).sum < m.2.length := by
  obtain ⟨ci, hci⟩ := Option.isSome_iff_exists.mp h.2
  have := data_length_of_parse hci
  rw [plaintexts, if_neg (Nat.not_lt.mpr h.1)]
  simp only [List.map_singleton, List.sum_singleton, payload, hci, Option.elim_some]
  omega

/-- One short message that parses as a chunk, and bytes are missing at the other
end. -/
theorem deliverAll_ne {msgs : List (UInt32 × List UInt8)} (hmsgs : ∀ m ∈ msgs, Sendable m)
    {m : UInt32 × List UInt8} (hm : m ∈ msgs) (hlooks : LooksLikeChunk m) :
    (deliverAll .empty (msgs.flatMap plaintexts)).1 ≠ msgs.map (·.2) := by
  intro heq
  have hbytes := deliverAll_bytes .empty (msgs.flatMap plaintexts)
  have hsum : ((msgs.flatMap plaintexts).map payload).sum =
      (msgs.map fun m => ((plaintexts m).map payload).sum).sum := by
    rw [List.map_flatMap, List.flatMap_def, List.sum_flatten, List.map_map]
    rfl
  have hlt : (msgs.map fun m => ((plaintexts m).map payload).sum).sum <
      (msgs.map fun m => m.2.length).sum :=
    List.sum_lt_sum _ _ (fun m hm => (hmsgs m hm).payload_plaintexts_le)
      ⟨m, hm, hlooks.payload_plaintexts_lt⟩
  rw [heq, heldAll_empty, hsum, List.map_map] at hbytes
  simp only [Function.comp_def] at hbytes
  omega

/-! ### Transparency -/

/-- What `recv_loop` pushes for messages sent over an intact connection. -/
theorem recvLoop_sendTexts {a b : Session} (h : a.kSend = b.kRecv)
    {msgs : List (UInt32 × List UInt8)} (hmsgs : ∀ m ∈ msgs, Sendable m) :
    recvLoop b (sendTexts (a, []) msgs).2 .empty =
      (deliverAll .empty (msgs.flatMap plaintexts)).1.map fun text =>
        ⟨pkHex b.peerIdentityPk, text⟩ := by
  have hlen : ∀ m ∈ msgs, m.2.length < 2 ^ 64 := by
    intro m hm
    have := (hmsgs m hm).fits
    have hpayload : chunkPayloadSize.toNat = 8192 := rfl
    omega
  have hbound : ∀ p ∈ msgs.flatMap plaintexts, p ≠ [] ∧ p.length ≤ 2 ^ 20 - 29 := by
    intro p hp
    obtain ⟨m, hm, hp⟩ := List.mem_flatMap.mp hp
    exact (hmsgs m hm).plaintexts_bound p hp
  rw [sendTexts_eq hlen, sendPlaintexts_snd]
  exact recvLoop_sendAll h (fun p hp => (hbound p hp).1) (fun p hp => (hbound p hp).2) _

/-- The other node gets exactly the messages that were sent if and only if none
of the short ones parses as a chunk. -/
theorem recvLoop_sendTexts_iff {a b : Session} (h : Session.Mirrored a b)
    (msgs : List (UInt32 × List UInt8)) (hmsgs : ∀ m ∈ msgs, Sendable m) :
    recvLoop b (sendTexts (a, []) msgs).2 .empty =
        msgs.map (fun m => ⟨pkHex b.peerIdentityPk, m.2⟩) ↔
      ∀ m ∈ msgs, m.2.length ≤ chunkPayloadSize.toNat → parseChunkFrame m.2 = none := by
  rw [recvLoop_sendTexts h.send hmsgs]
  constructor
  · intro heq m hm hshort
    by_contra hparse
    refine deliverAll_ne hmsgs hm ⟨hshort, Option.isSome_iff_ne_none.mpr hparse⟩ ?_
    have htexts := congrArg (List.map ReceivedMsg.text) heq
    simpa [Function.comp_def] using htexts
  · intro hplain
    rw [deliverAll_flatMap hmsgs hplain, List.map_map]
    rfl

theorem recvLoop_sendTexts_iff_hello :
    recvLoop Session.zeroKeys (sendTexts (Session.zeroKeys, []) [(0, [0x68, 0x69])]).2 .empty =
      [⟨pkHex Session.zeroKeys.peerIdentityPk, [0x68, 0x69]⟩] := by
  refine (recvLoop_sendTexts_iff Session.zeroKeys_mirrored [(0, [0x68, 0x69])] ?_).mpr (by decide)
  intro m hm
  rw [List.mem_singleton] at hm
  subst hm
  exact ⟨by decide, by decide⟩

/-- A message of nine bytes that reads as the only chunk of an empty transfer. -/
def headerOnly : List UInt8 := [1, 0, 0, 0, 0, 0, 0, 1, 0]

/-- The other node delivers an empty text in its place. -/
theorem recvLoop_sendTexts_headerOnly :
    ¬∀ (a b : Session) (msgs : List (UInt32 × List UInt8)), Session.Mirrored a b →
      (∀ m ∈ msgs, Sendable m) →
      recvLoop b (sendTexts (a, []) msgs).2 .empty =
        msgs.map (fun m => ⟨pkHex b.peerIdentityPk, m.2⟩) := by
  intro h
  have hmsgs : ∀ m ∈ [((0 : UInt32), headerOnly)], Sendable m := by
    rintro m hm
    rw [List.mem_singleton] at hm
    subst hm
    exact ⟨by decide, by decide⟩
  have hrecv := h Session.zeroKeys Session.zeroKeys [(0, headerOnly)] Session.zeroKeys_mirrored
    hmsgs
  have hdeliver : (deliverAll .empty ([((0 : UInt32), headerOnly)].flatMap plaintexts)).1 =
      [[]] := by
    decide
  rw [recvLoop_sendTexts rfl hmsgs, hdeliver] at hrecv
  simp [headerOnly] at hrecv

end PeerToPeer.Node
