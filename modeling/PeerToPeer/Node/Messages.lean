import PeerToPeer.Node.Arrivals
import PeerToPeer.Transfer.Duplicates

/-!
Texts and files as messages of one kind.

SEND and BROADCAST send a text as it is when it is short, and in chunks when it is long;
SENDFILE sends a file in chunks whatever its size. A message in chunks is a transfer of the
receiver's registry, and arrives whatever its bytes are. One that is sent as it is arrives
if it does not parse as a chunk.
-/

namespace PeerToPeer.Node

open Lib Crypto Net Protocol Transfer

/-- A text, or the contents of a file. -/
structure Message where
  file : Bool
  data : List UInt8
  deriving DecidableEq

namespace Message

/-- It goes out in chunks. -/
def Chunked (m : Message) : Prop := m.file = true ∨ m.data.length > chunkPayloadSize.toNat

instance (m : Message) : Decidable m.Chunked := inferInstanceAs (Decidable (_ ∨ _))

/-- What `ctl_send_file`, or else `ctl_send` and `ctl_broadcast`, do with a connection. -/
def send (m : Message) (transferId : UInt32) (out : Outgoing) : Outgoing × Bool :=
  if m.file = true then sendChunkedMsg transferId out m.data else sendText out transferId m.data

/-- The session messages that it becomes. -/
def plaintexts (m : Message) (transferId : UInt32) : List (List UInt8) :=
  if m.Chunked then
    framesFrom transferId (totalChunks chunkPayloadSize m.data) 0
      (pieces chunkPayloadSize.toNat (totalChunks chunkPayloadSize m.data).toNat m.data)
  else [m.data]

/-- It arrives as it was sent: it is not empty, takes at most 65535 chunks, and does not
parse as a chunk if it is sent as it is. -/
structure Clean (m : Message) : Prop where
  nonempty : m.data ≠ []
  fits : m.data.length ≤ 65535 * chunkPayloadSize.toNat
  plain : ¬m.Chunked → parseChunkFrame m.data = none

theorem Clean.sendable {m : Message} (h : m.Clean) (transferId : UInt32) :
    Sendable (transferId, m.data) :=
  ⟨h.nonempty, h.fits⟩

theorem send_eq (m : Message) (transferId : UInt32) (out : Outgoing) :
    m.send transferId out =
      if m.Chunked then sendChunkedMsg transferId out m.data else sendMsg out m.data := by
  rw [send, sendText]
  by_cases hfile : m.file = true
  · rw [if_pos hfile, if_pos (.inl hfile)]
  · rw [if_neg hfile]
    by_cases hlong : m.data.length > chunkPayloadSize.toNat
    · rw [if_pos hlong, if_pos (.inr hlong)]
    · have hwhole : ¬m.Chunked := not_or.mpr ⟨hfile, hlong⟩
      rw [if_neg hlong, if_neg hwhole]

/-- Sending a message is sending what it becomes. -/
theorem send_fst {m : Message} (hne : m.data ≠ []) (hlen : m.data.length < 2 ^ 64)
    (transferId : UInt32) (out : Outgoing) :
    (m.send transferId out).1 = sendPlaintexts out (m.plaintexts transferId) := by
  rw [send_eq, plaintexts]
  split
  · rw [sendChunkedMsg, sendChunked_eq sendMsg (fun _ _ => rfl) transferId hne hlen]
    rfl
  · rfl

section Clean

variable {m : Message} (hm : m.Clean) (transferId : UInt32)

include hm

theorem Clean.plaintexts_bound :
    ∀ p ∈ m.plaintexts transferId, p ≠ [] ∧ p.length ≤ 2 ^ 20 - 29 := by
  have hpayload : chunkPayloadSize.toNat = 8192 := rfl
  rw [plaintexts]
  split
  · intro p hp
    have hpieces : ∀ q ∈ pieces chunkPayloadSize.toNat
        (totalChunks chunkPayloadSize m.data).toNat m.data, q.length ≤ 8192 :=
      fun q hq => length_le_of_mem_pieces hq
    obtain ⟨hne, hlen⟩ := length_framesFrom hpieces p hp
    exact ⟨hne, by omega⟩
  · rename_i hwhole
    intro p hp
    rw [List.mem_singleton] at hp
    subst hp
    have hshort := (not_or.mp hwhole).2
    exact ⟨hm.nonempty, by omega⟩

/-- The other end delivers the message, and its registry is as before. -/
theorem Clean.deliverAll_plaintexts {chunks : TransferRegistry}
    (hchunks : chunks transferId = none) :
    deliverAll chunks (m.plaintexts transferId) = ([m.data], chunks) := by
  rw [plaintexts]
  split
  · rw [deliverAll_of_isSome (isSome_parse_framesFrom (by simp)),
      TransferRegistry.ingestFrames_pieces hchunks hm.nonempty (by decide)
        (hm.sendable transferId).totalChunks_eq]
    simp
  · rename_i hwhole
    simp [deliverAll, deliver, hm.plain hwhole]

end Clean

/-! ### Several messages over one connection -/

/-- Messages, each with the number that is drawn if it goes out in chunks. -/
def sendAll (out : Outgoing) : List (UInt32 × Message) → Outgoing
  | [] => out
  | (transferId, m) :: rest => sendAll (m.send transferId out).1 rest

/-- The session messages that they become. -/
def allPlaintexts (ms : List (UInt32 × Message)) : List (List UInt8) :=
  ms.flatMap fun x => x.2.plaintexts x.1

theorem allPlaintexts_cons (x : UInt32 × Message) (ms : List (UInt32 × Message)) :
    allPlaintexts (x :: ms) = x.2.plaintexts x.1 ++ allPlaintexts ms := rfl

theorem sendAll_concat (out : Outgoing) (ms : List (UInt32 × Message)) (x : UInt32 × Message) :
    sendAll out (ms ++ [x]) = (x.2.send x.1 (sendAll out ms)).1 := by
  induction ms generalizing out with
  | nil => rfl
  | cons y ms ih => exact ih _

section All

variable {ms : List (UInt32 × Message)} (hms : ∀ x ∈ ms, x.2.Clean)

include hms

theorem sendAll_eq (out : Outgoing) : sendAll out ms = sendPlaintexts out (allPlaintexts ms) := by
  induction ms generalizing out with
  | nil => rfl
  | cons x ms ih =>
      obtain ⟨hx, hms⟩ := List.forall_mem_cons.mp hms
      have hlen : x.2.data.length < 2 ^ 64 := by
        have hfits := hx.fits
        have hpayload : chunkPayloadSize.toNat = 8192 := rfl
        omega
      rw [sendAll, ih hms, send_fst hx.nonempty hlen, allPlaintexts_cons, sendPlaintexts,
        sendPlaintexts, sendPlaintexts, List.foldl_append]

theorem allPlaintexts_bound : ∀ p ∈ allPlaintexts ms, p ≠ [] ∧ p.length ≤ 2 ^ 20 - 29 := by
  intro p hp
  obtain ⟨x, hx, hp⟩ := List.mem_flatMap.mp hp
  exact (hms x hx).plaintexts_bound x.1 p hp

theorem deliverAll_allPlaintexts :
    deliverAll .empty (allPlaintexts ms) = (ms.map (·.2.data), .empty) := by
  induction ms with
  | nil => rfl
  | cons x ms ih =>
      obtain ⟨hx, hms⟩ := List.forall_mem_cons.mp hms
      rw [allPlaintexts_cons, deliverAll_append, hx.deliverAll_plaintexts x.1 rfl]
      simp only
      rw [ih hms]
      rfl

/-- Over an intact connection clean messages arrive, all of them, in order. -/
theorem recvLoop_sendAll {a b : Session} (h : a.kSend = b.kRecv) :
    recvLoop b (sendAll (a, []) ms).2 .empty =
      ms.map fun x => ⟨pkHex b.peerIdentityPk, x.2.data⟩ := by
  have hbound := allPlaintexts_bound hms
  rw [sendAll_eq hms, sendPlaintexts_snd]
  refine (Node.recvLoop_sendAll h (fun p hp => (hbound p hp).1) (fun p hp => (hbound p hp).2)
    .empty).trans ?_
  rw [deliverAll_allPlaintexts hms, List.map_map]
  rfl

end All

end Message

end PeerToPeer.Node
