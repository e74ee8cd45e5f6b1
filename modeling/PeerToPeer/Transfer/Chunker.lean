import PeerToPeer.Lib.Pieces
import PeerToPeer.Protocol.Wire

/-!
`transfer/chunker`: long messages travel as several session messages.

A chunk is a session plaintext that starts with a header: a magic byte, the
transfer, the index of the chunk and their total number. The sender casts the
number of chunks to sixteen bits. The receiver keeps one row of slots for each
transfer and returns the payload when the row is full.
-/

namespace PeerToPeer.Transfer

open Lib Crypto Protocol

def chunkMagic : UInt8 := 0x01

def chunkHeaderSize : ℕ := 9

def chunkPayloadSize : UInt64 := 8 * 1024

/-- `chunk_info`. -/
structure ChunkInfo where
  transferId : UInt32
  index : UInt16
  total : UInt16
  data : List UInt8
  deriving DecidableEq

/-- `make_chunk_frame`. -/
def makeChunkFrame (transferId : UInt32) (index total : UInt16) (data : List UInt8) :
    List UInt8 :=
  chunkMagic :: ((leVector 4 transferId.toNat).toList ++ ((leVector 2 index.toNat).toList ++
    ((leVector 2 total.toNat).toList ++ data)))

/-- `parse_chunk_frame`. -/
def parseChunkFrame (bytes : List UInt8) : Option ChunkInfo :=
  if bytes.length < chunkHeaderSize then none
  else if bytes.getD 0 0 ≠ chunkMagic then none
  else
    let ci : ChunkInfo :=
      { transferId := UInt32.ofNat (leNat (slice bytes 1 4).toList)
        index := UInt16.ofNat (leNat (slice bytes 5 2).toList)
        total := UInt16.ofNat (leNat (slice bytes 7 2).toList)
        data := bytes.drop chunkHeaderSize }
    if ci.total = 0 ∨ ci.total ≤ ci.index then none else some ci

@[simp] theorem length_makeChunkFrame (transferId : UInt32) (index total : UInt16)
    (data : List UInt8) :
    (makeChunkFrame transferId index total data).length = data.length + 9 := by
  simp [makeChunkFrame]
  omega

theorem drop_makeChunkFrame (transferId : UInt32) (index total : UInt16) (data : List UInt8) :
    (makeChunkFrame transferId index total data).drop chunkHeaderSize = data := by
  rw [makeChunkFrame, ← List.append_assoc, ← List.append_assoc, chunkHeaderSize,
    List.drop_succ_cons]
  exact List.drop_left' (by simp)

/-- Parsing what was made. -/
theorem parseChunkFrame_makeChunkFrame {transferId : UInt32} {index total : UInt16}
    (h : index < total) (data : List UInt8) :
    parseChunkFrame (makeChunkFrame transferId index total data) =
      some ⟨transferId, index, total, data⟩ := by
  have h1 : slice (makeChunkFrame transferId index total data) 1 4 =
      leVector 4 transferId.toNat := by
    simpa [makeChunkFrame] using
      slice_append_of_length [chunkMagic] 1 rfl
        (leVector 4 transferId.toNat) ((leVector 2 index.toNat).toList ++
          ((leVector 2 total.toNat).toList ++ data))
  have h2 : slice (makeChunkFrame transferId index total data) 5 2 = leVector 2 index.toNat := by
    simpa [makeChunkFrame] using
      slice_append_of_length (chunkMagic :: (leVector 4 transferId.toNat).toList)
        5 (by simp) (leVector 2 index.toNat)
        ((leVector 2 total.toNat).toList ++ data)
  have h3 : slice (makeChunkFrame transferId index total data) 7 2 = leVector 2 total.toNat := by
    simpa [makeChunkFrame] using
      slice_append_of_length (chunkMagic :: ((leVector 4 transferId.toNat).toList ++
        (leVector 2 index.toNat).toList)) 7 (by simp) (leVector 2 total.toNat) data
  have h4 := drop_makeChunkFrame transferId index total data
  have hid := transferId.toNat_lt
  have hindex := index.toNat_lt
  have htotal := total.toNat_lt
  have hlt := UInt16.lt_iff_toNat_lt.mp h
  have hzero : ¬(total = 0 ∨ total ≤ index) := by
    rintro (rfl | hle)
    · exact absurd hlt (Nat.not_lt_zero _)
    · exact absurd (UInt16.le_iff_toNat_le.mp hle) (by omega)
  rw [parseChunkFrame, if_neg (by simp [chunkHeaderSize]), if_neg (by simp [makeChunkFrame])]
  simp only [h1, h2, h3, h4, toList_leVector]
  rw [leNat_leBytes_of_lt (k := 4) (by simpa using hid),
    leNat_leBytes_of_lt (n := index.toNat) (by simpa using hindex),
    leNat_leBytes_of_lt (by simpa using htotal)]
  simp [hzero]

/-! ### Sending -/

section Send

variable {σ : Type} (send : σ → List UInt8 → σ × Bool)

/-- The loop of `send_chunked`, from chunk `i` on. It ends early when a send
fails, and then returns how many have succeeded. -/
def sendChunkedLoop (transferId : UInt32) (total : UInt16) (chunkSize : UInt64)
    (data : List UInt8) : ℕ → σ → UInt16 → σ × UInt16
  | 0, s, _ => (s, total)
  | fuel + 1, s, i =>
      if i < total then
        let offset := i.toUInt64 * chunkSize
        let len := min chunkSize (UInt64.ofNat data.length - offset)
        match send s (makeChunkFrame transferId i total
            ((data.drop offset.toNat).take len.toNat)) with
        | (s, true) => sendChunkedLoop transferId total chunkSize data fuel s (i + 1)
        | (s, false) => (s, i)
      else (s, total)

/-- The size that a `chunk_size` of zero stands for. -/
def effectiveSize (chunkSize : UInt64) : UInt64 :=
  if chunkSize = 0 then chunkPayloadSize else chunkSize

/-- The number of chunks, as `send_chunked` computes it. -/
def totalChunks (chunkSize : UInt64) (data : List UInt8) : UInt16 :=
  ((UInt64.ofNat data.length + chunkSize - 1) / chunkSize).toUInt16

/-- `send_chunked`, over any way to send; `transferId` is the number that was
drawn. -/
def sendChunked (transferId : UInt32) (data : List UInt8) (chunkSize : UInt64) (s : σ) :
    σ × UInt16 :=
  if data.isEmpty then (s, 0)
  else
    let size := effectiveSize chunkSize
    let total := totalChunks size data
    sendChunkedLoop send transferId total size data total.toNat s 0

variable {send}

/-- What every send preserves, the loop preserves, however the sends turn out. -/
theorem sendChunkedLoop_invariant {I : σ → Prop} (hsend : ∀ s f, I s → I (send s f).1)
    (transferId : UInt32) (total : UInt16) (chunkSize : UInt64) (data : List UInt8) (fuel : ℕ)
    {s : σ} (i : UInt16) (hs : I s) :
    I (sendChunkedLoop send transferId total chunkSize data fuel s i).1 := by
  induction fuel generalizing s i with
  | zero => exact hs
  | succ fuel ih =>
      rw [sendChunkedLoop]
      split
      · simp only
        split
        · rename_i hcall
          exact ih _ ((congrArg (fun x : σ × Bool => I x.1) hcall).mp (hsend _ _ hs))
        · rename_i hcall
          exact (congrArg (fun x : σ × Bool => I x.1) hcall).mp (hsend _ _ hs)
      · exact hs

theorem sendChunked_invariant {I : σ → Prop} (hsend : ∀ s f, I s → I (send s f).1)
    (transferId : UInt32) (data : List UInt8) (chunkSize : UInt64) {s : σ} (hs : I s) :
    I (sendChunked send transferId data chunkSize s).1 := by
  rw [sendChunked]
  split
  · exact hs
  · exact sendChunkedLoop_invariant hsend _ _ _ _ _ _ hs

end Send

/-! ### Reassembly -/

/-- `chunk_reassembler`. -/
structure ChunkReassembler where
  slots : List (Option (List UInt8))
  total : UInt16
  received : UInt16
  length_slots : slots.length = total.toNat
  received_eq : received.toNat = filled slots

namespace ChunkReassembler

/-- The constructor. -/
def new (total : UInt16) : ChunkReassembler where
  slots := List.replicate total.toNat none
  total := total
  received := 0
  length_slots := by simp
  received_eq := by simp

/-- There is no slot with this index, or it is filled. -/
def Taken (r : ChunkReassembler) (index : UInt16) : Prop :=
  r.total ≤ index ∨ (r.slots.getD index.toNat none).isSome

instance (r : ChunkReassembler) (index : UInt16) : Decidable (r.Taken index) :=
  inferInstanceAs (Decidable (_ ∨ _))

theorem getElem?_of_not_taken {r : ChunkReassembler} {index : UInt16} (h : ¬r.Taken index) :
    r.slots[index.toNat]? = some none := by
  obtain ⟨hlt, hnone⟩ := not_or.mp h
  have hlt : index.toNat < r.slots.length := by
    rw [r.length_slots]
    exact UInt16.lt_iff_toNat_lt.mp (UInt16.not_le.mp hlt)
  rw [List.getElem?_eq_getElem hlt]
  rw [List.getD_eq_getElem _ _ hlt, Bool.not_eq_true, Option.isSome_eq_false_iff,
    Option.isNone_iff_eq_none] at hnone
  rw [hnone]

/-- One more slot filled. -/
def fill (r : ChunkReassembler) (index : UInt16) (data : List UInt8) (h : ¬r.Taken index) :
    ChunkReassembler where
  slots := r.slots.set index.toNat (some data)
  total := r.total
  received := r.received + 1
  length_slots := by rw [List.length_set, r.length_slots]
  received_eq := by
    have hset := filled_set (getElem?_of_not_taken h) data
    have hle := filled_le_length (r.slots.set index.toNat (some data))
    have htotal := r.total.toNat_lt
    rw [List.length_set, r.length_slots] at hle
    rw [UInt16.toNat_add, r.received_eq, hset, Nat.mod_eq_of_lt]
    · rfl
    · change filled r.slots + 1 < 2 ^ 16
      omega

/-- `add`: the payload, if the chunk completes it. -/
def add (r : ChunkReassembler) (index : UInt16) (data : List UInt8) :
    Option (List UInt8) × ChunkReassembler :=
  if h : r.Taken index then (none, r)
  else
    let r := r.fill index data h
    if r.received < r.total then (none, r)
    else (some (r.slots.flatMap (·.getD [])), r)

end ChunkReassembler

/-- `transfer_registry`: the open transfers. -/
def TransferRegistry := UInt32 → Option ChunkReassembler

namespace TransferRegistry

def empty : TransferRegistry := fun _ => none

/-- The registry with another entry for one transfer; `none` erases it. -/
def set (reg : TransferRegistry) (transferId : UInt32) (e : Option ChunkReassembler) :
    TransferRegistry :=
  Function.update reg transferId e

@[simp] theorem set_self (reg : TransferRegistry) (transferId : UInt32)
    (e : Option ChunkReassembler) : reg.set transferId e transferId = e :=
  Function.update_self _ _ _

theorem set_of_ne (reg : TransferRegistry) {transferId d : UInt32} (h : d ≠ transferId)
    (e : Option ChunkReassembler) : reg.set transferId e d = reg d :=
  Function.update_of_ne h _ _

@[simp] theorem set_set (reg : TransferRegistry) (transferId : UInt32)
    (e e' : Option ChunkReassembler) :
    (reg.set transferId e).set transferId e' = reg.set transferId e' :=
  Function.update_idem _ _ _

theorem set_eq_self {reg : TransferRegistry} {transferId : UInt32}
    {e : Option ChunkReassembler} (h : reg transferId = e) : reg.set transferId e = reg := by
  subst h
  exact Function.update_eq_self _ _

/-- `ingest`: a new transfer gets its row from the first chunk; an open one
keeps the row it has. -/
def ingest (reg : TransferRegistry) (ci : ChunkInfo) :
    Option (List UInt8) × TransferRegistry :=
  let entry := (reg ci.transferId).getD (.new ci.total)
  match entry.add ci.index ci.data with
  | (some out, _) => (some out, reg.set ci.transferId none)
  | (none, entry) => (none, reg.set ci.transferId (some entry))

/-- The frames of a list passed through `parse_chunk_frame` and `ingest`. -/
def ingestFrames (reg : TransferRegistry) :
    List (List UInt8) → List (Option (List UInt8)) × TransferRegistry
  | [] => ([], reg)
  | f :: fs =>
      match parseChunkFrame f with
      | none => (none :: (ingestFrames reg fs).1, (ingestFrames reg fs).2)
      | some ci =>
          let (out, reg) := reg.ingest ci
          (out :: (ingestFrames reg fs).1, (ingestFrames reg fs).2)

end TransferRegistry

end PeerToPeer.Transfer
