import PeerToPeer.Transfer.Chunker

/-!
Chunked transfers lose nothing as long as the number of chunks fits its type.

The sender's loop hands out the pieces of the data in order, and the receiver's
row of slots fills from the left. What goes wrong goes wrong before the loop:
the number of chunks is computed modulo `2 ^ 64` and cast to sixteen bits.
-/

namespace PeerToPeer.Transfer

open Lib Crypto Protocol

/-- The chunk frames for a list of pieces, counted from `index`. -/
def framesFrom (transferId : UInt32) (total : UInt16) :
    UInt16 → List (List UInt8) → List (List UInt8)
  | _, [] => []
  | index, p :: ps =>
      makeChunkFrame transferId index total p :: framesFrom transferId total (index + 1) ps

theorem toNat_add_one {index total : UInt16} (h : index.toNat < total.toNat) :
    (index + 1).toNat = index.toNat + 1 := by
  have := total.toNat_lt
  rw [UInt16.toNat_add, Nat.mod_eq_of_lt]
  · rfl
  · change index.toNat + 1 < 2 ^ 16
    omega

/-! ### The number of chunks -/

theorem effectiveSize_pos (chunkSize : UInt64) : 0 < (effectiveSize chunkSize).toNat := by
  unfold effectiveSize
  split
  · decide
  · rename_i h
    exact Nat.pos_of_ne_zero fun h0 => h (UInt64.toNat_inj.mp h0)

/-- The number of chunks that the data takes. -/
def chunkCount (size : UInt64) (data : List UInt8) : ℕ :=
  (data.length + size.toNat - 1) / size.toNat

section Count

variable {size : UInt64} {data : List UInt8}

theorem totalChunks_toNat (hsize : 0 < size.toNat) (hlen : data.length < 2 ^ 64) :
    (totalChunks size data).toNat =
      if data.length + size.toNat - 1 < 2 ^ 64 then chunkCount size data % 2 ^ 16 else 0 := by
  have hs := size.toNat_lt
  have hsum : (UInt64.ofNat data.length + size - 1).toNat =
      (data.length + size.toNat - 1) % 2 ^ 64 := by
    rw [UInt64.toNat_sub, UInt64.toNat_add, UInt64.toNat_ofNat', UInt64.toNat_one]
    omega
  rw [totalChunks, UInt64.toNat_toUInt16, UInt64.toNat_div, hsum]
  split
  · rename_i hfit
    rw [Nat.mod_eq_of_lt hfit]
    rfl
  · -- the wrapped sum is below the chunk size
    rename_i hover
    rw [Nat.div_eq_of_lt (by omega)]

/-- The cast never makes the number of chunks larger. -/
theorem totalChunks_le (hsize : 0 < size.toNat) (hlen : data.length < 2 ^ 64) :
    (totalChunks size data).toNat ≤ chunkCount size data := by
  rw [totalChunks_toNat hsize hlen]
  split
  · exact Nat.mod_le _ _
  · exact Nat.zero_le _

/-- The last chunk starts inside the data. -/
theorem mul_le_length (hsize : 0 < size.toNat) (hlen : data.length < 2 ^ 64) {i : ℕ}
    (hi : i < (totalChunks size data).toNat) : i * size.toNat ≤ data.length := by
  have hlt : i + 1 ≤ chunkCount size data := lt_of_lt_of_le hi (totalChunks_le hsize hlen)
  have hmul := (Nat.le_div_iff_mul_le hsize).mp hlt
  rw [Nat.succ_mul] at hmul
  omega

theorem le_chunkCount_mul (hsize : 0 < size.toNat) :
    data.length ≤ chunkCount size data * size.toNat := by
  have hmod := Nat.mod_lt (data.length + size.toNat - 1) hsize
  have hdiv := Nat.div_add_mod (data.length + size.toNat - 1) size.toNat
  rw [chunkCount, Nat.mul_comm]
  omega

theorem chunkCount_pos (hsize : 0 < size.toNat) (hne : data ≠ []) : 0 < chunkCount size data := by
  have := List.length_pos_iff.mpr hne
  exact Nat.div_pos (by omega) hsize

end Count

/-! ### The sender -/

section Sender

variable {σ : Type} (send : σ → List UInt8 → σ × Bool)

/-- The data of chunk `i` is piece `i`. -/
theorem chunk_data {size : UInt64} {data : List UInt8} (hlen : data.length < 2 ^ 64) {i : UInt16}
    (hi : i.toNat * size.toNat ≤ data.length) :
    (data.drop (i.toUInt64 * size).toNat).take
        (min size (UInt64.ofNat data.length - i.toUInt64 * size)).toNat =
      (data.drop (i.toNat * size.toNat)).take size.toNat := by
  have hoffset : (i.toUInt64 * size).toNat = i.toNat * size.toNat := by
    rw [UInt64.toNat_mul, UInt16.toNat_toUInt64, Nat.mod_eq_of_lt (by omega)]
  have hrest : (UInt64.ofNat data.length - i.toUInt64 * size).toNat =
      data.length - i.toNat * size.toNat := by
    rw [UInt64.toNat_sub, hoffset, UInt64.toNat_ofNat']
    omega
  have hmin : (min size (UInt64.ofNat data.length - i.toUInt64 * size)).toNat =
      min size.toNat (data.length - i.toNat * size.toNat) := by
    rw [← hrest, min_def]
    change (if size ≤ UInt64.ofNat data.length - i.toUInt64 * size then size
      else UInt64.ofNat data.length - i.toUInt64 * size).toNat = _
    simp only [UInt64.le_iff_toNat_le]
    split <;> rfl
  rw [hoffset, hmin, List.take_eq_take_iff, List.length_drop]
  omega

/-- The loop, when every send succeeds. -/
theorem sendChunkedLoop_eq (hsend : ∀ s f, (send s f).2 = true) (transferId : UInt32)
    {size : UInt64} {data : List UInt8} {total : UInt16} (hlen : data.length < 2 ^ 64)
    (hoffset : ∀ i < total.toNat, i * size.toNat ≤ data.length) (fuel : ℕ) (s : σ) (i : UInt16)
    (hfuel : i.toNat + fuel = total.toNat) :
    sendChunkedLoop send transferId total size data fuel s i =
      ((framesFrom transferId total i ((pieces size.toNat total.toNat data).drop i.toNat)).foldl
        (fun s f => (send s f).1) s, total) := by
  induction fuel generalizing s i with
  | zero =>
      rw [sendChunkedLoop, List.drop_of_length_le (by simp; omega)]
      rfl
  | succ fuel ih =>
      have hi : i.toNat < total.toNat := by omega
      have hnext := toNat_add_one hi
      have hpieces : (pieces size.toNat total.toNat data).drop i.toNat =
          (data.drop (i.toNat * size.toNat)).take size.toNat ::
            (pieces size.toNat total.toNat data).drop (i + 1).toNat := by
        rw [drop_pieces hi, hnext]
      rw [sendChunkedLoop, if_pos (UInt16.lt_iff_toNat_lt.mpr hi)]
      simp only [chunk_data hlen (hoffset _ hi)]
      rw [hpieces, framesFrom, List.foldl_cons]
      have htrue := hsend s (makeChunkFrame transferId i total
        ((data.drop (i.toNat * size.toNat)).take size.toNat))
      generalize send s (makeChunkFrame transferId i total
        ((data.drop (i.toNat * size.toNat)).take size.toNat)) = result at htrue ⊢
      obtain ⟨s', ok⟩ := result
      subst htrue
      exact ih s' (i + 1) (by omega)

/-- `send_chunked`, when every send succeeds. -/
theorem sendChunked_eq (hsend : ∀ s f, (send s f).2 = true) (transferId : UInt32)
    {data : List UInt8} (hne : data ≠ []) (hlen : data.length < 2 ^ 64) (chunkSize : UInt64)
    (s : σ) :
    sendChunked send transferId data chunkSize s =
      ((framesFrom transferId (totalChunks (effectiveSize chunkSize) data) 0
        (pieces (effectiveSize chunkSize).toNat
          (totalChunks (effectiveSize chunkSize) data).toNat data)).foldl
        (fun s f => (send s f).1) s, totalChunks (effectiveSize chunkSize) data) := by
  rw [sendChunked, if_neg (by simpa using hne)]
  exact sendChunkedLoop_eq send hsend transferId hlen
    (fun _ => mul_le_length (effectiveSize_pos chunkSize) hlen) _ s 0 (by simp)

end Sender

/-! ### The receiver -/

namespace ChunkReassembler

/-- The first slots hold `ps`, and the others are empty. -/
def Holds (r : ChunkReassembler) (ps : List (List UInt8)) : Prop :=
  r.slots = ps.map some ++ List.replicate (r.total.toNat - ps.length) none

theorem holds_new (total : UInt16) : (new total).Holds [] := by
  simp [Holds, new]

/-- The next chunk in order. -/
theorem add_next {r : ChunkReassembler} {ps : List (List UInt8)} (h : r.Holds ps) {index : UInt16}
    (hindex : index.toNat = ps.length) (hlt : index < r.total) (p : List UInt8) :
    (r.add index p).2.Holds (ps ++ [p]) ∧ (r.add index p).2.total = r.total ∧
      (r.add index p).1 =
        if ps.length + 1 < r.total.toNat then none else some (ps ++ [p]).flatten := by
  have hlt' := UInt16.lt_iff_toNat_lt.mp hlt
  have hslot : r.slots[index.toNat]? = some none := by
    rw [h, hindex, List.getElem?_append_right (by simp), List.getElem?_replicate]
    simp only [List.length_map, Nat.sub_self]
    rw [if_pos (by omega)]
  have hfree : ¬r.Taken index := by
    rintro (hle | hsome)
    · exact absurd (UInt16.le_iff_toNat_le.mp hle) (by omega)
    · simp [List.getD_eq_getElem?_getD, hslot] at hsome
  have hfill : (r.fill index p hfree).Holds (ps ++ [p]) := by
    change r.slots.set index.toNat (some p) = _
    obtain ⟨k, hk⟩ := Nat.exists_eq_succ_of_ne_zero (n := r.total.toNat - ps.length) (by omega)
    have hk' : r.total.toNat - (ps.length + 1) = k := by omega
    rw [h, hindex, List.set_append_right _ _ (by simp), hk]
    simp [fill, hk', List.replicate_succ]
  have hreceived : (r.fill index p hfree).received.toNat = ps.length + 1 := by
    rw [(r.fill index p hfree).received_eq, hfill]
    simp [filled, List.countP_append, List.countP_replicate]
  have hout : ¬ps.length + 1 < r.total.toNat →
      (r.fill index p hfree).slots.flatMap (·.getD []) = (ps ++ [p]).flatten := by
    intro hlast
    have hzero : r.total.toNat - (ps ++ [p]).length = 0 := by
      rw [List.length_append, List.length_singleton]
      omega
    have hslots : (r.fill index p hfree).slots = (ps ++ [p]).map some := by
      rw [hfill, show (r.fill index p hfree).total = r.total from rfl, hzero]
      simp
    rw [hslots, List.flatMap_map]
    simp
  have hadd : r.add index p =
      if ps.length + 1 < r.total.toNat then (none, r.fill index p hfree)
      else (some ((r.fill index p hfree).slots.flatMap (·.getD [])), r.fill index p hfree) := by
    rw [add, dif_neg hfree]
    simp only [UInt16.lt_iff_toNat_lt, hreceived]
    rfl
  rw [hadd]
  split
  · exact ⟨hfill, rfl, rfl⟩
  · rename_i hlast
    exact ⟨hfill, rfl, congrArg some (hout hlast)⟩

end ChunkReassembler

namespace TransferRegistry

/-- The row that a chunk of the transfer goes to. -/
def entry (reg : TransferRegistry) (transferId : UInt32) (total : UInt16) : ChunkReassembler :=
  (reg transferId).getD (.new total)

theorem ingest_eq (reg : TransferRegistry) (ci : ChunkInfo) :
    reg.ingest ci =
      (((reg.entry ci.transferId ci.total).add ci.index ci.data).1,
        reg.set ci.transferId
          (if ((reg.entry ci.transferId ci.total).add ci.index ci.data).1.isSome then none
            else some ((reg.entry ci.transferId ci.total).add ci.index ci.data).2)) := by
  rw [ingest, entry]
  rcases ChunkReassembler.add _ ci.index ci.data with ⟨_ | out, r⟩ <;> rfl

/-- One frame through `parse_chunk_frame` and `ingest`. -/
theorem ingestFrames_makeChunkFrame {reg : TransferRegistry} {transferId : UInt32}
    {index total : UInt16} (h : index < total) (p : List UInt8) (fs : List (List UInt8)) :
    reg.ingestFrames (makeChunkFrame transferId index total p :: fs) =
      let (out, reg) := reg.ingest ⟨transferId, index, total, p⟩
      (out :: (reg.ingestFrames fs).1, (reg.ingestFrames fs).2) := by
  rw [ingestFrames, parseChunkFrame_makeChunkFrame h]

/-- The chunks of a transfer from the first that is missing: only the last one
returns something, and it closes the transfer. -/
theorem ingestFrames_framesFrom {reg : TransferRegistry} {transferId : UInt32} {total : UInt16}
    {ps qs : List (List UInt8)} {index : UInt16} (hentry : (reg.entry transferId total).Holds ps)
    (htotal : (reg.entry transferId total).total = total) (hindex : index.toNat = ps.length)
    (hne : qs ≠ []) (hlen : ps.length + qs.length = total.toNat) :
    reg.ingestFrames (framesFrom transferId total index qs) =
      (List.replicate (qs.length - 1) none ++ [some (ps ++ qs).flatten],
        reg.set transferId none) := by
  induction qs generalizing reg ps index with
  | nil => exact absurd rfl hne
  | cons q qs ih =>
      have hlt : index < total := by
        rw [UInt16.lt_iff_toNat_lt, hindex, ← hlen, List.length_cons]
        omega
      obtain ⟨hholds, htotal', hout⟩ :=
        ChunkReassembler.add_next hentry hindex (by rwa [htotal]) q
      rw [framesFrom, ingestFrames_makeChunkFrame hlt, ingest_eq]
      simp only [hout, htotal]
      by_cases hqs : qs = []
      · subst hqs
        rw [List.length_singleton] at hlen
        rw [if_neg (by omega)]
        simp [framesFrom, ingestFrames]
      · have hpos := List.length_pos_iff.mpr hqs
        rw [List.length_cons] at hlen
        rw [if_pos (by omega)]
        simp only [Option.isSome_none, Bool.false_eq_true, if_false]
        have hentry' : (reg.set transferId
            (some ((reg.entry transferId total).add index q).2)).entry transferId total =
            ((reg.entry transferId total).add index q).2 := by
          simp [entry]
        have hnext : (index + 1).toNat = (ps ++ [q]).length := by
          rw [toNat_add_one (UInt16.lt_iff_toNat_lt.mp hlt), hindex]
          simp
        rw [ih (by rwa [hentry']) (by rw [hentry', htotal', htotal]) hnext hqs (by simp; omega)]
        obtain ⟨k, hk⟩ := Nat.exists_eq_succ_of_ne_zero hpos.ne'
        simp [hk, List.replicate_succ]

/-- A whole transfer into a registry where it is not open. -/
theorem ingestFrames_pieces {reg : TransferRegistry} {transferId : UInt32}
    (hreg : reg transferId = none) {data : List UInt8} (hne : data ≠ []) {size : UInt64}
    (hsize : 0 < size.toNat) {total : UInt16} (htotal : total.toNat = chunkCount size data) :
    reg.ingestFrames (framesFrom transferId total 0 (pieces size.toNat total.toNat data)) =
      (List.replicate (total.toNat - 1) none ++ [some data], reg) := by
  have hentry : reg.entry transferId total = .new total := by simp [entry, hreg]
  have hpos : 0 < total.toNat := htotal ▸ chunkCount_pos hsize hne
  have hpieces : pieces size.toNat total.toNat data ≠ [] := by
    rw [← List.length_pos_iff, length_pieces]
    exact hpos
  have hholds : (reg.entry transferId total).Holds [] := by
    rw [hentry]
    exact ChunkReassembler.holds_new total
  rw [ingestFrames_framesFrom hholds (by rw [hentry]; rfl) rfl hpieces (by simp),
    set_eq_self hreg, List.nil_append,
    flatten_pieces_of_le (by rw [htotal]; exact le_chunkCount_mul hsize), length_pieces]

end TransferRegistry

/-! ### Transfers -/

/-- A session that records what it is given, and never fails to send. -/
def record (log : List (List UInt8)) (f : List UInt8) : List (List UInt8) × Bool :=
  (log ++ [f], true)

theorem foldl_record (log fs : List (List UInt8)) :
    fs.foldl (fun s f => (record s f).1) log = log ++ fs := by
  induction fs generalizing log with
  | nil => simp
  | cons f fs ih => rw [List.foldl_cons, ih, record, List.append_assoc, List.singleton_append]

/-- A transfer is lossless when the receiver gets the data, on the last frame and
nothing before, and the sender reports the number of chunks. -/
def Lossless (transferId : UInt32) (data : List UInt8) (chunkSize : UInt64) : Prop :=
  let (frames, sent) := sendChunked record transferId data chunkSize []
  (∃ k, (TransferRegistry.empty.ingestFrames frames).1 = List.replicate k none ++ [some data]) ∧
    sent.toNat = chunkCount (effectiveSize chunkSize) data

theorem lossless_eq (transferId : UInt32) {data : List UInt8} (hne : data ≠ [])
    (hlen : data.length < 2 ^ 64) (chunkSize : UInt64) :
    Lossless transferId data chunkSize ↔
      (∃ k, (TransferRegistry.empty.ingestFrames
          (framesFrom transferId (totalChunks (effectiveSize chunkSize) data) 0
            (pieces (effectiveSize chunkSize).toNat
              (totalChunks (effectiveSize chunkSize) data).toNat data))).1 =
          List.replicate k none ++ [some data]) ∧
        (totalChunks (effectiveSize chunkSize) data).toNat =
          chunkCount (effectiveSize chunkSize) data := by
  rw [Lossless, sendChunked_eq record (fun _ _ => rfl) transferId hne hlen,
    foldl_record, List.nil_append]

/-- What is reported for a lossless transfer fits its type. -/
theorem fits_of_lossless {transferId : UInt32} {data : List UInt8} (hne : data ≠ [])
    (hlen : data.length < 2 ^ 64) {chunkSize : UInt64} (h : Lossless transferId data chunkSize) :
    chunkCount (effectiveSize chunkSize) data < 2 ^ 16 ∧
      data.length + (effectiveSize chunkSize).toNat - 1 < 2 ^ 64 := by
  have hsize := effectiveSize_pos chunkSize
  have hpos := chunkCount_pos hsize hne
  have hsent := ((lossless_eq transferId hne hlen chunkSize).mp h).2
  rw [totalChunks_toNat hsize hlen] at hsent
  split at hsent
  · rename_i hfit
    exact ⟨hsent ▸ Nat.mod_lt _ (by norm_num), hfit⟩
  · omega

/-- A transfer is lossless exactly when the number of chunks fits sixteen bits
and the sum that it is computed from fits sixty-four. -/
theorem lossless_iff (transferId : UInt32) {data : List UInt8} (hne : data ≠ [])
    (hlen : data.length < 2 ^ 64) (chunkSize : UInt64) :
    Lossless transferId data chunkSize ↔
      chunkCount (effectiveSize chunkSize) data < 2 ^ 16 ∧
        data.length + (effectiveSize chunkSize).toNat - 1 < 2 ^ 64 := by
  refine ⟨fits_of_lossless hne hlen, ?_⟩
  rintro ⟨hcount, hfit⟩
  have hsize := effectiveSize_pos chunkSize
  have htotal := totalChunks_toNat hsize hlen
  rw [if_pos hfit, Nat.mod_eq_of_lt hcount] at htotal
  rw [lossless_eq transferId hne hlen, TransferRegistry.ingestFrames_pieces rfl hne hsize htotal]
  exact ⟨⟨_, rfl⟩, htotal⟩

/-- Three bytes in chunks of two. -/
theorem lossless_iff_three : Lossless 7 [1, 2, 3] 2 :=
  (lossless_iff 7 (by decide) (by decide) 2).mpr (by decide)

/-- As many chunks as sixteen bits cannot count: of 65536 bytes in chunks of one
nothing is sent. -/
theorem lossless_overflow :
    ¬∀ (transferId : UInt32) (data : List UInt8) (chunkSize : UInt64), data ≠ [] →
      data.length < 2 ^ 64 → Lossless transferId data chunkSize := by
  intro h
  obtain ⟨data, hdata⟩ : ∃ data : List UInt8, data.length = 65536 :=
    ⟨List.replicate 65536 0, List.length_replicate⟩
  have hne : data ≠ [] := by
    rintro rfl
    cases hdata
  have hlen : data.length < 2 ^ 64 := by
    rw [hdata]
    norm_num
  obtain ⟨hcount, -⟩ := fits_of_lossless hne hlen (h 0 data 1 hne hlen)
  rw [chunkCount, hdata] at hcount
  exact absurd hcount (by decide)

end PeerToPeer.Transfer
