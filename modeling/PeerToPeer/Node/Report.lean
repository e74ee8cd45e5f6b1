import PeerToPeer.Node.Node
import PeerToPeer.Transfer.Lossless

/-!
What `send_chunked_msg` reports when some of its sends fail.

`send_chunked` stops at the first send that fails and returns how many have
succeeded; `send_chunked_msg` turns this number into a success as soon as it is not
zero.
-/

namespace PeerToPeer.Node

open Lib Crypto Protocol Transfer

/-- `send_chunked_msg`, over any way to send. -/
def sendChunkedMsgOver {σ : Type} (send : σ → List UInt8 → σ × Bool) (transferId : UInt32)
    (data : List UInt8) (chunkSize : UInt64) (s : σ) : σ × Bool :=
  let (s, sent) := sendChunked send transferId data chunkSize s
  (s, decide (0 < sent))

/-- Over a connection that is up, it is `send_chunked_msg` of the session. -/
theorem sendChunkedMsg_eq (transferId : UInt32) (out : Outgoing) (data : List UInt8)
    (chunkSize : UInt64) : sendChunkedMsg transferId out data chunkSize =
      sendChunkedMsgOver sendMsg transferId data chunkSize out := rfl

/-- A session whose send number `i` turns out as `outcome i`. The log has every frame
that it was given, with how it went. -/
def attempt (outcome : ℕ → Bool) (log : List (List UInt8 × Bool)) (f : List UInt8) :
    List (List UInt8 × Bool) × Bool :=
  (log ++ [(f, outcome log.length)], outcome log.length)

/-- The chunks that were sent successfully. -/
def sentChunks (log : List (List UInt8 × Bool)) : List (List UInt8) :=
  (log.filter (·.2)).map fun e => e.1.drop chunkHeaderSize

/-- The report is right: it says success exactly when all chunks of the data were sent
successfully. -/
def Truthful (transferId : UInt32) (data : List UInt8) (chunkSize : UInt64)
    (outcome : ℕ → Bool) : Prop :=
  let (log, ok) := sendChunkedMsgOver (attempt outcome) transferId data chunkSize []
  ok = true ↔ sentChunks log =
    pieces (effectiveSize chunkSize).toNat (chunkCount (effectiveSize chunkSize) data) data

instance (transferId : UInt32) (data : List UInt8) (chunkSize : UInt64) (outcome : ℕ → Bool) :
    Decidable (Truthful transferId data chunkSize outcome) :=
  inferInstanceAs (Decidable
    ((sendChunkedMsgOver (attempt outcome) transferId data chunkSize []).2 = true ↔
      sentChunks (sendChunkedMsgOver (attempt outcome) transferId data chunkSize []).1 = _))

theorem sentChunks_concat (log : List (List UInt8 × Bool)) (f : List UInt8) (ok : Bool) :
    sentChunks (log ++ [(f, ok)]) =
      sentChunks log ++ if ok then [f.drop chunkHeaderSize] else [] := by
  cases ok <;> simp [sentChunks]

/-- The loop from chunk `i` on: it gets to some chunk `r`, the first that fails or the
total, and has sent the chunks before it. -/
theorem sendChunkedLoop_attempt (outcome : ℕ → Bool) (transferId : UInt32) {size : UInt64}
    {data : List UInt8} {total : UInt16} (hlen : data.length < 2 ^ 64)
    (hoffset : ∀ i < total.toNat, i * size.toNat ≤ data.length) (fuel : ℕ)
    (log : List (List UInt8 × Bool)) (i : UInt16) (hlog : log.length = i.toNat)
    (hfuel : i.toNat + fuel = total.toNat) :
    let result := sendChunkedLoop (attempt outcome) transferId total size data fuel log i
    ∃ r, i.toNat ≤ r ∧ r ≤ total.toNat ∧ (∀ j, i.toNat ≤ j → j < r → outcome j = true) ∧
      (r < total.toNat → outcome r = false) ∧ result.2.toNat = r ∧
      sentChunks result.1 =
        sentChunks log ++
          ((pieces size.toNat total.toNat data).drop i.toNat).take (r - i.toNat) := by
  induction fuel generalizing log i with
  | zero =>
      refine ⟨total.toNat, by omega, le_refl _, fun j hj hj' => by omega, by omega, rfl, ?_⟩
      rw [sendChunkedLoop, show total.toNat - i.toNat = 0 by omega, List.take_zero, List.append_nil]
  | succ fuel ih =>
      have hi : i.toNat < total.toNat := by omega
      have hnext := toNat_add_one hi
      have hpieces : (pieces size.toNat total.toNat data).drop i.toNat =
          (data.drop (i.toNat * size.toNat)).take size.toNat ::
            (pieces size.toNat total.toNat data).drop (i + 1).toNat := by
        rw [drop_pieces hi, hnext]
      rw [sendChunkedLoop, if_pos (UInt16.lt_iff_toNat_lt.mpr hi)]
      simp only [chunk_data hlen (hoffset _ hi), attempt, hlog]
      generalize hf : makeChunkFrame transferId i total
        ((data.drop (i.toNat * size.toNat)).take size.toNat) = f
      have hdrop : f.drop chunkHeaderSize = (data.drop (i.toNat * size.toNat)).take size.toNat := by
        rw [← hf, drop_makeChunkFrame]
      cases hout : outcome i.toNat with
      | false =>
          refine ⟨i.toNat, le_refl _, hi.le, fun j hj hj' => by omega, fun _ => hout, rfl, ?_⟩
          simp only
          rw [sentChunks_concat, Nat.sub_self, List.take_zero]
          rfl
      | true =>
          obtain ⟨r, hge, hle, htrue, hfalse, hsent, hchunks⟩ :=
            ih (log ++ [(f, true)]) (i + 1) (by simp [hlog, hnext]) (by omega)
          refine ⟨r, by omega, hle, ?_, hfalse, hsent, ?_⟩
          · intro j hj hj'
            rcases Nat.eq_or_lt_of_le hj with rfl | hlt
            · exact hout
            · exact htrue j (by omega) hj'
          · simp only
            rw [hchunks, sentChunks_concat, hpieces, hnext,
              show r - i.toNat = r - (i.toNat + 1) + 1 by omega, List.take_succ_cons, if_pos rfl,
              hdrop, List.append_assoc, List.singleton_append]

/-- How far `send_chunked` gets: to the first send that fails, or to the total. -/
theorem sendChunked_attempt (outcome : ℕ → Bool) (transferId : UInt32) {data : List UInt8}
    (hne : data ≠ []) (hlen : data.length < 2 ^ 64) (chunkSize : UInt64) :
    let result := sendChunked (attempt outcome) transferId data chunkSize []
    let total := (totalChunks (effectiveSize chunkSize) data).toNat
    ∃ r, r ≤ total ∧ (∀ j < r, outcome j = true) ∧ (r < total → outcome r = false) ∧
      result.2.toNat = r ∧
      sentChunks result.1 = (pieces (effectiveSize chunkSize).toNat total data).take r := by
  obtain ⟨r, -, hle, htrue, hfalse, hsent, hchunks⟩ := sendChunkedLoop_attempt outcome transferId
    hlen (fun _ => mul_le_length (effectiveSize_pos chunkSize) hlen)
    (totalChunks (effectiveSize chunkSize) data).toNat [] 0 rfl (by simp)
  refine ⟨r, hle, fun j hj => htrue j (Nat.zero_le j) hj, hfalse, ?_, ?_⟩
  · rw [sendChunked, if_neg (by simpa using hne)]
    exact hsent
  · rw [sendChunked, if_neg (by simpa using hne)]
    exact hchunks

/-- The report is right exactly when nothing goes out at all, or every chunk does: the
number of chunks fits its type and no send fails. -/
theorem truthful_iff (transferId : UInt32) {data : List UInt8} (hne : data ≠ [])
    (hlen : data.length < 2 ^ 64) (chunkSize : UInt64) (outcome : ℕ → Bool) :
    Truthful transferId data chunkSize outcome ↔
      (totalChunks (effectiveSize chunkSize) data = 0 ∨ outcome 0 = false) ∨
        (totalChunks (effectiveSize chunkSize) data).toNat =
            chunkCount (effectiveSize chunkSize) data ∧
          ∀ i < chunkCount (effectiveSize chunkSize) data, outcome i = true := by
  obtain ⟨r, hle, htrue, hfalse, hsent, hchunks⟩ :=
    sendChunked_attempt outcome transferId hne hlen chunkSize
  have hsize := effectiveSize_pos chunkSize
  have hpos := chunkCount_pos hsize hne
  have htotal := totalChunks_le hsize hlen
  have hzero : totalChunks (effectiveSize chunkSize) data = 0 ↔
      (totalChunks (effectiveSize chunkSize) data).toNat = 0 := UInt16.toNat_inj.symm
  rw [Truthful, sendChunkedMsgOver]
  simp only
  rw [hchunks, take_pieces_eq_iff hle htotal, decide_eq_true_eq, UInt16.lt_iff_toNat_lt,
    hsent, UInt16.toNat_zero, hzero]
  constructor
  · intro h
    by_cases hr : r = 0
    · subst hr
      left
      rcases Nat.eq_zero_or_pos (totalChunks (effectiveSize chunkSize) data).toNat with h0 | h0
      · exact .inl h0
      · exact .inr (hfalse h0)
    · have hcount := h.mp (Nat.pos_of_ne_zero hr)
      exact .inr ⟨by omega, fun i hi => htrue i (by omega)⟩
  · rintro ((h0 | h0) | ⟨hcount, hok⟩)
    · omega
    · have hr : r = 0 := by
        by_contra hr
        rw [htrue 0 (Nat.pos_of_ne_zero hr)] at h0
        cases h0
      omega
    · have hr : r = chunkCount (effectiveSize chunkSize) data := by
        by_contra hr
        have hlt : r < chunkCount (effectiveSize chunkSize) data := by omega
        rw [hok r hlt] at hfalse
        exact absurd (hfalse (by omega)) (by decide)
      omega

/-- Three bytes in chunks of two, both sent. -/
theorem truthful_iff_three : Truthful 7 [1, 2, 3] 2 fun _ => true :=
  (truthful_iff 7 (by decide) (by decide) 2 _).mpr (.inr ⟨by decide, fun _ _ => rfl⟩)

/-- The second chunk fails, and success is reported. -/
theorem truthful_secondFails : ¬Truthful 7 [1, 2, 3] 2 fun i => decide (i = 0) := by
  decide +kernel

end PeerToPeer.Node
