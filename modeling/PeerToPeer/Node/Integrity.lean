import PeerToPeer.Lib.Lanes
import PeerToPeer.Node.Messages

/-!
What a node delivers when an attacker owns the network.

The attacker may drop, repeat and reorder the frames of a session; the only thing it cannot
do is make up a frame that opens. The registry then sees the chunks of the sender in any
order and any number of times. What comes out is still made of messages that were sent,
whole and unmixed, as long as no two transfers drew the same number; and a message comes
out more often than it was sent only if some frame was taken twice.
-/

namespace PeerToPeer.Node

open Lib Crypto Net Protocol Transfer

/-! ### The messages that are received -/

/-- `recv_loop` ends where `recv` first returns nothing; an attacker gains nothing by
going on. -/
theorem prefix_received (b : Session) {n : ℕ} {stream : List UInt8} (h : stream.length ≤ n) :
    received b stream <+: b.delivered n stream := by
  induction n generalizing stream with
  | zero =>
      have hnil : stream = [] := List.length_eq_zero_iff.mp (Nat.le_zero.mp h)
      subst hnil
      rw [received_of_none rfl]
      exact List.nil_prefix
  | succ n ih =>
      rcases hrecv : b.recv stream with ⟨_ | msg, rest⟩
      · rw [received_of_none (by rw [hrecv])]
        exact List.nil_prefix
      · have hlt := recv_length_lt hrecv
        rw [received_of_some hrecv, Session.delivered, Session.recvMany, hrecv]
        exact (List.prefix_cons_inj msg).mpr (ih (by omega))

/-- All frames that are taken from a stream. -/
def framesTaken (stream : List UInt8) : List Frame :=
  Session.takenFrames stream.length stream

section Genuine

variable {a b : Session} (h : a.kSend = b.kRecv) {ps : List (List UInt8)} {stream : List UInt8}
  (hforge : b.Unforged (a.sentFrames ps) stream.length stream)

include h hforge

/-- Without forged frames, nothing is received that was not sent. -/
theorem mem_of_received : ∀ p ∈ received b stream, p ∈ ps := by
  intro p hp
  have hdelivered := (prefix_received b (le_refl stream.length)).subset hp
  rw [Session.delivered_eq] at hdelivered
  obtain ⟨f, hf, hopen⟩ := List.mem_filterMap.mp hdelivered
  rcases hforge f hf with hsent | hnone
  · exact (Session.filterMap_openFrame_sentFrames h ps).subset
      (List.mem_filterMap.mpr ⟨f, hsent, hopen⟩)
  · rw [hnone] at hopen
    cases hopen

/-- If no frame is taken twice, nothing is received more often than it was sent. -/
theorem received_subperm (hnodup : (framesTaken stream).Nodup) :
    (received b stream).Subperm ps := by
  -- the genuine ones among the frames
  set genuine := (framesTaken stream).filter (· ∈ a.sentFrames ps) with hgenuine
  have hdelivered : b.delivered stream.length stream = genuine.filterMap b.openFrame := by
    rw [Session.delivered_eq, hgenuine, List.filterMap_filter]
    apply List.filterMap_congr
    intro f hf
    rcases hforge f hf with hsent | hnone
    · simp [hsent]
    · simp [hnone]
  have hsub : genuine.Subperm (a.sentFrames ps) :=
    List.subperm_of_subset (hnodup.filter _) fun f hf => by
      simpa using (List.mem_filter.mp hf).2
  obtain ⟨l, hperm, hl⟩ := hsub
  have hopened : (genuine.filterMap b.openFrame).Subperm ps :=
    ⟨l.filterMap b.openFrame, hperm.filterMap _,
      (hl.filterMap _).trans (Session.filterMap_openFrame_sentFrames h ps)⟩
  rw [← hdelivered] at hopened
  exact ((prefix_received b (le_refl _)).sublist.subperm).trans hopened

end Genuine

/-! ### What a sender sends over a session -/

/-- The chunk frames of some blocks, by the indices of the blocks. -/
theorem framesFrom_eq_map (transferId : UInt32) (total index : UInt16) (qs : List (List UInt8)) :
    framesFrom transferId total index qs = (List.finRange qs.length).map fun j =>
      makeChunkFrame transferId (index + UInt16.ofNat j.val) total qs[j.val] := by
  induction qs generalizing index with
  | nil => rfl
  | cons q qs ih =>
      have hrange : List.finRange (q :: qs).length = 0 :: (List.finRange qs.length).map Fin.succ :=
        List.finRange_succ
      have hzero : index + UInt16.ofNat 0 = index := UInt16.add_zero index
      have hnext : ∀ j : ℕ, index + 1 + UInt16.ofNat j = index + UInt16.ofNat (j + 1) := by
        intro j
        rw [UInt16.ofNat_add, UInt16.add_assoc, UInt16.add_comm 1]
        rfl
      rw [framesFrom, ih, hrange, List.map_cons, List.map_map]
      simp only [Function.comp_def, Fin.val_succ, hnext]
      exact congrArg₂ _ (congrArg (makeChunkFrame transferId · total q) hzero.symm) rfl

/-- The messages that were sent over a session. All are clean, and the numbers of those that
went out in chunks are different. -/
structure Traffic where
  msgs : List (UInt32 × Message)
  clean : ∀ x ∈ msgs, x.2.Clean
  distinct : ∀ i j : Fin msgs.length, msgs[i].2.Chunked → msgs[j].2.Chunked →
    msgs[i].1 = msgs[j].1 → i = j

namespace Traffic

variable (t : Traffic)

/-- A message that goes out in chunks. -/
abbrev Transfers := {i : Fin t.msgs.length // t.msgs[i].2.Chunked}

/-- A message that goes out as it is. -/
abbrev Wholes := {i : Fin t.msgs.length // ¬t.msgs[i].2.Chunked}

theorem clean_get (i : Fin t.msgs.length) : t.msgs[i].2.Clean :=
  t.clean _ (List.getElem_mem i.isLt)

/-- The blocks of a message. -/
def blocks (m : Message) : List (List UInt8) :=
  pieces chunkPayloadSize.toNat (totalChunks chunkPayloadSize m.data).toNat m.data

theorem length_blocks (m : Message) :
    (blocks m).length = (totalChunks chunkPayloadSize m.data).toNat :=
  length_pieces _ _ _

theorem length_blocks_le (m : Message) : (blocks m).length ≤ 65535 := by
  have := (totalChunks chunkPayloadSize m.data).toNat_lt
  rw [length_blocks]
  omega

theorem blocks_ne_nil {m : Message} (hm : m.Clean) : blocks m ≠ [] := by
  rw [← List.length_pos_iff, length_blocks, (hm.sendable 0).totalChunks_eq]
  exact chunkCount_pos (by decide) hm.nonempty

theorem flatten_blocks {m : Message} (hm : m.Clean) : (blocks m).flatten = m.data := by
  have hsize : 0 < chunkPayloadSize.toNat := by decide
  rw [blocks, (hm.sendable 0).totalChunks_eq]
  exact flatten_pieces_of_le (le_chunkCount_mul hsize)

/-- The transfer that a message makes. -/
def transfer (k : t.Transfers) : ChunkedData where
  transferId := t.msgs[k.1].1
  blocks := blocks t.msgs[k.1].2
  ne_nil := blocks_ne_nil (t.clean_get k.1)
  le := length_blocks_le _

theorem payload_transfer (k : t.Transfers) : (t.transfer k).payload = t.msgs[k.1].2.data :=
  flatten_blocks (t.clean_get k.1)

theorem total_transfer (k : t.Transfers) :
    (t.transfer k).total = totalChunks chunkPayloadSize t.msgs[k.1].2.data := by
  have hlen : (t.transfer k).blocks.length =
      (totalChunks chunkPayloadSize t.msgs[k.1].2.data).toNat := length_blocks _
  rw [ChunkedData.total, hlen, UInt16.ofNat_toNat]

theorem transferId_injective : Function.Injective fun k => (t.transfer k).transferId :=
  fun k l h => Subtype.ext (t.distinct k.1 l.1 k.2 l.2 h)

/-- Where a session message comes from: a message that was sent as it is, or a chunk. -/
abbrev Origin := t.Wholes ⊕ Ref t.transfer

/-- The session message. -/
def plaintext : t.Origin → List UInt8
  | .inl k => t.msgs[k.1].2.data
  | .inr x => makeChunkFrame (t.transfer x.1).transferId (UInt16.ofNat x.2)
      (t.transfer x.1).total (t.transfer x.1).blocks[x.2]

/-- The origins of what is sent for a message. -/
def originsOf (i : Fin t.msgs.length) : List t.Origin :=
  if h : t.msgs[i].2.Chunked then
    (List.finRange (t.transfer ⟨i, h⟩).blocks.length).map fun j => .inr ⟨⟨i, h⟩, j⟩
  else [.inl ⟨i, h⟩]

/-- The message that an origin belongs to. -/
def source : t.Origin → Fin t.msgs.length
  | .inl k => k.1
  | .inr x => x.1.1

theorem source_of_mem {i : Fin t.msgs.length} {o : t.Origin} (h : o ∈ t.originsOf i) :
    t.source o = i := by
  rw [originsOf] at h
  split at h
  · obtain ⟨j, -, rfl⟩ := List.mem_map.mp h
    rfl
  · rw [List.mem_singleton.mp h]
    rfl

/-- The origins of all that is sent. -/
def origins : List t.Origin := (List.finRange t.msgs.length).flatMap t.originsOf

theorem map_originsOf (i : Fin t.msgs.length) :
    (t.originsOf i).map t.plaintext = t.msgs[i].2.plaintexts t.msgs[i].1 := by
  rw [originsOf, Message.plaintexts]
  split
  · rename_i h
    refine Eq.trans ?_ (framesFrom_eq_map t.msgs[i].1 _ 0 (blocks t.msgs[i].2)).symm
    rw [List.map_map, ← t.total_transfer ⟨i, h⟩]
    refine List.map_congr_left fun j _ => ?_
    simp only [Function.comp_apply, plaintext, UInt16.zero_add]
    rfl
  · rfl

theorem map_origins : t.origins.map t.plaintext = Message.allPlaintexts t.msgs := by
  have hmsgs : (List.finRange t.msgs.length).map (fun i => t.msgs[i]) = t.msgs :=
    List.map_getElem_finRange t.msgs
  rw [origins, List.map_flatMap, Message.allPlaintexts]
  conv_rhs => rw [← hmsgs, List.flatMap_map]
  simp only [map_originsOf]

theorem nodup_origins : t.origins.Nodup := by
  rw [origins, List.nodup_flatMap]
  constructor
  · intro i _
    rw [originsOf]
    split
    · exact (List.nodup_finRange _).map fun j j' h => by simpa using h
    · exact List.nodup_singleton _
  · -- an origin tells its message
    refine (List.nodup_finRange _).imp fun {i i'} hne o ho ho' => hne ?_
    rw [← t.source_of_mem ho, t.source_of_mem ho']

/-! ### What is delivered -/

theorem nodup_indicesOf {ι : Type} [DecidableEq ι] {T : ι → ChunkedData} (k : ι)
    {seq : List (Ref T)} (h : seq.Nodup) : (indicesOf k seq).Nodup := by
  refine h.filterMap fun x x' i hi hi' => ?_
  obtain ⟨j, a⟩ := x
  obtain ⟨j', a'⟩ := x'
  by_cases hj : j = k
  · by_cases hj' : j' = k
    · subst hj hj'
      simp only [dif_pos, Option.mem_def, Option.some.injEq] at hi hi'
      rw [hi, hi']
    · simp [hj'] at hi'
  · simp [hj] at hi

theorem parse_plaintext (x : Ref t.transfer) :
    parseChunkFrame (t.plaintext (.inr x)) = some (chunkOf t.transfer x) := by
  apply parseChunkFrame_makeChunkFrame
  rw [UInt16.lt_iff_toNat_lt, ChunkedData.toNat_index, ChunkedData.toNat_total]
  exact x.2.isLt

open scoped Classical in
/-- The messages that are delivered, for some origins of session messages. -/
noncomputable def outputs (S : ∀ k, Set (t.transfer k).Index) :
    List t.Origin → List (Fin t.msgs.length)
  | [] => []
  | .inl k :: os => k.1 :: outputs S os
  | .inr x :: os =>
      (if (collect (S x.1) x.2).1 then [x.1.1] else []) ++
        outputs (Function.update S x.1 (collect (S x.1) x.2).2) os

/-- The registry delivers whole messages. -/
theorem deliverAll_map_plaintext {S : ∀ k, Set (t.transfer k).Index} {reg : TransferRegistry}
    (h : Collecting S reg) (os : List t.Origin) :
    (deliverAll reg (os.map t.plaintext)).1 =
      (t.outputs S os).map fun i => t.msgs[i].2.data := by
  classical
  induction os generalizing S reg with
  | nil => rfl
  | cons o os ih =>
      rw [List.map_cons, deliverAll]
      cases o with
      | inl k =>
          have hplain : parseChunkFrame (t.plaintext (.inl k)) = none :=
            (t.clean_get k.1).plain k.2
          simp only [deliver, hplain, ih h, outputs]
          rfl
      | inr x =>
          obtain ⟨reg', hingest, h'⟩ := h.ingest t.transferId_injective x
          simp only [deliver, t.parse_plaintext x, hingest, ih h', outputs, List.map_append]
          congr 1
          split
          · simp [payload_transfer]
          · rfl

/-- The messages that come as they are. -/
def wholes (os : List t.Origin) : List t.Wholes := os.filterMap Sum.getLeft?

/-- The chunks that come. -/
def chunks (os : List t.Origin) : List (Ref t.transfer) := os.filterMap Sum.getRight?

theorem wholes_inl (k : t.Wholes) (os : List t.Origin) :
    t.wholes (.inl k :: os) = k :: t.wholes os := rfl

theorem wholes_inr (x : Ref t.transfer) (os : List t.Origin) :
    t.wholes (.inr x :: os) = t.wholes os := rfl

theorem chunks_inl (k : t.Wholes) (os : List t.Origin) :
    t.chunks (.inl k :: os) = t.chunks os := rfl

theorem chunks_inr (x : Ref t.transfer) (os : List t.Origin) :
    t.chunks (.inr x :: os) = x :: t.chunks os := rfl

theorem count_ite_of_ne {i k : Fin t.msgs.length} (h : i ≠ k) (c : Bool) :
    (if c then [i] else []).count k = 0 := by
  cases c
  · rfl
  · simp [h]

/-- A message that goes out as it is, is delivered as often as it comes. -/
theorem count_outputs_whole (S : ∀ k, Set (t.transfer k).Index) (k : t.Wholes)
    (os : List t.Origin) : (t.outputs S os).count k.1 = (t.wholes os).count k := by
  induction os generalizing S with
  | nil => rfl
  | cons o os ih =>
      rw [outputs.eq_def]
      cases o with
      | inl k' =>
          simp only [wholes_inl, List.count_cons, ih, beq_iff_eq, Subtype.ext_iff]
      | inr x =>
          have hne : x.1.1 ≠ k.1 := fun heq => k.2 (heq ▸ x.1.2)
          simp only [List.count_append, t.count_ite_of_ne hne, ih, wholes_inr, Nat.zero_add]

/-- A transfer is delivered once for each round of its chunks. -/
theorem count_outputs_transfer (S : ∀ k, Set (t.transfer k).Index) (k : t.Transfers)
    (os : List t.Origin) :
    (t.outputs S os).count k.1 = rounds (S k) (indicesOf k (t.chunks os)) := by
  induction os generalizing S with
  | nil => rfl
  | cons o os ih =>
      rw [outputs.eq_def]
      cases o with
      | inl k' =>
          have hne : k'.1 ≠ k.1 := fun heq => k'.2 (heq ▸ k.2)
          simp only [List.count_cons_of_ne hne, ih, chunks_inl]
      | inr x =>
          simp only [List.count_append, ih, chunks_inr]
          by_cases hk : x.1 = k
          · subst hk
            rw [Function.update_self, indicesOf_cons_self, rounds]
            congr 1
            cases (collect (S x.1) x.2).1
            · rfl
            · simp
          · have hne : x.1.1 ≠ k.1 := fun heq => hk (Subtype.ext heq)
            rw [t.count_ite_of_ne hne, Function.update_of_ne (Ne.symm hk),
              indicesOf_cons_of_ne hk, Nat.zero_add]

/-- Session messages that come once deliver no message twice. -/
theorem nodup_outputs {os : List t.Origin} (h : os.Nodup) :
    (t.outputs (fun _ => ∅) os).Nodup := by
  have hwholes : (t.wholes os).Nodup := by
    refine h.filterMap fun o o' k hk hk' => ?_
    rw [Option.mem_def, Sum.getLeft?_eq_some_iff] at hk hk'
    rw [hk, hk']
  have hchunks : (t.chunks os).Nodup := by
    refine h.filterMap fun o o' x hx hx' => ?_
    rw [Option.mem_def, Sum.getRight?_eq_some_iff] at hx hx'
    rw [hx, hx']
  rw [List.nodup_iff_count_le_one]
  intro i
  by_cases hi : t.msgs[i].2.Chunked
  · have hcount := t.count_outputs_transfer (fun _ => ∅) ⟨i, hi⟩ os
    rw [hcount]
    exact rounds_le_one_of_nodup (nodup_indicesOf _ hchunks)
  · have hcount := t.count_outputs_whole (fun _ => ∅) ⟨i, hi⟩ os
    rw [hcount]
    exact List.nodup_iff_count_le_one.mp hwholes _

end Traffic

/-! ### Integrity -/

/-- A sublist of an image, in another order, is an image. -/
theorem exists_map_of_subperm {α β : Type} {f : α → β} {l : List β} {L : List α}
    (h : l.Subperm (L.map f)) : ∃ l' : List α, l'.Subperm L ∧ l = l'.map f := by
  obtain ⟨m, hperm, hsub⟩ := h
  obtain ⟨L', hL', rfl⟩ := List.sublist_map_iff.mp hsub
  have hforall : List.Forall₂ (fun x y => x = f y) (L'.map f) L' :=
    List.forall₂_map_left_iff.mpr (List.forall₂_same.mpr fun _ _ => rfl)
  obtain ⟨l', hl', hperm'⟩ := List.perm_comp_forall₂ hperm.symm hforall
  refine ⟨l', ⟨L', hperm'.symm, hL'⟩, ?_⟩
  rw [← List.forall₂_eq_eq_eq]
  exact List.forall₂_map_right_iff.mpr hl'

namespace Traffic

variable (t : Traffic)

/-- Session messages of the sender, in any order and any number of times: what they deliver
are messages of the sender. -/
theorem deliverAll_subset {ps : List (List UInt8)}
    (hps : ∀ p ∈ ps, p ∈ Message.allPlaintexts t.msgs) :
    ∀ text ∈ (deliverAll .empty ps).1, ∃ x ∈ t.msgs, text = x.2.data := by
  have horigins : ps ∈ Set.range (List.map t.plaintext) := by
    rw [Set.range_list_map]
    intro p hp
    have hmem := hps p hp
    rw [← t.map_origins] at hmem
    obtain ⟨o, -, ho⟩ := List.mem_map.mp hmem
    exact ⟨o, ho⟩
  obtain ⟨os, rfl⟩ := horigins
  rw [t.deliverAll_map_plaintext collecting_empty]
  intro text htext
  obtain ⟨i, -, rfl⟩ := List.mem_map.mp htext
  exact ⟨_, List.getElem_mem i.isLt, rfl⟩

/-- Each at most once: they deliver each message at most once. -/
theorem deliverAll_subperm {ps : List (List UInt8)}
    (hps : ps.Subperm (Message.allPlaintexts t.msgs)) :
    (deliverAll .empty ps).1.Subperm (t.msgs.map (·.2.data)) := by
  rw [← t.map_origins] at hps
  obtain ⟨os, hos, rfl⟩ := exists_map_of_subperm hps
  obtain ⟨l, hperm, hsub⟩ := hos
  have hnodup : os.Nodup := hperm.nodup_iff.mp (t.nodup_origins.sublist hsub)
  have hindices : (t.outputs (fun _ => ∅) os).Subperm (List.finRange t.msgs.length) :=
    List.subperm_of_subset (t.nodup_outputs hnodup) fun i _ => List.mem_finRange i
  have hmsgs : (List.finRange t.msgs.length).map (fun i => t.msgs[i].2.data) =
      t.msgs.map (·.2.data) := by
    conv_rhs => rw [← List.map_getElem_finRange t.msgs, List.map_map]
    rfl
  rw [t.deliverAll_map_plaintext collecting_empty, ← hmsgs]
  exact subperm_map _ hindices

section Attacked

variable {a b : Session} (h : a.kSend = b.kRecv) {stream : List UInt8}
  (hforge : b.Unforged (a.sentFrames (Message.allPlaintexts t.msgs)) stream.length stream)

include h hforge

theorem mem_of_mem_recvLoop : ∀ e ∈ recvLoop b stream .empty,
    ∃ x ∈ t.msgs, e = ⟨pkHex b.peerIdentityPk, x.2.data⟩ := by
  rw [recvLoop_eq]
  intro e he
  obtain ⟨text, htext, rfl⟩ := List.mem_map.mp he
  obtain ⟨x, hx, rfl⟩ := t.deliverAll_subset (mem_of_received h hforge) text htext
  exact ⟨x, hx, rfl⟩

theorem recvLoop_subperm (hnodup : (framesTaken stream).Nodup) :
    (recvLoop b stream .empty).Subperm
      (t.msgs.map fun x => ⟨pkHex b.peerIdentityPk, x.2.data⟩) := by
  rw [recvLoop_eq]
  have hdelivered := subperm_map (ReceivedMsg.mk (pkHex b.peerIdentityPk))
    (t.deliverAll_subperm (received_subperm h hforge hnodup))
  rwa [List.map_map] at hdelivered

/-- Whatever an attacker does to the network, the other end delivers nothing but messages
of the sender, whole and unmixed; and nothing more often than it was sent, unless a frame
is taken twice. -/
theorem integrity :
    (∀ e ∈ recvLoop b stream .empty,
      ∃ x ∈ t.msgs, e = ⟨pkHex b.peerIdentityPk, x.2.data⟩) ∧
    ((framesTaken stream).Nodup → (recvLoop b stream .empty).Subperm
      (t.msgs.map fun x => ⟨pkHex b.peerIdentityPk, x.2.data⟩)) :=
  ⟨t.mem_of_mem_recvLoop h hforge, t.recvLoop_subperm h hforge⟩

end Attacked

theorem framesTaken_flatMap {fs : List Frame} (h : ∀ f ∈ fs, f.length ≤ maxFrame) :
    framesTaken (fs.flatMap frameBytes) = fs := by
  have htaken : ∀ n, fs.length ≤ n → Session.takenFrames n (fs.flatMap frameBytes) = fs := by
    intro n hn
    induction fs generalizing n with
    | nil =>
        induction n with
        | zero => rfl
        | succ n ih => exact ih (Nat.zero_le n)
    | cons f fs ih =>
        obtain ⟨hf, hfs⟩ := List.forall_mem_cons.mp h
        obtain ⟨n, rfl⟩ := Nat.exists_eq_succ_of_ne_zero
          (Nat.ne_of_gt (Nat.lt_of_lt_of_le (Nat.zero_lt_succ _) hn))
        have hrest := ih hfs n (Nat.succ_le_succ_iff.mp hn)
        rw [Session.takenFrames] at hrest ⊢
        rw [Session.framesOf, List.flatMap_cons, recvFrame_frameBytes hf]
        exact congrArg (f :: ·) hrest
  have hpos : ∀ n ∈ fs.map fun f => (frameBytes f).length, 1 ≤ n := by
    intro n hn
    obtain ⟨f, -, rfl⟩ := List.mem_map.mp hn
    rw [frameBytes, List.length_append, length_beBytes]
    omega
  refine htaken _ ?_
  rw [List.length_flatMap, ← List.length_map fun f : Frame => (frameBytes f).length]
  exact List.length_le_sum_of_one_le _ hpos

/-! ### Two transfers -/

/-- Some more bytes than go into a chunk. -/
def letters (more : ℕ) (b : UInt8) : List UInt8 := List.replicate (8193 + more) b

theorem length_letters (more : ℕ) (b : UInt8) : (letters more b).length = 8193 + more :=
  List.length_replicate

theorem letters_clean {file : Bool} {more : ℕ} {b : UInt8} (h : more ≤ 8191) :
    Message.Clean ⟨file, letters more b⟩ := by
  have hpayload : chunkPayloadSize.toNat = 8192 := rfl
  have hlen := length_letters more b
  refine ⟨List.ne_nil_of_length_pos ?_, ?_, fun hwhole => absurd (.inr ?_) hwhole⟩
  · simp only [hlen]
    omega
  · simp only [hlen]
    omega
  · simp only [hlen]
    omega

theorem length_plaintexts_letters {file : Bool} {more : ℕ} {b : UInt8} (h : more ≤ 8191)
    (transferId : UInt32) :
    (Message.plaintexts ⟨file, letters more b⟩ transferId).length = 2 := by
  have hpayload : chunkPayloadSize.toNat = 8192 := rfl
  have hlen := length_letters more b
  have hclean : Message.Clean ⟨file, letters more b⟩ := letters_clean h
  have htotal := (hclean.sendable 0).totalChunks_eq
  simp only [chunkCount, hlen, hpayload] at htotal
  rw [Message.plaintexts, if_pos (.inr (by simp only [hlen]; omega)), framesFrom_eq_map,
    List.length_map, List.length_finRange, length_pieces]
  simp only [htotal]
  omega

/-- A text and a file, each in two chunks. -/
def textAndFile : Traffic where
  msgs := [(7, ⟨false, letters 0 0x41⟩), (9, ⟨true, letters 7 0x42⟩)]
  clean := List.forall_mem_cons.mpr ⟨letters_clean (by decide),
    List.forall_mem_singleton.mpr (letters_clean (by decide))⟩
  distinct := by
    have hnumbers : ∀ m m' : Message, ∀ i j : Fin 2,
        ([(7, m), (9, m')] : List (UInt32 × Message))[i].1 =
          ([(7, m), (9, m')] : List (UInt32 × Message))[j].1 → i = j := by
      intro m m' i j
      fin_cases i <;> fin_cases j <;> simp
    exact fun i j _ _ => hnumbers _ _ i j

theorem length_textAndFile : (Message.allPlaintexts textAndFile.msgs).length = 4 := by
  have htext : (Message.plaintexts ⟨false, letters 0 0x41⟩ 7).length = 2 :=
    length_plaintexts_letters (by decide) 7
  have hfile : (Message.plaintexts ⟨true, letters 7 0x42⟩ 9).length = 2 :=
    length_plaintexts_letters (by decide) 9
  simp [Message.allPlaintexts, textAndFile, htext, hfile]

/-- Their frames over a session under zero keys. -/
def textAndFileFrames : List Frame :=
  Session.zeroKeys.sentFrames (Message.allPlaintexts textAndFile.msgs)

theorem exists_textAndFileFrames : ∃ f₀ f₁ f₂ f₃, textAndFileFrames = [f₀, f₁, f₂, f₃] :=
  List.length_eq_four.mp (by rw [textAndFileFrames, Session.length_sentFrames, length_textAndFile])

/-- What an attacker makes of the frames, by their positions. -/
def picked (order : List ℕ) : List Frame := order.filterMap (textAndFileFrames[·]?)

theorem framesTaken_picked (order : List ℕ) :
    framesTaken ((picked order).flatMap frameBytes) = picked order := by
  refine framesTaken_flatMap fun f hf => ?_
  obtain ⟨i, -, hi⟩ := List.mem_filterMap.mp hf
  obtain ⟨p, hp, hlen⟩ := Session.length_mem_sentFrames (List.mem_of_getElem? hi)
  have hbound := (Message.allPlaintexts_bound textAndFile.clean p hp).2
  unfold maxFrame
  omega

theorem picked_unforged (order : List ℕ) :
    Session.zeroKeys.Unforged textAndFileFrames ((picked order).flatMap frameBytes).length
      ((picked order).flatMap frameBytes) := by
  intro f hf
  left
  rw [← framesTaken, framesTaken_picked] at hf
  obtain ⟨i, -, hi⟩ := List.mem_filterMap.mp hf
  exact List.mem_of_getElem? hi

/-- The chunks of the file come between those of the text, and then some of them once more. -/
theorem integrity_interleaved :
    (recvLoop Session.zeroKeys ((picked [2, 0, 3, 1]).flatMap frameBytes) .empty).Subperm
      (textAndFile.msgs.map fun x => ⟨pkHex Session.zeroKeys.peerIdentityPk, x.2.data⟩) ∧
    ¬(framesTaken ((picked [2, 0, 2, 3, 0, 1]).flatMap frameBytes)).Nodup ∧
    ∀ e ∈ recvLoop Session.zeroKeys ((picked [2, 0, 2, 3, 0, 1]).flatMap frameBytes) .empty,
      ∃ x ∈ textAndFile.msgs, e = ⟨pkHex Session.zeroKeys.peerIdentityPk, x.2.data⟩ := by
  obtain ⟨f₀, f₁, f₂, f₃, hframes⟩ := exists_textAndFileFrames
  have hnodup : textAndFileFrames.Nodup :=
    Session.nodup_sentFrames _ (by rw [length_textAndFile]; decide)
  refine ⟨(integrity _ Session.zeroKeys_mirrored.send (picked_unforged _)).2 ?_, ?_,
    (integrity _ Session.zeroKeys_mirrored.send (picked_unforged _)).1⟩
  · rw [hframes] at hnodup
    rw [framesTaken_picked, picked, hframes]
    simp only [List.nodup_cons, List.mem_cons, List.not_mem_nil, or_false, not_or] at hnodup
    simp [hnodup, eq_comm]
  · rw [framesTaken_picked, picked, hframes]
    simp

end Traffic

end PeerToPeer.Node
