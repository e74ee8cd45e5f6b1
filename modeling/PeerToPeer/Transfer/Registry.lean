import PeerToPeer.Transfer.Lossless
import Mathlib.Data.Fintype.Sigma

/-!
Several transfers in one `transfer_registry`, chunk by chunk in any order.

The row of a transfer has the slots filled whose chunks have come. As long as
transfers with the same number do not overlap, a row belongs to one transfer only,
so each transfer is assembled as if it were alone, and its row is gone after its
last chunk.
-/

namespace PeerToPeer.Transfer

open Lib Crypto Protocol

/-- A transfer: its number and its blocks, as many as the total of a chunk can say. -/
structure ChunkedData where
  transferId : UInt32
  blocks : List (List UInt8)
  ne_nil : blocks ≠ []
  le : blocks.length ≤ 65535

namespace ChunkedData

def total (t : ChunkedData) : UInt16 := UInt16.ofNat t.blocks.length

/-- The index of a block. -/
abbrev Index (t : ChunkedData) := Fin t.blocks.length

/-- Chunk `i` of a transfer. -/
def chunk (t : ChunkedData) (i : t.Index) : ChunkInfo :=
  ⟨t.transferId, UInt16.ofNat i, t.total, t.blocks[i]⟩

/-- The data of a transfer. -/
def payload (t : ChunkedData) : List UInt8 := t.blocks.flatten

theorem toNat_total (t : ChunkedData) : t.total.toNat = t.blocks.length :=
  UInt16.toNat_ofNat_of_lt' (lt_of_le_of_lt t.le (by norm_num))

theorem toNat_index (t : ChunkedData) (i : t.Index) : (UInt16.ofNat i.val).toNat = i :=
  UInt16.toNat_ofNat_of_lt' (lt_of_lt_of_le i.isLt (le_trans t.le (by norm_num)))

instance (t : ChunkedData) : Nonempty t.Index :=
  ⟨⟨0, List.length_pos_iff.mpr t.ne_nil⟩⟩

end ChunkedData

/-! ### One row -/

/-- The row of a transfer when the chunks in `S` have come. -/
structure Row (t : ChunkedData) (S : Set t.Index) (r : ChunkReassembler) : Prop where
  total_eq : r.total = t.total
  filled_of_mem : ∀ i ∈ S, r.slots[i.val]? = some (some t.blocks[i])
  empty_of_notMem : ∀ i ∉ S, r.slots[i.val]? = some none

namespace Row

variable {t : ChunkedData} {S : Set t.Index} {r : ChunkReassembler}

theorem new (t : ChunkedData) : Row t ∅ (.new t.total) where
  total_eq := rfl
  filled_of_mem i hi := hi.elim
  empty_of_notMem i _ := by
    simp only [ChunkReassembler.new, List.getElem?_replicate, t.toNat_total]
    rw [if_pos i.isLt]

theorem length_slots (h : Row t S r) : r.slots.length = t.blocks.length := by
  rw [r.length_slots, h.total_eq, t.toNat_total]

theorem taken_iff (h : Row t S r) (i : t.Index) : r.Taken (UInt16.ofNat i) ↔ i ∈ S := by
  have hle : ¬r.total ≤ UInt16.ofNat i := by
    rw [UInt16.le_iff_toNat_le, h.total_eq, t.toNat_total, t.toNat_index]
    exact Nat.not_le.mpr i.isLt
  rw [ChunkReassembler.Taken, t.toNat_index, List.getD_eq_getElem?_getD]
  by_cases hi : i ∈ S
  · simp [h.filled_of_mem i hi, hi]
  · simp [h.empty_of_notMem i hi, hi, hle]

theorem fill (h : Row t S r) {i : t.Index} (hfree : ¬r.Taken (UInt16.ofNat i)) :
    Row t (insert i S) (r.fill (UInt16.ofNat i) t.blocks[i] hfree) where
  total_eq := h.total_eq
  filled_of_mem j hj := by
    have hlen : i.val < r.slots.length := by rw [h.length_slots]; exact i.isLt
    simp only [ChunkReassembler.fill, t.toNat_index, List.getElem?_set]
    by_cases hij : i = j
    · subst hij
      simp [hlen]
    · rw [if_neg (fun h => hij (Fin.ext h))]
      exact h.filled_of_mem j (hj.resolve_left (Ne.symm hij))
  empty_of_notMem j hj := by
    rw [Set.mem_insert_iff, not_or] at hj
    simp only [ChunkReassembler.fill, t.toNat_index, List.getElem?_set]
    rw [if_neg (fun h => hj.1 (Fin.ext h.symm))]
    exact h.empty_of_notMem j hj.2

/-- A full row holds the blocks. -/
theorem slots_eq (h : Row t Set.univ r) : r.slots = t.blocks.map some := by
  apply List.ext_getElem?
  intro i
  by_cases hi : i < t.blocks.length
  · rw [h.filled_of_mem ⟨i, hi⟩ (Set.mem_univ _), List.getElem?_map, List.getElem?_eq_getElem hi]
    rfl
  · rw [List.getElem?_eq_none (by rw [h.length_slots]; omega),
      List.getElem?_eq_none (by simp; omega)]

/-- The counter reaches the total exactly when all chunks have come. -/
theorem received_lt_iff (h : Row t S r) : r.received < r.total ↔ S ≠ Set.univ := by
  rw [UInt16.lt_iff_toNat_lt, r.received_eq, ← r.length_slots]
  constructor
  · rintro hlt rfl
    rw [h.slots_eq, List.length_map] at hlt
    simp [filled] at hlt
  · intro hS
    obtain ⟨i, hi⟩ := (Set.ne_univ_iff_exists_notMem S).mp hS
    refine lt_of_le_of_ne (filled_le_length _) fun hfull => ?_
    have hsome := List.countP_eq_length.mp hfull none
      (List.mem_of_getElem? (h.empty_of_notMem i hi))
    cases hsome

/-- `add` of a chunk that has come before. -/
theorem add_of_mem (h : Row t S r) {i : t.Index} (hi : i ∈ S) (data : List UInt8) :
    r.add (UInt16.ofNat i) data = (none, r) := by
  rw [ChunkReassembler.add, dif_pos ((h.taken_iff i).mpr hi)]

open scoped Classical in
/-- `add` of a new chunk: the payload if it was the last one missing. -/
theorem add_of_notMem (h : Row t S r) {i : t.Index} (hi : i ∉ S) :
    Row t (insert i S) (r.add (UInt16.ofNat i) t.blocks[i]).2 ∧
      (r.add (UInt16.ofNat i) t.blocks[i]).1 =
        if insert i S = Set.univ then some t.payload else none := by
  have hfree : ¬r.Taken (UInt16.ofNat i) := mt (h.taken_iff i).mp hi
  have hrow := h.fill hfree
  rw [ChunkReassembler.add, dif_neg hfree]
  simp only
  by_cases hfull : insert i S = Set.univ
  · rw [if_neg (fun hlt => (hrow.received_lt_iff.mp hlt) hfull), if_pos hfull]
    refine ⟨hrow, ?_⟩
    rw [hfull] at hrow
    rw [hrow.slots_eq, List.flatMap_map]
    simp [ChunkedData.payload]
  · rw [if_pos (hrow.received_lt_iff.mpr hfull), if_neg hfull]
    exact ⟨hrow, rfl⟩

end Row

namespace TransferRegistry

/-- Successive calls of `ingest`. -/
def ingestAll (reg : TransferRegistry) :
    List ChunkInfo → List (Option (List UInt8)) × TransferRegistry
  | [] => ([], reg)
  | ci :: cis =>
      let (out, reg) := reg.ingest ci
      let (outs, reg) := reg.ingestAll cis
      (out :: outs, reg)

section Ingest

variable {reg : TransferRegistry} {t : ChunkedData} {S : Set t.Index}

/-- A new chunk that leaves others missing. -/
theorem ingest_open (h : Row t S (reg.entry t.transferId t.total)) {i : t.Index} (hi : i ∉ S)
    (hmore : insert i S ≠ Set.univ) :
    ∃ r, Row t (insert i S) r ∧
      reg.ingest (t.chunk i) = (none, reg.set t.transferId (some r)) := by
  obtain ⟨hrow, hout⟩ := h.add_of_notMem hi
  rw [if_neg hmore] at hout
  refine ⟨_, hrow, ?_⟩
  rw [ingest_eq, ChunkedData.chunk]
  simp only [hout]
  rfl

/-- The last chunk that was missing. -/
theorem ingest_last (h : Row t S (reg.entry t.transferId t.total)) {i : t.Index} (hi : i ∉ S)
    (hlast : insert i S = Set.univ) :
    reg.ingest (t.chunk i) = (some t.payload, reg.set t.transferId none) := by
  obtain ⟨-, hout⟩ := h.add_of_notMem hi
  rw [if_pos hlast] at hout
  rw [ingest_eq, ChunkedData.chunk]
  simp only [hout]
  rfl

/-- A chunk that has come before. -/
theorem ingest_duplicate (h : Row t S (reg.entry t.transferId t.total)) {i : t.Index}
    (hi : i ∈ S) :
    reg.ingest (t.chunk i) =
      (none, reg.set t.transferId (some (reg.entry t.transferId t.total))) := by
  rw [ingest_eq, ChunkedData.chunk]
  simp only [h.add_of_mem hi]
  rfl

end Ingest

end TransferRegistry

/-! ### Families of transfers -/

section Family

variable {ι : Type} (T : ι → ChunkedData)

/-- A chunk of one of the transfers. -/
abbrev Ref := Σ k, (T k).Index

def chunkOf (x : Ref T) : ChunkInfo := (T x.1).chunk x.2

/-- Transfers that share a number do not overlap in time: no chunk of one comes
between two chunks of the other. -/
def Separate (order : List (Ref T)) : Prop :=
  ∀ x y z : Ref T, [x, y, z].Sublist order → x.1 = z.1 →
    (T y.1).transferId = (T x.1).transferId → y.1 = x.1

/-- What the calls are to return: the payload at the last chunk of each transfer, and
nothing at every other. -/
def returned [DecidableEq ι] : List (Ref T) → List (Option (List UInt8))
  | [] => []
  | x :: rest =>
      (if rest.any (·.1 = x.1) then none else some (T x.1).payload) :: returned rest

variable {T}

/-- A transfer some of whose chunks have come and others have not. -/
def Open (before after : List (Ref T)) (k : ι) : Prop :=
  (∃ x ∈ before, x.1 = k) ∧ ∃ x ∈ after, x.1 = k

/-- The indices of a transfer that have come. -/
def seen (before : List (Ref T)) (k : ι) : Set (T k).Index := {i | ⟨k, i⟩ ∈ before}

/-- The open transfers have their rows, and there are no others. -/
structure Assembling (before after : List (Ref T)) (reg : TransferRegistry) : Prop where
  row : ∀ k, Open before after k →
    ∃ r, reg (T k).transferId = some r ∧ Row (T k) (seen before k) r
  none_of_closed : ∀ d, (∀ k, (T k).transferId = d → ¬Open before after k) → reg d = none

theorem assembling_nil (after : List (Ref T)) : Assembling [] after TransferRegistry.empty where
  row k hk := by
    obtain ⟨⟨x, hx, -⟩, -⟩ := hk
    cases hx
  none_of_closed _ _ := rfl

theorem sublist_three {before after : List (Ref T)} {x y z : Ref T} (hy : y ∈ before)
    (hz : z ∈ after) : [y, x, z].Sublist (before ++ x :: after) :=
  (List.singleton_sublist.mpr hy).append ((List.singleton_sublist.mpr hz).cons_cons x)

section Step

variable {before after : List (Ref T)} {x : Ref T} {reg : TransferRegistry}

/-- The chunk that comes next is the only one of its number. -/
theorem eq_of_open (hsep : Separate T (before ++ x :: after)) {k : ι}
    (hid : (T k).transferId = (T x.1).transferId)
    (hopen : (∃ y ∈ before, y.1 = k) ∧ ∃ z ∈ after, z.1 = k) : k = x.1 := by
  obtain ⟨⟨y, hy, rfl⟩, z, hz, hzy⟩ := hopen
  exact (hsep y x z (sublist_three hy hz) hzy.symm hid.symm).symm

theorem seen_concat_self : seen (before ++ [x]) x.1 = insert x.2 (seen before x.1) := by
  ext i
  simp only [seen, List.mem_append, List.mem_singleton, Set.mem_ofPred_eq, Set.mem_insert_iff]
  constructor
  · rintro (h | h)
    · exact .inr h
    · obtain ⟨k, j⟩ := x
      exact .inl (eq_of_heq (Sigma.mk.inj h).2)
  · rintro (rfl | h)
    · exact .inr rfl
    · exact .inl h

theorem seen_concat_of_ne {k : ι} (hk : k ≠ x.1) : seen (before ++ [x]) k = seen before k := by
  ext i
  simp only [seen, List.mem_append, List.mem_singleton, Set.mem_ofPred_eq, or_iff_left_iff_imp]
  intro h
  exact absurd (congrArg Sigma.fst h) hk

/-- The row for the chunk that comes next. -/
theorem Assembling.row_next (h : Assembling before (x :: after) reg)
    (hsep : Separate T (before ++ x :: after)) :
    Row (T x.1) (seen before x.1) (reg.entry (T x.1).transferId (T x.1).total) := by
  rw [TransferRegistry.entry]
  by_cases hfirst : ∃ y ∈ before, y.1 = x.1
  · obtain ⟨r, hreg, hrow⟩ := h.row x.1 ⟨hfirst, x, by simp, rfl⟩
    rwa [hreg]
  · have hnone : reg (T x.1).transferId = none := by
      apply h.none_of_closed
      rintro k hid ⟨hbefore, z, hz, rfl⟩
      rcases List.mem_cons.mp hz with rfl | hz
      · exact hfirst hbefore
      · exact hfirst (eq_of_open hsep hid ⟨hbefore, z, hz, rfl⟩ ▸ hbefore)
    have hseen : seen before x.1 = ∅ := by
      ext i
      simp only [seen, Set.mem_ofPred_eq, Set.mem_empty_iff_false, iff_false]
      exact fun hi => hfirst ⟨_, hi, rfl⟩
    rw [hnone, hseen]
    exact Row.new (T x.1)

/-- What the step does not touch. -/
theorem Assembling.row_other (h : Assembling before (x :: after) reg)
    (hsep : Separate T (before ++ x :: after)) (e : Option ChunkReassembler) {k : ι}
    (hk : k ≠ x.1) (hopen : Open (before ++ [x]) after k) :
    ∃ r, reg.set (T x.1).transferId e (T k).transferId = some r ∧
      Row (T k) (seen (before ++ [x]) k) r := by
  obtain ⟨⟨y, hy, hyk⟩, z, hz, hzk⟩ := hopen
  have hy' : y ∈ before := by
    rcases List.mem_append.mp hy with hy | hy
    · exact hy
    · rw [List.mem_singleton.mp hy] at hyk
      exact absurd hyk.symm hk
  have hid : (T k).transferId ≠ (T x.1).transferId := fun hid =>
    hk (eq_of_open hsep hid ⟨⟨y, hy', hyk⟩, z, hz, hzk⟩)
  obtain ⟨r, hreg, hrow⟩ := h.row k ⟨⟨y, hy', hyk⟩, z, List.mem_cons_of_mem _ hz, hzk⟩
  refine ⟨r, ?_, ?_⟩
  · rw [TransferRegistry.set_of_ne _ hid, hreg]
  · rwa [seen_concat_of_ne hk]

theorem Assembling.none_other (h : Assembling before (x :: after) reg)
    (e : Option ChunkReassembler) {d : UInt32} (hd : d ≠ (T x.1).transferId)
    (hclosed : ∀ k, (T k).transferId = d → ¬Open (before ++ [x]) after k) :
    reg.set (T x.1).transferId e d = none := by
  rw [TransferRegistry.set_of_ne _ hd]
  apply h.none_of_closed
  rintro k rfl ⟨⟨y, hy, hyk⟩, z, hz, rfl⟩
  rcases List.mem_cons.mp hz with rfl | hz
  · exact hd rfl
  · exact hclosed z.1 rfl ⟨⟨y, List.mem_append_left _ hy, hyk⟩, z, hz, rfl⟩

/-- A chunk that comes once is new. -/
theorem notMem_seen (hnodup : (before ++ x :: after).Nodup) : x.2 ∉ seen before x.1 :=
  fun hx => List.disjoint_of_nodup_append hnodup hx (List.mem_cons_self ..)

/-- A row is full when no chunk of its transfer is left. -/
theorem insert_seen_eq_univ_iff (hnodup : (before ++ x :: after).Nodup)
    (hall : ∀ y, y ∈ before ++ x :: after) :
    insert x.2 (seen before x.1) = Set.univ ↔ ∀ z ∈ after, z.1 ≠ x.1 := by
  rw [Set.eq_univ_iff_forall]
  constructor
  · rintro hfull ⟨k, j⟩ hz rfl
    rcases hfull j with rfl | hj
    · exact (List.nodup_cons.mp (List.nodup_append.mp hnodup).2.1).1 hz
    · exact List.disjoint_of_nodup_append hnodup hj (List.mem_cons_of_mem _ hz)
  · intro hlast j
    obtain ⟨k, i⟩ := x
    rcases List.mem_append.mp (hall ⟨k, j⟩) with hj | hj
    · exact .inr hj
    rcases List.mem_cons.mp hj with hj | hj
    · exact .inl (eq_of_heq (Sigma.mk.inj hj).2)
    · exact absurd rfl (hlast ⟨k, j⟩ hj)

/-- One call of `ingest`. -/
theorem Assembling.ingest [DecidableEq ι] (h : Assembling before (x :: after) reg)
    (hsep : Separate T (before ++ x :: after)) (hnodup : (before ++ x :: after).Nodup)
    (hall : ∀ y, y ∈ before ++ x :: after) :
    ∃ reg', reg.ingest (chunkOf T x) =
        (if after.any (·.1 = x.1) then none else some (T x.1).payload, reg') ∧
      Assembling (before ++ [x]) after reg' := by
  have hrow := h.row_next hsep
  have hnew := notMem_seen hnodup
  have hfull := insert_seen_eq_univ_iff hnodup hall
  have hany : after.any (·.1 = x.1) ↔ ∃ z ∈ after, z.1 = x.1 := by
    simp only [List.any_eq_true, decide_eq_true_eq]
  by_cases hmore : ∃ z ∈ after, z.1 = x.1
  · -- chunks of the transfer are still to come: its row stays
    obtain ⟨r, hr, hingest⟩ := TransferRegistry.ingest_open hrow hnew
      (fun h => by obtain ⟨z, hz, hzx⟩ := hmore; exact hfull.mp h z hz hzx)
    refine ⟨reg.set (T x.1).transferId (some r), ?_, ⟨fun k hk => ?_, fun d hd => ?_⟩⟩
    · rw [if_pos (hany.mpr hmore)]
      exact hingest
    · by_cases hkx : k = x.1
      · subst hkx
        exact ⟨r, TransferRegistry.set_self .., seen_concat_self ▸ hr⟩
      · exact h.row_other hsep _ hkx hk
    · by_cases hdx : d = (T x.1).transferId
      · exact absurd ⟨⟨x, by simp, rfl⟩, hmore⟩ (hd x.1 hdx.symm)
      · exact h.none_other _ hdx hd
  · -- this was the last one: the row is gone
    have hlast : ∀ z ∈ after, z.1 ≠ x.1 := fun z hz hzx => hmore ⟨z, hz, hzx⟩
    refine ⟨reg.set (T x.1).transferId none, ?_, ⟨fun k hk => ?_, fun d hd => ?_⟩⟩
    · rw [if_neg (mt hany.mp hmore)]
      exact TransferRegistry.ingest_last hrow hnew (hfull.mpr hlast)
    · have hkx : k ≠ x.1 := by
        rintro rfl
        exact hmore hk.2
      exact h.row_other hsep _ hkx hk
    · by_cases hdx : d = (T x.1).transferId
      · rw [hdx, TransferRegistry.set_self]
      · exact h.none_other _ hdx hd

end Step

/-- The calls that are left. -/
theorem Assembling.ingestAll [DecidableEq ι] {before after : List (Ref T)}
    {reg : TransferRegistry} (h : Assembling before after reg)
    (hsep : Separate T (before ++ after)) (hnodup : (before ++ after).Nodup)
    (hall : ∀ y, y ∈ before ++ after) :
    ∃ reg', reg.ingestAll (after.map (chunkOf T)) = (returned T after, reg') ∧
      Assembling (before ++ after) [] reg' := by
  induction after generalizing before reg with
  | nil => exact ⟨reg, rfl, by rwa [List.append_nil]⟩
  | cons x after ih =>
      obtain ⟨reg₁, hstep, h₁⟩ := h.ingest hsep hnodup hall
      rw [List.append_cons] at hsep hnodup hall ⊢
      obtain ⟨reg₂, hrun, h₂⟩ := ih h₁ hsep hnodup hall
      refine ⟨reg₂, ?_, h₂⟩
      rw [List.map_cons, TransferRegistry.ingestAll, hstep]
      simp only [hrun, returned]

theorem Assembling.eq_empty {order : List (Ref T)} {reg : TransferRegistry}
    (h : Assembling order [] reg) : reg = TransferRegistry.empty := by
  funext d
  apply h.none_of_closed
  rintro k - ⟨-, z, hz, -⟩
  cases hz

/-- Transfers in one registry do not disturb one another: for every order of all their
chunks, the payload of a transfer comes out at its last chunk and nothing at every other,
and the registry is empty at the end. -/
theorem ingestAll_interleaved [DecidableEq ι] (order : List (Ref T)) (hnodup : order.Nodup)
    (hall : ∀ x, x ∈ order) (hsep : Separate T order) :
    TransferRegistry.empty.ingestAll (order.map (chunkOf T)) =
      (returned T order, TransferRegistry.empty) := by
  obtain ⟨reg, hrun, h⟩ := (assembling_nil order).ingestAll hsep hnodup hall
  rw [hrun, h.eq_empty]

/-- Three transfers, two of them with the same number, one after the other. -/
def threeTransfers : Fin 3 → ChunkedData
  | 0 => ⟨7, [[1], [2]], by decide, by decide⟩
  | 1 => ⟨7, [[3]], by decide, by decide⟩
  | 2 => ⟨9, [[4, 5], [6]], by decide, by decide⟩

theorem ingestAll_interleaved_three :
    TransferRegistry.empty.ingestAll [⟨9, 1, 2, [6]⟩, ⟨7, 1, 2, [2]⟩, ⟨7, 0, 2, [1]⟩,
        ⟨9, 0, 2, [4, 5]⟩, ⟨7, 0, 1, [3]⟩] =
      ([none, none, some [1, 2], some [4, 5, 6], some [3]], TransferRegistry.empty) :=
  ingestAll_interleaved (T := threeTransfers)
    [⟨2, 1, by decide⟩, ⟨0, 1, by decide⟩, ⟨0, 0, by decide⟩, ⟨2, 0, by decide⟩,
      ⟨1, 0, by decide⟩]
    (by decide) (by decide) (by unfold Separate; decide +kernel)

end Family

end PeerToPeer.Transfer
