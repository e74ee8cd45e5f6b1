import PeerToPeer.Lib.Rounds
import PeerToPeer.Transfer.Registry

/-!
Chunks that come more than once.

A chunk is ignored while the row of its transfer has it. The row is erased when the
transfer is complete, and what comes after that starts a row again: the transfer is
returned once for each round in which all its chunks come.
-/

namespace PeerToPeer.Transfer

open Lib Crypto Protocol

section Family

variable {ι : Type} (T : ι → ChunkedData)

/-- All the chunks of transfer `k` come, and then they all come again. -/
def ComesTwice (k : ι) (seq : List (Ref T)) : Prop :=
  ∃ a b, seq = a ++ b ∧ (∀ i, ⟨k, i⟩ ∈ a) ∧ ∀ i, ⟨k, i⟩ ∈ b

variable {T} in
/-- The row of each transfer has what is at hand in its round. -/
def Collecting (S : ∀ k, Set (T k).Index) (reg : TransferRegistry) : Prop :=
  ∀ k, S k ≠ Set.univ ∧ Row (T k) (S k) (reg.entry (T k).transferId (T k).total)

variable {T} in
theorem collecting_empty : Collecting (T := T) (fun _ => ∅) .empty :=
  fun k => ⟨Set.empty_ne_univ, Row.new (T k)⟩

variable [DecidableEq ι]

/-- How many of the calls return the payload of transfer `k` for one of its chunks. -/
def deliveries (k : ι) (reg : TransferRegistry) (seq : List (Ref T)) : ℕ :=
  (seq.zip (reg.ingestAll (seq.map (chunkOf T))).1).countP fun (x, out) =>
    x.1 = k ∧ out = some (T k).payload

/-- No payload is returned twice. -/
def DeliveredOnce (seq : List (Ref T)) : Prop := ∀ k, deliveries T k .empty seq ≤ 1

variable {T}

/-- The chunks of transfer `k`, in the order in which they come. -/
def indicesOf (k : ι) (seq : List (Ref T)) : List (T k).Index :=
  seq.filterMap fun x => if h : x.1 = k then some (h ▸ x.2) else none

theorem indicesOf_cons_self (x : Ref T) (seq : List (Ref T)) :
    indicesOf x.1 (x :: seq) = x.2 :: indicesOf x.1 seq := by
  simp [indicesOf]

theorem indicesOf_cons_of_ne {k : ι} {x : Ref T} (h : x.1 ≠ k) (seq : List (Ref T)) :
    indicesOf k (x :: seq) = indicesOf k seq := by
  simp [indicesOf, h]

theorem mem_indicesOf {k : ι} {i : (T k).Index} {seq : List (Ref T)} :
    i ∈ indicesOf k seq ↔ ⟨k, i⟩ ∈ seq := by
  rw [indicesOf, List.mem_filterMap]
  constructor
  · rintro ⟨⟨j, i'⟩, hmem, heq⟩
    by_cases hj : j = k
    · subst hj
      rw [dif_pos rfl, Option.some.injEq] at heq
      rwa [← heq]
    · rw [dif_neg hj] at heq
      cases heq
  · exact fun h => ⟨_, h, dif_pos rfl⟩

theorem comesTwice_iff {k : ι} {seq : List (Ref T)} :
    ComesTwice T k seq ↔
      ∃ a b, indicesOf k seq = a ++ b ∧ (∀ i, i ∈ a) ∧ ∀ i, i ∈ b := by
  constructor
  · rintro ⟨a, b, rfl, ha, hb⟩
    exact ⟨indicesOf k a, indicesOf k b, List.filterMap_append,
      fun i => mem_indicesOf.mpr (ha i), fun i => mem_indicesOf.mpr (hb i)⟩
  · rintro ⟨a', b', hab, ha, hb⟩
    obtain ⟨a, b, rfl, rfl, rfl⟩ := List.filterMap_eq_append_iff.mp hab
    exact ⟨a, b, rfl, fun i => mem_indicesOf.mp (ha i), fun i => mem_indicesOf.mp (hb i)⟩

section Step

variable (hinj : Function.Injective fun k => (T k).transferId)
include hinj

/-- Another row for one transfer. -/
theorem Collecting.set {S : ∀ k, Set (T k).Index} {reg : TransferRegistry}
    (h : Collecting S reg) {k : ι} {S' : Set (T k).Index} {e : Option ChunkReassembler}
    (hS' : S' ≠ Set.univ) (hrow : Row (T k) S' (e.getD (.new (T k).total))) :
    Collecting (Function.update S k S') (reg.set (T k).transferId e) := by
  intro j
  by_cases hj : j = k
  · subst hj
    rw [Function.update_self, TransferRegistry.entry, TransferRegistry.set_self]
    exact ⟨hS', hrow⟩
  · rw [Function.update_of_ne hj, TransferRegistry.entry,
      TransferRegistry.set_of_ne _ (fun hid => hj (hinj hid))]
    exact h j

/-- One call of `ingest`. -/
theorem Collecting.ingest {S : ∀ k, Set (T k).Index} {reg : TransferRegistry}
    (h : Collecting S reg) (x : Ref T) :
    ∃ reg', reg.ingest (chunkOf T x) =
        (if (collect (S x.1) x.2).1 then some (T x.1).payload else none, reg') ∧
      Collecting (Function.update S x.1 (collect (S x.1) x.2).2) reg' := by
  obtain ⟨hS, hrow⟩ := h x.1
  by_cases hx : x.2 ∈ S x.1
  · rw [collect_of_mem hx]
    exact ⟨_, TransferRegistry.ingest_duplicate hrow hx, h.set hinj hS hrow⟩
  by_cases hlast : insert x.2 (S x.1) = Set.univ
  · rw [collect_of_last hx hlast]
    exact ⟨_, TransferRegistry.ingest_last hrow hx hlast,
      h.set hinj Set.empty_ne_univ (Row.new (T x.1))⟩
  · rw [collect_of_open hx hlast]
    obtain ⟨r, hr, hingest⟩ := TransferRegistry.ingest_open hrow hx hlast
    exact ⟨_, hingest, h.set hinj hlast hr⟩

/-- A transfer is returned once for each round of its chunks. -/
theorem Collecting.deliveries_eq {S : ∀ k, Set (T k).Index} {reg : TransferRegistry}
    (h : Collecting S reg) (k : ι) (seq : List (Ref T)) :
    deliveries T k reg seq = rounds (S k) (indicesOf k seq) := by
  induction seq generalizing S reg with
  | nil => rfl
  | cons x seq ih =>
      obtain ⟨reg', hstep, h'⟩ := h.ingest hinj x
      have hcons : deliveries T k reg (x :: seq) = deliveries T k reg' seq +
          if x.1 = k ∧ (collect (S x.1) x.2).1 then 1 else 0 := by
        simp only [deliveries, List.map_cons, TransferRegistry.ingestAll, hstep,
          List.zip_cons_cons, List.countP_cons]
        congr 1
        by_cases hk : x.1 = k
        · subst hk
          simp
        · simp [hk]
      rw [hcons, ih h']
      by_cases hk : x.1 = k
      · subst hk
        rw [Function.update_self, indicesOf_cons_self, rounds]
        cases (collect (S x.1) x.2).1
        · simp
        · simp [Nat.add_comm]
      · rw [Function.update_of_ne (Ne.symm hk), indicesOf_cons_of_ne hk]
        simp [hk]

end Step

/-- No payload is returned twice, unless all the chunks of a transfer come a second
time after they have all come. -/
theorem deliveredOnce_iff (hinj : Function.Injective fun k => (T k).transferId)
    (seq : List (Ref T)) : DeliveredOnce T seq ↔ ∀ k, ¬ComesTwice T k seq := by
  refine forall_congr' fun k => ?_
  have hrounds := two_le_rounds_iff (S := (∅ : Set (T k).Index)) Set.empty_ne_univ
    (indicesOf k seq)
  simp only [Set.mem_empty_iff_false, false_or] at hrounds
  rw [collecting_empty.deliveries_eq hinj, comesTwice_iff, ← hrounds, Nat.not_le,
    Nat.lt_succ_iff]

end Family

/-- A transfer of one block. -/
def oneBlock : Unit → ChunkedData := fun _ => ⟨7, [[1]], by decide, by decide⟩

/-- A transfer of two blocks. -/
def twoBlocks : Unit → ChunkedData := fun _ => ⟨7, [[8], [9]], by decide, by decide⟩

/-- Duplicates before the last chunk, and one after it. -/
theorem deliveredOnce_iff_twoBlocks :
    ¬ComesTwice twoBlocks ()
      [⟨(), 0, by decide⟩, ⟨(), 0, by decide⟩, ⟨(), 1, by decide⟩, ⟨(), 1, by decide⟩] :=
  (deliveredOnce_iff (fun _ _ _ => rfl) _).mp (by unfold DeliveredOnce; decide) ()

/-- The only chunk of a transfer comes twice, and is returned twice. -/
theorem not_deliveredOnce_oneBlock :
    Function.Injective (fun k => (oneBlock k).transferId) ∧
      ¬DeliveredOnce oneBlock [⟨(), 0, by decide⟩, ⟨(), 0, by decide⟩] :=
  ⟨fun _ _ _ => rfl, by unfold DeliveredOnce; decide⟩

end PeerToPeer.Transfer
