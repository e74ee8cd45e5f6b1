import PeerToPeer.Transfer.Chunker

/-!
Runs of `chunk_reassembler::add`.

The calls may come in any order, with indices that are too large or that came before.
The slots are a function of the calls: each holds the first data added for its index.
A payload is due at the one call that brings the last index, and it is made of these
first data.
-/

namespace PeerToPeer.Transfer.ChunkReassembler

open Lib

/-- The arguments of a call of `add`. -/
abbrev Call := UInt16 × List UInt8

/-- The slots after some calls. -/
def row (total : UInt16) (calls : List Call) : List (Option (List UInt8)) :=
  (List.range total.toNat).map fun j => calls.lookup (UInt16.ofNat j)

/-- Every index below the total has come. -/
def Complete (total : UInt16) (calls : List Call) : Prop :=
  ∀ j < total.toNat, (calls.lookup (UInt16.ofNat j)).isSome

instance (total : UInt16) (calls : List Call) : Decidable (Complete total calls) :=
  inferInstanceAs (Decidable (∀ j < _, _))

/-- What the call `c` is to return after some calls: the payload, if `c` brings the last
index. -/
def delivery (total : UInt16) (calls : List Call) (c : Call) : Option (List UInt8) :=
  if Complete total (calls ++ [c]) ∧ ¬Complete total calls then
    some (contents (row total (calls ++ [c])))
  else none

@[simp] theorem length_row (total : UInt16) (calls : List Call) :
    (row total calls).length = total.toNat := by
  simp [row]

theorem toNat_ofNat_of_lt_total {total : UInt16} {j : ℕ} (h : j < total.toNat) :
    (UInt16.ofNat j).toNat = j :=
  UInt16.toNat_ofNat_of_lt' (h.trans total.toNat_lt)

theorem row_getElem? {total i : UInt16} (h : i < total) (calls : List Call) :
    (row total calls)[i.toNat]? = some (calls.lookup i) := by
  have hlt := UInt16.lt_iff_toNat_lt.mp h
  rw [row, List.getElem?_map, List.getElem?_range hlt, Option.map_some, UInt16.ofNat_toNat]

theorem complete_iff_filled {total : UInt16} {calls : List Call} :
    Complete total calls ↔ filled (row total calls) = total.toNat := by
  have hcount : filled (row total calls) = (row total calls).length ↔
      ∀ s ∈ row total calls, s.isSome := List.countP_eq_length
  rw [← length_row total calls, hcount, row, List.forall_mem_map]
  simp only [List.mem_range, Complete]

/-- A call with an index that is too large or that came before changes nothing. -/
theorem row_append_of_taken {total : UInt16} {calls : List Call} {c : Call}
    (h : total ≤ c.1 ∨ (calls.lookup c.1).isSome) :
    row total (calls ++ [c]) = row total calls := by
  refine List.map_congr_left fun j hj => ?_
  have hlt := List.mem_range.mp hj
  rw [List.lookup_append]
  by_cases hc : UInt16.ofNat j = c.1
  · rw [hc]
    rcases h with hle | hsome
    · have hle' := UInt16.le_iff_toNat_le.mp hle
      rw [← hc, toNat_ofNat_of_lt_total hlt] at hle'
      omega
    · rw [Option.or_of_isSome hsome]
  · rw [List.lookup_cons, beq_false_of_ne hc, List.lookup_nil, Option.or_none]

theorem delivery_of_row_eq {total : UInt16} {calls : List Call} {c : Call}
    (h : row total (calls ++ [c]) = row total calls) : delivery total calls c = none := by
  refine if_neg fun ⟨hall, hopen⟩ => hopen ?_
  rw [complete_iff_filled, h] at hall
  exact complete_iff_filled.mpr hall

/-- A call with a new index fills its slot. -/
theorem row_append_of_new {total : UInt16} {calls : List Call} {c : Call}
    (h : calls.lookup c.1 = none) :
    row total (calls ++ [c]) = (row total calls).set c.1.toNat (some c.2) := by
  apply List.ext_getElem
  · simp
  · intro j hj _
    have hlt : j < total.toNat := by simpa using hj
    rw [List.getElem_set]
    simp only [row, List.getElem_map, List.getElem_range, List.lookup_append]
    split_ifs with hc
    · rw [← hc, UInt16.ofNat_toNat, h, Option.none_or, List.lookup_cons_self]
    · have hne : UInt16.ofNat j ≠ c.1 := fun heq => hc (by rw [← heq, toNat_ofNat_of_lt_total hlt])
      rw [List.lookup_cons, beq_false_of_ne hne, List.lookup_nil, Option.or_none]

/-! ### One call -/

/-- The reassembler after some calls. -/
structure After (total : UInt16) (calls : List Call) (r : ChunkReassembler) : Prop where
  total_eq : r.total = total
  slots_eq : r.slots = row total calls

namespace After

variable {total : UInt16} {calls : List Call} {r : ChunkReassembler}

theorem new (total : UInt16) : After total [] (.new total) where
  total_eq := rfl
  slots_eq := by simp [ChunkReassembler.new, row, List.map_const']

theorem taken_iff (h : After total calls r) (i : UInt16) :
    r.Taken i ↔ total ≤ i ∨ (calls.lookup i).isSome := by
  rw [Taken, h.total_eq, h.slots_eq]
  by_cases hle : total ≤ i
  · simp [hle]
  · rw [List.getD_eq_getElem?_getD, row_getElem? (UInt16.not_le.mp hle), Option.getD_some]

theorem received_lt_iff (h : After total calls r) :
    r.received < r.total ↔ ¬Complete total calls := by
  have hle := filled_le_length r.slots
  rw [r.length_slots, h.total_eq] at hle
  rw [UInt16.lt_iff_toNat_lt, r.received_eq, h.total_eq, complete_iff_filled, ← h.slots_eq]
  omega

theorem fill (h : After total calls r) {c : Call} (hc : ¬r.Taken c.1) :
    After total (calls ++ [c]) (r.fill c.1 c.2 hc) where
  total_eq := h.total_eq
  slots_eq := by
    have hnew := (not_or.mp (mt (h.taken_iff _).mpr hc)).2
    rw [row_append_of_new (Option.not_isSome_iff_eq_none.mp hnew), ← h.slots_eq]
    rfl

/-- A call that is ignored. -/
theorem add_of_taken (h : After total calls r) {c : Call}
    (hc : total ≤ c.1 ∨ (calls.lookup c.1).isSome) : r.add c.1 c.2 = (none, r) :=
  dif_pos ((h.taken_iff _).mpr hc)

/-- A call is ignored, fills one more slot, or fills the last one. -/
theorem add (h : After total calls r) (c : Call) :
    (r.add c.1 c.2).1 = delivery total calls c ∧
      After total (calls ++ [c]) (r.add c.1 c.2).2 := by
  by_cases hc : r.Taken c.1
  · have hcall := (h.taken_iff _).mp hc
    have hrow := row_append_of_taken hcall
    rw [h.add_of_taken hcall]
    exact ⟨(delivery_of_row_eq hrow).symm, h.total_eq, by rw [hrow, h.slots_eq]⟩
  · have hfill := h.fill hc
    have hopen : ¬Complete total calls := fun hall => by
      obtain ⟨hlt, hnew⟩ := not_or.mp (mt (h.taken_iff _).mpr hc)
      have hseen := hall c.1.toNat (UInt16.lt_iff_toNat_lt.mp (UInt16.not_le.mp hlt))
      rw [UInt16.ofNat_toNat] at hseen
      exact hnew hseen
    rw [ChunkReassembler.add, dif_neg hc]
    simp only
    generalize r.fill c.1 c.2 hc = r' at hfill ⊢
    by_cases hlast : Complete total (calls ++ [c])
    · rw [if_neg (fun hlt => hfill.received_lt_iff.mp hlt hlast), delivery,
        if_pos ⟨hlast, hopen⟩, ← hfill.slots_eq]
      exact ⟨rfl, hfill⟩
    · rw [if_pos (hfill.received_lt_iff.mpr hlast), delivery, if_neg (fun hall => hlast hall.1)]
      exact ⟨rfl, hfill⟩

end After

/-! ### All calls -/

/-- One call after the other: what they return, and the reassembler after them. -/
def addAll (r : ChunkReassembler) : List Call → List (Option (List UInt8)) × ChunkReassembler
  | [] => ([], r)
  | c :: cs =>
      let (out, r) := r.add c.1 c.2
      let (outs, r) := addAll r cs
      (out :: outs, r)

/-- What calls are to return after some others. -/
def deliveries (total : UInt16) (calls : List Call) : List Call → List (Option (List UInt8))
  | [] => []
  | c :: cs => delivery total calls c :: deliveries total (calls ++ [c]) cs

theorem After.addAll {total : UInt16} {calls : List Call} {r : ChunkReassembler}
    (h : After total calls r) (cs : List Call) :
    (r.addAll cs).1 = deliveries total calls cs ∧ After total (calls ++ cs) (r.addAll cs).2 := by
  induction cs generalizing calls r with
  | nil =>
      exact ⟨rfl, by rwa [List.append_nil]⟩
  | cons c cs ih =>
      obtain ⟨hout, hafter⟩ := h.add c
      obtain ⟨houts, hall⟩ := ih hafter
      rw [List.append_assoc] at hall
      exact ⟨congrArg₂ List.cons hout houts, hall⟩

@[simp] theorem length_deliveries (total : UInt16) (calls cs : List Call) :
    (deliveries total calls cs).length = cs.length := by
  induction cs generalizing calls with
  | nil =>
      rfl
  | cons c cs ih =>
      rw [deliveries, List.length_cons, List.length_cons, ih]

theorem getElem?_deliveries (total : UInt16) (calls cs : List Call) (n : ℕ) :
    (deliveries total calls cs)[n]? =
      cs[n]?.map (delivery total (calls ++ cs.take n)) := by
  induction cs generalizing calls n with
  | nil =>
      rfl
  | cons c cs ih =>
      cases n with
      | zero =>
          simp [deliveries]
      | succ n =>
          rw [deliveries, List.getElem?_cons_succ, ih, List.getElem?_cons_succ,
            List.take_succ_cons, List.append_assoc, List.singleton_append]

theorem Complete.append {total : UInt16} {calls : List Call} (h : Complete total calls)
    (cs : List Call) : Complete total (calls ++ cs) := by
  intro j hj
  rw [List.lookup_append, Option.or_of_isSome (h j hj)]
  exact h j hj

/-- After the last index nothing is due any more. -/
theorem deliveries_of_complete {total : UInt16} {calls : List Call} (h : Complete total calls)
    (cs : List Call) : (deliveries total calls cs).countP Option.isSome = 0 := by
  induction cs generalizing calls with
  | nil =>
      rfl
  | cons c cs ih =>
      rw [deliveries, delivery, if_neg (fun hall => hall.2 h), List.countP_cons, ih (h.append _)]
      rfl

theorem deliveries_le_one (total : UInt16) (calls cs : List Call) :
    (deliveries total calls cs).countP Option.isSome ≤ 1 := by
  induction cs generalizing calls with
  | nil =>
      exact Nat.zero_le _
  | cons c cs ih =>
      rw [deliveries, List.countP_cons]
      by_cases hlast : Complete total (calls ++ [c])
      · rw [deliveries_of_complete hlast]
        split_ifs <;> omega
      · have hnone : delivery total calls c = none := if_neg fun hall => hlast hall.1
        rw [hnone]
        exact ih _

/-- The reassembler over any calls: its counter, what each call returns, and which calls
are ignored. -/
theorem addAll_new (total : UInt16) (calls : List Call) :
    let outs := (addAll (.new total) calls).1
    let r := (addAll (.new total) calls).2
    (r.total = total ∧ r.received.toNat = filled r.slots ∧ r.received ≤ r.total) ∧
    outs.length = calls.length ∧
    (∀ n c, calls[n]? = some c → outs[n]? = some (delivery total (calls.take n) c)) ∧
    outs.countP Option.isSome ≤ 1 ∧
    ∀ c : Call, total ≤ c.1 ∨ (∃ data, (c.1, data) ∈ calls) → r.add c.1 c.2 = (none, r) := by
  intro outs r
  obtain ⟨houts, hafter⟩ := (After.new total).addAll calls
  rw [List.nil_append] at hafter
  have hget (n : ℕ) : outs[n]? = calls[n]?.map (delivery total (calls.take n)) := by
    rw [show outs = _ from houts, getElem?_deliveries, List.nil_append]
  refine ⟨⟨hafter.total_eq, r.received_eq, ?_⟩, ?_, fun n c hc => ?_, ?_, fun c hc => ?_⟩
  · have hle := filled_le_length r.slots
    rw [UInt16.le_iff_toNat_le, r.received_eq, ← r.length_slots]
    exact hle
  · rw [show outs = _ from houts, length_deliveries]
  · rw [hget, hc, Option.map_some]
  · rw [show outs = _ from houts]
    exact deliveries_le_one total [] calls
  · refine hafter.add_of_taken (hc.imp_right fun ⟨data, hmem⟩ => ?_)
    rw [List.lookup_isSome_iff]
    exact ⟨_, hmem, beq_self_eq_true _⟩

example : (addAll (.new 2) [(0, [0xAA]), (0, [0xCC]), (2, [0xDD]), (1, [0xBB]), (1, [0xBB])]).1 =
    [none, none, none, some [0xAA, 0xBB], none] := by
  decide

end PeerToPeer.Transfer.ChunkReassembler
