import Mathlib.Data.List.Perm.Subperm
import Mathlib.Data.List.Perm.Basic

/-!
Lists whose entries belong to lanes.

An interleaved history is, up to the order, what happened on each of its lanes. So a
statement about every lane is a statement about the whole history.
-/

namespace PeerToPeer.Lib

variable {α β : Type*}

/-- What belongs to lane `i`, in order. -/
def lane (i : ℕ) (l : List (ℕ × α)) : List α :=
  l.filterMap fun e => if e.1 = i then some e.2 else none

@[simp] theorem lane_nil (i : ℕ) : lane i ([] : List (ℕ × α)) = [] := rfl

@[simp] theorem lane_append (i : ℕ) (l l' : List (ℕ × α)) :
    lane i (l ++ l') = lane i l ++ lane i l' :=
  List.filterMap_append

theorem lane_map_self (i : ℕ) (l : List α) : lane i (l.map (i, ·)) = l := by
  simp [lane, List.filterMap_map]

theorem lane_map_of_ne {i j : ℕ} (h : j ≠ i) (l : List α) : lane i (l.map (j, ·)) = [] := by
  simp [lane, List.filterMap_map, h]

theorem lane_eq_nil {i : ℕ} {l : List (ℕ × α)} (h : ∀ e ∈ l, e.1 ≠ i) : lane i l = [] := by
  rw [lane, List.filterMap_eq_nil_iff]
  exact fun e he => if_neg (h e he)

theorem mem_lane {i : ℕ} {x : α} {l : List (ℕ × α)} : x ∈ lane i l ↔ (i, x) ∈ l := by
  rw [lane, List.mem_filterMap]
  constructor
  · rintro ⟨⟨j, y⟩, he, heq⟩
    split at heq
    · rename_i hj
      cases heq
      rwa [← show j = i from hj]
    · cases heq
  · exact fun h => ⟨(i, x), h, if_pos rfl⟩

/-- A history that goes on, while lanes are added. -/
theorem lt_append {k k' : ℕ} {l l' : List (ℕ × α)} (h : ∀ e ∈ l, e.1 < k)
    (h' : ∀ e ∈ l', e.1 < k) (hle : k ≤ k') : ∀ e ∈ l ++ l', e.1 < k' := by
  intro e he
  rcases List.mem_append.mp he with he | he
  · exact Nat.lt_of_lt_of_le (h e he) hle
  · exact Nat.lt_of_lt_of_le (h' e he) hle

/-- A history is made of its lanes. -/
theorem perm_lanes {k : ℕ} {l : List (ℕ × α)} (h : ∀ e ∈ l, e.1 < k) :
    l.Perm ((List.range k).flatMap fun i => (lane i l).map (i, ·)) := by
  induction k generalizing l with
  | zero =>
      rw [List.eq_nil_iff_forall_not_mem.mpr fun e he => absurd (h e he) (Nat.not_lt_zero _)]
      exact .nil
  | succ k ih =>
      set rest := l.filter fun e => !decide (e.1 = k) with hrest
      have hlast : l.filter (fun e => decide (e.1 = k)) = (lane k l).map (k, ·) := by
        rw [lane, List.map_filterMap, ← List.filterMap_eq_filter]
        refine List.filterMap_congr fun e _ => ?_
        by_cases he : e.1 = k
        · subst he
          simp [Option.guard]
        · simp [Option.guard, he]
      have hlanes : ∀ i ∈ List.range k, (lane i rest).map (i, ·) = (lane i l).map (i, ·) := by
        intro i hi
        rw [hrest, lane, List.filterMap_filter, lane]
        congr 1
        refine List.filterMap_congr fun e _ => ?_
        have hne := Nat.ne_of_lt (List.mem_range.mp hi)
        by_cases he : e.1 = k
        · simp [he, Ne.symm hne]
        · simp [he]
      have hlt : ∀ e ∈ rest, e.1 < k := by
        intro e he
        obtain ⟨hmem, hne⟩ := List.mem_filter.mp he
        have hbound := h e hmem
        simp only [Bool.not_eq_eq_eq_not, Bool.not_true, decide_eq_false_iff_not] at hne
        omega
      rw [List.range_succ, List.flatMap_append, List.flatMap_singleton, ← hlast,
        ← List.flatMap_congr hlanes]
      exact (List.filter_append_perm (fun e => decide (e.1 = k)) l).symm.trans
        (List.perm_append_comm.trans ((ih hlt).append_right _))

/-- What is read off a history, lane by lane. -/
theorem perm_filterMap_lanes {k : ℕ} {l : List (ℕ × α)} (h : ∀ e ∈ l, e.1 < k)
    (f : ℕ → α → Option β) :
    (l.filterMap fun e => f e.1 e.2).Perm
      ((List.range k).flatMap fun i => (lane i l).filterMap (f i)) := by
  refine ((perm_lanes h).filterMap _).trans (List.Perm.of_eq ?_)
  rw [List.filterMap_flatMap]
  refine List.flatMap_congr fun i _ => ?_
  rw [List.filterMap_map]
  rfl

theorem subperm_map (f : α → β) {l l' : List α} (h : l.Subperm l') :
    (l.map f).Subperm (l'.map f) := by
  obtain ⟨l₀, hperm, hsub⟩ := h
  exact ⟨l₀.map f, hperm.map f, hsub.map f⟩

/-- A bound for every lane is a bound for the history. -/
theorem subperm_flatMap {ι : Type*} {f g : ι → List α} {l : List ι}
    (h : ∀ i ∈ l, (f i).Subperm (g i)) : (l.flatMap f).Subperm (l.flatMap g) := by
  induction l with
  | nil => exact List.Subperm.refl _
  | cons i l ih =>
      obtain ⟨hi, hl⟩ := List.forall_mem_cons.mp h
      rw [List.flatMap_cons, List.flatMap_cons]
      exact hi.append (ih hl)

end PeerToPeer.Lib
