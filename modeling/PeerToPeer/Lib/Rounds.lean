import Mathlib.Data.Set.Insert
import Mathlib.Data.Set.Basic

/-!
Collecting the elements of a type, round after round.

Elements come one by one. An element that is at hand is ignored; when all are at hand
the round is complete and the next one starts from nothing.
-/

namespace PeerToPeer.Lib

open scoped Classical in
/-- One more element: whether it completes the round, and what is at hand then. -/
noncomputable def collect {α : Type*} (S : Set α) (x : α) : Bool × Set α :=
  if x ∈ S then (false, S)
  else if insert x S = Set.univ then (true, ∅)
  else (false, insert x S)

/-- The number of complete rounds. -/
noncomputable def rounds {α : Type*} (S : Set α) : List α → ℕ
  | [] => 0
  | x :: l => (collect S x).1.toNat + rounds (collect S x).2 l

variable {α : Type*} {S : Set α} {x : α}

theorem collect_of_mem (h : x ∈ S) : collect S x = (false, S) := if_pos h

theorem collect_of_last (h : x ∉ S) (hlast : insert x S = Set.univ) :
    collect S x = (true, ∅) := by
  rw [collect, if_neg h, if_pos hlast]

theorem collect_of_open (h : x ∉ S) (hmore : insert x S ≠ Set.univ) :
    collect S x = (false, insert x S) := by
  rw [collect, if_neg h, if_neg hmore]

/-- There is a complete round if nothing is missing. -/
theorem one_le_rounds_iff [Nonempty α] (hS : S ≠ Set.univ) (l : List α) :
    1 ≤ rounds S l ↔ ∀ y, y ∈ S ∨ y ∈ l := by
  induction l generalizing S with
  | nil =>
      simp only [rounds, List.not_mem_nil, or_false]
      exact ⟨fun h => absurd h (by omega), fun h => absurd (Set.eq_univ_iff_forall.mpr h) hS⟩
  | cons x l ih =>
      rw [rounds]
      by_cases hx : x ∈ S
      · rw [collect_of_mem hx]
        simp only [Bool.toNat_false, Nat.zero_add, ih hS, List.mem_cons]
        grind
      by_cases hlast : insert x S = Set.univ
      · rw [collect_of_last hx hlast]
        simp only [Bool.toNat_true, Nat.le_add_right, true_iff, List.mem_cons]
        intro y
        rcases Set.eq_univ_iff_forall.mp hlast y with rfl | hy
        · exact .inr (.inl rfl)
        · exact .inl hy
      · rw [collect_of_open hx hlast]
        simp only [Bool.toNat_false, Nat.zero_add, ih hlast, List.mem_cons, Set.mem_insert_iff]
        grind

/-- There are two complete rounds if the list can be cut so that nothing is missing
before the cut, and nothing is missing after it. -/
theorem two_le_rounds_iff [Nonempty α] (hS : S ≠ Set.univ) (l : List α) :
    2 ≤ rounds S l ↔ ∃ a b, l = a ++ b ∧ (∀ y, y ∈ S ∨ y ∈ a) ∧ ∀ y, y ∈ b := by
  induction l generalizing S with
  | nil =>
      simp only [rounds, List.nil_eq_append_iff]
      constructor
      · exact fun h => absurd h (by omega)
      · rintro ⟨a, b, ⟨rfl, rfl⟩, -, hb⟩
        exact absurd (hb (Classical.arbitrary α)) (List.not_mem_nil)
  | cons x l ih =>
      -- the first part is not empty, since something is missing from `S`
      have hcut : (∃ a b, x :: l = a ++ b ∧ (∀ y, y ∈ S ∨ y ∈ a) ∧ ∀ y, y ∈ b) ↔
          ∃ a b, l = a ++ b ∧ (∀ y, y ∈ insert x S ∨ y ∈ a) ∧ ∀ y, y ∈ b := by
        constructor
        · rintro ⟨a, b, hab, ha, hb⟩
          rcases List.cons_eq_append_iff.mp hab with ⟨rfl, -⟩ | ⟨a', rfl, hl⟩
          · exact absurd (Set.eq_univ_iff_forall.mpr fun y => (ha y).resolve_right
              List.not_mem_nil) hS
          · refine ⟨a', b, hl, fun y => ?_, hb⟩
            have := ha y
            grind
        · rintro ⟨a, b, rfl, ha, hb⟩
          refine ⟨x :: a, b, rfl, fun y => ?_, hb⟩
          have := ha y
          grind
      rw [rounds, hcut]
      by_cases hx : x ∈ S
      · rw [collect_of_mem hx, Set.insert_eq_of_mem hx]
        simpa only [Bool.toNat_false, Nat.zero_add] using ih hS
      by_cases hlast : insert x S = Set.univ
      · rw [collect_of_last hx hlast, hlast]
        have hone := one_le_rounds_iff (S := (∅ : Set α)) Set.empty_ne_univ l
        simp only [Set.mem_empty_iff_false, false_or] at hone
        simp only [Bool.toNat_true, Set.mem_univ, true_or, implies_true, true_and]
        rw [show 2 ≤ 1 + rounds ∅ l ↔ 1 ≤ rounds (∅ : Set α) l by omega, hone]
        constructor
        · exact fun h => ⟨[], l, rfl, h⟩
        · rintro ⟨a, b, rfl, hb⟩
          exact fun y => List.mem_append_right a (hb y)
      · rw [collect_of_open hx hlast]
        simpa only [Bool.toNat_false, Nat.zero_add] using ih hlast

/-- Elements that come once make one round at most. -/
theorem rounds_le_one_of_nodup [Nonempty α] {l : List α} (h : l.Nodup) :
    rounds (∅ : Set α) l ≤ 1 := by
  by_contra hlt
  obtain ⟨a, b, rfl, ha, hb⟩ := (two_le_rounds_iff Set.empty_ne_univ l).mp (Nat.not_le.mp hlt)
  obtain ⟨y⟩ := ‹Nonempty α›
  exact (List.nodup_append.mp h).2.2 y ((ha y).resolve_left (Set.notMem_empty y)) y (hb y) rfl

end PeerToPeer.Lib
