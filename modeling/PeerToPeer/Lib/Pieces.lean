import Mathlib.Data.List.Basic
import Mathlib.Algebra.BigOperators.Group.Finset.Piecewise
import Mathlib.Algebra.BigOperators.Ring.Finset

/-!
Cutting a list into pieces, and rows of slots that are filled one at a time.
-/

namespace PeerToPeer.Lib

variable {α : Type}

/-- The first `n` pieces of a list, `size` elements each; the last ones may be
shorter. -/
def pieces (size n : ℕ) (l : List α) : List (List α) :=
  (List.range n).map fun i => (l.drop (i * size)).take size

@[simp] theorem length_pieces (size n : ℕ) (l : List α) : (pieces size n l).length = n := by
  simp [pieces]

theorem pieces_succ (size n : ℕ) (l : List α) :
    pieces size (n + 1) l = pieces size n l ++ [(l.drop (n * size)).take size] := by
  simp [pieces, List.range_succ]

theorem pieces_succ_eq_cons (size n : ℕ) (l : List α) :
    pieces size (n + 1) l = l.take size :: pieces size n (l.drop size) := by
  simp [pieces, List.range_succ_eq_map, Nat.succ_mul, Nat.add_comm]

/-- The pieces of two lists, where the first consists of full pieces. -/
theorem pieces_append {size n : ℕ} (k : ℕ) {as : List α} (bs : List α) (h : as.length = n * size) :
    pieces size (n + k) (as ++ bs) = pieces size n as ++ pieces size k bs := by
  induction n generalizing as with
  | zero =>
      rw [List.eq_nil_of_length_eq_zero (by rw [h, Nat.zero_mul] : as.length = 0), Nat.zero_add]
      rfl
  | succ n ih =>
      have hle : size ≤ as.length := by
        rw [h, Nat.succ_mul]
        omega
      rw [Nat.succ_add, pieces_succ_eq_cons, pieces_succ_eq_cons,
        List.take_append_of_le_length hle, List.drop_append_of_le_length hle, ih, List.cons_append]
      rw [List.length_drop, h, Nat.succ_mul]
      omega

theorem drop_pieces {size n i : ℕ} (h : i < n) (l : List α) :
    (pieces size n l).drop i =
      (l.drop (i * size)).take size :: (pieces size n l).drop (i + 1) := by
  rw [List.drop_eq_getElem_cons (by simpa using h)]
  simp [pieces]

/-- The first of too many pieces are all pieces exactly when they are as many. -/
theorem take_pieces_eq_iff {size n count r : ℕ} (hr : r ≤ n) (hn : n ≤ count) (l : List α) :
    (pieces size n l).take r = pieces size count l ↔ r = count := by
  constructor
  · intro h
    have hlength := congrArg List.length h
    rwa [List.length_take, length_pieces, length_pieces, Nat.min_eq_left hr] at hlength
  · rintro rfl
    rw [Nat.le_antisymm hn hr, List.take_of_length_le (by simp)]

theorem length_le_of_mem_pieces {size n : ℕ} {l piece : List α} (h : piece ∈ pieces size n l) :
    piece.length ≤ size := by
  obtain ⟨i, -, rfl⟩ := List.mem_map.mp h
  exact List.length_take_le _ _

/-- Pieces of a list that is long enough are full. -/
theorem length_eq_of_mem_pieces {size n : ℕ} {l piece : List α} (hn : n * size ≤ l.length)
    (h : piece ∈ pieces size n l) : piece.length = size := by
  obtain ⟨i, hi, rfl⟩ := List.mem_map.mp h
  have hle : (i + 1) * size ≤ n * size := Nat.mul_le_mul_right _ (List.mem_range.mp hi)
  rw [Nat.succ_mul] at hle
  rw [List.length_take, List.length_drop]
  omega

theorem flatten_pieces (size n : ℕ) (l : List α) :
    (pieces size n l).flatten = l.take (n * size) := by
  induction n with
  | zero => simp [pieces]
  | succ n ih =>
      rw [pieces_succ, List.flatten_append, ih, Nat.succ_mul, List.take_add]
      simp

/-- Enough pieces make up the list. -/
theorem flatten_pieces_of_le {size n : ℕ} {l : List α} (h : l.length ≤ n * size) :
    (pieces size n l).flatten = l := by
  rw [flatten_pieces, List.take_of_length_le h]

/-! ### Slots -/

/-- The number of slots that are filled. -/
def filled (slots : List (Option α)) : ℕ := slots.countP Option.isSome

theorem filled_le_length (slots : List (Option α)) : filled slots ≤ slots.length :=
  List.countP_le_length

@[simp] theorem filled_replicate_none (n : ℕ) :
    filled (List.replicate n (none : Option α)) = 0 := by
  simp [filled, List.countP_replicate]

/-- Filling an empty slot. -/
theorem filled_set {slots : List (Option α)} {i : ℕ} (h : slots[i]? = some none) (x : α) :
    filled (slots.set i (some x)) = filled slots + 1 := by
  obtain ⟨hi, hnone⟩ := List.getElem?_eq_some_iff.mp h
  simp [filled, List.countP_set hi, hnone]

/-- What the slots hold, put end to end. -/
def contents (slots : List (Option (List α))) : List α := slots.flatMap (·.getD [])

@[simp] theorem contents_replicate_none (n : ℕ) :
    contents (List.replicate n (none : Option (List α))) = [] := by
  simp [contents]

theorem length_contents_set {slots : List (Option (List α))} {i : ℕ} (h : slots[i]? = some none)
    (x : List α) :
    (contents (slots.set i (some x))).length = (contents slots).length + x.length := by
  induction slots generalizing i with
  | nil => simp at h
  | cons s slots ih =>
      cases i with
      | zero =>
          rw [List.getElem?_cons_zero] at h
          cases h
          simp [contents, Nat.add_comm]
      | succ i =>
          rw [List.getElem?_cons_succ] at h
          have := ih h
          simp only [contents, List.set_cons_succ, List.flatMap_cons, List.length_append] at this ⊢
          omega

/-! ### The weight of a finite map -/

section Weight

variable {κ ρ : Type} [Fintype κ] [DecidableEq κ] (w : ρ → ℕ)

/-- The weight of a partial map: the sum over its values. -/
def weight (f : κ → Option ρ) : ℕ := ∑ k, (f k).elim 0 w

/-- Changing one entry changes the weight by what the entry weighs. -/
theorem weight_update (f : κ → Option ρ) (k : κ) (v : Option ρ) :
    weight w (Function.update f k v) + (f k).elim 0 w = weight w f + v.elim 0 w := by
  have hupdate : (fun i => (Function.update f k v i).elim 0 w) =
      Function.update (fun i => (f i).elim 0 w) k (v.elim 0 w) := by
    funext i
    by_cases hi : i = k
    · subst hi
      simp
    · simp [hi]
  have hsum := Finset.add_sum_erase Finset.univ (fun i => (f i).elim 0 w) (Finset.mem_univ k)
  rw [weight, weight, hupdate, Finset.sum_update_of_mem (Finset.mem_univ k), ← hsum,
    ← Finset.erase_eq]
  omega

end Weight

end PeerToPeer.Lib
