import Mathlib.Data.List.Induction
import Mathlib.Data.List.Nodup
import Mathlib.Data.List.Pairwise
import Mathlib.Data.List.Perm.Subperm

/-!
Tables that keep one entry for each key: the last one that was put in, at the
place of the first one.

`table` builds a table from a history of entries. Its keys stand in the order in
which they first occur in the history, and its entries are the latest of their
keys.
-/

namespace PeerToPeer.Lib

variable {α κ : Type*} [DecidableEq κ] (key : α → κ)

/-- Puts an entry in the place of the one with the same key, or at the end. -/
def upsert : List α → α → List α
  | [], a => [a]
  | x :: xs, a => if key x = key a then a :: xs else x :: upsert xs a

/-- The table of a history of entries, oldest first. -/
def table (history : List α) : List α := history.foldl (upsert key) []

variable {key}

theorem map_key_upsert (xs : List α) (a : α) :
    (upsert key xs a).map key =
      if key a ∈ xs.map key then xs.map key else xs.map key ++ [key a] := by
  induction xs with
  | nil => simp [upsert]
  | cons x xs ih =>
      rw [upsert]
      by_cases hx : key x = key a
      · simp [hx]
      · rw [if_neg hx, List.map_cons, ih, List.map_cons]
        by_cases hmem : key a ∈ xs.map key
        · rw [if_pos hmem, if_pos (List.mem_cons_of_mem _ hmem)]
        · have hnew : key a ∉ key x :: xs.map key := by
            rw [List.mem_cons, not_or]
            exact ⟨Ne.symm hx, hmem⟩
          rw [if_neg hmem, if_neg hnew, List.cons_append]

theorem mem_map_key_upsert {xs : List α} {a : α} {k : κ} :
    k ∈ (upsert key xs a).map key ↔ k ∈ xs.map key ∨ k = key a := by
  rw [map_key_upsert]
  split
  · rename_i hmem
    constructor
    · exact .inl
    · rintro (h | rfl)
      · exact h
      · exact hmem
  · rw [List.mem_append, List.mem_singleton]

theorem nodup_upsert {xs : List α} (h : (xs.map key).Nodup) (a : α) :
    ((upsert key xs a).map key).Nodup := by
  rw [map_key_upsert]
  split
  · exact h
  · rename_i hmem
    exact List.nodup_append'.mpr ⟨h, List.nodup_singleton _, by simpa using hmem⟩

/-- What a table holds after an entry was put in. -/
theorem mem_upsert {xs : List α} (h : (xs.map key).Nodup) {a b : α} :
    b ∈ upsert key xs a ↔ b = a ∨ b ∈ xs ∧ key b ≠ key a := by
  induction xs with
  | nil => simp [upsert]
  | cons x xs ih =>
      obtain ⟨hx, hxs⟩ := List.nodup_cons.mp h
      rw [upsert]
      by_cases hkey : key x = key a
      · rw [if_pos hkey, List.mem_cons, List.mem_cons]
        -- no other entry has the key of `x`
        have hother : b ∈ xs → key b ≠ key a := by
          rintro hb heq
          exact hx (List.mem_map.mpr ⟨b, hb, heq.trans hkey.symm⟩)
        constructor
        · rintro (rfl | hb)
          · exact .inl rfl
          · exact .inr ⟨.inr hb, hother hb⟩
        · rintro (rfl | ⟨rfl | hb, hne⟩)
          · exact .inl rfl
          · exact absurd hkey hne
          · exact .inr hb
      · rw [if_neg hkey, List.mem_cons, ih hxs, List.mem_cons]
        constructor
        · rintro (rfl | rfl | ⟨hb, hne⟩)
          · exact .inr ⟨.inl rfl, hkey⟩
          · exact .inl rfl
          · exact .inr ⟨.inr hb, hne⟩
        · rintro (rfl | ⟨rfl | hb, hne⟩)
          · exact .inr (.inl rfl)
          · exact .inl rfl
          · exact .inr (.inr ⟨hb, hne⟩)

/-! ### Histories -/

theorem table_concat (history : List α) (a : α) :
    table key (history ++ [a]) = upsert key (table key history) a := by
  rw [table, List.foldl_append]
  rfl

theorem nodup_table (history : List α) : ((table key history).map key).Nodup := by
  induction history using List.reverseRecOn with
  | nil => exact List.nodup_nil
  | append_singleton history a ih =>
      rw [table_concat]
      exact nodup_upsert ih a

theorem mem_map_key_table {history : List α} {k : κ} :
    k ∈ (table key history).map key ↔ k ∈ history.map key := by
  induction history using List.reverseRecOn with
  | nil => rfl
  | append_singleton history a ih =>
      rw [table_concat, mem_map_key_upsert, ih, List.map_append, List.mem_append,
        List.map_singleton, List.mem_singleton]

variable (key) in
/-- The entry is in the history, and no later one has its key. -/
def IsLatest (history : List α) (b : α) : Prop :=
  ∃ before after, history = before ++ b :: after ∧ ∀ c ∈ after, key c ≠ key b

omit [DecidableEq κ] in
theorem isLatest_concat {history : List α} {a b : α} :
    IsLatest key (history ++ [a]) b ↔ b = a ∨ IsLatest key history b ∧ key b ≠ key a := by
  constructor
  · rintro ⟨before, after, heq, hafter⟩
    rcases List.eq_nil_or_concat' after with rfl | ⟨after, c, rfl⟩
    · obtain ⟨-, hba⟩ := List.append_inj' heq rfl
      exact .inl (List.singleton_inj.mp hba).symm
    · rw [← List.cons_append, ← List.append_assoc] at heq
      obtain ⟨rfl, hca⟩ := List.append_inj' heq rfl
      obtain rfl := List.singleton_inj.mp hca
      refine .inr ⟨⟨before, after, rfl, fun c hc => hafter c (by simp [hc])⟩, ?_⟩
      exact (hafter a (by simp)).symm
  · rintro (rfl | ⟨⟨before, after, rfl, hafter⟩, hne⟩)
    · exact ⟨history, [], rfl, by simp⟩
    · refine ⟨before, after ++ [a], by simp, ?_⟩
      intro c hc
      rcases List.mem_append.mp hc with hc | hc
      · exact hafter c hc
      · rw [List.mem_singleton.mp hc]
        exact hne.symm

/-- The entries of a table are the latest of their keys. -/
theorem mem_table {history : List α} {b : α} :
    b ∈ table key history ↔ IsLatest key history b := by
  induction history using List.reverseRecOn with
  | nil => simp [table, IsLatest]
  | append_singleton history a ih =>
      rw [table_concat, mem_upsert (nodup_table history), ih, isLatest_concat]

omit [DecidableEq κ] in
/-- What holds of all earlier and later entries of a history holds of an entry and the
latest one of its key. -/
theorem rel_of_isLatest {R : α → α → Prop} (hrefl : ∀ a, R a a) {history : List α}
    (h : history.Pairwise R) {a b : α} (ha : a ∈ history) (hb : IsLatest key history b)
    (hkey : key a = key b) : R a b := by
  obtain ⟨before, after, rfl, hafter⟩ := hb
  rcases List.mem_append.mp ha with hmem | hmem
  · exact (List.pairwise_append.mp h).2.2 a hmem b List.mem_cons_self
  · rcases List.mem_cons.mp hmem with rfl | hmem
    · exact hrefl a
    · exact absurd hkey (hafter a hmem)

theorem exists_isLatest {history : List α} {a : α} (ha : a ∈ history) :
    ∃ b, IsLatest key history b ∧ key a = key b := by
  have hkey : key a ∈ (table key history).map key :=
    mem_map_key_table.mpr (List.mem_map_of_mem ha)
  obtain ⟨b, hb, heq⟩ := List.mem_map.mp hkey
  exact ⟨b, mem_table.mp hb, heq.symm⟩

omit [DecidableEq κ] in
theorem IsLatest.mem {history : List α} {b : α} (h : IsLatest key history b) : b ∈ history := by
  obtain ⟨before, after, rfl, -⟩ := h
  exact List.mem_append_right _ List.mem_cons_self

/-- Tables do not get shorter. -/
theorem length_table_le (history more : List α) :
    (table key history).length ≤ (table key (history ++ more)).length := by
  have hsub : (table key history).map key ⊆ (table key (history ++ more)).map key := by
    intro k hk
    rw [mem_map_key_table, List.map_append]
    exact List.mem_append_left _ (mem_map_key_table.mp hk)
  have := (List.subperm_of_subset (nodup_table history) hsub).length_le
  rwa [List.length_map, List.length_map] at this

/-- A history without repetition is its own table. -/
theorem table_eq_self {history : List α} (h : (history.map key).Nodup) :
    table key history = history := by
  induction history using List.reverseRecOn with
  | nil => rfl
  | append_singleton history a ih =>
      rw [List.map_append] at h
      obtain ⟨hold, -, hdisj⟩ := List.nodup_append'.mp h
      have hnew : key a ∉ history.map key := fun hmem => hdisj hmem (by simp)
      rw [table_concat, ih hold]
      clear ih h hold hdisj
      induction history with
      | nil => rfl
      | cons x xs ih =>
          rw [List.map_cons, List.mem_cons, not_or] at hnew
          rw [upsert, if_neg (Ne.symm hnew.1), ih hnew.2, List.cons_append]

end PeerToPeer.Lib
