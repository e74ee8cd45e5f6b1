import Mathlib.Data.Finset.Lattice.Fold
import Mathlib.Data.Set.Basic

/-!
Owners that hold resources by name.

A name stands for a resource while the resource is open, and can stand for another one later;
the resources are numbered in the order in which they are opened. An owner holds at most one
name. It acquires a resource that is new, releases the one that it holds, passes it on to an
owner that holds none, or forgets it, so that nobody can close it any more.

A ledger is balanced when its owners and what has been forgotten account for every open
resource, once. The four moves keep it balanced, and while they do no name is ever closed that
is not open.
-/

namespace PeerToPeer.Lib

variable {ι ρ : Type*}

/-- What the owners hold, the resource that each name stands for, the names that have been
forgotten, the number of resources that have been opened, and the closings: for each the
resource that its name stood for. -/
structure Ledger (ι ρ : Type*) where
  held : ι → Option ρ
  live : ρ → Option ℕ
  lost : Set ρ
  opened : ℕ
  closings : List (Option ℕ)

namespace Ledger

/-- Nobody holds anything. -/
def empty : Ledger ι ρ := ⟨fun _ => none, fun _ => none, ∅, 0, []⟩

section Moves

variable [DecidableEq ι] [DecidableEq ρ]

/-- `x` opens a resource under the name `r`. -/
def acquire (L : Ledger ι ρ) (x : ι) (r : ρ) : Ledger ι ρ :=
  { L with
    held := Function.update L.held x (some r)
    live := Function.update L.live r (some L.opened)
    opened := L.opened + 1 }

/-- `x` closes what it holds. -/
def release (L : Ledger ι ρ) (x : ι) : Ledger ι ρ :=
  match L.held x with
  | none => L
  | some r =>
      { L with
        held := Function.update L.held x none
        live := Function.update L.live r none
        closings := L.closings ++ [L.live r] }

/-- `y` passes what it holds on to `x`. -/
def transfer (L : Ledger ι ρ) (x y : ι) : Ledger ι ρ :=
  { L with held := Function.update (Function.update L.held x (L.held y)) y none }

/-- `x` forgets what it holds. -/
def forget (L : Ledger ι ρ) (x : ι) : Ledger ι ρ :=
  { L with
    held := Function.update L.held x none
    lost := {r | r ∈ L.lost ∨ L.held x = some r} }

end Moves

/-- Every open resource is held once, or it has been forgotten; every other one has been
closed, once. -/
structure Balanced (L : Ledger ι ρ) : Prop where
  open_of_held : ∀ x r, L.held x = some r → L.live r ≠ none ∧ r ∉ L.lost
  unique : ∀ x y r, L.held x = some r → L.held y = some r → x = y
  covered : ∀ r, L.live r ≠ none → (∃ x, L.held x = some r) ∨ r ∈ L.lost
  open_of_lost : ∀ r ∈ L.lost, L.live r ≠ none
  live_inj : ∀ r r' n, L.live r = some n → L.live r' = some n → r = r'
  live_lt : ∀ r n, L.live r = some n → n < L.opened
  closed_some : none ∉ L.closings
  closed_nodup : L.closings.Nodup
  closed_lt : ∀ n, some n ∈ L.closings → n < L.opened ∧ ∀ r, L.live r ≠ some n
  accounted : ∀ n < L.opened, some n ∈ L.closings ∨ ∃ r, L.live r = some n

theorem balanced_empty : (empty : Ledger ι ρ).Balanced where
  open_of_held := nofun
  unique := nofun
  covered _ h := absurd rfl h
  open_of_lost := nofun
  live_inj := nofun
  live_lt := nofun
  closed_some := nofun
  closed_nodup := List.nodup_nil
  closed_lt := nofun
  accounted := nofun

section Preserved

variable [DecidableEq ι] [DecidableEq ρ] {L : Ledger ι ρ}

theorem Balanced.acquire (h : L.Balanced) {x : ι} {r : ρ} (hx : L.held x = none)
    (hr : L.live r = none) : (L.acquire x r).Balanced := by
  have hfree : ∀ y s, L.held y = some s → s ≠ r := by
    rintro y s hy rfl
    exact (h.open_of_held y s hy).1 hr
  constructor
  · intro y s hy
    simp only [Ledger.acquire, Function.update_apply] at hy ⊢
    split at hy
    · cases hy
      exact ⟨by simp, fun hlost => h.open_of_lost _ hlost hr⟩
    · rw [if_neg (hfree y s hy)]
      exact h.open_of_held y s hy
  · intro y z s hy hz
    simp only [Ledger.acquire, Function.update_apply] at hy hz
    split at hy <;> split at hz
    · rename_i hyx hzx
      rw [hyx, hzx]
    · cases hy
      exact absurd rfl (hfree z _ hz)
    · cases hz
      exact absurd rfl (hfree y _ hy)
    · exact h.unique y z s hy hz
  · intro s hs
    simp only [Ledger.acquire, Function.update_apply] at hs ⊢
    split at hs
    · rename_i hsr
      exact .inl ⟨x, by rw [if_pos rfl, hsr]⟩
    · rcases h.covered s hs with ⟨y, hy⟩ | hlost
      · refine .inl ⟨y, ?_⟩
        rw [if_neg, hy]
        rintro rfl
        rw [hx] at hy
        cases hy
      · exact .inr hlost
  · intro s hs
    simp only [Ledger.acquire, Function.update_apply]
    split
    · simp
    · exact h.open_of_lost s hs
  · intro s s' n hs hs'
    simp only [Ledger.acquire, Function.update_apply] at hs hs'
    split at hs <;> split at hs'
    · rename_i hsr hsr'
      rw [hsr, hsr']
    · cases hs
      exact absurd (h.live_lt s' _ hs') (lt_irrefl _)
    · cases hs'
      exact absurd (h.live_lt s _ hs) (lt_irrefl _)
    · exact h.live_inj s s' n hs hs'
  · intro s n hs
    simp only [Ledger.acquire, Function.update_apply] at hs ⊢
    split at hs
    · cases hs
      exact Nat.lt_succ_self _
    · exact Nat.lt_succ_of_lt (h.live_lt s n hs)
  · exact h.closed_some
  · exact h.closed_nodup
  · intro n hn
    obtain ⟨hlt, hlive⟩ := h.closed_lt n hn
    refine ⟨Nat.lt_succ_of_lt hlt, fun s => ?_⟩
    simp only [Ledger.acquire, Function.update_apply]
    split
    · rw [ne_eq, Option.some.injEq]
      exact hlt.ne'
    · exact hlive s
  · intro n hn
    simp only [Ledger.acquire, Function.update_apply] at hn ⊢
    rcases Nat.lt_succ_iff_lt_or_eq.mp hn with hlt | rfl
    · rcases h.accounted n hlt with hclosed | ⟨s, hs⟩
      · exact .inl hclosed
      · refine .inr ⟨s, ?_⟩
        rw [if_neg, hs]
        rintro rfl
        rw [hr] at hs
        cases hs
    · exact .inr ⟨r, if_pos rfl⟩

theorem release_of_held {x : ι} {r : ρ} (hx : L.held x = some r) :
    L.release x = { L with
      held := Function.update L.held x none
      live := Function.update L.live r none
      closings := L.closings ++ [L.live r] } := by
  rw [Ledger.release, hx]

theorem Balanced.release (h : L.Balanced) (x : ι) : (L.release x).Balanced := by
  cases hx : L.held x with
  | none =>
      rw [Ledger.release, hx]
      exact h
  | some r =>
      obtain ⟨hopen, hkept⟩ := h.open_of_held x r hx
      obtain ⟨m, hm⟩ := Option.ne_none_iff_exists'.mp hopen
      rw [release_of_held hx]
      constructor
      · intro y s hy
        simp only [Function.update_apply] at hy ⊢
        split at hy
        · cases hy
        · rename_i hyx
          rw [if_neg]
          · exact h.open_of_held y s hy
          · rintro rfl
            exact hyx (h.unique y x s hy hx)
      · intro y z s hy hz
        simp only [Function.update_apply] at hy hz
        split at hy
        · cases hy
        · split at hz
          · cases hz
          · exact h.unique y z s hy hz
      · intro s hs
        simp only [Function.update_apply] at hs ⊢
        split at hs
        · exact absurd rfl hs
        · rename_i hsr
          rcases h.covered s hs with ⟨y, hy⟩ | hlost
          · refine .inl ⟨y, ?_⟩
            rw [if_neg, hy]
            rintro rfl
            rw [hx, Option.some.injEq] at hy
            exact hsr hy.symm
          · exact .inr hlost
      · intro s hs
        simp only [Function.update_apply]
        rw [if_neg]
        · exact h.open_of_lost s hs
        · rintro rfl
          exact hkept hs
      · intro s s' n hs hs'
        simp only [Function.update_apply] at hs hs'
        split at hs
        · cases hs
        · split at hs'
          · cases hs'
          · exact h.live_inj s s' n hs hs'
      · intro s n hs
        simp only [Function.update_apply] at hs
        split at hs
        · cases hs
        · exact h.live_lt s n hs
      · rw [hm, List.mem_append, not_or]
        exact ⟨h.closed_some, by simp⟩
      · rw [hm]
        refine List.nodup_append'.mpr ⟨h.closed_nodup, List.nodup_singleton _, ?_⟩
        intro n hn hnm
        rw [List.mem_singleton] at hnm
        subst hnm
        exact (h.closed_lt m hn).2 r hm
      · intro n hn
        simp only [Function.update_apply]
        rw [hm, List.mem_append, List.mem_singleton, Option.some.injEq] at hn
        rcases hn with hn | rfl
        · refine ⟨(h.closed_lt n hn).1, fun s => ?_⟩
          split
          · simp
          · exact (h.closed_lt n hn).2 s
        · refine ⟨h.live_lt r n hm, fun s => ?_⟩
          split
          · simp
          · rename_i hsr
            exact fun hs => hsr (h.live_inj s r n hs hm)
      · intro n hn
        simp only [Function.update_apply]
        rcases h.accounted n hn with hclosed | ⟨s, hs⟩
        · exact .inl (List.mem_append_left _ hclosed)
        · by_cases hsr : s = r
          · refine .inl (List.mem_append_right _ (List.mem_singleton.mpr ?_))
            rw [← hs, hsr]
          · exact .inr ⟨s, by rw [if_neg hsr, hs]⟩

omit [DecidableEq ρ] in
/-- Who holds what after it has been passed on. -/
theorem held_transfer {x y z : ι} {r : ρ} (hx : L.held x = none) :
    (L.transfer x y).held z = some r ↔
      z = x ∧ L.held y = some r ∨ z ≠ x ∧ z ≠ y ∧ L.held z = some r := by
  simp only [Ledger.transfer, Function.update_apply]
  by_cases hzy : z = y
  · subst hzy
    rw [if_pos rfl]
    constructor
    · nofun
    · rintro (⟨rfl, hz⟩ | ⟨-, hz, -⟩)
      · rw [hx] at hz
        cases hz
      · exact absurd rfl hz
  · rw [if_neg hzy]
    by_cases hzx : z = x
    · rw [if_pos hzx]
      exact ⟨fun h => .inl ⟨hzx, h⟩, fun h => h.elim And.right fun h => absurd hzx h.1⟩
    · rw [if_neg hzx]
      exact ⟨fun h => .inr ⟨hzx, hzy, h⟩, fun h => h.elim (fun h => absurd h.1 hzx) (·.2.2)⟩

omit [DecidableEq ρ] in
theorem Balanced.transfer (h : L.Balanced) {x : ι} (hx : L.held x = none) (y : ι) :
    (L.transfer x y).Balanced where
  open_of_held z r hz := by
    obtain ⟨-, hy⟩ | ⟨-, -, hz⟩ := (held_transfer hx).mp hz
    · exact h.open_of_held y r hy
    · exact h.open_of_held z r hz
  unique z w r hz hw := by
    obtain ⟨rfl, hy⟩ | ⟨-, hzy, hz⟩ := (held_transfer hx).mp hz
    · obtain ⟨rfl, -⟩ | ⟨-, hwy, hw⟩ := (held_transfer hx).mp hw
      · rfl
      · exact absurd (h.unique w y r hw hy) hwy
    · obtain ⟨-, hy⟩ | ⟨-, -, hw⟩ := (held_transfer hx).mp hw
      · exact absurd (h.unique z y r hz hy) hzy
      · exact h.unique z w r hz hw
  covered r hr := by
    rcases h.covered r hr with ⟨z, hz⟩ | hlost
    · left
      by_cases hzy : z = y
      · exact ⟨x, (held_transfer hx).mpr (.inl ⟨rfl, hzy ▸ hz⟩)⟩
      · refine ⟨z, (held_transfer hx).mpr (.inr ⟨?_, hzy, hz⟩)⟩
        rintro rfl
        rw [hx] at hz
        cases hz
    · exact .inr hlost
  open_of_lost := h.open_of_lost
  live_inj := h.live_inj
  live_lt := h.live_lt
  closed_some := h.closed_some
  closed_nodup := h.closed_nodup
  closed_lt := h.closed_lt
  accounted := h.accounted

omit [DecidableEq ρ] in
theorem Balanced.forget (h : L.Balanced) (x : ι) : (L.forget x).Balanced where
  open_of_held z r hz := by
    simp only [Ledger.forget, Function.update_apply] at hz ⊢
    split at hz
    · cases hz
    · rename_i hzx
      obtain ⟨hopen, hkept⟩ := h.open_of_held z r hz
      refine ⟨hopen, ?_⟩
      rintro (hlost | hx)
      · exact hkept hlost
      · exact hzx (h.unique z x r hz hx)
  unique z w r hz hw := by
    simp only [Ledger.forget, Function.update_apply] at hz hw
    split at hz
    · cases hz
    · split at hw
      · cases hw
      · exact h.unique z w r hz hw
  covered r hr := by
    rcases h.covered r hr with ⟨z, hz⟩ | hlost
    · by_cases hzx : z = x
      · exact .inr (.inr (hzx ▸ hz))
      · refine .inl ⟨z, ?_⟩
        simp only [Ledger.forget, Function.update_apply, if_neg hzx]
        exact hz
    · exact .inr (.inl hlost)
  open_of_lost r hr := by
    rcases hr with hlost | hx
    · exact h.open_of_lost r hlost
    · exact (h.open_of_held x r hx).1
  live_inj := h.live_inj
  live_lt := h.live_lt
  closed_some := h.closed_some
  closed_nodup := h.closed_nodup
  closed_lt := h.closed_lt
  accounted := h.accounted

end Preserved

end Ledger

end PeerToPeer.Lib
