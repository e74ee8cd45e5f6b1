import PeerToPeer.Transfer.Registry

/-!
`transfer_registry` with the times of its entries, and `prune`.

`prune` may be called at any time and with any limit. It drops a transfer that has been open
for longer than the limit, whatever has come of it; chunks of it that come later open
a new row, which never gets full. Every other transfer goes on as if there were no `prune`.
-/

namespace PeerToPeer.Transfer

open Lib Crypto Protocol

/-- `transfer_registry::entry`; `created` is a time of `steady_clock` in nanoseconds. -/
structure Entry where
  row : ChunkReassembler
  created : ℤ

/-- `transfer_registry`. -/
def TimedRegistry := UInt32 → Option Entry

namespace TimedRegistry

def empty : TimedRegistry := fun _ => none

/-- The rows alone. -/
def rows (reg : TimedRegistry) : TransferRegistry := fun d => (reg d).map Entry.row

/-- `emplace` at the time `now`: an entry that is there stays as it is. -/
def emplace (reg : TimedRegistry) (now : ℤ) (transferId : UInt32) (total : UInt16) : Entry :=
  (reg transferId).getD ⟨.new total, now⟩

/-- `ingest` at the time `now`. -/
def ingest (reg : TimedRegistry) (now : ℤ) (ci : ChunkInfo) :
    Option (List UInt8) × TimedRegistry :=
  let entry := reg.emplace now ci.transferId ci.total
  match entry.row.add ci.index ci.data with
  | (some out, _) => (some out, Function.update reg ci.transferId none)
  | (none, row) => (none, Function.update reg ci.transferId (some { entry with row := row }))

/-- `prune` at the time `now`; the limit is in seconds. -/
def prune (reg : TimedRegistry) (ttl now : ℤ) : TimedRegistry := fun d =>
  (reg d).filter fun e => !decide (now - e.created > ttl * 10 ^ 9)

theorem emplace_row (reg : TimedRegistry) (now : ℤ) (d : UInt32) (total : UInt16) :
    (reg.emplace now d total).row = reg.rows.entry d total := by
  rw [emplace, TransferRegistry.entry, rows]
  rcases reg d with _ | e <;> rfl

section Ingest

variable {reg : TimedRegistry} {now : ℤ} {ci : ChunkInfo}

theorem ingest_eq (reg : TimedRegistry) (now : ℤ) (ci : ChunkInfo) :
    reg.ingest now ci =
      let added := (reg.rows.entry ci.transferId ci.total).add ci.index ci.data
      (added.1, Function.update reg ci.transferId
        (if added.1.isSome then none
          else some ⟨added.2, (reg.emplace now ci.transferId ci.total).created⟩)) := by
  rw [ingest, ← emplace_row reg now]
  rcases ChunkReassembler.add _ ci.index ci.data with ⟨_ | out, r⟩ <;> rfl

/-- The times make no difference to what `ingest` returns. -/
theorem ingest_fst : (reg.ingest now ci).1 = (reg.rows.ingest ci).1 := by
  rw [ingest_eq, TransferRegistry.ingest_eq]

theorem ingest_of_ne {d : UInt32} (hd : d ≠ ci.transferId) : (reg.ingest now ci).2 d = reg d := by
  rw [ingest_eq]
  exact Function.update_of_ne hd _ _

/-- The entry after a chunk that does not complete its transfer. -/
theorem ingest_self_of_none (h : (reg.ingest now ci).1 = none) :
    (reg.ingest now ci).2 ci.transferId =
      some ⟨((reg.rows.entry ci.transferId ci.total).add ci.index ci.data).2,
        (reg.emplace now ci.transferId ci.total).created⟩ := by
  rw [ingest_eq] at h ⊢
  simp only at h ⊢
  rw [h]
  exact Function.update_self _ _ _

/-- The entry after a chunk that does. -/
theorem ingest_self_of_some (h : (reg.ingest now ci).1.isSome) :
    (reg.ingest now ci).2 ci.transferId = none := by
  rw [ingest_eq] at h ⊢
  simp only at h ⊢
  rw [if_pos h]
  exact Function.update_self _ _ _

end Ingest

end TimedRegistry

/-! ### Runs -/

section Family

variable {ι : Type} {T : ι → ChunkedData}

/-- A call of `ingest` with a chunk, or of `prune`. -/
inductive TimedCall (T : ι → ChunkedData) where
  | ingest (now : ℤ) (x : Ref T)
  | prune (ttl now : ℤ)

def TimedRegistry.perform (reg : TimedRegistry) : TimedCall T → TimedRegistry
  | .ingest now x => (reg.ingest now (chunkOf T x)).2
  | .prune ttl now => reg.prune ttl now

/-- The registry after some calls. -/
def TimedRegistry.performAll (calls : List (TimedCall T)) : TimedRegistry :=
  calls.foldl TimedRegistry.perform .empty

/-- The chunk of a call, with its time. -/
def TimedCall.arrival : TimedCall T → Option (ℤ × Ref T)
  | .ingest now x => some (now, x)
  | .prune .. => none

/-- The chunks that came. -/
def came (calls : List (TimedCall T)) : List (Ref T) :=
  (calls.filterMap TimedCall.arrival).map Prod.snd

@[simp] theorem came_ingest (calls : List (TimedCall T)) (now : ℤ) (x : Ref T) :
    came (calls ++ [.ingest now x]) = came calls ++ [x] := by
  simp [came, TimedCall.arrival]

@[simp] theorem came_prune (calls : List (TimedCall T)) (ttl now : ℤ) :
    came (calls ++ [.prune ttl now]) = came calls := by
  simp [came, TimedCall.arrival]

/-- Where a call of `prune` stands in a list with one more call. -/
theorem split_concat {calls before after : List (TimedCall T)} {c d : TimedCall T}
    (h : calls ++ [c] = before ++ d :: after) :
    (before = calls ∧ d = c) ∨ ∃ after', calls = before ++ d :: after' := by
  rcases List.eq_nil_or_concat' after with rfl | ⟨after', e, rfl⟩
  · obtain ⟨rfl, hlast⟩ := List.append_inj' h rfl
    exact .inl ⟨rfl, (List.singleton_inj.mp hlast).symm⟩
  · rw [← List.cons_append, ← List.append_assoc] at h
    exact .inr ⟨after', List.append_inj_left' h rfl⟩

variable [DecidableEq ι]

/-- When the first chunk of a transfer came. -/
def opened (k : ι) (calls : List (TimedCall T)) : Option ℤ :=
  ((calls.filterMap TimedCall.arrival).find? (·.2.1 = k)).map Prod.fst

/-- A call of `prune` came later after the first chunk of the transfer than its limit. -/
def Lapsed (k : ι) (calls : List (TimedCall T)) : Prop :=
  ∃ before ttl now after t, calls = before ++ .prune ttl now :: after ∧
    opened k before = some t ∧ now - t > ttl * 10 ^ 9

section Calls

variable {calls : List (TimedCall T)} {now ttl : ℤ} {x : Ref T} {k : ι}

theorem opened_ingest_self :
    opened x.1 (calls ++ [.ingest now x]) = some ((opened x.1 calls).getD now) := by
  simp only [opened, List.filterMap_append, List.find?_append]
  rcases List.find? _ (calls.filterMap TimedCall.arrival) with _ | a <;>
    simp [TimedCall.arrival]

theorem opened_ingest_of_ne (h : x.1 ≠ k) :
    opened k (calls ++ [.ingest now x]) = opened k calls := by
  simp only [opened, List.filterMap_append, List.find?_append]
  rcases List.find? _ (calls.filterMap TimedCall.arrival) with _ | a <;>
    simp [TimedCall.arrival, h]

@[simp] theorem opened_prune : opened k (calls ++ [.prune ttl now]) = opened k calls := by
  simp [opened, TimedCall.arrival]

theorem exists_seen_of_opened {before after : List (TimedCall T)} {t : ℤ}
    (h : opened k before = some t) : ∃ j, j ∈ seen (came (before ++ after)) k := by
  simp only [opened, Option.map_eq_some_iff] at h
  obtain ⟨⟨t, k', j⟩, hfind, -⟩ := h
  have hk : k' = k := by simpa using List.find?_some hfind
  subst hk
  refine ⟨j, ?_⟩
  rw [seen, Set.mem_ofPred_eq, came, List.filterMap_append, List.map_append]
  exact List.mem_append_left _ (List.mem_map_of_mem (List.mem_of_find?_eq_some hfind))

theorem not_lapsed_nil : ¬Lapsed k ([] : List (TimedCall T)) := by
  rintro ⟨before, ttl, now, after, t, heq, -⟩
  simp at heq

theorem Lapsed.exists_seen (h : Lapsed k calls) : ∃ j, j ∈ seen (came calls) k := by
  obtain ⟨before, ttl, now, after, t, rfl, hopened, -⟩ := h
  exact exists_seen_of_opened hopened

theorem Lapsed.concat (h : Lapsed k calls) (c : TimedCall T) : Lapsed k (calls ++ [c]) := by
  obtain ⟨before, ttl, now, after, t, rfl, h⟩ := h
  exact ⟨before, ttl, now, after ++ [c], t, by simp, h⟩

/-- Only a call of `prune` makes a transfer lapse. -/
theorem lapsed_ingest_iff : Lapsed k (calls ++ [.ingest now x]) ↔ Lapsed k calls := by
  refine ⟨?_, fun h => h.concat _⟩
  rintro ⟨before, ttl, now', after, t, heq, h⟩
  rcases split_concat heq with ⟨-, hlast⟩ | ⟨after', rfl⟩
  · cases hlast
  · exact ⟨before, ttl, now', after', t, rfl, h⟩

theorem lapsed_prune_iff :
    Lapsed k (calls ++ [.prune ttl now]) ↔
      Lapsed k calls ∨ ∃ t, opened k calls = some t ∧ now - t > ttl * 10 ^ 9 := by
  constructor
  · rintro ⟨before, ttl', now', after, t, heq, h⟩
    rcases split_concat heq with ⟨rfl, hlast⟩ | ⟨after', rfl⟩
    · cases hlast
      exact .inr ⟨t, h⟩
    · exact .inl ⟨before, ttl', now', after', t, rfl, h⟩
  · rintro (h | ⟨t, h⟩)
    · exact h.concat _
    · exact ⟨calls, ttl, now, [], t, rfl, h⟩

end Calls

/-! ### One transfer -/

/-- The entry of a transfer after some calls. -/
inductive Stage (k : ι) (calls : List (TimedCall T)) : Option Entry → Prop
  | waiting (hseen : seen (came calls) k = ∅) (hlapsed : ¬Lapsed k calls) : Stage k calls none
  | whole {row : ChunkReassembler} {t : ℤ} (hopened : opened k calls = some t)
      (hlapsed : ¬Lapsed k calls) (hrow : Row (T k) (seen (came calls) k) row) :
      Stage k calls (some ⟨row, t⟩)
  | closed (hseen : seen (came calls) k = Set.univ) (hlapsed : ¬Lapsed k calls) :
      Stage k calls none
  | dropped (hlapsed : Lapsed k calls) : Stage k calls none
  | broken {e : Entry} {S : Set (T k).Index} (hlapsed : Lapsed k calls) (hrow : Row (T k) S e.row)
      (hsub : S ⊆ seen (came calls) k) (hne : S ≠ seen (came calls) k) : Stage k calls (some e)

theorem opened_eq_none_of_seen {k : ι} {calls : List (TimedCall T)}
    (h : seen (came calls) k = ∅) : opened k calls = none := by
  rcases hopened : opened k calls with _ | t
  · rfl
  · obtain ⟨j, hj⟩ : ∃ j, j ∈ seen (came (calls ++ [])) k := exists_seen_of_opened hopened
    rw [List.append_nil, h] at hj
    cases hj

namespace Stage

variable {calls : List (TimedCall T)} {k : ι} {reg : TimedRegistry}

/-- The row that the next chunk of the transfer goes to. -/
theorem row_next (h : Stage k calls (reg (T k).transferId)) {i : (T k).Index}
    (hi : i ∉ seen (came calls) k) :
    ∃ S, Row (T k) S (reg.rows.entry (T k).transferId (T k).total) ∧ S ⊆ seen (came calls) k ∧
      (¬Lapsed k calls → S = seen (came calls) k) ∧
      (Lapsed k calls → S ≠ seen (came calls) k) := by
  rw [TransferRegistry.entry, TimedRegistry.rows]
  generalize reg (T k).transferId = e at h
  cases h with
  | waiting hseen hlapsed =>
      exact ⟨∅, Row.new (T k), Set.empty_subset _, fun _ => hseen.symm, fun h => absurd h hlapsed⟩
  | whole hopened hlapsed hrow =>
      exact ⟨_, hrow, subset_rfl, fun _ => rfl, fun h => absurd h hlapsed⟩
  | closed hseen =>
      rw [hseen] at hi
      exact absurd (Set.mem_univ i) hi
  | dropped hlapsed =>
      refine ⟨∅, Row.new (T k), Set.empty_subset _, fun h => absurd hlapsed h, fun _ hempty => ?_⟩
      obtain ⟨j, hj⟩ := hlapsed.exists_seen
      rw [← hempty] at hj
      cases hj
  | broken hlapsed hrow hsub hne =>
      exact ⟨_, hrow, hsub, fun h => absurd hlapsed h, fun _ => hne⟩

/-- The time that the next chunk finds in the entry. -/
theorem created_next (h : Stage k calls (reg (T k).transferId)) (hlapsed : ¬Lapsed k calls)
    {i : (T k).Index} (hi : i ∉ seen (came calls) k) (now : ℤ) :
    (reg.emplace now (T k).transferId (T k).total).created = (opened k calls).getD now := by
  rw [TimedRegistry.emplace]
  generalize reg (T k).transferId = e at h
  cases h with
  | waiting hseen =>
      rw [opened_eq_none_of_seen hseen]
      rfl
  | whole hopened =>
      rw [hopened]
      rfl
  | closed hseen =>
      rw [hseen] at hi
      exact absurd (Set.mem_univ i) hi
  | dropped h => exact absurd h hlapsed
  | broken h => exact absurd h hlapsed

section Ingest

variable {x : Ref T} {now : ℤ}

open scoped Classical in
/-- The payload comes out with the last missing chunk, unless the transfer has lapsed. -/
theorem ingest_eq (h : Stage x.1 calls (reg (T x.1).transferId))
    (hnew : x.2 ∉ seen (came calls) x.1) :
    (reg.ingest now (chunkOf T x)).1 =
      if insert x.2 (seen (came calls) x.1) = Set.univ ∧ ¬Lapsed x.1 calls
      then some (T x.1).payload else none := by
  obtain ⟨S, hrow, hsub, hwhole, hbroken⟩ := h.row_next hnew
  obtain ⟨-, hout⟩ := hrow.add_of_notMem (fun hi => hnew (hsub hi))
  rw [TimedRegistry.ingest_fst, TransferRegistry.ingest_eq]
  refine hout.trans ?_
  by_cases hlapsed : Lapsed x.1 calls
  · have hmissing : insert x.2 S ≠ Set.univ := by
      intro hfull
      refine hbroken hlapsed (hsub.antisymm fun j hj => ?_)
      rcases (hfull ▸ Set.mem_univ j : j ∈ insert x.2 S) with rfl | hjS
      · exact absurd hj hnew
      · exact hjS
    rw [if_neg hmissing, if_neg (fun h => h.2 hlapsed)]
  · rw [hwhole hlapsed]
    simp only [hlapsed, not_false_eq_true, and_true]

theorem ingest_self (h : Stage x.1 calls (reg (T x.1).transferId))
    (hnew : x.2 ∉ seen (came calls) x.1) :
    Stage x.1 (calls ++ [.ingest now x])
      ((reg.ingest now (chunkOf T x)).2 (T x.1).transferId) := by
  classical
  have hseen : seen (came (calls ++ [.ingest now x])) x.1 =
      insert x.2 (seen (came calls) x.1) := by
    rw [came_ingest, seen_concat_self]
  have hout : (reg.ingest now (chunkOf T x)).1 = _ := h.ingest_eq hnew
  change Stage x.1 _ ((reg.ingest now (chunkOf T x)).2 (chunkOf T x).transferId)
  split at hout
  case isTrue hfull =>
    rw [TimedRegistry.ingest_self_of_some (by rw [hout]; rfl)]
    exact .closed (hseen.trans hfull.1) (mt lapsed_ingest_iff.mp hfull.2)
  case isFalse hopen =>
    obtain ⟨S, hrow, hsub, hwhole, hbroken⟩ := h.row_next hnew
    obtain ⟨hadd, -⟩ := hrow.add_of_notMem (fun hi => hnew (hsub hi))
    rw [TimedRegistry.ingest_self_of_none hout]
    by_cases hlapsed : Lapsed x.1 calls
    · refine .broken (lapsed_ingest_iff.mpr hlapsed) hadd ?_ ?_
      · rw [hseen]
        exact Set.insert_subset_insert hsub
      · rw [hseen]
        intro heq
        exact hbroken hlapsed (hsub.antisymm ((Set.insert_subset_insert_iff hnew).mp heq.ge))
    · refine .whole ?_ (mt lapsed_ingest_iff.mp hlapsed) ?_
      · rw [opened_ingest_self]
        exact congrArg some (h.created_next hlapsed hnew now).symm
      · rw [hseen, ← hwhole hlapsed]
        exact hadd

theorem ingest_other {e : Option Entry} (h : Stage k calls e) (hk : k ≠ x.1) :
    Stage k (calls ++ [.ingest now x]) e := by
  have hseen : seen (came (calls ++ [.ingest now x])) k = seen (came calls) k := by
    rw [came_ingest, seen_concat_of_ne hk]
  have hopened : opened k (calls ++ [.ingest now x]) = opened k calls :=
    opened_ingest_of_ne hk.symm
  cases h with
  | waiting hempty hlapsed => exact .waiting (hseen.trans hempty) (mt lapsed_ingest_iff.mp hlapsed)
  | whole ht hlapsed hrow =>
      exact .whole (hopened.trans ht) (mt lapsed_ingest_iff.mp hlapsed) (hseen ▸ hrow)
  | closed hfull hlapsed => exact .closed (hseen.trans hfull) (mt lapsed_ingest_iff.mp hlapsed)
  | dropped hlapsed => exact .dropped (lapsed_ingest_iff.mpr hlapsed)
  | broken hlapsed hrow hsub hne =>
      exact .broken (lapsed_ingest_iff.mpr hlapsed) hrow (hseen ▸ hsub) (hseen ▸ hne)

end Ingest

/-- `prune` drops a transfer exactly when it makes it lapse. -/
theorem prune (h : Stage k calls (reg (T k).transferId)) (ttl now : ℤ) :
    Stage k (calls ++ [.prune ttl now]) (reg.prune ttl now (T k).transferId) := by
  have hiff : Lapsed k (calls ++ [.prune ttl now]) ↔ _ := lapsed_prune_iff
  rw [TimedRegistry.prune]
  generalize reg (T k).transferId = e at h
  cases h with
  | waiting hempty hlapsed =>
      refine .waiting (by rwa [came_prune]) fun h => ?_
      rcases hiff.mp h with h | ⟨t, ht, -⟩
      · exact hlapsed h
      · rw [opened_eq_none_of_seen hempty] at ht
        cases ht
  | @whole row t ht hlapsed hrow =>
      by_cases hlate : now - t > ttl * 10 ^ 9
      · rw [Option.filter_some_neg (by simpa using hlate)]
        exact .dropped (hiff.mpr (.inr ⟨t, ht, hlate⟩))
      · rw [Option.filter_some_pos (by simpa using hlate)]
        refine .whole (by rwa [opened_prune]) (fun h => ?_) (by rwa [came_prune])
        rcases hiff.mp h with h | ⟨t', ht', hlate'⟩
        · exact hlapsed h
        · rw [ht, Option.some.injEq] at ht'
          exact hlate (ht' ▸ hlate')
  | closed hfull hlapsed =>
      by_cases hlate : Lapsed k (calls ++ [.prune ttl now])
      · exact .dropped hlate
      · exact .closed (by rwa [came_prune]) hlate
  | dropped hlapsed => exact .dropped (hlapsed.concat _)
  | @broken e S hlapsed hrow hsub hne =>
      rcases hkept : Option.filter _ (some e) with _ | e'
      · exact .dropped (hlapsed.concat _)
      · obtain rfl : e = e' := Option.some.inj (Option.filter_eq_some_iff.mp hkept).1
        exact .broken (hlapsed.concat _) hrow (by rwa [came_prune]) (by rwa [came_prune])

end Stage

/-- Every transfer stands somewhere, after any calls. -/
theorem stage_performAll (hid : Function.Injective fun k => (T k).transferId)
    {calls : List (TimedCall T)} (hnodup : (came calls).Nodup) (k : ι) :
    Stage k calls (TimedRegistry.performAll calls (T k).transferId) := by
  induction calls using List.reverseRecOn with
  | nil => exact .waiting (by ext j; simp [seen, came]) not_lapsed_nil
  | append_singleton calls c ih =>
      rw [TimedRegistry.performAll, List.foldl_append]
      cases c with
      | prune ttl now =>
          rw [came_prune] at hnodup
          exact (ih hnodup).prune ttl now
      | ingest now x =>
          rw [came_ingest] at hnodup
          have hstage := ih (List.nodup_append.mp hnodup).1
          by_cases hk : k = x.1
          · subst hk
            exact hstage.ingest_self (notMem_seen hnodup)
          · change Stage k _ ((TimedRegistry.ingest _ now (chunkOf T x)).2 (T k).transferId)
            rw [TimedRegistry.ingest_of_ne (fun h => hk (hid h))]
            exact hstage.ingest_other hk

open scoped Classical in
/-- After any calls of `ingest` and `prune`, at any times and with any limits, a chunk
completes its transfer if all others have come and no `prune` has come later
after the first of them than its limit; otherwise nothing comes out. -/
theorem ingest_pruned (hid : Function.Injective fun k => (T k).transferId)
    {calls : List (TimedCall T)} {x : Ref T} (hnodup : (came calls ++ [x]).Nodup) (now : ℤ) :
    ((TimedRegistry.performAll calls).ingest now (chunkOf T x)).1 =
      if (∀ j ≠ x.2, ⟨x.1, j⟩ ∈ came calls) ∧ ¬Lapsed x.1 calls
      then some (T x.1).payload else none := by
  have hstage := stage_performAll hid (List.nodup_append.mp hnodup).1 x.1
  rw [hstage.ingest_eq (notMem_seen hnodup)]
  have hfull : insert x.2 (seen (came calls) x.1) = Set.univ ↔
      ∀ j ≠ x.2, (⟨x.1, j⟩ : Ref T) ∈ came calls := by
    rw [Set.eq_univ_iff_forall]
    exact forall_congr' fun j => or_iff_not_imp_left
  simp only [hfull]

end Family

/-- Two transfers of two blocks. -/
def slowAndFast : Bool → ChunkedData
  | false => ⟨0x51, [[0x73, 0x6c], [0x6f, 0x77]], by decide, by decide⟩
  | true => ⟨0x52, [[0x66, 0x61], [0x73, 0x74]], by decide, by decide⟩

/-- The first chunk of each, 31 seconds apart, and a `prune` 61 seconds after the first. -/
def slowAndFastCalls : List (TimedCall slowAndFast) :=
  [.ingest 0 ⟨false, 0, by decide⟩] ++ [.ingest (30 * 10 ^ 9) ⟨true, 0, by decide⟩] ++
    [.prune 60 (61 * 10 ^ 9)]

theorem ingest_pruned_slowAndFast :
    ((TimedRegistry.performAll slowAndFastCalls).ingest (62 * 10 ^ 9)
        ⟨0x51, 1, 2, [0x6f, 0x77]⟩).1 = none ∧
      ((TimedRegistry.performAll slowAndFastCalls).ingest (62 * 10 ^ 9)
        ⟨0x52, 1, 2, [0x73, 0x74]⟩).1 = some [0x66, 0x61, 0x73, 0x74] := by
  have hslow : Lapsed false slowAndFastCalls :=
    lapsed_prune_iff.mpr (.inr ⟨0, by decide, by decide⟩)
  have hfast : ¬Lapsed true slowAndFastCalls := by
    rw [slowAndFastCalls, lapsed_prune_iff, lapsed_ingest_iff, ← List.nil_append [_],
      lapsed_ingest_iff]
    rintro (h | ⟨t, ht, hlate⟩)
    · exact not_lapsed_nil h
    · obtain rfl : 30 * 10 ^ 9 = t := Option.some.inj ht
      exact absurd hlate (by decide)
  constructor
  · refine (ingest_pruned (x := ⟨false, 1, by decide⟩) (by decide) (by decide) _).trans ?_
    exact if_neg fun h => h.2 hslow
  · refine (ingest_pruned (x := ⟨true, 1, by decide⟩) (by decide) (by decide) _).trans ?_
    exact if_pos ⟨by decide, hfast⟩

end PeerToPeer.Transfer
