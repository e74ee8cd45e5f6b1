import PeerToPeer.Lib.Ownership
import Mathlib.Data.Int.Order.Basic

/-!
Who closes the sockets.

A `tcp_connection` owns a descriptor. It can be moved and not be copied, and closes its
descriptor when it is destroyed or assigned to. The system gives out descriptors that are not
in use, so a number that has been closed comes back as another socket: closing it once more, or
reading from it, would hit a stranger.
-/

namespace PeerToPeer.Net.Descriptors

open Lib

/-! ### Descriptors -/

/-- The descriptor table of the process: the sockets behind the descriptors that are open, by
their numbers, and the number of the next socket. -/
structure Os where
  table : ℤ → Option ℕ
  next : ℕ

/-- What `socket` and `accept` can return: an error, or a descriptor that is not in use. -/
def Os.MayReturn (os : Os) (fd : ℤ) : Prop := fd < 0 ∨ os.table fd = none

instance (os : Os) (fd : ℤ) : Decidable (os.MayReturn fd) :=
  inferInstanceAs (Decidable (_ ∨ _))

/-- A socket is opened. -/
def Os.opened (os : Os) (fd : ℤ) : Os := ⟨Function.update os.table fd (some os.next), os.next + 1⟩

/-- `::close`. -/
def Os.close (os : Os) (fd : ℤ) : Os := { os with table := Function.update os.table fd none }

/-- What can be seen of the calls. -/
inductive Event where
  | opened (fd : ℤ) (socket : ℕ)
  /-- `::close`, and the socket that the descriptor stood for. -/
  | closed (fd : ℤ) (socket : Option ℕ)
  | threw
  /-- The constructor of `tcp_server` throws. Its destructor does not run. -/
  | abandoned (fd : ℤ)
  deriving DecidableEq

/-- `if (fd_ >= 0) ::close(fd_)`. -/
def closeValid (os : Os) (fd : ℤ) : Os × List Event :=
  if 0 ≤ fd then (os.close fd, [.closed fd (os.table fd)]) else (os, [])

/-! ### Objects -/

/-- `tcp_connection`. -/
structure Connection where
  fd : ℤ
  peerIp : List UInt8

/-- The objects that hold a descriptor. -/
inductive Object where
  | connection (c : Connection)
  | server (fd : ℤ)

def Object.fd : Object → ℤ
  | .connection c => c.fd
  | .server fd => fd

/-- The descriptors, and the live objects by their addresses. -/
structure State where
  os : Os
  objects : ℕ → Option Object

/-- What happens to the objects. The outcomes of the system calls are given with the action, and
so is what a string holds after it has been moved from. -/
inductive Action where
  /-- `tcp_connection()`. -/
  | construct (x : ℕ)
  | moveConstruct (x y : ℕ) (left : List UInt8)
  | moveAssign (x y : ℕ) (left : List UInt8)
  | destroy (x : ℕ)
  /-- `tcp_server(port)`: `socket`, `bind` and `listen`. -/
  | listen (x : ℕ) (sock : ℤ) (bound listening : Bool)
  /-- `accept_one` of the server `s`. -/
  | acceptOne (s x : ℕ) (cfd : ℤ) (ip : List UInt8)
  /-- `tcp_connect`: `getaddrinfo`, `socket` and `connect`. -/
  | tcpConnect (x : ℕ) (resolved : Bool) (sock : ℤ) (connected : Bool) (ip : List UInt8)

/-- `y` is moved from. -/
def State.moved (st : State) (os : Os) (x y : ℕ) (o : Connection) (left : List UInt8) : State :=
  ⟨os, Function.update (Function.update st.objects x (some (.connection o))) y
    (some (.connection ⟨-1, left⟩))⟩

/-- One step. There is none when the addresses or the results of the system do not fit. -/
def step (st : State) : Action → Option (State × List Event)
  | .construct x =>
      match st.objects x with
      | some _ => none
      | none =>
          some (⟨st.os, Function.update st.objects x (some (.connection ⟨-1, []⟩))⟩, [])
  | .moveConstruct x y left =>
      match st.objects x, st.objects y with
      | none, some (.connection o) => some (st.moved st.os x y o left, [])
      | _, _ => none
  | .moveAssign x y left =>
      match st.objects x, st.objects y with
      | some (.connection this), some (.connection o) =>
          if x = y then some (st, []) else
          let (os, evs) := closeValid st.os this.fd
          some (st.moved os x y o left, evs)
      | _, _ => none
  | .destroy x =>
      match st.objects x with
      | none => none
      | some o =>
          let (os, evs) := closeValid st.os o.fd
          some (⟨os, Function.update st.objects x none⟩, evs)
  | .listen x sock bound listening =>
      match st.objects x with
      | some _ => none
      | none =>
          if ¬st.os.MayReturn sock then none else
          if sock < 0 then some (st, [.threw]) else
          let evs := [Event.opened sock st.os.next]
          if bound && listening then
            some (⟨st.os.opened sock, Function.update st.objects x (some (.server sock))⟩, evs)
          else some (⟨st.os.opened sock, st.objects⟩, evs ++ [.abandoned sock])
  | .acceptOne s x cfd ip =>
      match st.objects s, st.objects x with
      | some (.server _), none =>
          if ¬st.os.MayReturn cfd then none else
          if cfd < 0 then some (st, []) else
          some (⟨st.os.opened cfd,
            Function.update st.objects x (some (.connection ⟨cfd, ip⟩))⟩,
            [.opened cfd st.os.next])
      | _, _ => none
  | .tcpConnect x resolved sock connected ip =>
      match st.objects x with
      | some _ => none
      | none =>
          if ¬resolved then some (st, [.threw]) else
          if ¬st.os.MayReturn sock then none else
          if sock < 0 then some (st, [.threw]) else
          let os := st.os.opened sock
          let evs := [Event.opened sock st.os.next]
          if ¬connected then
            some (⟨os.close sock, st.objects⟩, evs ++ [.closed sock (os.table sock), .threw])
          else
            some (⟨os, Function.update st.objects x (some (.connection ⟨sock, ip⟩))⟩, evs)

/-- What a step comes to. Different actions can come to the same. -/
inductive Outcome (st : State) : State → List Event → Prop
  | quiet : Outcome st st []
  | threw : Outcome st st [.threw]
  | constructed {x : ℕ} (hx : st.objects x = none) :
      Outcome st ⟨st.os, Function.update st.objects x (some (.connection ⟨-1, []⟩))⟩ []
  | moved {x y : ℕ} {o : Connection} (hx : st.objects x = none)
      (hy : st.objects y = some (.connection o)) (left : List UInt8) :
      Outcome st (st.moved st.os x y o left) []
  | assigned {x y : ℕ} {this o : Connection} (hx : st.objects x = some (.connection this))
      (hy : st.objects y = some (.connection o)) (hxy : x ≠ y) (left : List UInt8) :
      Outcome st (st.moved (closeValid st.os this.fd).1 x y o left) (closeValid st.os this.fd).2
  | destroyed {x : ℕ} {o : Object} (hx : st.objects x = some o) :
      Outcome st ⟨(closeValid st.os o.fd).1, Function.update st.objects x none⟩
        (closeValid st.os o.fd).2
  | acquired {x : ℕ} (hx : st.objects x = none) {o : Object} (hos : st.os.MayReturn o.fd)
      (hfd : ¬o.fd < 0) :
      Outcome st ⟨st.os.opened o.fd, Function.update st.objects x (some o)⟩
        [.opened o.fd st.os.next]
  | abandoned {x : ℕ} (hx : st.objects x = none) {fd : ℤ} (hos : st.os.MayReturn fd)
      (hfd : ¬fd < 0) :
      Outcome st ⟨st.os.opened fd, st.objects⟩ [.opened fd st.os.next, .abandoned fd]
  | dismissed {x : ℕ} (hx : st.objects x = none) {fd : ℤ} (hos : st.os.MayReturn fd)
      (hfd : ¬fd < 0) :
      Outcome st ⟨(st.os.opened fd).close fd, st.objects⟩
        [.opened fd st.os.next, .closed fd ((st.os.opened fd).table fd), .threw]

theorem outcome_of_step {st st' : State} {a : Action} {evs : List Event}
    (hs : step st a = some (st', evs)) : Outcome st st' evs := by
  cases a with
  | construct x =>
      simp only [step] at hs
      split at hs <;> cases hs
      exact .constructed ‹_›
  | moveConstruct x y left =>
      simp only [step] at hs
      split at hs <;> cases hs
      exact .moved ‹_› ‹_› left
  | moveAssign x y left =>
      simp only [step] at hs
      split at hs
      · rename_i this o hx hy
        split at hs
        · cases hs
          exact .quiet
        · rename_i hxy
          cases hs
          exact .assigned hx hy hxy left
      · cases hs
  | destroy x =>
      simp only [step] at hs
      split at hs <;> cases hs
      exact .destroyed ‹_›
  | listen x sock bound listening =>
      simp only [step] at hs
      split at hs
      · cases hs
      · rename_i hx
        split at hs
        · cases hs
        · rename_i hos
          rw [not_not] at hos
          split at hs
          · cases hs
            exact .threw
          · rename_i hfd
            split at hs
            · cases hs
              exact .acquired (o := .server sock) hx hos hfd
            · cases hs
              exact .abandoned hx hos hfd
  | acceptOne s x cfd ip =>
      simp only [step] at hs
      split at hs
      · rename_i server hx
        split at hs
        · cases hs
        · rename_i hos
          rw [not_not] at hos
          split at hs
          · cases hs
            exact .quiet
          · rename_i hfd
            cases hs
            exact .acquired (o := .connection ⟨cfd, ip⟩) hx hos hfd
      · cases hs
  | tcpConnect x resolved sock connected ip =>
      simp only [step] at hs
      split at hs
      · cases hs
      · rename_i hx
        split at hs
        · cases hs
          exact .threw
        · split at hs
          · cases hs
          · rename_i hos
            rw [not_not] at hos
            split at hs
            · cases hs
              exact .threw
            · rename_i hfd
              split at hs
              · cases hs
                exact .dismissed hx hos hfd
              · cases hs
                exact .acquired (o := .connection ⟨sock, ip⟩) hx hos hfd

/-- The states that can be reached, with what has been seen on the way. -/
inductive Runs : State → List Event → Prop
  | start : Runs ⟨⟨fun _ => none, 0⟩, fun _ => none⟩ []
  | step {st st' : State} {t evs : List Event} (a : Action) (h : Runs st t)
      (hs : Descriptors.step st a = some (st', evs)) : Runs st' (t ++ evs)

/-! ### The ledger of a run -/

/-- The descriptor that an object closes in the end. -/
def heldOf : Option Object → Option ℤ
  | none => none
  | some o => if 0 ≤ o.fd then some o.fd else none

/-- The sockets that have been closed, as far as there was one. -/
def closings (t : List Event) : List (Option ℕ) :=
  t.filterMap fun
    | .closed _ socket => some socket
    | _ => none

/-- The ledger says what the objects hold and what has been seen. -/
structure Accounts (L : Ledger ℕ ℤ) (st : State) (t : List Event) : Prop where
  held : L.held = heldOf ∘ st.objects
  live : L.live = st.os.table
  opened : L.opened = st.os.next
  lost : ∀ fd, fd ∈ L.lost ↔ .abandoned fd ∈ t
  closings : L.closings = closings t

section Accounts

variable {L : Ledger ℕ ℤ} {st : State} {t : List Event}

@[simp] theorem closings_append (t t' : List Event) :
    Descriptors.closings (t ++ t') = Descriptors.closings t ++ Descriptors.closings t' :=
  List.filterMap_append

theorem Accounts.held_eq (h : Accounts L st t) (x : ℕ) : L.held x = heldOf (st.objects x) :=
  congrFun h.held x

/-- Descriptors that are given out are new to the ledger. -/
theorem Accounts.live_eq_none (h : Accounts L st t) {fd : ℤ} (hos : st.os.MayReturn fd)
    (hfd : ¬fd < 0) : L.live fd = none := by
  rw [h.live]
  exact hos.resolve_left hfd

/-- An exception changes nothing. -/
theorem Accounts.threw (h : Accounts L st t) : Accounts L st (t ++ [.threw]) := by
  refine ⟨h.held, h.live, h.opened, fun fd => ?_, ?_⟩
  · rw [List.mem_append, ← h.lost]
    simp
  · rw [closings_append]
    exact h.closings.trans (List.append_nil _).symm

/-- An object closes its descriptor and is gone. -/
theorem Accounts.release (h : Accounts L st t) {x : ℕ} {o : Object} (hx : st.objects x = some o) :
    Accounts (L.release x) ⟨(closeValid st.os o.fd).1, Function.update st.objects x none⟩
      (t ++ (closeValid st.os o.fd).2) := by
  have hheld := h.held_eq x
  rw [hx] at hheld
  by_cases hfd : 0 ≤ o.fd
  · rw [heldOf, if_pos hfd] at hheld
    rw [Ledger.release_of_held hheld, closeValid, if_pos hfd]
    refine ⟨?_, ?_, h.opened, fun fd => ?_, ?_⟩
    · rw [Function.comp_update, ← h.held]
      rfl
    · rw [h.live]
      rfl
    · rw [h.lost, List.mem_append]
      simp
    · rw [closings_append, h.live, h.closings]
      rfl
  · rw [heldOf, if_neg hfd] at hheld
    have hsame : L.release x = L := by rw [Ledger.release, hheld]
    have hnone : heldOf none = L.held x := hheld.symm
    rw [hsame, closeValid, if_neg hfd, List.append_nil]
    refine ⟨?_, h.live, h.opened, h.lost, h.closings⟩
    rw [Function.comp_update, ← h.held, hnone, Function.update_eq_self]

/-- An object that holds nothing gets what another one holds. -/
theorem Accounts.transfer (h : Accounts L st t) {x y : ℕ} {o : Connection}
    (hy : st.objects y = some (.connection o)) (left : List UInt8) :
    Accounts (L.transfer x y) (st.moved st.os x y o left) t := by
  refine ⟨?_, h.live, h.opened, h.lost, h.closings⟩
  rw [State.moved, Function.comp_update, Function.comp_update, ← h.held, Ledger.transfer,
    h.held_eq y, hy]
  rfl

/-- A new object gets a new descriptor. -/
theorem Accounts.acquire (h : Accounts L st t) (x : ℕ) {fd : ℤ} (hfd : ¬fd < 0) {o : Object}
    (ho : o.fd = fd) :
    Accounts (L.acquire x fd) ⟨st.os.opened fd, Function.update st.objects x (some o)⟩
      (t ++ [.opened fd st.os.next]) := by
  refine ⟨?_, ?_, ?_, fun fd => ?_, ?_⟩
  · rw [Function.comp_update, ← h.held, heldOf, ho, if_pos (Int.not_lt.mp hfd)]
    rfl
  · rw [Ledger.acquire, h.live, h.opened]
    rfl
  · rw [Ledger.acquire, h.opened]
    rfl
  · rw [List.mem_append, ← h.lost]
    exact ⟨.inl, fun h => h.elim id (by simp)⟩
  · rw [closings_append]
    exact h.closings.trans (List.append_nil _).symm

/-- Nothing is held at an address that is not in use. -/
theorem Accounts.held_eq_none (h : Accounts L st t) {x : ℕ} (hx : st.objects x = none) :
    L.held x = none := by
  rw [h.held_eq, hx]
  rfl

/-- A descriptor that no object ever gets. -/
theorem Accounts.abandon (h : Accounts L st t) {x : ℕ} (hx : st.objects x = none) (fd : ℤ) :
    Accounts ((L.acquire x fd).forget x) ⟨st.os.opened fd, st.objects⟩
      (t ++ [.opened fd st.os.next, .abandoned fd]) := by
  refine ⟨?_, ?_, ?_, fun fd' => ?_, ?_⟩
  · rw [← h.held, Ledger.forget, Ledger.acquire]
    dsimp only
    rw [Function.update_idem, ← h.held_eq_none hx, Function.update_eq_self]
  · rw [Ledger.forget, Ledger.acquire, h.live, h.opened]
    rfl
  · rw [Ledger.forget, Ledger.acquire, h.opened]
    rfl
  · have hself : (L.acquire x fd).held x = some fd := Function.update_self _ _ _
    rw [Ledger.forget, hself, Set.mem_ofPred_eq, List.mem_append, ← h.lost]
    simp [Ledger.acquire, eq_comm]
  · rw [closings_append]
    exact h.closings.trans (List.append_nil _).symm

/-- A descriptor that is closed before any object gets it. -/
theorem Accounts.dismiss (h : Accounts L st t) {x : ℕ} (hx : st.objects x = none) (fd : ℤ) :
    Accounts ((L.acquire x fd).release x) ⟨(st.os.opened fd).close fd, st.objects⟩
      (t ++ [.opened fd st.os.next, .closed fd ((st.os.opened fd).table fd), .threw]) := by
  have hself : (L.acquire x fd).held x = some fd := Function.update_self _ _ _
  rw [Ledger.release_of_held hself]
  refine ⟨?_, ?_, ?_, fun fd' => ?_, ?_⟩
  · rw [← h.held, Ledger.acquire]
    dsimp only
    rw [Function.update_idem, ← h.held_eq_none hx, Function.update_eq_self]
  · rw [Ledger.acquire, h.live, h.opened]
    rfl
  · rw [Ledger.acquire, h.opened]
    rfl
  · rw [List.mem_append, ← h.lost]
    simp [Ledger.acquire]
  · rw [closings_append, Ledger.acquire, h.live, h.opened, h.closings]
    rfl

/-- A step of the objects is a few moves of the ledger. -/
theorem Outcome.accounts {st' : State} {evs : List Event} (ho : Outcome st st' evs)
    (hL : L.Balanced) (h : Accounts L st t) :
    ∃ L' : Ledger ℕ ℤ, L'.Balanced ∧ Accounts L' st' (t ++ evs) := by
  cases ho with
  | quiet =>
      exact ⟨L, hL, by rwa [List.append_nil]⟩
  | threw =>
      exact ⟨L, hL, h.threw⟩
  | constructed hx =>
      refine ⟨L, hL, ?_, h.live, h.opened, by simpa using h.lost, by simpa using h.closings⟩
      have hnone : heldOf (some (.connection ⟨-1, []⟩)) = L.held _ := (h.held_eq_none hx).symm
      rw [Function.comp_update, ← h.held, hnone, Function.update_eq_self]
  | moved hx hy left =>
      rw [List.append_nil]
      exact ⟨_, hL.transfer (h.held_eq_none hx) _, h.transfer hy left⟩
  | @assigned x y this o hx hy hxy left =>
      have hreleased := h.release hx
      have hy' : Function.update st.objects x none y = some (.connection o) := by
        rw [Function.update_of_ne (Ne.symm hxy), hy]
      have hgone : (L.release x).held x = none := by
        rw [hreleased.held_eq]
        simp [heldOf]
      have hmoved := hreleased.transfer (x := x) hy' left
      simp only [State.moved, Function.update_idem] at hmoved
      exact ⟨_, (hL.release x).transfer hgone y, hmoved⟩
  | destroyed hx =>
      exact ⟨_, hL.release _, h.release hx⟩
  | acquired hx hos hfd =>
      exact ⟨_, hL.acquire (h.held_eq_none hx) (h.live_eq_none hos hfd), h.acquire _ hfd rfl⟩
  | abandoned hx hos hfd =>
      have hacquired := hL.acquire (h.held_eq_none hx) (h.live_eq_none hos hfd)
      exact ⟨_, hacquired.forget _, h.abandon hx _⟩
  | dismissed hx hos hfd =>
      have hacquired := hL.acquire (h.held_eq_none hx) (h.live_eq_none hos hfd)
      exact ⟨_, hacquired.release _, h.dismiss hx _⟩

end Accounts

/-! ### Runs -/

theorem Runs.accounts {st : State} {t : List Event} (h : Runs st t) :
    ∃ L : Ledger ℕ ℤ, L.Balanced ∧ Accounts L st t := by
  induction h with
  | start =>
      refine ⟨.empty, Ledger.balanced_empty, rfl, rfl, rfl, fun fd => ?_, rfl⟩
      simp [Ledger.empty]
  | step a _ hs ih =>
      obtain ⟨L, hL, hacc⟩ := ih
      exact (outcome_of_step hs).accounts hL hacc

theorem heldOf_eq_some {v : Option Object} {fd : ℤ} :
    heldOf v = some fd ↔ ∃ o, v = some o ∧ o.fd = fd ∧ 0 ≤ fd := by
  cases v with
  | none => simp [heldOf]
  | some o =>
      rw [heldOf]
      split
      · rename_i hfd
        rw [Option.some.injEq]
        exact ⟨fun h => ⟨o, rfl, h, h ▸ hfd⟩, fun ⟨o', ho', h, _⟩ => by cases ho'; exact h⟩
      · rename_i hfd
        simp only [reduceCtorEq, false_iff]
        rintro ⟨o', ho', rfl, hfd'⟩
        cases ho'
        exact hfd hfd'

theorem mem_closings {t : List Event} {socket : Option ℕ} :
    socket ∈ closings t ↔ ∃ fd, .closed fd socket ∈ t := by
  rw [closings, List.mem_filterMap]
  constructor
  · rintro ⟨ev, hev, heq⟩
    cases ev with
    | closed fd s =>
        cases heq
        exact ⟨fd, hev⟩
    | _ => cases heq
  · rintro ⟨fd, hev⟩
    exact ⟨_, hev, rfl⟩

/-- No two objects have the same descriptor. -/
theorem Runs.unique {st : State} {t : List Event} (h : Runs st t) {x y : ℕ} {o o' : Object}
    (hx : st.objects x = some o) (hy : st.objects y = some o') (hfd : 0 ≤ o.fd)
    (heq : o'.fd = o.fd) : y = x := by
  obtain ⟨L, hL, hacc⟩ := h.accounts
  apply hL.unique y x o.fd
  · rw [hacc.held_eq, heldOf_eq_some]
    exact ⟨o', hy, heq, hfd⟩
  · rw [hacc.held_eq, heldOf_eq_some]
    exact ⟨o, hx, rfl, hfd⟩

/-- The descriptor of an object is open. -/
theorem Runs.table_ne_none {st : State} {t : List Event} (h : Runs st t) {x : ℕ} {o : Object}
    (hx : st.objects x = some o) (hfd : 0 ≤ o.fd) :
    st.os.table o.fd ≠ none ∧ .abandoned o.fd ∉ t := by
  obtain ⟨L, hL, hacc⟩ := h.accounts
  have hheld : L.held x = some o.fd := by
    rw [hacc.held_eq, heldOf_eq_some]
    exact ⟨o, hx, rfl, hfd⟩
  rw [← hacc.live, ← hacc.lost]
  exact hL.open_of_held x o.fd hheld

theorem closeValid_table (os : Os) (fd fd' : ℤ) :
    (closeValid os fd).1.table fd' = os.table fd' ∨ fd = fd' ∧ 0 ≤ fd := by
  rw [closeValid]
  split
  · by_cases heq : fd' = fd
    · exact .inr ⟨heq.symm, ‹_›⟩
    · exact .inl (Function.update_of_ne heq _ _)
  · exact .inl rfl

theorem opened_table {os : Os} {fd fd' : ℤ} (hos : os.MayReturn fd) (hfd : ¬fd < 0)
    (hopen : os.table fd' ≠ none) : fd' ≠ fd ∧ (os.opened fd).table fd' = os.table fd' := by
  have hne : fd' ≠ fd := by
    rintro rfl
    exact hopen (hos.resolve_left hfd)
  exact ⟨hne, Function.update_of_ne hne _ _⟩

/-- A descriptor changes its socket only when the object that holds it is destroyed, or another
one is moved there. -/
theorem Outcome.table {st st' : State} {evs : List Event} (ho : Outcome st st' evs) {fd : ℤ}
    (hopen : st.os.table fd ≠ none) :
    st'.os.table fd = st.os.table fd ∨ ∃ x o, st.objects x = some o ∧ o.fd = fd ∧ 0 ≤ fd ∧
      (st'.objects x = none ∨
        ∃ y o', y ≠ x ∧ st.objects y = some o' ∧ st'.objects x = some o') := by
  cases ho with
  | quiet | threw | constructed | moved =>
      exact .inl rfl
  | @assigned x y this o hx hy hxy left =>
      rcases closeValid_table st.os this.fd fd with hsame | ⟨heq, hfd⟩
      · exact .inl hsame
      · refine .inr ⟨x, _, hx, heq, heq ▸ hfd, .inr ⟨y, _, Ne.symm hxy, hy, ?_⟩⟩
        exact (Function.update_of_ne hxy _ _).trans (Function.update_self _ _ _)
  | @destroyed x o hx =>
      rcases closeValid_table st.os o.fd fd with hsame | ⟨heq, hfd⟩
      · exact .inl hsame
      · exact .inr ⟨x, o, hx, heq, heq ▸ hfd, .inl (Function.update_self _ _ _)⟩
  | acquired hx hos hfd | abandoned hx hos hfd =>
      exact .inl (opened_table hos hfd hopen).2
  | dismissed hx hos hfd =>
      obtain ⟨hne, hsame⟩ := opened_table hos hfd hopen
      exact .inl ((Function.update_of_ne hne _ _).trans hsame)

/-- As long as an object keeps its descriptor, the descriptor stands for the same socket. -/
theorem Runs.keeps {st st' : State} {t evs : List Event} (h : Runs st t) {a : Action}
    (hs : Descriptors.step st a = some (st', evs)) {x : ℕ} {o : Object}
    (hx : st.objects x = some o) (hfd : 0 ≤ o.fd) (hx' : st'.objects x = some o) :
    st'.os.table o.fd = st.os.table o.fd := by
  have hopen := (h.table_ne_none hx hfd).1
  rcases (outcome_of_step hs).table hopen with hsame | ⟨z, o', hz, heq, -, hgone⟩
  · exact hsame
  · obtain rfl : z = x := h.unique hx hz hfd heq
    rcases hgone with hgone | ⟨y, o', hne, hy, hmoved⟩
    · rw [hx'] at hgone
      cases hgone
    · rw [hx', Option.some.injEq] at hmoved
      subst hmoved
      exact absurd (h.unique hx hy hfd rfl) hne

/-- Whatever is constructed, moved, assigned and destroyed, and whatever the system calls
return: every `::close` hits an open descriptor, and no socket is closed twice. The descriptor
of a live object is open, no other object has it, and it stands for the same socket until the
object gives it up. Nothing else is open but what constructors of `tcp_server` have abandoned,
and every other socket has been closed. -/
theorem Runs.descriptors {st : State} {t : List Event} (h : Runs st t) :
    (∀ fd socket, .closed fd socket ∈ t → ∃ n, socket = some n) ∧ (closings t).Nodup ∧
    (∀ x o, st.objects x = some o → 0 ≤ o.fd →
      st.os.table o.fd ≠ none ∧ .abandoned o.fd ∉ t ∧
        (∀ y o', st.objects y = some o' → o'.fd = o.fd → y = x) ∧
        ∀ a st' evs, Descriptors.step st a = some (st', evs) → st'.objects x = some o →
          st'.os.table o.fd = st.os.table o.fd) ∧
    (∀ fd, st.os.table fd ≠ none ↔
      (∃ x o, st.objects x = some o ∧ o.fd = fd ∧ 0 ≤ fd) ∨ .abandoned fd ∈ t) ∧
    ∀ n < st.os.next, some n ∈ closings t ∨ ∃ fd, st.os.table fd = some n := by
  obtain ⟨L, hL, hacc⟩ := h.accounts
  refine ⟨?_, hacc.closings ▸ hL.closed_nodup, ?_, ?_, ?_⟩
  · intro fd socket hclosed
    have hmem := mem_closings.mpr ⟨fd, hclosed⟩
    rw [← hacc.closings] at hmem
    rcases Option.eq_none_or_eq_some socket with rfl | hsome
    · exact absurd hmem hL.closed_some
    · exact hsome
  · intro x o hx hfd
    obtain ⟨hopen, hkept⟩ := h.table_ne_none hx hfd
    exact ⟨hopen, hkept, fun y o' hy heq => h.unique hx hy hfd heq,
      fun a st' evs hs hx' => h.keeps hs hx hfd hx'⟩
  · intro fd
    rw [← hacc.live, ← hacc.lost]
    constructor
    · intro hopen
      refine (hL.covered fd hopen).imp_left ?_
      rintro ⟨x, hx⟩
      rw [hacc.held_eq, heldOf_eq_some] at hx
      exact ⟨x, hx⟩
    · rintro (⟨x, o, hx, rfl, hfd⟩ | hlost)
      · rw [hacc.live]
        exact (h.table_ne_none hx hfd).1
      · exact hL.open_of_lost fd hlost
  · intro n hn
    rw [← hacc.opened] at hn
    rw [← hacc.closings, ← hacc.live]
    exact hL.accounted n hn

/-- A server cannot bind and another one can. Its first connection is moved into an object,
which is assigned the next one; the third connection gets the descriptor of the first. -/
theorem Runs.descriptors_reused :
    ∃ st t, Runs st t ∧ (closings t).Nodup ∧ closings t ≠ [] ∧
      ((∃ x o, st.objects x = some o ∧ o.fd = 5 ∧ (0 : ℤ) ≤ 5) ∨ Event.abandoned 5 ∈ t) ∧
      st.os.table 3 ≠ none := by
  have h₀ := Runs.step (.listen 0 3 false true) .start rfl
  have h₁ := Runs.step (.listen 0 4 true true) h₀ rfl
  have h₂ := Runs.step (.acceptOne 0 1 5 []) h₁ rfl
  have h₃ := Runs.step (.moveConstruct 2 1 []) h₂ rfl
  have h₄ := Runs.step (.destroy 1) h₃ rfl
  have h₅ := Runs.step (.acceptOne 0 1 6 []) h₄ rfl
  have h₆ := Runs.step (.moveAssign 2 1 []) h₅ rfl
  have h₇ := Runs.step (.tcpConnect 3 true 5 true []) h₆ rfl
  obtain ⟨-, hnodup, -, hopen, -⟩ := h₇.descriptors
  exact ⟨_, _, h₇, hnodup, by decide, (hopen 5).mp (by decide),
    (hopen 3).mpr (.inr (by decide))⟩

end PeerToPeer.Net.Descriptors
