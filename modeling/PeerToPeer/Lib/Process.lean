import Mathlib.Data.List.Basic
import Mathlib.Data.Set.Basic
import Mathlib.Logic.Relation

/-!
Protocol processes and the systems made of their runs.

A process draws secrets, signs, verifies, sends and receives; its continuations
are ordinary functions, so a protocol role is written in the order of its code.
A system runs any number of processes at once under a network that is wholly in
the hands of an attacker: whatever a run receives is arbitrary. The attacker is
bounded in two ways. A signature that verifies under a key it does not hold was
made by some run before, and drawn secrets are fresh.

The trace of a run records its events in order. What a run can have done is
read off its program by `Exec`, and `history_induction` carries a fact from the
moment an event happens to every later state.
-/

namespace PeerToPeer.Lib

/-- The types a protocol speaks about. -/
structure Alphabet where
  Frame : Type
  Secret : Type
  Public : Type
  SigningKey : Type
  VerifyKey : Type
  Message : Type
  Signature : Type

/-- A process with results in `ρ`. -/
inductive Proc (A : Alphabet) (ρ : Type) where
  | ret (r : ρ)
  | draw (k : A.Secret → Proc A ρ)
  | sign (sk : A.SigningKey) (m : A.Message) (k : A.Signature → Proc A ρ)
  | verify (pk : A.VerifyKey) (m : A.Message) (sig : A.Signature) (k : Bool → Proc A ρ)
  | send (f : A.Frame) (k : Bool → Proc A ρ)
  | recv (k : Option A.Frame → Proc A ρ)

/-- What a run does, one step at a time. -/
inductive Event (A : Alphabet) where
  | drew (s : A.Secret)
  | signed (sk : A.SigningKey) (m : A.Message)
  | verified (pk : A.VerifyKey) (m : A.Message) (sig : A.Signature) (ok : Bool)
  | sent (f : A.Frame) (ok : Bool)
  | received (f : Option A.Frame)

/-- The operations behind the events. -/
structure Primitives (A : Alphabet) where
  derive : A.Secret → A.Public
  verifyKey : A.SigningKey → A.VerifyKey
  sign : A.SigningKey → A.Message → A.Signature
  verify : A.VerifyKey → A.Message → A.Signature → Bool

variable {A : Alphabet} {ρ : Type}

/-- One step of a process. Sends may fail and receives may return anything. -/
inductive Proc.Step (P : Primitives A) : Proc A ρ → Event A → Proc A ρ → Prop where
  | draw (k s) : Step P (.draw k) (.drew s) (k s)
  | sign (sk m k) : Step P (.sign sk m k) (.signed sk m) (k (P.sign sk m))
  | verify (pk m sig k) :
      Step P (.verify pk m sig k) (.verified pk m sig (P.verify pk m sig))
        (k (P.verify pk m sig))
  | send (f k ok) : Step P (.send f k) (.sent f ok) (k ok)
  | recv (k f) : Step P (.recv k) (.received f) (k f)

/-- `Exec P p t q`: the process `p` becomes `q` by the events `t`. -/
inductive Exec (P : Primitives A) : Proc A ρ → List (Event A) → Proc A ρ → Prop where
  | nil (p) : Exec P p [] p
  | cons {p ev q t r} : Proc.Step P p ev q → Exec P q t r → Exec P p (ev :: t) r

theorem Exec.snoc {P : Primitives A} {p q r : Proc A ρ} {t : List (Event A)} {ev : Event A}
    (h : Exec P p t q) (hs : Proc.Step P q ev r) : Exec P p (t ++ [ev]) r := by
  induction h with
  | nil p => exact .cons hs (.nil _)
  | cons hs' _ ih => exact .cons hs' (ih hs)

theorem exec_append_iff {P : Primitives A} {p r : Proc A ρ} {t u : List (Event A)} :
    Exec P p (t ++ u) r ↔ ∃ q, Exec P p t q ∧ Exec P q u r := by
  constructor
  · intro h
    induction t generalizing p with
    | nil => exact ⟨p, .nil p, h⟩
    | cons ev t ih =>
        cases h with
        | cons hs h =>
            obtain ⟨q, hq, hr⟩ := ih h
            exact ⟨q, .cons hs hq, hr⟩
  · rintro ⟨q, hq, hr⟩
    induction hq with
    | nil => exact hr
    | cons hs _ ih => exact .cons hs (ih hr)

/-! The executions of each kind of process. -/

section Inversion

variable {P : Primitives A} {q : Proc A ρ} {t : List (Event A)}

theorem exec_ret_iff {r : ρ} : Exec P (.ret r) t q ↔ t = [] ∧ q = .ret r := by
  constructor
  · rintro (_ | ⟨⟨⟩, _⟩)
    exact ⟨rfl, rfl⟩
  · rintro ⟨rfl, rfl⟩
    exact .nil _

theorem exec_draw_iff {k : A.Secret → Proc A ρ} :
    Exec P (.draw k) t q ↔
      t = [] ∧ q = .draw k ∨ ∃ s u, t = .drew s :: u ∧ Exec P (k s) u q := by
  constructor
  · rintro (_ | ⟨⟨⟩, h⟩)
    · exact .inl ⟨rfl, rfl⟩
    · exact .inr ⟨_, _, rfl, h⟩
  · rintro (⟨rfl, rfl⟩ | ⟨s, u, rfl, h⟩)
    · exact .nil _
    · exact .cons (.draw k s) h

theorem exec_sign_iff {sk : A.SigningKey} {m : A.Message} {k : A.Signature → Proc A ρ} :
    Exec P (.sign sk m k) t q ↔
      t = [] ∧ q = .sign sk m k ∨ ∃ u, t = .signed sk m :: u ∧ Exec P (k (P.sign sk m)) u q := by
  constructor
  · rintro (_ | ⟨⟨⟩, h⟩)
    · exact .inl ⟨rfl, rfl⟩
    · exact .inr ⟨_, rfl, h⟩
  · rintro (⟨rfl, rfl⟩ | ⟨u, rfl, h⟩)
    · exact .nil _
    · exact .cons (.sign sk m k) h

theorem exec_verify_iff {pk : A.VerifyKey} {m : A.Message} {sig : A.Signature}
    {k : Bool → Proc A ρ} :
    Exec P (.verify pk m sig k) t q ↔
      t = [] ∧ q = .verify pk m sig k ∨
        ∃ u, t = .verified pk m sig (P.verify pk m sig) :: u ∧
          Exec P (k (P.verify pk m sig)) u q := by
  constructor
  · rintro (_ | ⟨⟨⟩, h⟩)
    · exact .inl ⟨rfl, rfl⟩
    · exact .inr ⟨_, rfl, h⟩
  · rintro (⟨rfl, rfl⟩ | ⟨u, rfl, h⟩)
    · exact .nil _
    · exact .cons (.verify pk m sig k) h

theorem exec_send_iff {f : A.Frame} {k : Bool → Proc A ρ} :
    Exec P (.send f k) t q ↔
      t = [] ∧ q = .send f k ∨ ∃ ok u, t = .sent f ok :: u ∧ Exec P (k ok) u q := by
  constructor
  · rintro (_ | ⟨⟨⟩, h⟩)
    · exact .inl ⟨rfl, rfl⟩
    · exact .inr ⟨_, _, rfl, h⟩
  · rintro (⟨rfl, rfl⟩ | ⟨ok, u, rfl, h⟩)
    · exact .nil _
    · exact .cons (.send f k ok) h

theorem exec_recv_iff {k : Option A.Frame → Proc A ρ} :
    Exec P (.recv k) t q ↔
      t = [] ∧ q = .recv k ∨ ∃ f u, t = .received f :: u ∧ Exec P (k f) u q := by
  constructor
  · rintro (_ | ⟨⟨⟩, h⟩)
    · exact .inl ⟨rfl, rfl⟩
    · exact .inr ⟨_, _, rfl, h⟩
  · rintro (⟨rfl, rfl⟩ | ⟨f, u, rfl, h⟩)
    · exact .nil _
    · exact .cons (.recv k f) h

end Inversion

/-- The events of an execution lead to one process only. -/
theorem Exec.unique {P : Primitives A} {p q q' : Proc A ρ} {t : List (Event A)}
    (h : Exec P p t q) (h' : Exec P p t q') : q = q' := by
  induction h with
  | nil p =>
      cases h'
      rfl
  | cons hs _ ih =>
      cases h' with
      | cons hs' hrest =>
          cases hs <;> cases hs' <;> exact ih hrest

/-- The checks in a trace have the results that verification gives. -/
theorem Exec.verified_eq {P : Primitives A} {p q : Proc A ρ} {t : List (Event A)}
    (h : Exec P p t q) {pk : A.VerifyKey} {m : A.Message} {sig : A.Signature} {ok : Bool}
    (hmem : .verified pk m sig ok ∈ t) : P.verify pk m sig = ok := by
  induction h with
  | nil => cases hmem
  | cons hs _ ih =>
      rcases List.mem_cons.mp hmem with heq | hmem
      · cases hs <;> cases heq
        rfl
      · exact ih hmem

/-! ### Results -/

/-- The process with its result passed through a function. -/
def Proc.map {ρ' : Type} (f : ρ → ρ') : Proc A ρ → Proc A ρ'
  | .ret r => .ret (f r)
  | .draw k => .draw fun s => (k s).map f
  | .sign sk m k => .sign sk m fun sig => (k sig).map f
  | .verify pk m sig k => .verify pk m sig fun ok => (k ok).map f
  | .send frame k => .send frame fun ok => (k ok).map f
  | .recv k => .recv fun frame => (k frame).map f

theorem exec_map_iff {ρ' : Type} {P : Primitives A} {f : ρ → ρ'} {p : Proc A ρ}
    {t : List (Event A)} {r' : ρ'} :
    Exec P (p.map f) t (.ret r') ↔ ∃ r, Exec P p t (.ret r) ∧ f r = r' := by
  induction p generalizing t with
  | ret r =>
      simp only [Proc.map, exec_ret_iff, Proc.ret.injEq]
      exact ⟨fun ⟨ht, hr⟩ => ⟨r, ⟨ht, rfl⟩, hr.symm⟩,
        fun ⟨_, ⟨ht, hr⟩, hf⟩ => ⟨ht, by rw [← hf, hr]⟩⟩
  | draw k ih =>
      simp only [Proc.map, exec_draw_iff, ih, reduceCtorEq, and_false, false_or]
      exact ⟨fun ⟨s, u, ht, r, hr, hf⟩ => ⟨r, ⟨s, u, ht, hr⟩, hf⟩,
        fun ⟨r, ⟨s, u, ht, hr⟩, hf⟩ => ⟨s, u, ht, r, hr, hf⟩⟩
  | sign sk m k ih =>
      simp only [Proc.map, exec_sign_iff, ih, reduceCtorEq, and_false, false_or]
      exact ⟨fun ⟨u, ht, r, hr, hf⟩ => ⟨r, ⟨u, ht, hr⟩, hf⟩,
        fun ⟨r, ⟨u, ht, hr⟩, hf⟩ => ⟨u, ht, r, hr, hf⟩⟩
  | verify pk m sig k ih =>
      simp only [Proc.map, exec_verify_iff, ih, reduceCtorEq, and_false, false_or]
      exact ⟨fun ⟨u, ht, r, hr, hf⟩ => ⟨r, ⟨u, ht, hr⟩, hf⟩,
        fun ⟨r, ⟨u, ht, hr⟩, hf⟩ => ⟨u, ht, r, hr, hf⟩⟩
  | send frame k ih =>
      simp only [Proc.map, exec_send_iff, ih, reduceCtorEq, and_false, false_or]
      exact ⟨fun ⟨ok, u, ht, r, hr, hf⟩ => ⟨r, ⟨ok, u, ht, hr⟩, hf⟩,
        fun ⟨r, ⟨ok, u, ht, hr⟩, hf⟩ => ⟨ok, u, ht, r, hr, hf⟩⟩
  | recv k ih =>
      simp only [Proc.map, exec_recv_iff, ih, reduceCtorEq, and_false, false_or]
      exact ⟨fun ⟨frame, u, ht, r, hr, hf⟩ => ⟨r, ⟨frame, u, ht, hr⟩, hf⟩,
        fun ⟨r, ⟨frame, u, ht, hr⟩, hf⟩ => ⟨frame, u, ht, r, hr, hf⟩⟩

/-! ### Systems -/

variable {ι : Type}

/-- A run: the job it was started for, its events so far, what is left of it. -/
structure Run (A : Alphabet) (ι ρ : Type) where
  job : ι
  trace : List (Event A)
  proc : Proc A ρ

/-- The runs, and the secrets that the attacker has drawn. -/
structure SystemState (A : Alphabet) (ι ρ : Type) where
  runs : List (Run A ι ρ)
  attackerSecrets : List A.Secret

/-- A system: the program of each job, the keys that the attacker holds, and a
further condition on the events, given the state, the run and its trace. -/
structure System (A : Alphabet) (ι ρ : Type) where
  prims : Primitives A
  prog : ι → Proc A ρ
  attackerKeys : Set A.VerifyKey
  condition : SystemState A ι ρ → ι → List (Event A) → Event A → Prop

namespace System

variable (S : System A ι ρ)

/-- Drawn secrets are new, and valid signatures under the keys of others are
not made up. -/
def Allowed (st : SystemState A ι ρ) : Event A → Prop
  | .drew s =>
      (∀ r ∈ st.runs, ∀ s', .drew s' ∈ r.trace → S.prims.derive s' ≠ S.prims.derive s) ∧
        ∀ s' ∈ st.attackerSecrets, S.prims.derive s' ≠ S.prims.derive s
  | .verified pk m _ true =>
      pk ∈ S.attackerKeys ∨
        ∃ r ∈ st.runs, ∃ sk, .signed sk m ∈ r.trace ∧ S.prims.verifyKey sk = pk
  | _ => True

/-- The start of a run. -/
def start (j : ι) : Run A ι ρ := ⟨j, [], S.prog j⟩

/-- One step of the system. -/
inductive Step : SystemState A ι ρ → SystemState A ι ρ → Prop where
  | spawn (st j) : Step st { st with runs := st.runs ++ [S.start j] }
  | act (st) (i : ℕ) (r : Run A ι ρ) (ev : Event A) (q : Proc A ρ)
      (hrun : st.runs[i]? = some r) (hstep : Proc.Step S.prims r.proc ev q)
      (hallowed : S.Allowed st ev) (hcond : S.condition st r.job r.trace ev) :
      Step st { st with runs := st.runs.set i ⟨r.job, r.trace ++ [ev], q⟩ }
  | attackerDraw (st) (s : A.Secret)
      (hfresh : ∀ r ∈ st.runs, ∀ s', .drew s' ∈ r.trace →
        S.prims.derive s' ≠ S.prims.derive s) :
      Step st { st with attackerSecrets := s :: st.attackerSecrets }

/-- The states that the system can reach. -/
def Reachable (st : SystemState A ι ρ) : Prop :=
  Relation.ReflTransGen S.Step ⟨[], []⟩ st

variable {S}

/-! ### What one step changes -/

/-- Where a run of the next state comes from. -/
theorem Step.run_cases {st st' : SystemState A ι ρ} (h : S.Step st st') {i : ℕ}
    {r' : Run A ι ρ} (hi : st'.runs[i]? = some r') :
    st.runs[i]? = some r' ∨ (∃ j, r' = S.start j) ∨
      ∃ r ev q, st.runs[i]? = some r ∧ r' = ⟨r.job, r.trace ++ [ev], q⟩ ∧
        Proc.Step S.prims r.proc ev q ∧ S.Allowed st ev ∧ S.condition st r.job r.trace ev ∧
        st' = { st with runs := st.runs.set i ⟨r.job, r.trace ++ [ev], q⟩ } := by
  cases h with
  | spawn j =>
      simp only [List.getElem?_append] at hi
      split at hi
      · exact .inl hi
      · rw [List.getElem?_singleton] at hi
        split at hi
        · exact .inr (.inl ⟨j, (Option.some.inj hi).symm⟩)
        · cases hi
  | act k r ev q hrun hstep hallowed hcond =>
      simp only [List.getElem?_set] at hi
      split at hi
      · rename_i hk
        subst hk
        split at hi
        · exact .inr (.inr ⟨r, ev, q, hrun, (Option.some.inj hi).symm, hstep, hallowed, hcond,
            rfl⟩)
        · cases hi
      · exact .inl hi
  | attackerDraw s hfresh => exact .inl hi

/-- Runs stay, and their traces grow. -/
theorem Step.run_mono {st st' : SystemState A ι ρ} (h : S.Step st st') {i : ℕ}
    {r : Run A ι ρ} (hi : st.runs[i]? = some r) :
    ∃ r', st'.runs[i]? = some r' ∧ r'.job = r.job ∧ r.trace <+: r'.trace := by
  cases h with
  | spawn j =>
      refine ⟨r, ?_, rfl, List.prefix_refl _⟩
      rw [List.getElem?_append_left (List.getElem?_eq_some_iff.mp hi).1]
      exact hi
  | act k r₀ ev q hrun =>
      by_cases hk : k = i
      · subst hk
        rw [hrun] at hi
        cases hi
        refine ⟨⟨r.job, r.trace ++ [ev], q⟩, ?_, rfl, List.prefix_append _ _⟩
        exact List.getElem?_set_self (List.getElem?_eq_some_iff.mp hrun).1
      · exact ⟨r, by simpa [List.getElem?_set, hk] using hi, rfl, List.prefix_refl _⟩
  | attackerDraw s hfresh => exact ⟨r, hi, rfl, List.prefix_refl _⟩

/-! ### Invariants of whole runs of the system -/

theorem Reachable.init : S.Reachable ⟨[], []⟩ := .refl

theorem Reachable.step {st st' : SystemState A ι ρ} (h : S.Reachable st) (hs : S.Step st st') :
    S.Reachable st' := .tail h hs

/-- `K` holds of the events `u` of a run, each in the state and after the trace
that it meets. -/
def Along (K : SystemState A ι ρ → List (Event A) → Event A → Prop) (st : SystemState A ι ρ)
    (i : ℕ) (job : ι) : List (Event A) → List (Event A) → Prop
  | _, [] => True
  | t, ev :: u =>
      (∀ q, K { st with runs := st.runs.set i ⟨job, t, q⟩ } t ev) ∧
        Along K st i job (t ++ [ev]) u

/-- Carrying a run on by an execution whose events are allowed one after the
other. -/
theorem Reachable.extend {x : SystemState A ι ρ} {i : ℕ} {job : ι} {t u : List (Event A)}
    {p q : Proc A ρ} (h : S.Reachable { x with runs := x.runs.set i ⟨job, t, p⟩ })
    (hi : i < x.runs.length) (hexec : Exec S.prims p u q)
    (hallowed : Along (fun st _ ev => S.Allowed st ev) x i job t u)
    (hcond : Along (fun st t ev => S.condition st job t ev) x i job t u) :
    S.Reachable { x with runs := x.runs.set i ⟨job, t ++ u, q⟩ } := by
  induction hexec generalizing t with
  | nil => simpa using h
  | @cons p ev q' u r hstep _ ih =>
      obtain ⟨hnow, hlater⟩ := hallowed
      obtain ⟨hcnow, hclater⟩ := hcond
      have hget : (x.runs.set i ⟨job, t, p⟩)[i]? = some ⟨job, t, p⟩ :=
        List.getElem?_set_self hi
      have hact := h.step (.act _ i ⟨job, t, p⟩ ev q' hget hstep (hnow p) (hcnow p))
      simp only [List.set_set] at hact
      simpa using ih hact hlater hclater

/-- Every run got where it is by its trace. -/
theorem Reachable.exec {st : SystemState A ι ρ} (h : S.Reachable st) {i : ℕ}
    {r : Run A ι ρ} (hi : st.runs[i]? = some r) :
    Exec S.prims (S.prog r.job) r.trace r.proc := by
  induction h generalizing i r with
  | refl => simp at hi
  | tail _ hs ih =>
      obtain hold | ⟨j, rfl⟩ | ⟨r₀, ev, q, hrun, rfl, hstep, -⟩ := hs.run_cases hi
      · exact ih hold
      · exact .nil _
      · exact (ih hrun).snoc hstep

/-- The rule for facts about the past: `G` holds when an event happens, given
the trace before it, and no later step destroys it. -/
theorem Reachable.history_induction
    {G : SystemState A ι ρ → ℕ → ι → List (Event A) → Event A → Prop}
    (hact : ∀ st i r ev, S.Reachable st → st.runs[i]? = some r → S.Allowed st ev →
      S.condition st r.job r.trace ev → G st i r.job r.trace ev)
    (hmono : ∀ st st' i j t ev, S.Step st st' → G st i j t ev → G st' i j t ev)
    {st : SystemState A ι ρ} (h : S.Reachable st) {i : ℕ} {r : Run A ι ρ}
    (hi : st.runs[i]? = some r) {t u : List (Event A)} {ev : Event A}
    (htrace : r.trace = t ++ ev :: u) : G st i r.job t ev := by
  induction h generalizing i r t u ev with
  | refl => simp at hi
  | tail hreach hs ih =>
      obtain hold | ⟨j, rfl⟩ | ⟨r₀, ev', q, hrun, rfl, -, hallowed, hcond, -⟩ :=
        hs.run_cases hi
      · exact hmono _ _ _ _ _ _ hs (ih hold htrace)
      · simp [start] at htrace
      · -- the event is the new one, or it was in the trace before
        rcases List.eq_nil_or_concat u with rfl | ⟨u', ev'', rfl⟩
        · obtain ⟨rfl, hev⟩ := List.append_inj' htrace rfl
          cases hev
          exact hmono _ _ _ _ _ _ hs (hact _ _ _ _ hreach hrun hallowed hcond)
        · have hsplit : r₀.trace ++ [ev'] = (t ++ ev :: u') ++ [ev''] := by
            simpa using htrace
          obtain ⟨htr, -⟩ := List.append_inj' hsplit rfl
          exact hmono _ _ _ _ _ _ hs (ih hrun htr)

/-- Every event met the condition when it happened. -/
theorem Reachable.condition_of_event {st : SystemState A ι ρ} (h : S.Reachable st) {i : ℕ}
    {r : Run A ι ρ} (hi : st.runs[i]? = some r) {t u : List (Event A)} {ev : Event A}
    (htrace : r.trace = t ++ ev :: u) : ∃ st₀, S.condition st₀ r.job t ev :=
  h.history_induction (G := fun _ _ j t ev => ∃ st₀, S.condition st₀ j t ev)
    (fun st₀ _ _ _ _ _ _ hcond => ⟨st₀, hcond⟩) (fun _ _ _ _ _ _ _ hG => hG) hi htrace

/-- A condition that no step destroys still holds of all past events. -/
theorem Reachable.condition_persists
    (hmono : ∀ st st' j t ev, S.Step st st' → S.condition st j t ev → S.condition st' j t ev)
    {st : SystemState A ι ρ} (h : S.Reachable st) {i : ℕ} {r : Run A ι ρ}
    (hi : st.runs[i]? = some r) {t u : List (Event A)} {ev : Event A}
    (htrace : r.trace = t ++ ev :: u) : S.condition st r.job t ev :=
  h.history_induction (G := fun st _ j t ev => S.condition st j t ev)
    (fun _ _ _ _ _ _ _ hcond => hcond) (fun st st' _ j t ev hs hG => hmono st st' j t ev hs hG)
    hi htrace

/-- A valid signature under a key that the attacker does not hold was made by a
run before it was verified. -/
theorem Reachable.signed_of_verified {st : SystemState A ι ρ} (h : S.Reachable st) {i : ℕ}
    {r : Run A ι ρ} (hi : st.runs[i]? = some r) {t u : List (Event A)} {pk : A.VerifyKey}
    {m : A.Message} {sig : A.Signature} (htrace : r.trace = t ++ .verified pk m sig true :: u)
    (hpk : pk ∉ S.attackerKeys) :
    ∃ k r' sk, st.runs[k]? = some r' ∧ S.prims.verifyKey sk = pk ∧ .signed sk m ∈ r'.trace ∧
      (k = i → .signed sk m ∈ t) := by
  refine h.history_induction (G := fun st i _ t ev => ∀ pk m sig, ev = .verified pk m sig true →
    pk ∉ S.attackerKeys → ∃ k r' sk, st.runs[k]? = some r' ∧ S.prims.verifyKey sk = pk ∧
      .signed sk m ∈ r'.trace ∧ (k = i → .signed sk m ∈ t)) ?_ ?_ hi htrace pk m sig rfl hpk
  · rintro st i r ev - hrun hallowed - pk m sig rfl hpk
    obtain hkey | ⟨r', hmem, sk, hsigned, hvk⟩ := hallowed
    · exact absurd hkey hpk
    · obtain ⟨k, hk⟩ := List.getElem?_of_mem hmem
      refine ⟨k, r', sk, hk, hvk, hsigned, ?_⟩
      rintro rfl
      rw [hrun] at hk
      cases hk
      exact hsigned
  · rintro st st' i j t ev hs hG pk m sig rfl hpk
    obtain ⟨k, r', sk, hk, hvk, hsigned, himp⟩ := hG pk m sig rfl hpk
    obtain ⟨r'', hk', -, hprefix⟩ := hs.run_mono hk
    exact ⟨k, r'', sk, hk', hvk, hprefix.subset hsigned, himp⟩

/-- A draw in the trace of a run is an old one, or it has just happened, is
fresh, and the other runs stand as they were. -/
theorem Step.draw_cases {st st' : SystemState A ι ρ} (h : S.Step st st') {i : ℕ}
    {r : Run A ι ρ} (hi : st'.runs[i]? = some r) {s : A.Secret} (hs : .drew s ∈ r.trace) :
    (∃ r₀, st.runs[i]? = some r₀ ∧ .drew s ∈ r₀.trace) ∨
      (S.Allowed st (.drew s) ∧ ∀ k, k ≠ i → st'.runs[k]? = st.runs[k]?) := by
  obtain hold | ⟨j, rfl⟩ | ⟨r₀, ev, q, hrun, rfl, -, hallowed, -, rfl⟩ := h.run_cases hi
  · exact .inl ⟨r, hold, hs⟩
  · simp [start] at hs
  · rcases List.mem_append.mp hs with hold | hnew
    · exact .inl ⟨r₀, hrun, hold⟩
    · rw [List.mem_singleton] at hnew
      subst hnew
      exact .inr ⟨hallowed, fun k hk => List.getElem?_set_ne (Ne.symm hk)⟩

theorem Allowed.fresh {st : SystemState A ι ρ} {s s' : A.Secret} (h : S.Allowed st (.drew s))
    {k : ℕ} {r : Run A ι ρ} (hk : st.runs[k]? = some r) (hs : .drew s' ∈ r.trace) :
    S.prims.derive s' ≠ S.prims.derive s :=
  h.1 r (List.mem_of_getElem? hk) s' hs

/-- Secrets with the same public part were drawn by the same run. -/
theorem Reachable.draw_unique {st : SystemState A ι ρ} (h : S.Reachable st) {i k : ℕ}
    {r r' : Run A ι ρ} (hi : st.runs[i]? = some r) (hk : st.runs[k]? = some r')
    {s s' : A.Secret} (hs : .drew s ∈ r.trace) (hs' : .drew s' ∈ r'.trace)
    (heq : S.prims.derive s = S.prims.derive s') : i = k := by
  induction h generalizing i k r r' s s' with
  | refl => simp at hi
  | tail _ hstep ih =>
      by_contra hne
      obtain ⟨r₀, hr₀, hs₀⟩ | ⟨hfresh, hothers⟩ := hstep.draw_cases hi hs
      · obtain ⟨r₁, hr₁, hs₁⟩ | ⟨hfresh, hothers⟩ := hstep.draw_cases hk hs'
        · exact hne (ih hr₀ hr₁ hs₀ hs₁ heq)
        · exact hfresh.fresh hr₀ hs₀ heq
      · rw [hothers k (Ne.symm hne)] at hk
        exact hfresh.fresh hk hs' heq.symm

theorem Reachable.run_eq_of_draw {st : SystemState A ι ρ} (h : S.Reachable st) {i k : ℕ}
    {r r' : Run A ι ρ} (hi : st.runs[i]? = some r) (hk : st.runs[k]? = some r')
    {s s' : A.Secret} (hs : .drew s ∈ r.trace) (hs' : .drew s' ∈ r'.trace)
    (heq : S.prims.derive s = S.prims.derive s') : r = r' := by
  obtain rfl := h.draw_unique hi hk hs hs' heq
  exact Option.some.inj (hi.symm.trans hk)

/-- The attacker has not drawn what a run has drawn. -/
theorem Reachable.draw_not_attacker {st : SystemState A ι ρ} (h : S.Reachable st) {i : ℕ}
    {r : Run A ι ρ} (hi : st.runs[i]? = some r) {s s' : A.Secret} (hs : .drew s ∈ r.trace)
    (hs' : s' ∈ st.attackerSecrets) : S.prims.derive s' ≠ S.prims.derive s := by
  induction h generalizing i r s s' with
  | refl => simp at hi
  | tail _ hstep ih =>
      have hdraw := hstep.draw_cases hi hs
      cases hstep with
      | spawn j =>
          obtain ⟨r₀, hr₀, hs₀⟩ | ⟨hfresh, -⟩ := hdraw
          · exact ih hr₀ hs₀ hs'
          · exact hfresh.2 s' hs'
      | act k r₁ ev q hrun hps hallowed hcond =>
          obtain ⟨r₀, hr₀, hs₀⟩ | ⟨hfresh, -⟩ := hdraw
          · exact ih hr₀ hs₀ hs'
          · exact hfresh.2 s' hs'
      | attackerDraw s₁ hfresh₁ =>
          rcases List.mem_cons.mp hs' with rfl | hold
          · exact (hfresh₁ r (List.mem_of_getElem? hi) s hs).symm
          · exact ih hi hs hold

end System

end PeerToPeer.Lib
