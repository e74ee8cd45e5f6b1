import PeerToPeer.Lib.Process

/-!
Two processes at the ends of a reliable connection.

Each side is deterministic, and what one side sends does not take away what the
other can do. So the steps of the two sides commute, all schedules take the same
number of steps, and one schedule that comes to an end speaks for all of them.
-/

namespace PeerToPeer.Lib

/-! ### Runs of a given length -/

section Steps

variable {α : Type} {R : α → α → Prop}

/-- `n` steps lead from `x` to `y`. -/
def Steps (R : α → α → Prop) : ℕ → α → α → Prop
  | 0, x, y => x = y
  | n + 1, x, y => ∃ z, R x z ∧ Steps R n z y

theorem Steps.trans {m n : ℕ} {x y z : α} (h : Steps R m x y) (h' : Steps R n y z) :
    Steps R (m + n) x z := by
  induction m generalizing x with
  | zero =>
      rw [Steps] at h
      rw [h, Nat.zero_add]
      exact h'
  | succ m ih =>
      obtain ⟨w, hw, h⟩ := h
      rw [Nat.succ_add]
      exact ⟨w, hw, ih h⟩

/-- Two different steps from one state are brought together by one more each. -/
def Commutes (R : α → α → Prop) : Prop :=
  ∀ x y z, R x y → R x z → y = z ∨ ∃ w, R y w ∧ R z w

/-- `t` is the end of every run from `x`: it is final, and there is a bound on
the length of the runs up to which each of them goes on to `t`. -/
def EndsIn (R : α → α → Prop) (x t : α) : Prop :=
  (∀ y, ¬R t y) ∧ ∃ n, ∀ k y, Steps R k x y → k ≤ n ∧ Steps R (n - k) y t

/-- A step leads one step nearer to the end. -/
theorem Steps.descend (hR : Commutes R) {t : α} (ht : ∀ y, ¬R t y) {n : ℕ} {x y : α}
    (h : Steps R n x t) (hy : R x y) : ∃ m, n = m + 1 ∧ Steps R m y t := by
  induction n generalizing x y with
  | zero =>
      rw [Steps] at h
      subst h
      exact absurd hy (ht y)
  | succ n ih =>
      obtain ⟨z, hz, h⟩ := h
      obtain rfl | ⟨w, hyw, hzw⟩ := hR x y z hy hz
      · exact ⟨n, rfl, h⟩
      · obtain ⟨m, rfl, hw⟩ := ih h hzw
        exact ⟨m + 1, rfl, w, hyw, hw⟩

/-- One run that comes to an end speaks for all of them. -/
theorem Steps.endsIn (hR : Commutes R) {t : α} (ht : ∀ y, ¬R t y) {n : ℕ} {x : α}
    (h : Steps R n x t) : EndsIn R x t := by
  refine ⟨ht, n, ?_⟩
  intro k
  induction k generalizing n x with
  | zero =>
      rintro y rfl
      exact ⟨Nat.zero_le _, h⟩
  | succ k ih =>
      rintro y ⟨z, hz, hy⟩
      obtain ⟨m, rfl, hm⟩ := h.descend hR ht hz
      obtain ⟨hle, hrest⟩ := ih hm y hy
      rw [Nat.add_sub_add_right]
      exact ⟨Nat.succ_le_succ hle, hrest⟩

end Steps

/-! ### Two sides -/

/-- How frames travel on a stream of bytes. `next` is the result of waiting for a
frame, when there is nothing to wait for, and what is left of the stream. -/
structure Framing (φ : Type) where
  encode : φ → List UInt8
  next : List UInt8 → Option (Option φ × List UInt8)
  next_append : ∀ {s f rest}, next s = some (f, rest) → ∀ t, next (s ++ t) = some (f, rest ++ t)

variable {A : Alphabet} {ρ : Type}

/-- A connection: the operations of both sides, and the secret that each of them
draws. -/
structure Duplex (A : Alphabet) where
  prims : Primitives A
  framing : Framing A.Frame
  leftSecret : A.Secret
  rightSecret : A.Secret

/-- The two processes, and the bytes on their way to each of them. -/
structure DuplexState (A : Alphabet) (ρ : Type) where
  left : Proc A ρ
  right : Proc A ρ
  toLeft : List UInt8
  toRight : List UInt8

namespace Duplex

variable (D : Duplex A)

/-- The next step of a side: its process, what is left of its inbox, and what it
sends. -/
def advance (secret : A.Secret) : Proc A ρ → List UInt8 →
    Option (Proc A ρ × List UInt8 × List UInt8)
  | .ret _, _ => none
  | .draw k, inbox => some (k secret, inbox, [])
  | .sign sk m k, inbox => some (k (D.prims.sign sk m), inbox, [])
  | .verify pk m sig k, inbox => some (k (D.prims.verify pk m sig), inbox, [])
  | .send f k, inbox => some (k true, inbox, D.framing.encode f)
  | .recv k, inbox => (D.framing.next inbox).map fun (f, rest) => (k f, rest, [])

/-- One step of the connection. -/
inductive Step : DuplexState A ρ → DuplexState A ρ → Prop where
  | left (p q : Proc A ρ) (inbox toRight : List UInt8) {p' inbox' out}
      (h : D.advance D.leftSecret p inbox = some (p', inbox', out)) :
      Step ⟨p, q, inbox, toRight⟩ ⟨p', q, inbox', toRight ++ out⟩
  | right (p q : Proc A ρ) (toLeft inbox : List UInt8) {q' inbox' out}
      (h : D.advance D.rightSecret q inbox = some (q', inbox', out)) :
      Step ⟨p, q, toLeft, inbox⟩ ⟨p, q', toLeft ++ out, inbox'⟩

variable {D}

/-- What arrives later does not change a step. -/
theorem advance_append {secret : A.Secret} {p p' : Proc A ρ} {inbox inbox' out : List UInt8}
    (h : D.advance secret p inbox = some (p', inbox', out)) (more : List UInt8) :
    D.advance secret p (inbox ++ more) = some (p', inbox' ++ more, out) := by
  cases p with
  | ret r => cases h
  | recv k =>
      obtain ⟨⟨f, rest⟩, hnext, heq⟩ := Option.map_eq_some_iff.mp h
      cases heq
      rw [advance, D.framing.next_append hnext]
      rfl
  | draw k | sign sk m k | verify pk m sig k | send f k =>
      cases h
      rfl

/-- The two sides do not disturb each other. -/
theorem step_commutes : Commutes (D.Step (ρ := ρ)) := by
  intro x y z hy hz
  cases hy with
  | left p q inbox toRight h =>
      cases hz with
      | left _ _ _ _ h' =>
          rw [h] at h'
          cases h'
          exact .inl rfl
      | right _ _ _ _ h' =>
          exact .inr ⟨_, .right _ _ _ _ (advance_append h' _), .left _ _ _ _ (advance_append h _)⟩
  | right p q toLeft inbox h =>
      cases hz with
      | left _ _ _ _ h' =>
          exact .inr ⟨_, .left _ _ _ _ (advance_append h' _), .right _ _ _ _ (advance_append h _)⟩
      | right _ _ _ _ h' =>
          rw [h] at h'
          cases h'
          exact .inl rfl

theorem not_step_ret {r r' : ρ} {toLeft toRight : List UInt8} (y : DuplexState A ρ) :
    ¬D.Step ⟨.ret r, .ret r', toLeft, toRight⟩ y := by
  intro h
  cases h with
  | left _ _ _ _ h => cases h
  | right _ _ _ _ h => cases h

/-! ### Playing a trace -/

/-- The events fit the connection: from the inbox to what is left of it, sending
`out`. -/
inductive Plays (F : Framing A.Frame) (secret : A.Secret) :
    List (Event A) → List UInt8 → List UInt8 → List UInt8 → Prop where
  | nil (inbox) : Plays F secret [] inbox inbox []
  | drew {t inbox inbox' out} : Plays F secret t inbox inbox' out →
      Plays F secret (.drew secret :: t) inbox inbox' out
  | signed (sk m) {t inbox inbox' out} : Plays F secret t inbox inbox' out →
      Plays F secret (.signed sk m :: t) inbox inbox' out
  | verified (pk m sig ok) {t inbox inbox' out} : Plays F secret t inbox inbox' out →
      Plays F secret (.verified pk m sig ok :: t) inbox inbox' out
  | sent (f) {t inbox inbox' out} : Plays F secret t inbox inbox' out →
      Plays F secret (.sent f true :: t) inbox inbox' (F.encode f ++ out)
  | received (f) {t inbox rest inbox' out} : F.next inbox = some (f, rest) →
      Plays F secret t rest inbox' out → Plays F secret (.received f :: t) inbox inbox' out

/-- The left side plays a trace. -/
theorem steps_left {p p' q : Proc A ρ} {t : List (Event A)} (hexec : Exec D.prims p t p')
    {inbox inbox' out : List UInt8} (hplays : Plays D.framing D.leftSecret t inbox inbox' out)
    (toRight : List UInt8) :
    Steps D.Step t.length ⟨p, q, inbox, toRight⟩ ⟨p', q, inbox', toRight ++ out⟩ := by
  induction hplays generalizing p toRight with
  | nil inbox =>
      cases hexec
      rw [List.append_nil]
      rfl
  | drew _ ih | signed _ _ _ ih | verified _ _ _ _ _ ih =>
      cases hexec with
      | cons hstep hexec =>
          cases hstep
          refine ⟨_, .left _ _ _ _ rfl, ?_⟩
          simpa using ih hexec toRight
  | sent f _ ih =>
      cases hexec with
      | cons hstep hexec =>
          cases hstep
          refine ⟨_, .left _ _ _ _ rfl, ?_⟩
          simpa using ih hexec (toRight ++ D.framing.encode f)
  | received f hnext _ ih =>
      cases hexec with
      | cons hstep hexec =>
          cases hstep
          refine ⟨_, .left _ _ _ _ (by rw [advance, hnext]; rfl), ?_⟩
          simpa using ih hexec toRight

/-! ### The two sides change places -/

/-- The connection seen from the other end. -/
def swap (D : Duplex A) : Duplex A :=
  { D with leftSecret := D.rightSecret, rightSecret := D.leftSecret }

end Duplex

/-- The state seen from the other end. -/
def DuplexState.swap (st : DuplexState A ρ) : DuplexState A ρ :=
  ⟨st.right, st.left, st.toRight, st.toLeft⟩

namespace Duplex

variable {D : Duplex A}

theorem Step.swap {x y : DuplexState A ρ} (h : D.swap.Step x y) : D.Step x.swap y.swap := by
  cases h with
  | left p q inbox toRight h => exact .right _ _ _ _ h
  | right p q toLeft inbox h => exact .left _ _ _ _ h

theorem steps_swap {n : ℕ} {x y : DuplexState A ρ} (h : Steps D.swap.Step n x y) :
    Steps D.Step n x.swap y.swap := by
  induction n generalizing x with
  | zero =>
      rw [Steps] at h
      rw [h]
      rfl
  | succ n ih =>
      obtain ⟨z, hz, h⟩ := h
      exact ⟨z.swap, hz.swap, ih h⟩

/-- The right side plays a trace. -/
theorem steps_right {p q q' : Proc A ρ} {t : List (Event A)} (hexec : Exec D.prims q t q')
    {inbox inbox' out : List UInt8} (hplays : Plays D.framing D.rightSecret t inbox inbox' out)
    (toLeft : List UInt8) :
    Steps D.Step t.length ⟨p, q, toLeft, inbox⟩ ⟨p, q', toLeft ++ out, inbox'⟩ :=
  steps_swap (steps_left (D := D.swap) (q := p) hexec hplays toLeft)

end Duplex

end PeerToPeer.Lib
