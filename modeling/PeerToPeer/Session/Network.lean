import PeerToPeer.Session.Handshake

/-!
Handshakes over a network that belongs to an attacker.

Any number of honest nodes run both roles at once. The attacker delivers what it
likes, holds identity keys of its own, and can neither forge signatures nor
guess ephemeral secrets. Both roles sign the same 64 bytes, the two ephemeral
keys, so a signature says no more than that its maker took part, in some role,
in a run with these two keys; freshness then ties each key to the one run that
drew it.
-/

namespace PeerToPeer

open Lib Crypto Net Protocol

namespace Handshake

/-- The two roles. -/
inductive RoleName where
  | initiator
  | responder
  deriving DecidableEq

/-- Honest nodes with their identity seeds, and the identity keys that the
attacker holds. -/
structure Network (F : Type) [Field25519Ops F] where
  Node : Type
  identitySk : Node → Bytes 32
  attackerKeys : Set (Bytes 32)

namespace Network

variable {F : Type} [Field25519Ops F] (N : Network F)

def identityPk (n : N.Node) : Bytes 32 := Eddsa.derivePublic Sha512 F (N.identitySk n)

/-- What a run is started for: a node and a role. -/
abbrev Job := N.Node × RoleName

def program : N.Job → Role
  | (n, .initiator) => handshakeAsInitiator F (N.identitySk n) (N.identityPk n)
  | (n, .responder) => handshakeAsResponder F (N.identitySk n) (N.identityPk n)

abbrev State := SystemState alphabet N.Job (Option Session)

abbrev HandshakeRun := Run alphabet N.Job (Option Session)

/-- A condition on the steps: on the state before a step, the job and trace of
the run that takes it, and its event. -/
abbrev Condition := N.State → N.Job → List (Event alphabet) → Event alphabet → Prop

/-- All runs of all honest nodes, under a condition on the steps. -/
def system (C : N.Condition) : System alphabet N.Job (Option Session) where
  prims := prims F
  prog := N.program
  attackerKeys := N.attackerKeys
  condition := C

/-- The steps are not restricted. -/
def unrestricted : N.Condition := fun _ _ _ _ => True

/-- The private key of `X` is held by the honest node `n` and by nobody else. -/
structure HeldOnlyBy (n : N.Node) (X : Bytes 32) : Prop where
  holds : N.identityPk n = X
  notAttacker : X ∉ N.attackerKeys
  unique : ∀ n', N.identityPk n' = X → n' = n

variable {N}

/-- The run drew a secret whose public key is `p`. -/
def OwnEph (r : N.HandshakeRun) (p : Bytes 32) : Prop :=
  ∃ e, .drew e ∈ r.trace ∧ X25519.derivePublic F e = p

/-- The frame that an initiator received third holds this HS_RESP. -/
def ReceivedResp (r : N.HandshakeRun) (resp : ParsedHsResp) : Prop :=
  ∃ raw, r.trace[2]? = some (.received (some raw)) ∧ parseHsResp raw = some resp

/-- The frame that a responder received first holds this HS_INIT. -/
def ReceivedInit (r : N.HandshakeRun) (init : ParsedHsInit) : Prop :=
  ∃ raw, r.trace[0]? = some (.received (some raw)) ∧ parseHsInit raw = some init

/-- The frame that a responder received second holds this HS_FINISH. -/
def ReceivedFinish (r : N.HandshakeRun) (finish : ParsedHsFinish) : Prop :=
  ∃ raw, r.trace[4]? = some (.received (some raw)) ∧ parseHsFinish raw = some finish

/-- A run of a node in a role is among the runs of the state. -/
structure HasRun (st : N.State) (r : N.HandshakeRun) (n : N.Node) (role : RoleName) : Prop where
  mem : r ∈ st.runs
  job : r.job = (n, role)

/-! ### The signed data -/

theorem makeSignedData_inj {a b c d : Bytes 32} :
    makeSignedData a b = makeSignedData c d ↔ a = c ∧ b = d := by
  constructor
  · intro h
    have hlist := congrArg Vector.toList h
    simp only [makeSignedData, Vector.toList_append] at hlist
    obtain ⟨h1, h2⟩ := List.append_inj hlist (by simp)
    exact ⟨Vector.toList_inj.mp h1, Vector.toList_inj.mp h2⟩
  · rintro ⟨rfl, rfl⟩
    rfl

/-- The check of HS_FINISH in the trace of a responder. -/
theorem verified_of_responder {r : N.HandshakeRun} {sk pk e : Bytes 32} {raw raw' : Frame}
    {init : ParsedHsInit} {finish : ParsedHsFinish} {u : List (Event alphabet)}
    (htrace : r.trace = responderSigns F sk raw init e ++
      (responderChecks F sk pk init e raw' finish true ++ u)) :
    ∃ t, r.trace = t ++ .verified finish.identityPk
      (makeSignedData init.ephPk (X25519.derivePublic F e)) finish.sig true :: u := by
  refine ⟨responderSigns F sk raw init e ++
    (responderChecks F sk pk init e raw' finish true).take 2, ?_⟩
  rw [htrace]
  rfl

section Runs

variable {C : N.Condition} {st : N.State} (h : (N.system C).Reachable st)

include h

theorem exec_initiator {i : ℕ} {r : N.HandshakeRun} (hi : st.runs[i]? = some r) {n : N.Node}
    (hjob : r.job = (n, .initiator)) :
    Exec (prims F) (handshakeAsInitiator F (N.identitySk n) (N.identityPk n)) r.trace r.proc := by
  have := h.exec hi
  rw [hjob] at this
  exact this

theorem exec_responder {i : ℕ} {r : N.HandshakeRun} (hi : st.runs[i]? = some r) {n : N.Node}
    (hjob : r.job = (n, .responder)) :
    Exec (prims F) (handshakeAsResponder F (N.identitySk n) (N.identityPk n)) r.trace r.proc := by
  have := h.exec hi
  rw [hjob] at this
  exact this

/-- Who can have signed: an initiator over its own key and the one it received,
or a responder over the key it received and its own. -/
theorem signature_source {k : ℕ} {r : N.HandshakeRun} (hk : st.runs[k]? = some r)
    {sk : Bytes 32} {m : Bytes 64} (hsigned : .signed sk m ∈ r.trace) :
    (∃ n e raw resp u, r.job = (n, .initiator) ∧ sk = N.identitySk n ∧
      m = makeSignedData (X25519.derivePublic F e) resp.ephPk ∧ parseHsResp raw = some resp ∧
      r.trace = initiatorSigns F sk e raw resp ++ u) ∨
    ∃ n raw init e u, r.job = (n, .responder) ∧ sk = N.identitySk n ∧
      m = makeSignedData init.ephPk (X25519.derivePublic F e) ∧ parseHsInit raw = some init ∧
      r.trace = responderSigns F sk raw init e ++ u := by
  rcases hjob : r.job with ⟨n, role⟩
  cases role with
  | initiator =>
      obtain ⟨-, hnot, -⟩ | ⟨e, raw, resp, u, hparse, htrace, hu, -⟩ :=
        initiator_cases (exec_initiator h hk hjob)
      · exact absurd hsigned (hnot sk m)
      · have hboth : sk = N.identitySk n ∧ m = signedBy F e resp := by
          rw [htrace] at hsigned
          obtain rfl | ⟨ok, rfl⟩ | ⟨r', rfl⟩ := hu <;> simpa [initiatorSigns] using hsigned
        obtain ⟨rfl, rfl⟩ := hboth
        exact .inl ⟨n, e, raw, resp, u, rfl, rfl, rfl, hparse, htrace⟩
  | responder =>
      obtain ⟨hnot, -⟩ | ⟨raw, init, e, u, hparse, htrace, hu, -⟩ :=
        responder_cases (exec_responder h hk hjob)
      · exact absurd hsigned (hnot sk m)
      · have hboth : sk = N.identitySk n ∧
            m = makeSignedData init.ephPk (X25519.derivePublic F e) := by
          rw [htrace] at hsigned
          obtain rfl | ⟨ok, rfl⟩ | ⟨r', rfl⟩ | ⟨raw', fin, ok, -, rfl⟩ | ⟨raw', fin, ok, -, rfl⟩ :=
            hu <;> simpa [responderSigns, responderChecks] using hsigned
        obtain ⟨rfl, rfl⟩ := hboth
        exact .inr ⟨n, raw, init, e, u, rfl, rfl, rfl, hparse, htrace⟩

/-- A completed initiator, event by event. -/
theorem initiator_returned {i : ℕ} {r : N.HandshakeRun} (hi : st.runs[i]? = some r)
    {a : N.Node} (hjob : r.job = (a, .initiator)) {s : Session} (hret : r.proc = .ret (some s)) :
    ∃ e raw resp ack, parseHsResp raw = some resp ∧ s = initiatorSession F e resp ∧
      (X25519.exchange F e resp.ephPk).isSomePublic = true ∧ getType ack = MsgType.ok.code ∧
      r.trace = initiatorSigns F (N.identitySk a) e raw resp ++
        [.sent (buildHsFinish (N.identityPk a)
          ((prims F).sign (N.identitySk a) (signedBy F e resp))) true, .received (some ack)] := by
  obtain ⟨-, -, hnot⟩ | ⟨e, raw, resp, u, hparse, htrace, -, hdone⟩ :=
    initiator_cases (exec_initiator h hi hjob)
  · exact absurd hret (hnot s)
  · obtain ⟨hsome, hs, ack, hack, rfl⟩ := hdone s hret
    exact ⟨e, raw, resp, ack, hparse, hs, hsome, hack, htrace⟩

/-- A completed responder, event by event. -/
theorem responder_returned {i : ℕ} {r : N.HandshakeRun} (hi : st.runs[i]? = some r)
    {b : N.Node} (hjob : r.job = (b, .responder)) {s : Session} (hret : r.proc = .ret (some s)) :
    ∃ raw init e raw' finish, parseHsInit raw = some init ∧ parseHsFinish raw' = some finish ∧
      s = responderSession F init e finish ∧
      r.trace = responderSigns F (N.identitySk b) raw init e ++
        (responderChecks F (N.identitySk b) (N.identityPk b) init e raw' finish true ++
          [.sent buildOk true]) := by
  obtain ⟨-, -, hnot⟩ | ⟨raw, init, e, u, hparse, htrace, -, hdone⟩ :=
    responder_cases (exec_responder h hi hjob)
  · exact absurd hret (hnot s)
  · obtain ⟨-, raw', finish, hparse', hs, rfl⟩ := hdone s hret
    exact ⟨raw, init, e, raw', finish, hparse, hparse', hs, htrace⟩

/-- A signature that an initiator accepts under a key that the attacker does not
hold was made by a responder, over the same two ephemeral keys. -/
theorem responder_of_accepted {i : ℕ} {r : N.HandshakeRun} (hi : st.runs[i]? = some r)
    {sk e : Bytes 32} {raw : Frame} {resp : ParsedHsResp} {u : List (Event alphabet)}
    (htrace : r.trace = initiatorSigns F sk e raw resp ++ u)
    (hkey : resp.identityPk ∉ N.attackerKeys) :
    ∃ (k : ℕ) (r' : N.HandshakeRun) (n : N.Node) (raw' : Frame) (init : ParsedHsInit)
      (e' : Bytes 32) (u' : List (Event alphabet)), st.runs[k]? = some r' ∧
      r'.job = (n, .responder) ∧ N.identityPk n = resp.identityPk ∧
      parseHsInit raw' = some init ∧ init.ephPk = X25519.derivePublic F e ∧
      X25519.derivePublic F e' = resp.ephPk ∧
      r'.trace = responderSigns F (N.identitySk n) raw' init e' ++ u' := by
  have hsplit : r.trace = [.drew e, .sent (buildHsInit (X25519.derivePublic F e)) true,
      .received (some raw)] ++ .verified resp.identityPk (signedBy F e resp) resp.sig true ::
        (.signed sk (signedBy F e resp) :: u) := by
    rw [htrace]
    rfl
  obtain ⟨k, r', sk', hk, hvk, hsigned, hself⟩ := h.signed_of_verified hi hsplit hkey
  -- the initiator itself had not signed when it checked
  have hki : k ≠ i := by
    intro heq
    simpa using hself heq
  obtain ⟨n, e', raw', resp', u', hjob, rfl, hm, -, htrace'⟩ |
      ⟨n, raw', init, e', u', hjob, rfl, hm, hparse, htrace'⟩ := signature_source h hk hsigned
  · -- another initiator would have drawn the same ephemeral key
    obtain ⟨heph, -⟩ := makeSignedData_inj.mp hm
    have he : .drew e ∈ r.trace := by simp [htrace, initiatorSigns]
    have he' : .drew e' ∈ r'.trace := by simp [htrace', initiatorSigns]
    exact absurd (h.draw_unique hi hk he he' heph).symm hki
  · obtain ⟨heph, heph'⟩ := makeSignedData_inj.mp hm
    exact ⟨k, r', n, raw', init, e', u', hk, hjob, hvk, hparse, heph.symm, heph'.symm, htrace'⟩

/-- A signature that a responder accepts under a key that the attacker does not
hold was made by an initiator, over the same two ephemeral keys, or it is the
responder's own. -/
theorem initiator_of_accepted {i : ℕ} {r : N.HandshakeRun} (hi : st.runs[i]? = some r)
    {b : N.Node} (hjob : r.job = (b, .responder)) {e : Bytes 32} {raw raw' : Frame}
    {init : ParsedHsInit} {finish : ParsedHsFinish} {u : List (Event alphabet)}
    (htrace : r.trace = responderSigns F (N.identitySk b) raw init e ++
      (responderChecks F (N.identitySk b) (N.identityPk b) init e raw' finish true ++ u))
    (hkey : finish.identityPk ∉ N.attackerKeys) :
    (∃ (k : ℕ) (r' : N.HandshakeRun) (n : N.Node) (e' : Bytes 32), st.runs[k]? = some r' ∧
      r'.job = (n, .initiator) ∧ N.identityPk n = finish.identityPk ∧ .drew e' ∈ r'.trace ∧
      X25519.derivePublic F e' = init.ephPk) ∨
    N.identityPk b = finish.identityPk := by
  obtain ⟨t, hsplit⟩ := verified_of_responder htrace
  obtain ⟨k, r', sk, hk, hvk, hsigned, -⟩ := h.signed_of_verified hi hsplit hkey
  obtain ⟨n, e', raw₁, resp, u', hjob', rfl, hm, -, htrace'⟩ |
      ⟨n, raw₁, init', e', u', hjob', rfl, hm, -, htrace'⟩ := signature_source h hk hsigned
  · obtain ⟨heph, -⟩ := makeSignedData_inj.mp hm
    exact .inl ⟨k, r', n, e', hk, hjob', hvk, by simp [htrace', initiatorSigns], heph.symm⟩
  · -- a responder with the same ephemeral key is the run itself
    obtain ⟨-, heph⟩ := makeSignedData_inj.mp hm
    have he : .drew e ∈ r.trace := by simp [htrace, responderSigns]
    have he' : .drew e' ∈ r'.trace := by simp [htrace', responderSigns]
    obtain rfl : r = r' := h.run_eq_of_draw hi hk he he' heph
    rw [hjob] at hjob'
    cases hjob'
    exact .inr hvk

end Runs

/-! ### What the attacker learns -/

/-- The frame depends on an ephemeral secret through its public key `p` only:
the rest is identity keys and signatures over public keys. -/
def PublicFrame (F : Type) [Field25519Ops F] (p : Bytes 32) (f : Frame) : Prop :=
  f = buildHsInit p ∨
  (∃ sk q, f = buildHsResp p (Eddsa.derivePublic Sha512 F sk)
    ((prims F).sign sk (makeSignedData q p))) ∨
  (∃ sk q, f = buildHsFinish (Eddsa.derivePublic Sha512 F sk)
    ((prims F).sign sk (makeSignedData p q))) ∨
  f = buildOk

/-- The attacker knows a secret behind the public key `p`: it has drawn one
itself, or a run that drew one has sent a frame that is not public. -/
inductive KnowsSecretOf (st : N.State) (p : Bytes 32) : Prop where
  | drawn (s : Bytes 32) : s ∈ st.attackerSecrets → X25519.derivePublic F s = p →
      KnowsSecretOf st p
  | leaked (r : N.HandshakeRun) (s : Bytes 32) (f : Frame) (ok : Bool) : r ∈ st.runs →
      .drew s ∈ r.trace → X25519.derivePublic F s = p → .sent f ok ∈ r.trace →
      ¬PublicFrame F p f → KnowsSecretOf st p

section Secrecy

variable {C : N.Condition} {st : N.State} (h : (N.system C).Reachable st)

include h

/-- All frames of a run are public. -/
theorem sent_publicFrame {r : N.HandshakeRun} (hr : r ∈ st.runs) {e : Bytes 32}
    (he : .drew e ∈ r.trace) {f : Frame} {ok : Bool} (hf : .sent f ok ∈ r.trace) :
    PublicFrame F (X25519.derivePublic F e) f := by
  obtain ⟨i, hi⟩ := List.getElem?_of_mem hr
  rcases hjob : r.job with ⟨n, role⟩
  cases role with
  | initiator =>
      obtain ⟨hsent, -⟩ | ⟨e', raw, resp, u, -, htrace, hu, -⟩ :=
        initiator_cases (exec_initiator h hi hjob)
      · exact .inl (hsent e he f ok hf)
      · have hboth : e = e' ∧ (f = buildHsInit (X25519.derivePublic F e') ∨
            f = buildHsFinish (N.identityPk n)
              ((prims F).sign (N.identitySk n) (signedBy F e' resp))) := by
          rw [htrace] at he hf
          obtain rfl | ⟨ok', rfl⟩ | ⟨r', rfl⟩ := hu <;>
            simp [initiatorSigns] at he hf <;> tauto
        obtain ⟨rfl, rfl | rfl⟩ := hboth
        · exact .inl rfl
        · exact .inr (.inr (.inl ⟨N.identitySk n, resp.ephPk, rfl⟩))
  | responder =>
      obtain ⟨-, hsent, -⟩ | ⟨raw, init, e', u, -, htrace, hu, -⟩ :=
        responder_cases (exec_responder h hi hjob)
      · exact absurd hf (hsent f ok)
      · have hboth : e = e' ∧ (f = buildHsResp (X25519.derivePublic F e') (N.identityPk n)
            ((prims F).sign (N.identitySk n)
              (makeSignedData init.ephPk (X25519.derivePublic F e'))) ∨ f = buildOk) := by
          rw [htrace] at he hf
          obtain rfl | ⟨ok', rfl⟩ | ⟨r', rfl⟩ | ⟨raw', fin, ok', -, rfl⟩ |
              ⟨raw', fin, ok', -, rfl⟩ := hu <;>
            simp [responderSigns, responderChecks] at he hf <;> tauto
        obtain ⟨rfl, rfl | rfl⟩ := hboth
        · exact .inr (.inl ⟨N.identitySk n, init.ephPk, rfl⟩)
        · exact .inr (.inr (.inr rfl))

/-- Secrets drawn by honest runs stay unknown. -/
theorem not_knowsSecretOf {r : N.HandshakeRun} (hr : r ∈ st.runs) {e : Bytes 32}
    (he : .drew e ∈ r.trace) : ¬KnowsSecretOf st (X25519.derivePublic F e) := by
  obtain ⟨i, hi⟩ := List.getElem?_of_mem hr
  rintro (⟨s, hs, heq⟩ | ⟨r', s, f, ok, hr', hs, heq, hf, hnot⟩)
  · exact h.draw_not_attacker hi he hs heq
  · rw [← heq] at hnot
    exact hnot (sent_publicFrame h hr' hs hf)

end Secrecy

end Network

end Handshake

end PeerToPeer
