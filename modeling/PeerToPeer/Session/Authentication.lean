import PeerToPeer.Session.Relay

/-!
What a completed handshake says about the other side.

An initiator checks before it signs, so the signature it accepts was made by a
responder: its authentication holds without conditions. A responder signs
before it checks, and may be shown its own signature.
-/

namespace PeerToPeer

open Lib Crypto Net Protocol

namespace Handshake.Network

variable {F : Type} [Field25519Ops F] {N : Network F}

/-! ### Authentication of the responder -/

/-- An initiator that returns a session with the key of one honest node has a
partner there: a responder that received the initiator's ephemeral key and drew
the one that the initiator accepted. Neither secret is known to the attacker. -/
theorem initiator_authentication {st : N.State}
    (h : (N.system N.unrestricted).Reachable st) {r : N.HandshakeRun} {a : N.Node}
    (hr : HasRun st r a .initiator) {s : Session} (hret : r.proc = .ret (some s))
    {b : N.Node} (hb : N.HeldOnlyBy b s.peerIdentityPk) :
    ∃ e resp r' e', .drew e ∈ r.trace ∧ ReceivedResp r resp ∧ s = initiatorSession F e resp ∧
      HasRun st r' b .responder ∧ ReceivedInit r' ⟨X25519.derivePublic F e⟩ ∧
      .drew e' ∈ r'.trace ∧ X25519.derivePublic F e' = resp.ephPk ∧
      ¬KnowsSecretOf st (X25519.derivePublic F e) ∧ ¬KnowsSecretOf st resp.ephPk := by
  obtain ⟨i, hi⟩ := List.getElem?_of_mem hr.mem
  obtain ⟨e, raw, resp, ack, hparse, rfl, -, -, htrace⟩ := initiator_returned h hi hr.job hret
  obtain ⟨k, r', n, raw', init, e', u', hk, hjob', hn, hparse', hinit, heph, htrace'⟩ :=
    responder_of_accepted h hi htrace hb.notAttacker
  obtain rfl := hb.unique n hn
  have he : .drew e ∈ r.trace := by simp [htrace, initiatorSigns]
  have he' : .drew e' ∈ r'.trace := by simp [htrace', responderSigns]
  have hmem' := List.mem_of_getElem? hk
  refine ⟨e, resp, r', e', he, ⟨raw, by simp [htrace, initiatorSigns], hparse⟩, rfl,
    ⟨hmem', hjob'⟩, ⟨raw', by simp [htrace', responderSigns], ?_⟩, he', heph,
    not_knowsSecretOf h hr.mem he, ?_⟩
  · rw [hparse', ← hinit]
  · rw [← heph]
    exact not_knowsSecretOf h hmem' he'

/-- The initiator of an undisturbed handshake has its partner. -/
theorem initiator_authentication_undisturbed :
    ∃ (st : (twoNodes ∅).State) (r' : (twoNodes ∅).HandshakeRun),
      ((twoNodes ∅).system (unrestricted _)).Reachable st ∧ HasRun st r' true .responder ∧
      OwnEph r' undisturbed.exchange.pkB ∧ ¬KnowsSecretOf st undisturbed.exchange.pkB := by
  have hreach := Relay.reachable_completes (R := undisturbed) Relay.completes_unrestricted
  obtain ⟨e, resp, r', e', -, ⟨raw, hraw, hparse⟩, -, hrun, -, he', heph, -, hsecret⟩ :=
    initiator_authentication hreach
      ⟨List.mem_of_getElem? (i := 0) rfl, rfl⟩ rfl (twoNodes_heldOnlyBy true)
  cases hraw
  rw [parseHsResp_buildHsResp] at hparse
  cases hparse
  exact ⟨_, r', hreach, hrun, ⟨e', he', heph⟩, hsecret⟩

/-! ### Authentication of the initiator -/

/-- No responder accepts a signature under its own identity key. -/
def notReflected (N : Network F) : N.Condition := fun _ job _ ev =>
  ∀ b X m sig, job = (b, .responder) → ev = .verified X m sig true → X ≠ N.identityPk b

/-- Some initiator of `n` drew the ephemeral key that the responder `r` received
in HS_INIT. -/
def HasInitiatorFor (st : N.State) (r : N.HandshakeRun) (n : N.Node) : Prop :=
  ∃ init r', ReceivedInit r init ∧ HasRun st r' n .initiator ∧ OwnEph r' init.ephPk

/-- As long as no responder is shown its own signature, one that returns a
session with the key of one honest node has its initiator there. -/
theorem responder_authentication {st : N.State}
    (h : (N.system N.notReflected).Reachable st) {r : N.HandshakeRun} {b : N.Node}
    (hr : HasRun st r b .responder) {s : Session} (hret : r.proc = .ret (some s))
    {n : N.Node} (hn : N.HeldOnlyBy n s.peerIdentityPk) : HasInitiatorFor st r n := by
  obtain ⟨i, hi⟩ := List.getElem?_of_mem hr.mem
  obtain ⟨raw, init, e, raw', finish, hparse, -, rfl, htrace⟩ :=
    responder_returned h hi hr.job hret
  obtain ⟨k, r', n', e', hk, hjob, hn', he', heph⟩ | hown :=
    initiator_of_accepted h hi hr.job htrace hn.notAttacker
  · obtain rfl := hn.unique n' hn'
    exact ⟨init, r', ⟨raw, by simp [htrace, responderSigns], hparse⟩,
      ⟨List.mem_of_getElem? hk, hjob⟩, e', he', heph⟩
  · obtain ⟨t, hsplit⟩ := verified_of_responder htrace
    obtain ⟨st₀, hcond⟩ := h.condition_of_event hi hsplit
    exact absurd hown.symm (hcond b _ _ _ hr.job rfl)

theorem undisturbed_notReflected : undisturbed.Completes (notReflected _) := by
  refine ⟨⟨?_, ?_, ?_⟩, ?_, ?_⟩ <;> intro p q <;>
    simp [System.Along, Exchange.opens, Exchange.answers, Exchange.finishes, Exchange.accepts,
      Exchange.confirmed, notReflected]
  -- the only check of the responder
  rintro - b X m sig rfl rfl - -
  exact twoNodes_identityPk_ne ∅

/-- The responder of an undisturbed handshake has its initiator. -/
theorem responder_authentication_undisturbed :
    ∃ (st : (twoNodes ∅).State) (r : (twoNodes ∅).HandshakeRun),
      ((twoNodes ∅).system (notReflected _)).Reachable st ∧ HasRun st r true .responder ∧
      HasInitiatorFor st r false := by
  have hreach := Relay.reachable_completes undisturbed_notReflected
  exact ⟨_, _, hreach, ⟨List.mem_of_getElem? (i := 1) rfl, rfl⟩,
    responder_authentication hreach
      ⟨List.mem_of_getElem? (i := 1) rfl, rfl⟩ rfl (twoNodes_heldOnlyBy false)⟩

/-- In every network, the attacker alone can make a responder accept the key of
its own node, by sending its signature back to it. -/
theorem reachable_reflected (N : Network Fp) (b : N.Node) {p e : Bytes 32}
    (hshared : (X25519.exchange Fp e p).isSomePublic = true) :
    ∃ t s, (N.system N.unrestricted).Reachable ⟨[⟨(b, .responder), t, .ret (some s)⟩], []⟩ ∧
      s.peerIdentityPk = N.identityPk b := by
  set m := makeSignedData p (X25519.derivePublic Fp e) with hm
  set own : ParsedHsFinish := ⟨N.identityPk b, (prims Fp).sign (N.identitySk b) m⟩ with hown
  have hvalid : (prims Fp).verify own.identityPk m own.sig = true := by
    simp only [prims, hown]
    exact Eddsa.verify_sign_eq_true Sha512 (N.identitySk b) m.toList
  have hexec : Exec (prims Fp) (N.program (b, .responder)) _ _ :=
    responder_exec (parseHsInit_buildHsInit p) hshared
      (parseHsFinish_buildHsFinish own.identityPk own.sig) hvalid
  refine ⟨_, _, System.Reachable.extend (x := ⟨[(N.system N.unrestricted).start (b, .responder)],
    []⟩) (i := 0) (System.Reachable.init.step (.spawn _ (b, RoleName.responder))) (by simp)
    hexec ?_ ?_, rfl⟩
  · refine ⟨fun _ => trivial, fun _ => ?_, fun _ => trivial, fun _ => trivial, fun _ => trivial,
      fun _ => ?_, fun _ => trivial, trivial⟩
    · simp [System.Allowed]
    · exact .inr ⟨_, List.mem_of_getElem? (i := 0) rfl, N.identitySk b, by simp, rfl⟩
  · simp [System.Along, responderSigns, responderChecks, system, unrestricted]

/-- The network of one honest node, whose attacker holds no identity key. -/
def oneNode : Network Fp := ⟨Unit, fun _ => constant 0, ∅⟩

/-- One responder and nobody else: it returns a session with the key of the only
node, which has not run an initiator. -/
theorem responder_authentication_reflected :
    ∃ (st : oneNode.State) (r : oneNode.HandshakeRun) (s : Session),
      (oneNode.system oneNode.unrestricted).Reachable st ∧ HasRun st r () .responder ∧
      r.proc = .ret (some s) ∧ oneNode.HeldOnlyBy () s.peerIdentityPk ∧
      ¬HasInitiatorFor st r () := by
  obtain ⟨t, s, hreach, hs⟩ := reachable_reflected oneNode () exchange_constant_isSome
  refine ⟨_, _, s, hreach, ⟨List.mem_of_getElem? (i := 0) rfl, rfl⟩, rfl,
    ⟨hs.symm, Set.notMem_empty _, fun _ _ => rfl⟩, ?_⟩
  rintro ⟨init, r', -, ⟨hmem, hjob⟩, -⟩
  rw [List.mem_singleton] at hmem
  subst hmem
  cases hjob

end Handshake.Network

end PeerToPeer
