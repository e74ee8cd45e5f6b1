import PeerToPeer.Node.Integrity
import PeerToPeer.Session.Authentication

/-!
From the handshake to the messages.

A run that was shown the key of one honest node has a partner there, in the other role,
which has seen the same two ephemeral keys. If the partner completes as well, the keys of
the two sessions are mirrored, and the attacker knows neither secret. Whatever the thread
of the connection delivers then was sent by the partner.
-/

namespace PeerToPeer

open Lib Crypto Net Protocol Node

namespace Handshake

/-- The role of the other side. -/
def RoleName.other : RoleName → RoleName
  | .initiator => .responder
  | .responder => .initiator

namespace Network

variable {F : Type} [Field25519Ops F] {N : Network F}

/-- Under this condition a run in this role is not shown its own signature. An initiator
never is. -/
def NotReflectedFor (C : N.Condition) (role : RoleName) : Prop :=
  role = .responder → ∀ st job t ev, C st job t ev → N.notReflected st job t ev

section Signers

variable {C : N.Condition} {st : N.State} (h : (N.system C).Reachable st)

include h

/-- A signature that a responder accepts under a key that the attacker does not hold, and
that is not its own, was made by an initiator that accepted the responder's ephemeral key. -/
theorem initiator_signed_of_accepted {i : ℕ} {r : N.HandshakeRun} (hi : st.runs[i]? = some r)
    {b : N.Node} (hjob : r.job = (b, .responder)) {e : Bytes 32} {raw raw' : Frame}
    {init : ParsedHsInit} {finish : ParsedHsFinish} {u : List (Event alphabet)}
    (htrace : r.trace = responderSigns F (N.identitySk b) raw init e ++
      (responderChecks F (N.identitySk b) (N.identityPk b) init e raw' finish true ++ u))
    (hkey : finish.identityPk ∉ N.attackerKeys) (hown : N.identityPk b ≠ finish.identityPk) :
    ∃ (k : ℕ) (r' : N.HandshakeRun) (n : N.Node) (e' : Bytes 32) (raw₁ : Frame)
      (resp : ParsedHsResp) (u' : List (Event alphabet)), st.runs[k]? = some r' ∧
      r'.job = (n, .initiator) ∧ N.identityPk n = finish.identityPk ∧
      parseHsResp raw₁ = some resp ∧ X25519.derivePublic F e' = init.ephPk ∧
      resp.ephPk = X25519.derivePublic F e ∧
      r'.trace = initiatorSigns F (N.identitySk n) e' raw₁ resp ++ u' := by
  obtain ⟨t, hsplit⟩ := verified_of_responder htrace
  obtain ⟨k, r', sk, hk, hvk, hsigned, -⟩ := h.signed_of_verified hi hsplit hkey
  obtain ⟨n, e', raw₁, resp, u', hjob', rfl, hm, hparse, htrace'⟩ |
      ⟨n, raw₁, init', e', u', hjob', rfl, hm, -, htrace'⟩ := signature_source h hk hsigned
  · obtain ⟨heph, heph'⟩ := makeSignedData_inj.mp hm
    exact ⟨k, r', n, e', raw₁, resp, u', hk, hjob', hvk, hparse, heph.symm, heph'.symm, htrace'⟩
  · -- a responder with the same ephemeral key is the run itself
    obtain ⟨-, heph⟩ := makeSignedData_inj.mp hm
    have he : .drew e ∈ r.trace := by simp [htrace, responderSigns]
    have he' : .drew e' ∈ r'.trace := by simp [htrace', responderSigns]
    obtain rfl : r = r' := h.run_eq_of_draw hi hk he he' heph
    rw [hjob] at hjob'
    cases hjob'
    exact absurd hvk hown

end Signers

/-! ### The partner -/

/-- The run `r'` holds the other end of the session `s`: it has drawn the ephemeral key that
was accepted for `s`, and any session of its own is mirrored. -/
structure PartnerOf (st : N.State) (r' : N.HandshakeRun) (s : Session) : Prop where
  drew : ∃ e, .drew e ∈ r'.trace ∧ ¬KnowsSecretOf st (X25519.derivePublic F e)
  mirrored : ∀ s', r'.proc = .ret (some s') → Session.Mirrored s s'

section Mirrored

variable {N : Network Fp} {C : N.Condition} {st : N.State} (h : (N.system C).Reachable st)

include h

/-- The partner of an initiator. -/
theorem partner_of_initiator {r : N.HandshakeRun} {a : N.Node} (hr : HasRun st r a .initiator)
    {s : Session} (hret : r.proc = .ret (some s)) {b : N.Node}
    (hb : N.HeldOnlyBy b s.peerIdentityPk) :
    ∃ r', HasRun st r' b .responder ∧ PartnerOf st r' s := by
  obtain ⟨i, hi⟩ := List.getElem?_of_mem hr.mem
  obtain ⟨e, raw, resp, ack, -, rfl, -, -, htrace⟩ := initiator_returned h hi hr.job hret
  obtain ⟨k, r', n, raw', init, e', u', hk, hjob', hn, hparse', hinit, heph, htrace'⟩ :=
    responder_of_accepted h hi htrace hb.notAttacker
  obtain rfl := hb.unique n hn
  have he' : .drew e' ∈ r'.trace := by simp [htrace', responderSigns]
  have hmem' := List.mem_of_getElem? hk
  refine ⟨r', ⟨hmem', hjob'⟩, ⟨e', he', not_knowsSecretOf h hmem' he'⟩, fun s' hret' => ?_⟩
  obtain ⟨raw₁, init₁, e₁, raw₂, finish, hparse₁, -, rfl, htrace₁⟩ :=
    responder_returned h hk hjob' hret'
  -- it has gone on from the same HS_INIT, with the same secret
  rw [htrace₁] at htrace'
  simp only [responderSigns, List.cons_append, List.cons.injEq, Event.received.injEq,
    Option.some.injEq, Event.drew.injEq] at htrace'
  obtain ⟨rfl, rfl, -⟩ := htrace'
  obtain rfl := Option.some.inj (hparse₁.symm.trans hparse')
  have hcomm : X25519.exchange Fp e₁ init₁.ephPk = X25519.exchange Fp e resp.ephPk := by
    rw [hinit, ← heph]
    exact X25519.exchange_comm e₁ e
  constructor <;> simp only [initiatorSession, responderSession, hcomm]

/-- The partner of a responder that was not shown its own signature. -/
theorem partner_of_responder {r : N.HandshakeRun} {b : N.Node} (hr : HasRun st r b .responder)
    (hC : NotReflectedFor C .responder) {s : Session} (hret : r.proc = .ret (some s))
    {a : N.Node} (ha : N.HeldOnlyBy a s.peerIdentityPk) :
    ∃ r', HasRun st r' a .initiator ∧ PartnerOf st r' s := by
  obtain ⟨i, hi⟩ := List.getElem?_of_mem hr.mem
  obtain ⟨raw, init, e, raw', finish, -, -, rfl, htrace⟩ := responder_returned h hi hr.job hret
  have hown : N.identityPk b ≠ finish.identityPk := by
    obtain ⟨t, hsplit⟩ := verified_of_responder htrace
    obtain ⟨st₀, hcond⟩ := h.condition_of_event hi hsplit
    exact (hC rfl _ _ _ _ hcond b _ _ _ hr.job rfl).symm
  obtain ⟨k, r', n, e', raw₁, resp, u', hk, hjob', hn, hparse', heph, heph', htrace'⟩ :=
    initiator_signed_of_accepted h hi hr.job htrace ha.notAttacker hown
  obtain rfl := ha.unique n hn
  have he' : .drew e' ∈ r'.trace := by simp [htrace', initiatorSigns]
  have hmem' := List.mem_of_getElem? hk
  refine ⟨r', ⟨hmem', hjob'⟩, ⟨e', he', not_knowsSecretOf h hmem' he'⟩, fun s' hret' => ?_⟩
  obtain ⟨e₁, raw₂, resp₁, ack, hparse₁, rfl, -, -, htrace₁⟩ :=
    initiator_returned h hk hjob' hret'
  -- it has gone on from the same HS_RESP, with the same secret
  rw [htrace₁] at htrace'
  simp only [initiatorSigns, List.cons_append, List.cons.injEq, Event.received.injEq,
    Option.some.injEq, Event.drew.injEq] at htrace'
  obtain ⟨rfl, -, rfl, -⟩ := htrace'
  obtain rfl := Option.some.inj (hparse₁.symm.trans hparse')
  have hcomm : X25519.exchange Fp e₁ resp₁.ephPk = X25519.exchange Fp e init.ephPk := by
    rw [heph', ← heph]
    exact X25519.exchange_comm e₁ e
  constructor <;> simp only [initiatorSession, responderSession, hcomm]

/-- Every completed run with the key of one honest node has its partner there. -/
theorem exists_partner {r : N.HandshakeRun} {a : N.Node} {role : RoleName}
    (hr : HasRun st r a role) (hC : NotReflectedFor C role) {s : Session}
    (hret : r.proc = .ret (some s)) {b : N.Node} (hb : N.HeldOnlyBy b s.peerIdentityPk) :
    ∃ r', HasRun st r' b role.other ∧ PartnerOf st r' s := by
  cases role with
  | initiator =>
      exact partner_of_initiator h hr hret hb
  | responder =>
      exact partner_of_responder h hr hC hret hb

end Mirrored

/-! ### Messages of the partner -/

/-- The frames of a run that has sent `ps` over its session, if it has one. -/
def sentBy (r : N.HandshakeRun) (ps : List (List UInt8)) : List Frame :=
  match r.proc with
  | .ret (some s) => s.sentFrames ps
  | _ => []

/-- The other end of a session. -/
def otherEnd (s : Session) : Session := { s with kSend := s.kRecv, kRecv := s.kSend }

/-- The frames of a partner are those of the other end of the session, or none. -/
theorem unforged_otherEnd {st : N.State} {r' : N.HandshakeRun} {s : Session}
    (hpartner : PartnerOf st r' s) {ps : List (List UInt8)} {stream : List UInt8}
    (hforge : s.Unforged (sentBy r' ps) stream.length stream) :
    ∃ a : Session, a.kSend = s.kRecv ∧ s.Unforged (a.sentFrames ps) stream.length stream := by
  by_cases hret : ∃ s', r'.proc = .ret (some s')
  · obtain ⟨s', hret⟩ := hret
    refine ⟨s', (hpartner.mirrored s' hret).recv.symm, fun f hf => ?_⟩
    have hsent := hforge f hf
    rwa [sentBy, hret] at hsent
  · have hnone : sentBy r' ps = [] := by
      rw [sentBy]
      split
      · rename_i s' heq
        exact absurd ⟨s', heq⟩ hret
      · rfl
    refine ⟨otherEnd s, rfl, fun f hf => .inr ?_⟩
    have hsent := hforge f hf
    rw [hnone] at hsent
    exact hsent.resolve_left (List.not_mem_nil)

/-- A node that has completed a handshake with the key of one honest node delivers on that
connection, under the name of that node, nothing but what the partner there has sent; and
nothing more often than it was sent, unless a frame is taken twice. -/
theorem delivered_by_partner {N : Network Fp} {C : N.Condition} {st : N.State}
    (h : (N.system C).Reachable st) {r : N.HandshakeRun} {a : N.Node} {role : RoleName}
    (hr : HasRun st r a role) (hC : NotReflectedFor C role) {s : Session}
    (hret : r.proc = .ret (some s)) {b : N.Node} (hb : N.HeldOnlyBy b s.peerIdentityPk) :
    ∃ r', HasRun st r' b role.other ∧ PartnerOf st r' s ∧
      ∀ (t : Traffic) (stream : List UInt8),
        s.Unforged (sentBy r' (Message.allPlaintexts t.msgs)) stream.length stream →
        (∀ e ∈ recvLoop s stream .empty,
          ∃ x ∈ t.msgs, e = ⟨pkHex (N.identityPk b), x.2.data⟩) ∧
        ((framesTaken stream).Nodup → (recvLoop s stream .empty).Subperm
          (t.msgs.map fun x => ⟨pkHex (N.identityPk b), x.2.data⟩)) := by
  obtain ⟨r', hr', hpartner⟩ := exists_partner h hr hC hret hb
  refine ⟨r', hr', hpartner, fun t stream hforge => ?_⟩
  obtain ⟨s', hkeys, hforge'⟩ := unforged_otherEnd hpartner hforge
  rw [hb.holds]
  exact ⟨t.mem_of_mem_recvLoop hkeys hforge', t.recvLoop_subperm hkeys hforge'⟩

theorem length_sentBy_le {r : N.HandshakeRun} {f : Frame}
    (hf : f ∈ sentBy r (Message.allPlaintexts Traffic.textAndFile.msgs)) : f.length ≤ maxFrame := by
  rw [sentBy] at hf
  split at hf
  · obtain ⟨m, hm, hlen⟩ := Session.length_mem_sentFrames hf
    obtain ⟨-, hbound⟩ := Message.allPlaintexts_bound Traffic.textAndFile.clean m hm
    rw [hlen, maxFrame]
    omega
  · cases hf

/-- The responder of an undisturbed handshake has its partner, and delivers what that sends. -/
theorem delivered_by_partner_undisturbed :
    ∃ (st : (twoNodes ∅).State) (r r' : (twoNodes ∅).HandshakeRun) (s : Session),
      ((twoNodes ∅).system (notReflected _)).Reachable st ∧ HasRun st r true .responder ∧
      r.proc = .ret (some s) ∧ HasRun st r' false .initiator ∧ PartnerOf st r' s ∧
      ∀ e ∈ recvLoop s ((sentBy r' (Message.allPlaintexts Traffic.textAndFile.msgs)).flatMap
          frameBytes) .empty,
        ∃ x ∈ Traffic.textAndFile.msgs, e = ⟨pkHex ((twoNodes ∅).identityPk false), x.2.data⟩ := by
  have hreach := Relay.reachable_completes undisturbed_notReflected
  obtain ⟨r', hr', hpartner, hdelivered⟩ :=
    delivered_by_partner hreach ⟨List.mem_of_getElem? (i := 1) rfl, rfl⟩
      (fun _ _ _ _ _ hc => hc) rfl (twoNodes_heldOnlyBy false)
  refine ⟨_, _, r', _, hreach, ⟨List.mem_of_getElem? (i := 1) rfl, rfl⟩, rfl, hr', hpartner, ?_⟩
  refine (hdelivered .textAndFile _ fun f hf => .inl ?_).1
  rwa [← framesTaken, Traffic.framesTaken_flatMap fun f hf => length_sentBy_le hf] at hf

end Network

end Handshake

end PeerToPeer
