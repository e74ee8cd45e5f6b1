import PeerToPeer.Session.Relay

/-!
What two completed handshakes agree on.

The identities travel beside the signed data, so an attacker can put its own
identity and signature in the place of those of a node and leave the ephemeral
keys as they are. Two runs that share their keys agree on the identities exactly
when nothing of the kind has happened. The final OK is not signed at all, and
says something about the responder only if the responder has sent it.
-/

namespace PeerToPeer

open Lib Crypto Net Protocol

namespace Handshake.Network

variable {F : Type} [Field25519Ops F] {N : Network F}

/-- The two runs derive their sessions from the same ephemeral keys. -/
def SamePair (rA rB : N.HandshakeRun) : Prop :=
  ∃ resp init, ReceivedResp rA resp ∧ ReceivedInit rB init ∧ OwnEph rA init.ephPk ∧
    OwnEph rB resp.ephPk

/-! ### What the completed runs hold -/

section Completed

variable {r : N.HandshakeRun} {sk pk e : Bytes 32} {raw raw' : Frame} {u : List (Event alphabet)}

theorem receivedResp_iff {resp resp' : ParsedHsResp} (hparse : parseHsResp raw = some resp)
    (htrace : r.trace = initiatorSigns F sk e raw resp ++ u) :
    ReceivedResp r resp' ↔ resp' = resp := by
  simp [ReceivedResp, htrace, initiatorSigns, hparse, eq_comm]

theorem receivedInit_iff {init init' : ParsedHsInit} (hparse : parseHsInit raw = some init)
    (htrace : r.trace = responderSigns F sk raw init e ++ u) :
    ReceivedInit r init' ↔ init' = init := by
  simp [ReceivedInit, htrace, responderSigns, hparse, eq_comm]

theorem receivedFinish_iff {init : ParsedHsInit} {finish finish' : ParsedHsFinish}
    (hparse : parseHsFinish raw' = some finish)
    (htrace : r.trace = responderSigns F sk raw init e ++
      (responderChecks F sk pk init e raw' finish true ++ u)) :
    ReceivedFinish r finish' ↔ finish' = finish := by
  simp [ReceivedFinish, htrace, responderSigns, responderChecks, hparse, eq_comm]

end Completed

/-! ### Identities -/

/-- Two completed runs with the same ephemeral keys agree on both identities
exactly when neither was shown an identity key of the attacker and the responder
was not shown its own. -/
theorem identity_agreement_iff {st : N.State} (h : (N.system N.unrestricted).Reachable st)
    {rA rB : N.HandshakeRun} {a b : N.Node} (hA : HasRun st rA a .initiator)
    (hB : HasRun st rB b .responder) {sA sB : Session} (hretA : rA.proc = .ret (some sA))
    (hretB : rB.proc = .ret (some sB)) (hpair : SamePair rA rB)
    (ha : N.identityPk a ∉ N.attackerKeys) (hb : N.identityPk b ∉ N.attackerKeys)
    {resp : ParsedHsResp} {finish : ParsedHsFinish} (hresp : ReceivedResp rA resp)
    (hfinish : ReceivedFinish rB finish) :
    (sA.peerIdentityPk = N.identityPk b ∧ sB.peerIdentityPk = N.identityPk a) ↔
      resp.identityPk ∉ N.attackerKeys ∧ finish.identityPk ∉ N.attackerKeys ∧
        (finish.identityPk = N.identityPk b → N.identityPk a = N.identityPk b) := by
  obtain ⟨i, hi⟩ := List.getElem?_of_mem hA.mem
  obtain ⟨k, hk⟩ := List.getElem?_of_mem hB.mem
  obtain ⟨e, raw, resp₀, ack, hparse, rfl, -, -, htrace⟩ := initiator_returned h hi hA.job hretA
  obtain ⟨raw₁, init, e', raw₂, finish₀, hparse₁, hparse₂, rfl, htrace'⟩ :=
    responder_returned h hk hB.job hretB
  obtain rfl := (receivedResp_iff hparse htrace).mp hresp
  obtain rfl := (receivedFinish_iff hparse₂ htrace').mp hfinish
  obtain ⟨resp', init', hresp', hinit', hown, hown'⟩ := hpair
  obtain rfl := (receivedResp_iff hparse htrace).mp hresp'
  obtain rfl := (receivedInit_iff hparse₁ htrace').mp hinit'
  change resp'.identityPk = N.identityPk b ∧ finish.identityPk = N.identityPk a ↔ _
  constructor
  · rintro ⟨h1, h2⟩
    rw [h1, h2]
    exact ⟨hb, ha, fun heq => heq⟩
  · rintro ⟨hX, hY, hself⟩
    constructor
    · obtain ⟨k', r', n, _, _, e₁, _, hk', hjob', hn, -, -, heph, htrace₁⟩ :=
        responder_of_accepted h hi htrace hX
      obtain ⟨e₂, he₂, heq⟩ := hown'
      have he₁ : .drew e₁ ∈ r'.trace := by simp [htrace₁, responderSigns]
      obtain rfl : rB = r' := h.run_eq_of_draw hk hk' he₂ he₁ (heq.trans heph.symm)
      rw [hB.job] at hjob'
      cases hjob'
      exact hn.symm
    · obtain ⟨k', r', n, e₁, hk', hjob', hn, he₁, heph⟩ | hsame :=
        initiator_of_accepted h hk hB.job htrace' hY
      · obtain ⟨e₂, he₂, heq⟩ := hown
        obtain rfl : rA = r' := h.run_eq_of_draw hi hk' he₂ he₁ (heq.trans heph.symm)
        rw [hA.job] at hjob'
        cases hjob'
        exact hn.symm
      · rw [hself hsame.symm, hsame]

/-- The runs of a relayed handshake have the same ephemeral keys. -/
theorem relay_samePair {N : Network Fp} (R : Relay N) {p q : Role} :
    SamePair (N := N)
      ⟨(R.a, .initiator), R.exchange.opens ++ R.exchange.finishes ++ Exchange.confirmed, p⟩
      ⟨(R.b, .responder), R.exchange.answers ++ R.exchange.accepts, q⟩ := by
  refine ⟨R.exchange.resp, ⟨R.exchange.pkA⟩, ⟨_, rfl, parseHsResp_buildHsResp _ _ _⟩,
    ⟨_, rfl, parseHsInit_buildHsInit _⟩, ⟨R.exchange.ephA, ?_, rfl⟩,
    R.exchange.ephB, ?_, rfl⟩
  · simp [Exchange.opens]
  · simp [Exchange.answers]

/-- The two runs of an undisturbed handshake agree. -/
theorem identity_agreement_iff_undisturbed :
    (initiatorSession Fp undisturbed.ephA undisturbed.exchange.resp).peerIdentityPk =
        (twoNodes ∅).identityPk true ∧
      (responderSession Fp ⟨undisturbed.exchange.pkA⟩ undisturbed.ephB
          undisturbed.exchange.finish).peerIdentityPk =
        (twoNodes ∅).identityPk false :=
  (identity_agreement_iff
    (Relay.reachable_completes (R := undisturbed) Relay.completes_unrestricted)
    ⟨List.mem_of_getElem? (i := 0) rfl, rfl⟩ ⟨List.mem_of_getElem? (i := 1) rfl, rfl⟩ rfl rfl
    (relay_samePair undisturbed) (Set.notMem_empty _) (Set.notMem_empty _)
    ⟨_, rfl, parseHsResp_buildHsResp _ _ _⟩ ⟨_, rfl, parseHsFinish_buildHsFinish _ _⟩).mpr
    ⟨Set.notMem_empty _, Set.notMem_empty _, fun h => absurd h (twoNodes_identityPk_ne ∅)⟩

/-- The identity key of the attacker. -/
def attackerPk : Bytes 32 := Eddsa.derivePublic Sha512 Fp (constant 2)

/-- The attacker shows its own identity to the initiator, with the ephemeral key
of the responder. -/
def misbound : Relay (twoNodes {attackerPk}) where
  a := false
  b := true
  ephA := constant 0
  ephB := constant 1
  shownToA := constant 2
  shownToB := constant 0
  distinct := derivePublic_constant_ne
  shared := exchange_constant_isSome
  signsForA := .inl rfl
  signsForB := .inr rfl

theorem attackerPk_ne (n : Bool) : (twoNodes {attackerPk}).identityPk n ≠ attackerPk := by
  have h := identities_nodup
  simp only [List.map_cons, List.map_nil, List.nodup_cons, List.mem_cons, not_or] at h
  cases n
  · exact h.1.2.1
  · exact h.2.1.1

/-- Two honest nodes share their session keys; the responder takes the initiator
for what it is, and the initiator takes the responder for the attacker. -/
theorem identity_agreement_misbound :
    ∃ (st : (twoNodes {attackerPk}).State) (rA rB : (twoNodes {attackerPk}).HandshakeRun)
      (sA sB : Session), ((twoNodes {attackerPk}).system (unrestricted _)).Reachable st ∧
      HasRun st rA false .initiator ∧ HasRun st rB true .responder ∧
      rA.proc = .ret (some sA) ∧ rB.proc = .ret (some sB) ∧ SamePair rA rB ∧
      (twoNodes {attackerPk}).identityPk false ∉ (twoNodes {attackerPk}).attackerKeys ∧
      (twoNodes {attackerPk}).identityPk true ∉ (twoNodes {attackerPk}).attackerKeys ∧
      sB.peerIdentityPk = (twoNodes {attackerPk}).identityPk false ∧
      sA.peerIdentityPk ≠ (twoNodes {attackerPk}).identityPk true :=
  ⟨_, _, _, _, _, Relay.reachable_completes (R := misbound) Relay.completes_unrestricted,
    ⟨List.mem_of_getElem? (i := 0) rfl, rfl⟩, ⟨List.mem_of_getElem? (i := 1) rfl, rfl⟩, rfl, rfl,
    relay_samePair misbound, attackerPk_ne false, attackerPk_ne true, rfl,
    (attackerPk_ne true).symm⟩

/-! ### The final OK -/

/-- An initiator that waits for the OK of an honest node gets an OK only after
the responder that it talks to has sent one. -/
def okFromResponder (N : Network F) : N.Condition := fun st job t ev =>
  ∀ a b raw resp ack, job = (a, .initiator) → t.length = 6 →
    t[2]? = some (.received (some raw)) → parseHsResp raw = some resp →
    N.HeldOnlyBy b resp.identityPk → ev = .received (some ack) →
    getType ack = MsgType.ok.code →
    ∃ (k : ℕ) (r : N.HandshakeRun) (n : N.Node) (ok : Bool), st.runs[k]? = some r ∧
      r.job = (n, .responder) ∧ OwnEph r resp.ephPk ∧ .sent buildOk ok ∈ r.trace

theorem okFromResponder_mono {C : N.Condition} {st st' : N.State} {j : N.Job}
    {t : List (Event alphabet)} {ev : Event alphabet} (hs : (N.system C).Step st st')
    (h : N.okFromResponder st j t ev) : N.okFromResponder st' j t ev := by
  intro a b raw resp ack hjob hlen hraw hparse hb hev hack
  obtain ⟨k, r, n, ok, hk, hjobr, ⟨e, he, heph⟩, hsent⟩ :=
    h a b raw resp ack hjob hlen hraw hparse hb hev hack
  obtain ⟨r', hk', hjob', hprefix⟩ := hs.run_mono hk
  exact ⟨k, r', n, ok, hk', hjob'.trans hjobr, ⟨e, hprefix.subset he, heph⟩,
    hprefix.subset hsent⟩

/-- The run received an HS_FINISH with a signature over `m` and found it valid. -/
def AcceptedFinish (r : N.HandshakeRun) (m : Bytes 64) : Prop :=
  ∃ raw finish, .received (some raw) ∈ r.trace ∧ parseHsFinish raw = some finish ∧
    .verified finish.identityPk m finish.sig true ∈ r.trace

/-- Some responder of `b` has the same ephemeral keys as the initiator `r` and
has accepted its HS_FINISH. -/
def ConfirmedBy (st : N.State) (r : N.HandshakeRun) (b : N.Node) : Prop :=
  ∃ e resp r', .drew e ∈ r.trace ∧ ReceivedResp r resp ∧ HasRun st r' b .responder ∧
    ReceivedInit r' ⟨X25519.derivePublic F e⟩ ∧ OwnEph r' resp.ephPk ∧
    AcceptedFinish r' (makeSignedData (X25519.derivePublic F e) resp.ephPk)

/-- A responder sends its OK only after it has accepted HS_FINISH. -/
theorem acceptedFinish_of_sent {C : N.Condition} {st : N.State} (h : (N.system C).Reachable st)
    {k : ℕ} {r : N.HandshakeRun} (hk : st.runs[k]? = some r) {n : N.Node}
    (hjob : r.job = (n, .responder)) {raw : Frame} {init : ParsedHsInit} {e : Bytes 32}
    {u : List (Event alphabet)}
    (htrace : r.trace = responderSigns F (N.identitySk n) raw init e ++ u) {ok : Bool}
    (hsent : .sent buildOk ok ∈ r.trace) :
    AcceptedFinish r (makeSignedData init.ephPk (X25519.derivePublic F e)) := by
  have hne : ∀ p q sig, buildOk ≠ buildHsResp p q sig := by
    intro p q sig heq
    simpa [buildOk, length_buildHsResp] using congrArg List.length heq
  obtain ⟨-, hnot, -⟩ | ⟨raw', init', e', u', -, htrace', hu, -⟩ :=
    responder_cases (exec_responder h hk hjob)
  · exact absurd hsent (hnot _ _)
  · have hm : makeSignedData init.ephPk (X25519.derivePublic F e) =
        makeSignedData init'.ephPk (X25519.derivePublic F e') := by
      rw [htrace] at htrace'
      simp only [responderSigns, List.cons_append, List.cons.injEq, Event.signed.injEq] at htrace'
      exact htrace'.2.2.1.2
    rw [hm]
    rw [htrace'] at hsent
    obtain rfl | ⟨ok', rfl⟩ | ⟨raw₁, rfl⟩ | ⟨raw₁, finish, ok', -, rfl⟩ |
        ⟨raw₁, finish, ok', hparse, rfl⟩ := hu
    · simp [responderSigns] at hsent
    · simp [responderSigns, hne] at hsent
    · simp [responderSigns, hne] at hsent
    · simp [responderSigns, responderChecks, hne] at hsent
    · exact ⟨raw₁, finish, by simp [htrace', responderChecks], hparse,
        by simp [htrace', responderChecks]⟩

/-- As long as the OK of an honest node is delivered only after its responder
has sent it, an initiator that returns a session with that node has been
accepted there. -/
theorem initiator_confirmed {st : N.State} (h : (N.system N.okFromResponder).Reachable st)
    {r : N.HandshakeRun} {a : N.Node} (hr : HasRun st r a .initiator) {s : Session}
    (hret : r.proc = .ret (some s)) {b : N.Node} (hb : N.HeldOnlyBy b s.peerIdentityPk) :
    ConfirmedBy st r b := by
  obtain ⟨i, hi⟩ := List.getElem?_of_mem hr.mem
  obtain ⟨e, raw, resp, ack, hparse, rfl, -, hack, htrace⟩ := initiator_returned h hi hr.job hret
  obtain ⟨k, r', n, raw', init, e', u', hk, hjob', hn, hparse', hinit, heph, htrace'⟩ :=
    responder_of_accepted h hi htrace hb.notAttacker
  obtain rfl := hb.unique n hn
  have he' : .drew e' ∈ r'.trace := by simp [htrace', responderSigns]
  have hsplit : r.trace = (initiatorSigns F (N.identitySk a) e raw resp ++
      [.sent (buildHsFinish (N.identityPk a)
        ((prims F).sign (N.identitySk a) (signedBy F e resp))) true]) ++
      .received (some ack) :: [] := by
    rw [htrace, List.append_assoc]
    rfl
  have hcond := System.Reachable.condition_persists (S := N.system N.okFromResponder)
    (fun _ _ _ _ _ hs hc => okFromResponder_mono hs hc) h hi hsplit
  obtain ⟨k', r'', n', ok, hk', hjob'', ⟨e'', he'', heph''⟩, hsent⟩ :=
    hcond a n raw resp ack hr.job rfl rfl hparse hb rfl hack
  obtain rfl : r' = r'' := h.run_eq_of_draw hk hk' he' he'' (heph.trans heph''.symm)
  have haccepted := acceptedFinish_of_sent h hk hjob' htrace' hsent
  rw [hinit, heph] at haccepted
  refine ⟨e, resp, r', by simp [htrace, initiatorSigns],
    ⟨raw, by simp [htrace, initiatorSigns], hparse⟩, ⟨List.mem_of_getElem? hk, hjob'⟩,
    ⟨raw', by simp [htrace', responderSigns], ?_⟩, ⟨e', he', heph⟩, haccepted⟩
  rw [hparse', ← hinit]

theorem undisturbed_okFromResponder : undisturbed.Completes (okFromResponder _) := by
  refine ⟨⟨?_, ?_, ?_⟩, ?_, ?_⟩ <;> intro p q <;>
    simp [System.Along, Exchange.opens, Exchange.answers, Exchange.finishes, Exchange.accepts,
      Exchange.confirmed, okFromResponder]
  -- the OK comes after the responder has sent it
  rintro - a b raw resp ack rfl rfl hparse - rfl -
  rw [parseHsResp_buildHsResp] at hparse
  cases hparse
  exact ⟨1, _, rfl, ⟨true, rfl⟩, ⟨undisturbed.exchange.ephB, by simp, rfl⟩, by simp⟩

/-- The initiator of an undisturbed handshake has been accepted. -/
theorem initiator_confirmed_undisturbed :
    ∃ (st : (twoNodes ∅).State) (r : (twoNodes ∅).HandshakeRun),
      ((twoNodes ∅).system (okFromResponder _)).Reachable st ∧ HasRun st r false .initiator ∧
      ConfirmedBy st r true := by
  have hreach := Relay.reachable_completes undisturbed_okFromResponder
  exact ⟨_, _, hreach, ⟨List.mem_of_getElem? (i := 0) rfl, rfl⟩,
    initiator_confirmed hreach ⟨List.mem_of_getElem? (i := 0) rfl, rfl⟩ rfl
      (twoNodes_heldOnlyBy true)⟩

/-- The attacker keeps HS_FINISH and sends the OK itself: the initiator returns
its session, and no responder has accepted anything. -/
theorem initiator_confirmed_forgedOk :
    ∃ (st : (twoNodes ∅).State) (r : (twoNodes ∅).HandshakeRun) (s : Session),
      ((twoNodes ∅).system (unrestricted _)).Reachable st ∧ HasRun st r false .initiator ∧
      r.proc = .ret (some s) ∧ (twoNodes ∅).HeldOnlyBy true s.peerIdentityPk ∧
      ¬ConfirmedBy st r true := by
  obtain ⟨q, hreach⟩ := Relay.reachable_forgedOk (R := undisturbed) Relay.finishes_unrestricted
    (fun p q => by simp [System.Along, Exchange.confirmed, unrestricted])
  refine ⟨_, _, _, hreach, ⟨List.mem_of_getElem? (i := 0) rfl, rfl⟩, rfl,
    twoNodes_heldOnlyBy true, ?_⟩
  rintro ⟨e, resp, r', -, -, ⟨hmem, hjob⟩, -, -, ⟨raw, finish, -, -, hverified⟩⟩
  simp only [Relay.state, List.mem_cons, List.not_mem_nil, or_false] at hmem
  obtain rfl | rfl := hmem
  · cases hjob
  · simp [Exchange.answers] at hverified

end Handshake.Network

end PeerToPeer
