import PeerToPeer.Node.Peers
import PeerToPeer.Session.Completeness
import PeerToPeer.Session.Relay

/-!
`connect_to` and `setup_peer`: how a connection comes to be in `peers_`.

A node dials the address of a directory entry and adds whoever completes the
handshake there. The entry also holds a public key, which is not looked at again:
what the handshake authenticates is the key that the host names in its HS_RESP.
-/

namespace PeerToPeer.Node

open Lib Crypto Protocol Handshake

/-- What `setup_peer` makes a `peer_conn` of. -/
structure NewPeer where
  sess : Session
  ip : Bytes 4
  listenPort : UInt16

/-- The port of a peer: unknown ones are looked up in what the coordinator
returns. -/
def resolvePort (fresh : List PeerInfo) (identity : Bytes 32) (port : UInt16) : UInt16 :=
  if port = 0 then ((fresh.find? (·.pubkey = identity)).map (·.port)).getD 0 else port

/-- `setup_peer`, up to `add_peer`. -/
def setupPeer (handshake : Role) (ip : Bytes 4) (port : UInt16) (fresh : List PeerInfo) :
    Proc alphabet (Option NewPeer) :=
  handshake.map fun sessOpt =>
    sessOpt.map fun sess => ⟨sess, ip, resolvePort fresh sess.peerIdentityPk port⟩

section Dial

variable (F : Type) [Field25519Ops F]

/-- `connect_to`, once the TCP connection is there. -/
def connectTo (isk ipk : Bytes 32) (pi : PeerInfo) (fresh : List PeerInfo) :
    Proc alphabet (Option NewPeer) :=
  setupPeer (handshakeAsInitiator F isk ipk) pi.ip pi.port fresh

/-- `peers_` after `setup_peer` has come to `add_peer`, or has failed. -/
def Peers.addResult (ps : Peers) : Option NewPeer → Peers
  | none => ps
  | some new => ps.addPeer new.sess new.ip new.listenPort

/-- All connections that a dial of `pi` has added are to the key of the entry. -/
def DialsRight (ps : Peers) (pi : PeerInfo) (r : Option NewPeer) : Prop :=
  ∀ c ∈ (ps.addResult r).conns, c ∈ ps.conns ∨ c.identity = pi.pubkey

/-- The host goes through the whole handshake, and the HS_RESP that it sends
names another key than `pubkey`. -/
def ImpostorAnswers (isk ipk pubkey : Bytes 32) (t : List (Event alphabet)) : Prop :=
  ∃ e raw resp ack, parseHsResp raw = some resp ∧ resp.identityPk ≠ pubkey ∧
    (X25519.exchange F e resp.ephPk).isSomePublic = true ∧ getType ack = MsgType.ok.code ∧
    t = initiatorSigns F isk e raw resp ++
      [.sent (buildHsFinish ipk ((prims F).sign isk (signedBy F e resp))) true,
        .received (some ack)]

end Dial

theorem dialsRight_none (ps : Peers) (pi : PeerInfo) : DialsRight ps pi none :=
  fun _ hc => .inl hc

theorem dialsRight_some {ps : Peers} {pi : PeerInfo} {new : NewPeer} :
    DialsRight ps pi (some new) ↔ new.sess.peerIdentityPk = pi.pubkey := by
  constructor
  · intro h
    rcases h ⟨ps.nextId, new.sess, new.ip, new.listenPort⟩ (by simp [Peers.addResult,
      Peers.addPeer]) with hold | hid
    · exact absurd (ps.id_lt _ hold) (Nat.lt_irrefl _)
    · exact hid
  · intro h c hc
    rcases List.mem_append.mp hc with hc | hc
    · exact .inl hc
    · rw [List.mem_singleton.mp hc]
      exact .inr h

/-- A dial adds nothing but connections to the key of the entry exactly when no
other key answers. -/
theorem connectTo_iff {F : Type} [Field25519Ops F] {isk ipk : Bytes 32} {pi : PeerInfo}
    {fresh : List PeerInfo} {t : List (Event alphabet)} {r : Option NewPeer}
    (h : Exec (prims F) (connectTo F isk ipk pi fresh) t (.ret r)) (ps : Peers) :
    DialsRight ps pi r ↔ ¬ImpostorAnswers F isk ipk pi.pubkey t := by
  obtain ⟨sessOpt, hexec, rfl⟩ := exec_map_iff.mp h
  constructor
  · rintro hright ⟨e, raw, resp, ack, hparse, hne, hsome, hack, rfl⟩
    have hvalid : (prims F).verify resp.identityPk (signedBy F e resp) resp.sig = true :=
      hexec.verified_eq (by simp [initiatorSigns])
    have hret := hexec.unique (initiator_exec hparse hvalid hsome hack)
    cases hret
    exact hne (dialsRight_some.mp hright)
  · intro hno
    cases sessOpt with
    | none => exact dialsRight_none ps pi
    | some s =>
        refine dialsRight_some.mpr ?_
        obtain ⟨-, -, hnone⟩ | ⟨e, raw, resp, u, hparse, ht, -, hret⟩ := initiator_cases hexec
        · exact absurd rfl (hnone s)
        · obtain ⟨hsome, rfl, ack, hack, hu⟩ := hret s rfl
          by_contra hne
          exact hno ⟨e, raw, resp, ack, hparse, hne, hsome, hack, by rw [ht, hu]⟩

/-! ### A dial -/

/-- The trace of a dial that is answered by the node with the seed `constant 1`. -/
theorem connectTo_constant (pi : PeerInfo) (fresh : List PeerInfo) :
    ∃ t new, Exec (prims Fp)
        (connectTo Fp (constant 0) (Eddsa.derivePublic Sha512 Fp (constant 0)) pi fresh) t
        (.ret (some new)) ∧
      new.sess.peerIdentityPk = Eddsa.derivePublic Sha512 Fp (constant 1) ∧
      ∃ eph sig, t[2]? = some (.received (some (buildHsResp eph
        (Eddsa.derivePublic Sha512 Fp (constant 1)) sig))) := by
  set X := Exchange.honest (constant 0) (constant 1) (constant 0) (constant 1)
    exchange_constant_isSome with hX
  exact ⟨_, _, exec_map_iff.mpr ⟨_, X.initiator_run, rfl⟩, rfl, _, _, rfl⟩

/-- An entry of the directory. -/
def entryFor (pubkey : Bytes 32) : PeerInfo := ⟨#v[127, 0, 0, 1], 7000, pubkey⟩

theorem connectTo_iff_honest : ∃ t new,
    Exec (prims Fp) (connectTo Fp (constant 0) (Eddsa.derivePublic Sha512 Fp (constant 0))
      (entryFor (Eddsa.derivePublic Sha512 Fp (constant 1))) []) t (.ret (some new)) ∧
    DialsRight .empty (entryFor (Eddsa.derivePublic Sha512 Fp (constant 1))) (some new) := by
  obtain ⟨t, new, hexec, -, eph, sig, ht⟩ := connectTo_constant
    (entryFor (Eddsa.derivePublic Sha512 Fp (constant 1))) []
  refine ⟨t, new, hexec, (connectTo_iff hexec .empty).mpr ?_⟩
  rintro ⟨e, raw, resp, ack, hparse, hne, -, -, rfl⟩
  have hraw : raw = buildHsResp eph (Eddsa.derivePublic Sha512 Fp (constant 1)) sig := by
    simpa [initiatorSigns] using ht
  rw [hraw, parseHsResp_buildHsResp] at hparse
  cases hparse
  exact hne rfl

/-- The entry names the key of another node than the one that answers. -/
theorem connectTo_impostor : ∃ t new,
    Exec (prims Fp) (connectTo Fp (constant 0) (Eddsa.derivePublic Sha512 Fp (constant 0))
      (entryFor (Eddsa.derivePublic Sha512 Fp (constant 2))) []) t (.ret (some new)) ∧
    ¬DialsRight .empty (entryFor (Eddsa.derivePublic Sha512 Fp (constant 2))) (some new) := by
  obtain ⟨t, new, hexec, hid, -⟩ := connectTo_constant
    (entryFor (Eddsa.derivePublic Sha512 Fp (constant 2))) []
  refine ⟨t, new, hexec, ?_⟩
  rw [dialsRight_some, hid]
  have hnodup := identities_nodup
  simp only [List.map_cons, List.map_nil, List.nodup_cons, List.mem_cons, List.not_mem_nil,
    or_false, not_or] at hnodup
  exact hnodup.2.1

end PeerToPeer.Node
