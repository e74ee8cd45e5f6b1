import PeerToPeer.Lib.Duplex
import PeerToPeer.Session.Exchange

/-!
Honest handshakes complete.

Over a connection that loses and changes nothing, every schedule of the two sides
comes to the same end: both return a session, with each other's keys and names.
-/

namespace PeerToPeer

open Lib Crypto Net Protocol

namespace Handshake

/-- The frames of `net/tcp.cpp`. -/
def tcpFraming : Framing Frame where
  encode := frameBytes
  next s := if frameReady s then some (recvFrame s) else none
  next_append := by
    intro s f rest h t
    split at h
    · rename_i hready
      obtain ⟨hready', hrecv⟩ := recvFrame_append hready t
      rw [if_pos hready', hrecv, Option.some.inj h]
    · cases h

theorem tcpFraming_next {f : Frame} (h : f.length ≤ maxFrame) :
    tcpFraming.next (tcpFraming.encode f ++ []) = some (some f, []) := by
  simp only [tcpFraming]
  rw [if_pos (frameReady_frameBytes h []), recvFrame_frameBytes h]

/-- The connection of the two sides, which draw the ephemeral secrets. -/
def connection (ephA ephB : Bytes 32) : Duplex alphabet where
  prims := prims Fp
  framing := tcpFraming
  leftSecret := ephA
  rightSecret := ephB

namespace Exchange

/-- A handshake in which each side is shown the other's identity. -/
def honest (identityA identityB ephA ephB : Bytes 32)
    (h : (X25519.exchange Fp ephA (X25519.derivePublic Fp ephB)).isSomePublic = true) :
    Exchange :=
  ⟨identityA, identityB, ephA, ephB, identityB, identityA, h⟩

variable (X : Exchange)

open Duplex

theorem plays_opens :
    Plays tcpFraming X.ephA X.opens [] [] (tcpFraming.encode (buildHsInit X.pkA) ++ []) :=
  .drew (.sent _ (.nil _))

theorem plays_answers :
    Plays tcpFraming X.ephB X.answers (tcpFraming.encode (buildHsInit X.pkA) ++ []) []
      (tcpFraming.encode (buildHsResp X.pkB (Eddsa.derivePublic Sha512 Fp X.identityB)
        ((prims Fp).sign X.identityB X.signedData)) ++ []) := by
  refine .received _ (tcpFraming_next ?_) (.drew (.signed _ _ (.sent _ (.nil _))))
  rw [length_buildHsInit]
  decide

theorem plays_finishes :
    Plays tcpFraming X.ephA X.finishes
      (tcpFraming.encode (buildHsResp X.resp.ephPk X.resp.identityPk X.resp.sig) ++ []) []
      (tcpFraming.encode (buildHsFinish (Eddsa.derivePublic Sha512 Fp X.identityA)
        ((prims Fp).sign X.identityA X.signedData)) ++ []) := by
  refine .received _ (tcpFraming_next ?_)
    (.verified _ _ _ _ (.signed _ _ (.sent _ (.nil _))))
  rw [length_buildHsResp]
  decide

theorem plays_accepts :
    Plays tcpFraming X.ephB X.accepts
      (tcpFraming.encode (buildHsFinish X.finish.identityPk X.finish.sig) ++ []) []
      (tcpFraming.encode buildOk ++ []) := by
  refine .received _ (tcpFraming_next ?_) (.verified _ _ _ _ (.sent _ (.nil _)))
  rw [length_buildHsFinish]
  decide

theorem plays_confirmed :
    Plays tcpFraming X.ephA confirmed (tcpFraming.encode buildOk ++ []) [] [] :=
  .received _ (tcpFraming_next (by decide)) (.nil _)

end Exchange

/-- The sessions of the two sides of a handshake have mirrored keys. -/
theorem session_keys (X : Exchange) :
    (initiatorSession Fp X.ephA X.resp).kSend =
        (responderSession Fp ⟨X.pkA⟩ X.ephB X.finish).kRecv ∧
      (initiatorSession Fp X.ephA X.resp).kRecv =
        (responderSession Fp ⟨X.pkA⟩ X.ephB X.finish).kSend := by
  have hcomm : X25519.exchange Fp X.ephB X.pkA = X25519.exchange Fp X.ephA X.pkB :=
    X25519.exchange_comm X.ephB X.ephA
  simp only [initiatorSession, responderSession, hcomm, Exchange.resp, and_self]

/-- Every schedule of an honest handshake ends with a session on both sides, with
mirrored keys and the identity of the other side. -/
theorem handshake_completes (identityA identityB ephA ephB : Bytes 32)
    (hshared : (X25519.exchange Fp ephA (X25519.derivePublic Fp ephB)).isSomePublic = true) :
    ∃ sA sB : Session,
      EndsIn (connection ephA ephB).Step
        ⟨handshakeAsInitiator Fp identityA (Eddsa.derivePublic Sha512 Fp identityA),
          handshakeAsResponder Fp identityB (Eddsa.derivePublic Sha512 Fp identityB), [], []⟩
        ⟨.ret (some sA), .ret (some sB), [], []⟩ ∧
      sA.kSend = sB.kRecv ∧ sA.kRecv = sB.kSend ∧
      sA.peerIdentityPk = Eddsa.derivePublic Sha512 Fp identityB ∧
      sB.peerIdentityPk = Eddsa.derivePublic Sha512 Fp identityA := by
  set X := Exchange.honest identityA identityB ephA ephB hshared with hX
  obtain ⟨p₁, p₂, h₁, h₂, h₃⟩ := X.initiator_stages
  obtain ⟨q₁, h₄, h₅⟩ := X.responder_stages
  have hopens := Duplex.steps_left (D := connection ephA ephB) (q := X.responder) h₁
    X.plays_opens []
  have hanswers := Duplex.steps_right (D := connection ephA ephB) (p := p₁) h₄ X.plays_answers []
  have hfinishes := Duplex.steps_left (D := connection ephA ephB) (q := q₁) h₂
    X.plays_finishes []
  have haccepts := Duplex.steps_right (D := connection ephA ephB) (p := p₂) h₅ X.plays_accepts []
  have hconfirmed := Duplex.steps_left (D := connection ephA ephB)
    (q := .ret (some (responderSession Fp ⟨X.pkA⟩ X.ephB X.finish))) h₃ X.plays_confirmed []
  have hrun := hopens.trans (hanswers.trans (hfinishes.trans (haccepts.trans hconfirmed)))
  obtain ⟨hsend, hrecv⟩ := session_keys X
  exact ⟨_, _, hrun.endsIn Duplex.step_commutes Duplex.not_step_ret, hsend, hrecv, rfl, rfl⟩

theorem handshake_completes_constant :
    ∃ sA sB : Session,
      EndsIn (connection (constant 0) (constant 1)).Step
        ⟨handshakeAsInitiator Fp (constant 0) (Eddsa.derivePublic Sha512 Fp (constant 0)),
          handshakeAsResponder Fp (constant 1) (Eddsa.derivePublic Sha512 Fp (constant 1)), [], []⟩
        ⟨.ret (some sA), .ret (some sB), [], []⟩ ∧
      sA.kSend = sB.kRecv := by
  obtain ⟨sA, sB, hends, hkeys, -⟩ :=
    handshake_completes (constant 0) (constant 1) (constant 0) (constant 1)
      exchange_constant_isSome
  exact ⟨sA, sB, hends, hkeys⟩

end Handshake

end PeerToPeer
