import PeerToPeer.Crypto.MontgomerySpec
import PeerToPeer.Session.Handshake

/-!
The frames of one handshake, stage by stage.

An initiator and a responder exchange their ephemeral keys and each is shown an
identity, which need not be that of the other. Whoever signs the two ephemeral
keys, both sides go through to the end, as long as the shared secret is not zero.
-/

namespace PeerToPeer

open Lib Crypto Net Protocol

namespace Handshake

/-- The data of a handshake: the identity seeds of initiator and responder, their
ephemeral secrets, and the seeds of the identities that each of them is shown. -/
structure Exchange where
  identityA : Bytes 32
  identityB : Bytes 32
  ephA : Bytes 32
  ephB : Bytes 32
  shownToA : Bytes 32
  shownToB : Bytes 32
  shared : (X25519.exchange Fp ephA (X25519.derivePublic Fp ephB)).isSomePublic = true

namespace Exchange

variable (X : Exchange)

def pkA : Bytes 32 := X25519.derivePublic Fp X.ephA

def pkB : Bytes 32 := X25519.derivePublic Fp X.ephB

/-- The program of the initiator. -/
def initiator : Role :=
  handshakeAsInitiator Fp X.identityA (Eddsa.derivePublic Sha512 Fp X.identityA)

/-- The program of the responder. -/
def responder : Role :=
  handshakeAsResponder Fp X.identityB (Eddsa.derivePublic Sha512 Fp X.identityB)

/-- The data that everybody signs. -/
def signedData : Bytes 64 := makeSignedData X.pkA X.pkB

/-- The HS_RESP that the initiator is shown. -/
def resp : ParsedHsResp :=
  ⟨X.pkB, Eddsa.derivePublic Sha512 Fp X.shownToA, (prims Fp).sign X.shownToA X.signedData⟩

/-- The HS_FINISH that the responder is shown. -/
def finish : ParsedHsFinish :=
  ⟨Eddsa.derivePublic Sha512 Fp X.shownToB, (prims Fp).sign X.shownToB X.signedData⟩

/-- The initiator starts. -/
def opens : List (Event alphabet) :=
  [.drew X.ephA, .sent (buildHsInit X.pkA) true]

/-- The responder answers. -/
def answers : List (Event alphabet) :=
  let sk := X.identityB
  [.received (some (buildHsInit X.pkA)), .drew X.ephB, .signed sk X.signedData,
    .sent (buildHsResp X.pkB (Eddsa.derivePublic Sha512 Fp sk)
      ((prims Fp).sign sk X.signedData)) true]

/-- The initiator checks what it is shown and signs. -/
def finishes : List (Event alphabet) :=
  let sk := X.identityA
  [.received (some (buildHsResp X.resp.ephPk X.resp.identityPk X.resp.sig)),
    .verified X.resp.identityPk X.signedData X.resp.sig true, .signed sk X.signedData,
    .sent (buildHsFinish (Eddsa.derivePublic Sha512 Fp sk) ((prims Fp).sign sk X.signedData)) true]

/-- The responder checks what it is shown and acknowledges. -/
def accepts : List (Event alphabet) :=
  [.received (some (buildHsFinish X.finish.identityPk X.finish.sig)),
    .verified X.finish.identityPk X.signedData X.finish.sig true, .sent buildOk true]

/-- The initiator gets the OK. -/
def confirmed : List (Event alphabet) := [.received (some buildOk)]

theorem verify_sign (sk : Bytes 32) :
    (prims Fp).verify (Eddsa.derivePublic Sha512 Fp sk) X.signedData
      ((prims Fp).sign sk X.signedData) = true := by
  simp only [prims]
  exact Eddsa.verify_sign_eq_true Sha512 sk X.signedData.toList

/-- The whole run of the initiator. -/
theorem initiator_run : Exec (prims Fp) X.initiator (X.opens ++ (X.finishes ++ confirmed))
    (.ret (some (initiatorSession Fp X.ephA X.resp))) :=
  initiator_exec (parseHsResp_buildHsResp X.resp.ephPk X.resp.identityPk X.resp.sig)
    (X.verify_sign X.shownToA) X.shared getType_buildOk

/-- The initiator, stage by stage. -/
theorem initiator_stages : ∃ p₁ p₂,
    Exec (prims Fp) X.initiator X.opens p₁ ∧
    Exec (prims Fp) p₁ X.finishes p₂ ∧
    Exec (prims Fp) p₂ confirmed (.ret (some (initiatorSession Fp X.ephA X.resp))) := by
  obtain ⟨p₁, h₁, hrest⟩ := exec_append_iff.mp X.initiator_run
  obtain ⟨p₂, h₂, h₃⟩ := exec_append_iff.mp hrest
  exact ⟨p₁, p₂, h₁, h₂, h₃⟩

/-- The whole run of the responder. -/
theorem responder_run : Exec (prims Fp) X.responder (X.answers ++ X.accepts)
    (.ret (some (responderSession Fp ⟨X.pkA⟩ X.ephB X.finish))) := by
  have hshared : (X25519.exchange Fp X.ephB X.pkA).isSomePublic = true := by
    rw [pkA, X25519.exchange_comm]
    exact X.shared
  exact responder_exec (parseHsInit_buildHsInit X.pkA) hshared
    (parseHsFinish_buildHsFinish X.finish.identityPk X.finish.sig) (X.verify_sign X.shownToB)

/-- The responder, stage by stage. -/
theorem responder_stages : ∃ q₁,
    Exec (prims Fp) X.responder X.answers q₁ ∧
    Exec (prims Fp) q₁ X.accepts (.ret (some (responderSession Fp ⟨X.pkA⟩ X.ephB X.finish))) :=
  exec_append_iff.mp X.responder_run

end Exchange

/-- The string that repeats one byte. -/
def constant (c : UInt8) : Bytes 32 := Vector.replicate 32 c

theorem exchange_constant_isSome :
    (X25519.exchange Fp (constant 0) (X25519.derivePublic Fp (constant 1))).isSomePublic =
      true := by
  decide +kernel

end Handshake

end PeerToPeer
