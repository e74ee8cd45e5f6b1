import PeerToPeer.Crypto.Eddsa
import PeerToPeer.Crypto.MontgomeryPoint
import PeerToPeer.Lib.Process
import PeerToPeer.Session.Session

/-!
The handshake of `session.cpp`: both roles as processes, in the order of the
source, over any reading of the field operations.

Both roles sign the two ephemeral keys, initiator's first, and nothing else. The
lemmas of this file invert the executions of the two programs: what a run has
drawn, which signature it has made and at which point, and how it came to return
a session.
-/

namespace PeerToPeer

open Lib Crypto Net Protocol

/-! ### Keys -/

/-- `make_signed_data`: the two ephemeral public keys. -/
def makeSignedData (initEph respEph : Bytes 32) : Bytes 64 := initEph ++ respEph

/-- `derive_keys`: the keys from initiator to responder and back. -/
def deriveKeys (shared : Bytes 32) : Bytes 32 × Bytes 32 :=
  (Hasher.hash Sha256 (0x00 :: shared.toList), Hasher.hash Sha256 (0x01 :: shared.toList))

namespace Handshake

/-- The alphabet of the handshake: all keys are byte arrays, messages to be
signed have 64 bytes. -/
abbrev alphabet : Alphabet where
  Frame := Frame
  Secret := Bytes 32
  Public := Bytes 32
  SigningKey := Bytes 32
  VerifyKey := Bytes 32
  Message := Bytes 64
  Signature := Bytes 64

section Programs

variable (F : Type) [Field25519Ops F]

/-- The primitives of the handshake: `x25519`, and `eddsa` over `sha_512`. -/
def prims : Primitives alphabet where
  derive := X25519.derivePublic F
  verifyKey := Eddsa.derivePublic Sha512 F
  sign sk m := Eddsa.sign Sha512 F sk m.toList
  verify pk m sig := (Eddsa.verify Sha512 F pk m.toList sig).unwrapPublic

/-- A role of the handshake. -/
abbrev Role := Proc alphabet (Option Session)

/-- `handshake_as_initiator`. -/
def handshakeAsInitiator (identitySk identityPk : Bytes 32) : Role :=
  -- 1. generate the ephemeral key pair
  .draw fun ephSk =>
  let ephPk := X25519.derivePublic F ephSk
  -- 2. send HS_INIT
  .send (buildHsInit ephPk) fun ok => if !ok then .ret none else
  -- 3. receive HS_RESP
  .recv fun respRaw =>
  match respRaw.bind parseHsResp with
  | none => .ret none
  | some resp =>
      -- 4. verify the responder's signature
      let signedData := makeSignedData ephPk resp.ephPk
      .verify resp.identityPk signedData resp.sig fun valid => if !valid then .ret none else
      -- 5. compute the shared secret
      let sharedOpt := X25519.exchange F ephSk resp.ephPk
      if !sharedOpt.isSomePublic then .ret none else
      let shared := sharedOpt.valueOr (Vector.replicate 32 0)
      -- 6. sign and send HS_FINISH
      .sign identitySk signedData fun mySig =>
      .send (buildHsFinish identityPk mySig) fun ok => if !ok then .ret none else
      -- 7. wait for the responder's OK
      .recv fun ack =>
      if ack.map getType ≠ some MsgType.ok.code then .ret none else
      -- 8. build the session
      let (kI2r, kR2i) := deriveKeys shared
      .ret (some { peerIdentityPk := resp.identityPk, kSend := kI2r, kRecv := kR2i })

/-- `handshake_as_responder`. -/
def handshakeAsResponder (identitySk identityPk : Bytes 32) : Role :=
  -- 1. receive HS_INIT
  .recv fun initRaw =>
  match initRaw.bind parseHsInit with
  | none => .ret none
  | some init =>
      -- 2. generate the ephemeral key pair
      .draw fun ephSk =>
      let ephPk := X25519.derivePublic F ephSk
      -- 3. compute the shared secret
      let sharedOpt := X25519.exchange F ephSk init.ephPk
      if !sharedOpt.isSomePublic then .ret none else
      let shared := sharedOpt.valueOr (Vector.replicate 32 0)
      -- 4. sign the two ephemeral keys
      let signedData := makeSignedData init.ephPk ephPk
      .sign identitySk signedData fun mySig =>
      -- 5. send HS_RESP
      .send (buildHsResp ephPk identityPk mySig) fun ok => if !ok then .ret none else
      -- 6. receive HS_FINISH
      .recv fun finishRaw =>
      match finishRaw.bind parseHsFinish with
      | none => .ret none
      | some finish =>
          -- 7. verify the initiator's signature
          .verify finish.identityPk signedData finish.sig fun valid =>
          if !valid then .ret none else
          -- 8. acknowledge
          .send buildOk fun ok => if !ok then .ret none else
          -- 9. build the session
          let (kI2r, kR2i) := deriveKeys shared
          .ret (some { peerIdentityPk := finish.identityPk, kSend := kR2i, kRecv := kI2r })

/-! ### What a run has done -/

variable {F} {sk pk : Bytes 32} {t : List (Event alphabet)} {q : Role}

/-- The message that both roles sign. -/
def signedBy (F : Type) [Field25519Ops F] (e : Bytes 32) (resp : ParsedHsResp) : Bytes 64 :=
  makeSignedData (X25519.derivePublic F e) resp.ephPk

/-- The initiator's events up to its signature. -/
def initiatorSigns (F : Type) [Field25519Ops F] (sk e : Bytes 32) (raw : Frame)
    (resp : ParsedHsResp) : List (Event alphabet) :=
  [.drew e, .sent (buildHsInit (X25519.derivePublic F e)) true, .received (some raw),
    .verified resp.identityPk (signedBy F e resp) resp.sig true, .signed sk (signedBy F e resp)]

/-- The session that an initiator builds. -/
def initiatorSession (F : Type) [Field25519Ops F] (e : Bytes 32) (resp : ParsedHsResp) : Session :=
  let keys := deriveKeys ((X25519.exchange F e resp.ephPk).valueOr (Vector.replicate 32 0))
  { peerIdentityPk := resp.identityPk, kSend := keys.1, kRecv := keys.2 }

/-- The executions of an initiator: it has not signed yet and has not returned a
session, or it has gone on from a valid HS_RESP. -/
theorem initiator_cases (h : Exec (prims F) (handshakeAsInitiator F sk pk) t q) :
    ((∀ e, .drew e ∈ t → ∀ f ok, .sent f ok ∈ t → f = buildHsInit (X25519.derivePublic F e)) ∧
      (∀ k m, .signed k m ∉ t) ∧ ∀ s, q ≠ .ret (some s)) ∨
    ∃ e raw resp u, parseHsResp raw = some resp ∧ t = initiatorSigns F sk e raw resp ++ u ∧
      (u = [] ∨ (∃ ok, u = [.sent (buildHsFinish pk ((prims F).sign sk (signedBy F e resp))) ok]) ∨
        ∃ r, u = [.sent (buildHsFinish pk ((prims F).sign sk (signedBy F e resp))) true,
          .received r]) ∧
      ∀ s, q = .ret (some s) → (X25519.exchange F e resp.ephPk).isSomePublic = true ∧
        s = initiatorSession F e resp ∧ ∃ ack, getType ack = MsgType.ok.code ∧
          u = [.sent (buildHsFinish pk ((prims F).sign sk (signedBy F e resp))) true,
            .received (some ack)] := by
  rw [handshakeAsInitiator, exec_draw_iff] at h
  obtain ⟨rfl, rfl⟩ | ⟨e, u, rfl, h⟩ := h
  · exact .inl (by simp)
  simp only [exec_send_iff] at h
  obtain ⟨rfl, rfl⟩ | ⟨_ | _, u, rfl, h⟩ := h
  · exact .inl (by simp)
  · obtain ⟨rfl, rfl⟩ := exec_ret_iff.mp h
    exact .inl (by simp)
  simp only [Bool.not_true, Bool.false_eq_true, if_false, exec_recv_iff] at h
  obtain ⟨rfl, rfl⟩ | ⟨r, u, rfl, h⟩ := h
  · exact .inl (by simp)
  split at h
  · obtain ⟨rfl, rfl⟩ := exec_ret_iff.mp h
    exact .inl (by simp)
  rename_i resp hresp
  obtain ⟨raw, rfl, hparse⟩ := Option.bind_eq_some_iff.mp hresp
  rw [exec_verify_iff] at h
  obtain ⟨rfl, rfl⟩ | ⟨u, rfl, h⟩ := h
  · exact .inl (by simp)
  generalize hvalid : (prims F).verify resp.identityPk _ resp.sig = valid at h
  cases valid with
  | false =>
      obtain ⟨rfl, rfl⟩ := exec_ret_iff.mp h
      exact .inl (by simp)
  | true =>
      simp only [Bool.not_true, Bool.false_eq_true, if_false] at h
      split at h
      · obtain ⟨rfl, rfl⟩ := exec_ret_iff.mp h
        exact .inl (by simp)
      rename_i hsome
      rw [exec_sign_iff] at h
      obtain ⟨rfl, rfl⟩ | ⟨u, rfl, h⟩ := h
      · exact .inl (by simp)
      refine .inr ⟨e, raw, resp, u, hparse, by simp [initiatorSigns, signedBy], ?_⟩
      rw [exec_send_iff] at h
      obtain ⟨rfl, rfl⟩ | ⟨_ | _, u, rfl, h⟩ := h
      · exact ⟨.inl rfl, by simp⟩
      · obtain ⟨rfl, rfl⟩ := exec_ret_iff.mp h
        exact ⟨.inr (.inl ⟨_, rfl⟩), by simp⟩
      simp only [Bool.not_true, Bool.false_eq_true, if_false, exec_recv_iff] at h
      obtain ⟨rfl, rfl⟩ | ⟨r, u, rfl, h⟩ := h
      · exact ⟨.inr (.inl ⟨_, rfl⟩), by simp⟩
      split at h
      · obtain ⟨rfl, rfl⟩ := exec_ret_iff.mp h
        exact ⟨.inr (.inr ⟨_, rfl⟩), by simp⟩
      rename_i hack
      obtain ⟨rfl, rfl⟩ := exec_ret_iff.mp h
      refine ⟨.inr (.inr ⟨_, rfl⟩), ?_⟩
      rintro s hs
      cases hs
      obtain ⟨ack, rfl, hok⟩ := Option.map_eq_some_iff.mp (not_not.mp hack)
      exact ⟨by simpa using hsome, rfl, ack, hok, rfl⟩

/-- An initiator that gets a valid HS_RESP and an OK returns its session. -/
theorem initiator_exec {e : Bytes 32} {raw ack : Frame} {resp : ParsedHsResp}
    (hparse : parseHsResp raw = some resp)
    (hvalid : (prims F).verify resp.identityPk (signedBy F e resp) resp.sig = true)
    (hsome : (X25519.exchange F e resp.ephPk).isSomePublic = true)
    (hack : getType ack = MsgType.ok.code) :
    Exec (prims F) (handshakeAsInitiator F sk pk)
      (initiatorSigns F sk e raw resp ++
        [.sent (buildHsFinish pk ((prims F).sign sk (signedBy F e resp))) true,
          .received (some ack)])
      (.ret (some (initiatorSession F e resp))) := by
  have hbind : (some raw).bind parseHsResp = some resp := hparse
  simp only [initiatorSigns, List.cons_append, List.nil_append]
  rw [handshakeAsInitiator, exec_draw_iff]
  refine .inr ⟨e, _, rfl, ?_⟩
  simp only [exec_send_iff]
  refine .inr ⟨true, _, rfl, ?_⟩
  simp only [Bool.not_true, Bool.false_eq_true, if_false, exec_recv_iff]
  refine .inr ⟨some raw, _, rfl, ?_⟩
  simp only [hbind]
  rw [signedBy] at hvalid
  rw [exec_verify_iff, hvalid]
  refine .inr ⟨_, rfl, ?_⟩
  simp only [Bool.not_true, Bool.false_eq_true, if_false, hsome, exec_sign_iff]
  refine .inr ⟨_, rfl, ?_⟩
  rw [exec_send_iff]
  refine .inr ⟨true, _, rfl, ?_⟩
  simp only [Bool.not_true, Bool.false_eq_true, if_false, exec_recv_iff]
  refine .inr ⟨some ack, _, rfl, ?_⟩
  simp only [Option.map_some, hack, ne_eq, not_true_eq_false, if_false, exec_ret_iff, true_and]
  rfl

/-- The responder's events up to its signature. -/
def responderSigns (F : Type) [Field25519Ops F] (sk : Bytes 32) (raw : Frame)
    (init : ParsedHsInit) (e : Bytes 32) : List (Event alphabet) :=
  [.received (some raw), .drew e,
    .signed sk (makeSignedData init.ephPk (X25519.derivePublic F e))]

/-- The responder's events from its signature up to its check of HS_FINISH. -/
def responderChecks (F : Type) [Field25519Ops F] (sk pk : Bytes 32) (init : ParsedHsInit)
    (e : Bytes 32) (raw : Frame) (finish : ParsedHsFinish) (ok : Bool) : List (Event alphabet) :=
  let m := makeSignedData init.ephPk (X25519.derivePublic F e)
  [.sent (buildHsResp (X25519.derivePublic F e) pk ((prims F).sign sk m)) true,
    .received (some raw), .verified finish.identityPk m finish.sig ok]

/-- The session that a responder builds. -/
def responderSession (F : Type) [Field25519Ops F] (init : ParsedHsInit) (e : Bytes 32)
    (finish : ParsedHsFinish) : Session :=
  let keys := deriveKeys ((X25519.exchange F e init.ephPk).valueOr (Vector.replicate 32 0))
  { peerIdentityPk := finish.identityPk, kSend := keys.2, kRecv := keys.1 }

/-- The executions of a responder: it has not signed yet and has not returned a
session, or it has gone on from HS_INIT. -/
theorem responder_cases (h : Exec (prims F) (handshakeAsResponder F sk pk) t q) :
    ((∀ k m, .signed k m ∉ t) ∧ (∀ f ok, .sent f ok ∉ t) ∧ ∀ s, q ≠ .ret (some s)) ∨
    ∃ raw init e u, parseHsInit raw = some init ∧ t = responderSigns F sk raw init e ++ u ∧
      (u = [] ∨
        (∃ ok, u = [.sent (buildHsResp (X25519.derivePublic F e) pk
          ((prims F).sign sk (makeSignedData init.ephPk (X25519.derivePublic F e)))) ok]) ∨
        (∃ r, u = [.sent (buildHsResp (X25519.derivePublic F e) pk
          ((prims F).sign sk (makeSignedData init.ephPk (X25519.derivePublic F e)))) true,
          .received r]) ∨
        (∃ raw' finish ok, parseHsFinish raw' = some finish ∧
          u = responderChecks F sk pk init e raw' finish ok) ∨
        ∃ raw' finish ok, parseHsFinish raw' = some finish ∧
          u = responderChecks F sk pk init e raw' finish true ++ [.sent buildOk ok]) ∧
      ∀ s, q = .ret (some s) → (X25519.exchange F e init.ephPk).isSomePublic = true ∧
        ∃ raw' finish, parseHsFinish raw' = some finish ∧ s = responderSession F init e finish ∧
          u = responderChecks F sk pk init e raw' finish true ++ [.sent buildOk true] := by
  rw [handshakeAsResponder, exec_recv_iff] at h
  obtain ⟨rfl, rfl⟩ | ⟨r, u, rfl, h⟩ := h
  · exact .inl (by simp)
  split at h
  · obtain ⟨rfl, rfl⟩ := exec_ret_iff.mp h
    exact .inl (by simp)
  rename_i init hinit
  obtain ⟨raw, rfl, hparse⟩ := Option.bind_eq_some_iff.mp hinit
  rw [exec_draw_iff] at h
  obtain ⟨rfl, rfl⟩ | ⟨e, u, rfl, h⟩ := h
  · exact .inl (by simp)
  simp only at h
  split at h
  · obtain ⟨rfl, rfl⟩ := exec_ret_iff.mp h
    exact .inl (by simp)
  rename_i hsome
  rw [exec_sign_iff] at h
  obtain ⟨rfl, rfl⟩ | ⟨u, rfl, h⟩ := h
  · exact .inl (by simp)
  refine .inr ⟨raw, init, e, u, hparse, by simp [responderSigns], ?_⟩
  rw [exec_send_iff] at h
  obtain ⟨rfl, rfl⟩ | ⟨_ | _, u, rfl, h⟩ := h
  · exact ⟨.inl rfl, by simp⟩
  · obtain ⟨rfl, rfl⟩ := exec_ret_iff.mp h
    exact ⟨.inr (.inl ⟨_, rfl⟩), by simp⟩
  simp only [Bool.not_true, Bool.false_eq_true, if_false, exec_recv_iff] at h
  obtain ⟨rfl, rfl⟩ | ⟨r, u, rfl, h⟩ := h
  · exact ⟨.inr (.inl ⟨_, rfl⟩), by simp⟩
  split at h
  · obtain ⟨rfl, rfl⟩ := exec_ret_iff.mp h
    exact ⟨.inr (.inr (.inl ⟨_, rfl⟩)), by simp⟩
  rename_i finish hfinish
  obtain ⟨raw', rfl, hparse'⟩ := Option.bind_eq_some_iff.mp hfinish
  rw [exec_verify_iff] at h
  obtain ⟨rfl, rfl⟩ | ⟨u, rfl, h⟩ := h
  · exact ⟨.inr (.inr (.inl ⟨_, rfl⟩)), by simp⟩
  generalize hvalid : (prims F).verify finish.identityPk _ finish.sig = valid at h
  cases valid with
  | false =>
      obtain ⟨rfl, rfl⟩ := exec_ret_iff.mp h
      exact ⟨.inr (.inr (.inr (.inl ⟨raw', finish, false, hparse', rfl⟩))), by simp⟩
  | true =>
      simp only [Bool.not_true, Bool.false_eq_true, if_false, exec_send_iff] at h
      obtain ⟨rfl, rfl⟩ | ⟨_ | _, u, rfl, h⟩ := h
      · exact ⟨.inr (.inr (.inr (.inl ⟨raw', finish, true, hparse', rfl⟩))), by simp⟩
      · obtain ⟨rfl, rfl⟩ := exec_ret_iff.mp h
        exact ⟨.inr (.inr (.inr (.inr ⟨raw', finish, false, hparse', rfl⟩))), by simp⟩
      obtain ⟨rfl, rfl⟩ := exec_ret_iff.mp h
      refine ⟨.inr (.inr (.inr (.inr ⟨raw', finish, true, hparse', rfl⟩))), ?_⟩
      rintro s hs
      cases hs
      exact ⟨by simpa using hsome, raw', finish, hparse', rfl, rfl⟩

/-- A responder that gets HS_INIT and a valid HS_FINISH returns its session. -/
theorem responder_exec {raw raw' : Frame} {init : ParsedHsInit} {e : Bytes 32}
    {finish : ParsedHsFinish} (hparse : parseHsInit raw = some init)
    (hsome : (X25519.exchange F e init.ephPk).isSomePublic = true)
    (hparse' : parseHsFinish raw' = some finish)
    (hvalid : (prims F).verify finish.identityPk
      (makeSignedData init.ephPk (X25519.derivePublic F e)) finish.sig = true) :
    Exec (prims F) (handshakeAsResponder F sk pk)
      (responderSigns F sk raw init e ++
        (responderChecks F sk pk init e raw' finish true ++ [.sent buildOk true]))
      (.ret (some (responderSession F init e finish))) := by
  have hbind : (some raw).bind parseHsInit = some init := hparse
  have hbind' : (some raw').bind parseHsFinish = some finish := hparse'
  simp only [responderSigns, responderChecks, List.cons_append, List.nil_append]
  rw [handshakeAsResponder, exec_recv_iff]
  refine .inr ⟨some raw, _, rfl, ?_⟩
  simp only [hbind]
  rw [exec_draw_iff]
  refine .inr ⟨e, _, rfl, ?_⟩
  simp only [Bool.not_true, Bool.false_eq_true, if_false, hsome, exec_sign_iff]
  refine .inr ⟨_, rfl, ?_⟩
  rw [exec_send_iff]
  refine .inr ⟨true, _, rfl, ?_⟩
  simp only [Bool.not_true, Bool.false_eq_true, if_false, exec_recv_iff]
  refine .inr ⟨some raw', _, rfl, ?_⟩
  simp only [hbind']
  rw [exec_verify_iff, hvalid]
  refine .inr ⟨_, rfl, ?_⟩
  simp only [Bool.not_true, Bool.false_eq_true, if_false, exec_send_iff]
  refine .inr ⟨true, _, rfl, ?_⟩
  simp only [Bool.not_true, Bool.false_eq_true, if_false, exec_ret_iff, true_and]
  rfl

end Programs

end Handshake

end PeerToPeer
