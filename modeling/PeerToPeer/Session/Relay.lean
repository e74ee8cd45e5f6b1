import PeerToPeer.Crypto.SmallOrder
import PeerToPeer.Session.Exchange
import PeerToPeer.Session.Network

/-!
A handshake that the attacker relays.

An initiator of `a` and a responder of `b` exchange their ephemeral keys. The
attacker passes the signed frames on, or signs the two keys itself and shows an
identity of its own. The runs below exist in every network, for all ephemeral
secrets that give different public keys and a shared secret other than zero.
-/

namespace PeerToPeer

open Lib Crypto Net Protocol

namespace Handshake

/-- The data of a relayed handshake: the nodes, their ephemeral secrets, and the
seeds of the identities that each of them is shown. -/
structure Relay (N : Network Fp) where
  a : N.Node
  b : N.Node
  ephA : Bytes 32
  ephB : Bytes 32
  shownToA : Bytes 32
  shownToB : Bytes 32
  distinct : X25519.derivePublic Fp ephA ≠ X25519.derivePublic Fp ephB
  shared : (X25519.exchange Fp ephA (X25519.derivePublic Fp ephB)).isSomePublic = true
  signsForA : Eddsa.derivePublic Sha512 Fp shownToA ∈ N.attackerKeys ∨ shownToA = N.identitySk b
  signsForB : Eddsa.derivePublic Sha512 Fp shownToB ∈ N.attackerKeys ∨ shownToB = N.identitySk a

namespace Relay

variable {N : Network Fp} (R : Relay N)

/-- The handshake itself. -/
def exchange : Exchange where
  identityA := N.identitySk R.a
  identityB := N.identitySk R.b
  ephA := R.ephA
  ephB := R.ephB
  shownToA := R.shownToA
  shownToB := R.shownToB
  shared := R.shared

/-- The two runs of the relayed handshake. -/
def state (t : List (Event alphabet)) (p : Role) (u : List (Event alphabet)) (q : Role) :
    N.State :=
  ⟨[⟨(R.a, .initiator), t, p⟩, ⟨(R.b, .responder), u, q⟩], []⟩

/-- The condition `C` holds of the events `v` of the initiator. -/
def AlongA (C : N.Condition) (t u v : List (Event alphabet)) : Prop :=
  ∀ p q, System.Along (fun st t ev => C st (R.a, .initiator) t ev) (R.state [] p u q) 0
    (R.a, .initiator) t v

/-- The condition `C` holds of the events `v` of the responder. -/
def AlongB (C : N.Condition) (t u v : List (Event alphabet)) : Prop :=
  ∀ p q, System.Along (fun st t ev => C st (R.b, .responder) t ev) (R.state t p [] q) 1
    (R.b, .responder) u v

/-- The condition holds until the initiator has sent HS_FINISH. -/
structure Finishes (C : N.Condition) : Prop where
  opens : R.AlongA C [] [] R.exchange.opens
  answers : R.AlongB C R.exchange.opens [] R.exchange.answers
  finishes : R.AlongA C R.exchange.opens R.exchange.answers R.exchange.finishes

/-- The condition holds until both have returned. -/
structure Completes (C : N.Condition) : Prop extends R.Finishes C where
  accepts : R.AlongB C (R.exchange.opens ++ R.exchange.finishes) R.exchange.answers
    R.exchange.accepts
  confirmed : R.AlongA C (R.exchange.opens ++ R.exchange.finishes)
    (R.exchange.answers ++ R.exchange.accepts) Exchange.confirmed

variable {R} {C : N.Condition} {t u v : List (Event alphabet)} {p p' q q' : Role}

theorem reachable_start :
    (N.system C).Reachable
      (R.state [] (N.program (R.a, .initiator)) [] (N.program (R.b, .responder))) :=
  (System.Reachable.init.step (.spawn _ (R.a, RoleName.initiator))).step
    (.spawn _ (R.b, RoleName.responder))

/-- The initiator goes on. -/
theorem extendA (h : (N.system C).Reachable (R.state t p u q)) (hexec : Exec (prims Fp) p v p')
    (hallowed : System.Along (fun st _ ev => (N.system C).Allowed st ev) (R.state [] p u q) 0
      (R.a, .initiator) t v) (hcond : R.AlongA C t u v) :
    (N.system C).Reachable (R.state (t ++ v) p' u q) :=
  System.Reachable.extend (x := R.state [] p u q) (i := 0) h (by simp [state]) hexec hallowed
    (hcond p q)

/-- The responder goes on. -/
theorem extendB (h : (N.system C).Reachable (R.state t p u q)) (hexec : Exec (prims Fp) q v q')
    (hallowed : System.Along (fun st _ ev => (N.system C).Allowed st ev) (R.state t p [] q) 1
      (R.b, .responder) u v) (hcond : R.AlongB C t u v) :
    (N.system C).Reachable (R.state t p (u ++ v) q') :=
  System.Reachable.extend (x := R.state t p [] q) (i := 1) h (by simp [state]) hexec hallowed
    (hcond p q)

/-- A signature by the attacker or by a run that has signed may be shown. -/
theorem allowed_verified {st : N.State} {sk : Bytes 32} {m sig : Bytes 64} {n : N.Node}
    (hsk : Eddsa.derivePublic Sha512 Fp sk ∈ N.attackerKeys ∨ sk = N.identitySk n)
    (hsigned : ∃ r ∈ st.runs, .signed (N.identitySk n) m ∈ r.trace) :
    (N.system C).Allowed st (.verified (Eddsa.derivePublic Sha512 Fp sk) m sig true) := by
  rcases hsk with hkey | rfl
  · exact .inl hkey
  · obtain ⟨r, hr, hmem⟩ := hsigned
    exact .inr ⟨r, hr, N.identitySk n, hmem, rfl⟩

/-- The state in which HS_FINISH is on its way. -/
theorem reachable_finishes (hC : R.Finishes C) {p₁ p₂ q₁ : Role}
    (h₁ : Exec (prims Fp) (N.program (R.a, .initiator)) R.exchange.opens p₁)
    (h₂ : Exec (prims Fp) p₁ R.exchange.finishes p₂)
    (h₃ : Exec (prims Fp) (N.program (R.b, .responder)) R.exchange.answers q₁) :
    (N.system C).Reachable
      (R.state (R.exchange.opens ++ R.exchange.finishes) p₂ R.exchange.answers q₁) := by
  have hopened := extendA reachable_start h₁
    (by simp [System.Along, Exchange.opens, state, System.Allowed]) hC.opens
  have hanswered := extendB hopened h₃
    (by
      have hne := R.distinct
      simp [System.Along, Exchange.answers, Exchange.opens, state, System.Allowed,
        Network.system, prims, exchange, hne])
    hC.answers
  refine extendA hanswered h₂ ?_ hC.finishes
  refine ⟨fun _ => trivial, fun _ => ?_, fun _ => trivial, fun _ => trivial, trivial⟩
  exact allowed_verified R.signsForA
    ⟨_, List.mem_of_getElem? (i := 1) rfl, by simp [Exchange.answers, exchange]⟩

/-- The state in which both have returned. -/
theorem reachable_completes (hC : R.Completes C) :
    (N.system C).Reachable
      (R.state (R.exchange.opens ++ R.exchange.finishes ++ Exchange.confirmed)
        (.ret (some (initiatorSession Fp R.ephA R.exchange.resp)))
        (R.exchange.answers ++ R.exchange.accepts)
        (.ret (some (responderSession Fp ⟨R.exchange.pkA⟩ R.ephB R.exchange.finish)))) := by
  obtain ⟨p₁, p₂, h₁, h₂, h₃⟩ := R.exchange.initiator_stages
  obtain ⟨q₁, h₄, h₅⟩ := R.exchange.responder_stages
  have hfinished := reachable_finishes hC.toFinishes h₁ h₂ h₄
  have haccepted := extendB hfinished h₅
    ⟨fun _ => trivial, fun _ => allowed_verified R.signsForB
      ⟨_, List.mem_of_getElem? (i := 0) rfl, by simp [Exchange.finishes, exchange]⟩,
      fun _ => trivial, trivial⟩
    hC.accepts
  exact extendA haccepted h₃ ⟨fun _ => trivial, trivial⟩ hC.confirmed

/-- The state in which the attacker has kept HS_FINISH to itself and has sent
the OK. -/
theorem reachable_forgedOk (hC : R.Finishes C)
    (hok : R.AlongA C (R.exchange.opens ++ R.exchange.finishes) R.exchange.answers
      Exchange.confirmed) : ∃ q,
    (N.system C).Reachable
      (R.state (R.exchange.opens ++ R.exchange.finishes ++ Exchange.confirmed)
        (.ret (some (initiatorSession Fp R.ephA R.exchange.resp))) R.exchange.answers q) := by
  obtain ⟨p₁, p₂, h₁, h₂, h₃⟩ := R.exchange.initiator_stages
  obtain ⟨q₁, h₄, -⟩ := R.exchange.responder_stages
  have hfinished := reachable_finishes hC h₁ h₂ h₄
  exact ⟨q₁, extendA hfinished h₃ ⟨fun _ => trivial, trivial⟩ hok⟩

theorem finishes_unrestricted : R.Finishes N.unrestricted := by
  constructor <;> intro p q <;>
    simp [System.Along, Exchange.opens, Exchange.answers, Exchange.finishes, Network.unrestricted]

theorem completes_unrestricted : R.Completes N.unrestricted := by
  refine ⟨finishes_unrestricted, fun p q => ?_, fun p q => ?_⟩ <;>
    simp [System.Along, Exchange.accepts, Exchange.confirmed, Network.unrestricted]

end Relay

/-! ### Two nodes -/

theorem derivePublic_constant_ne :
    X25519.derivePublic Fp (constant 0) ≠ X25519.derivePublic Fp (constant 1) := by
  decide +kernel

theorem identities_nodup :
    (([0, 1, 2] : List UInt8).map fun c =>
      Eddsa.derivePublic Sha512 Fp (constant c)).Nodup := by
  -- the scalars differ in their low bytes
  have hbytes : (([0, 1, 2] : List UInt8).map fun c =>
      (Eddsa.secretScalar Sha512 (constant c)).value % FieldQ.order).map (· % 2 ^ 8) =
        [175, 202, 244] := by
    decide +kernel
  have hscalars := List.Nodup.of_map (· % 2 ^ 8) (hbytes ▸ (by decide : [175, 202, 244].Nodup))
  refine List.pairwise_map.mpr ((List.pairwise_map.mp hscalars).imp ?_)
  intro c c' hne heq
  exact hne ((Eddsa.derivePublic_eq_iff Sha512 _ _).mp heq)

/-- Two honest nodes, and an attacker that holds the keys `K`. -/
def twoNodes (K : Set (Bytes 32)) : Network Fp where
  Node := Bool
  identitySk n := constant (if n then 1 else 0)
  attackerKeys := K

theorem twoNodes_identityPk_ne (K : Set (Bytes 32)) :
    (twoNodes K).identityPk false ≠ (twoNodes K).identityPk true := by
  have h := identities_nodup
  simp only [List.map_cons, List.nodup_cons, List.mem_cons, not_or] at h
  exact h.1.1

theorem twoNodes_heldOnlyBy (n : Bool) :
    (twoNodes ∅).HeldOnlyBy n ((twoNodes ∅).identityPk n) := by
  have hinj : Function.Injective (twoNodes ∅).identityPk :=
    Bool.injective_iff.mpr (twoNodes_identityPk_ne ∅)
  exact ⟨rfl, Set.notMem_empty _, fun n' h => hinj h⟩

/-- An undisturbed handshake of the two nodes. -/
def undisturbed : Relay (twoNodes ∅) where
  a := false
  b := true
  ephA := constant 0
  ephB := constant 1
  shownToA := constant 1
  shownToB := constant 0
  distinct := derivePublic_constant_ne
  shared := exchange_constant_isSome
  signsForA := .inr rfl
  signsForB := .inr rfl

end Handshake

end PeerToPeer
