import PeerToPeer.Crypto.Aead
import PeerToPeer.Net.Tcp
import PeerToPeer.Protocol.Wire

/-!
`session`: the encrypted channel that a handshake establishes.

A sender takes its nonce from a counter and writes it into the frame; a receiver
takes the nonce from the frame it gets. What a receiver makes of one frame does
not depend on the frames before it.
-/

namespace PeerToPeer

open Lib Crypto Net Protocol

/-- `counter_nonce`: four zero bytes, then the counter, most significant byte
first. -/
def counterNonce (ctr : UInt64) : Bytes 12 :=
  ⟨(List.replicate 4 0 ++ beBytes 8 ctr.toNat).toArray, by simp⟩

/-- Different counters give different nonces. -/
theorem counterNonce_inj {c d : UInt64} (h : counterNonce c = counterNonce d) : c = d := by
  have hlist := congrArg (fun v : Bytes 12 => v.toList.drop 4) h
  have hbytes : beBytes 8 c.toNat = beBytes 8 d.toNat := hlist
  have hnat := congrArg beNat hbytes
  have hc := c.toNat_lt
  have hd := d.toNat_lt
  rw [beNat_beBytes, beNat_beBytes, Nat.mod_eq_of_lt (by simpa using hc),
    Nat.mod_eq_of_lt (by simpa using hd)] at hnat
  exact UInt64.toNat_inj.mp hnat

/-- `session`. -/
structure Session where
  peerIdentityPk : Bytes 32
  kSend : Bytes 32
  kRecv : Bytes 32
  sendCtr : UInt64 := 0
  deriving DecidableEq

namespace Session

/-- The frame that `send` makes of a plaintext. -/
def sealFrame (s : Session) (plaintext : List UInt8) : Frame :=
  let nonce := counterNonce s.sendCtr
  buildEncrypted nonce (Aead.sealBlob s.kSend nonce plaintext [])

/-- The key and the nonce that `send` passes to `seal`. -/
def sealArgs (s : Session) : Bytes 32 × Bytes 12 := (s.kSend, counterNonce s.sendCtr)

/-- `send`: the session after the call and the outgoing stream. -/
def send (s : Session) (conn : List UInt8) (plaintext : List UInt8) : Session × List UInt8 :=
  ({ s with sendCtr := s.sendCtr + 1 }, conn ++ frameBytes (s.sealFrame plaintext))

/-- What `recv` makes of a frame: an empty plaintext counts as a failure of the
authentication. -/
def openFrame (s : Session) (raw : Frame) : Option (List UInt8) :=
  match parseEncrypted raw with
  | none => none
  | some enc =>
      let plaintext := Aead.openBlob s.kRecv enc.nonce enc.blob []
      if plaintext.isEmpty then none else some plaintext

/-- `recv`: the result and what is left of the incoming stream. -/
def recv (s : Session) (conn : List UInt8) : Option (List UInt8) × List UInt8 :=
  match recvFrame conn with
  | (none, rest) => (none, rest)
  | (some raw, rest) => (s.openFrame raw, rest)

/-! ### Sequences of calls -/

/-- The frames that successive `send` calls make. -/
def sentFrames (s : Session) : List (List UInt8) → List Frame
  | [] => []
  | m :: ms => s.sealFrame m :: sentFrames (s.send [] m).1 ms

/-- The stream after successive `send` calls. -/
def sendAll (s : Session) (conn : List UInt8) : List (List UInt8) → List UInt8
  | [] => conn
  | m :: ms => sendAll (s.send conn m).1 (s.send conn m).2 ms

/-- The results of `n` successive `recv` calls. -/
def recvMany (s : Session) : ℕ → List UInt8 → List (Option (List UInt8))
  | 0, _ => []
  | n + 1, conn => (s.recv conn).1 :: recvMany s n (s.recv conn).2

/-- The frames that `n` successive `recv_frame` calls take from a stream. -/
def framesOf : ℕ → List UInt8 → List (Option Frame)
  | 0, _ => []
  | n + 1, conn => (recvFrame conn).1 :: framesOf n (recvFrame conn).2

/-! ### One frame -/

/-- Opening the frame of a mirrored session. -/
theorem openFrame_sealFrame {a b : Session} (h : a.kSend = b.kRecv) (m : List UInt8) :
    b.openFrame (a.sealFrame m) = if m.isEmpty then none else some m := by
  simp only [openFrame, sealFrame]
  rw [parseEncrypted_buildEncrypted _ (by rw [Aead.length_sealBlob]; omega)]
  simp only [h, Aead.openBlob_sealBlob]

/-- These are the key and the nonce of the frame. -/
theorem sealFrame_eq (s : Session) (m : List UInt8) :
    s.sealFrame m =
      buildEncrypted s.sealArgs.2 (Aead.sealBlob s.sealArgs.1 s.sealArgs.2 m []) := rfl

theorem length_sealFrame (s : Session) (m : List UInt8) :
    (s.sealFrame m).length = m.length + 29 := by
  rw [sealFrame, length_buildEncrypted, Aead.length_sealBlob]
  omega

@[simp] theorem send_kSend (s : Session) (conn m : List UInt8) :
    (s.send conn m).1.kSend = s.kSend := rfl

theorem send_fst (s : Session) (conn conn' m : List UInt8) :
    (s.send conn m).1 = (s.send conn' m).1 := rfl

/-- `recv` handles the frames of the stream one by one. -/
theorem recvMany_eq (s : Session) (n : ℕ) (conn : List UInt8) :
    s.recvMany n conn = (framesOf n conn).map (·.bind s.openFrame) := by
  induction n generalizing conn with
  | zero => rfl
  | succ n ih =>
      simp only [recvMany, framesOf, List.map_cons, ih, recv]
      rcases recvFrame conn with ⟨_ | raw, rest⟩ <;> rfl

/-- The stream of successive sends is the concatenation of their frames. -/
theorem sendAll_eq (s : Session) (conn : List UInt8) (ms : List (List UInt8)) :
    s.sendAll conn ms = conn ++ (s.sentFrames ms).flatMap frameBytes := by
  induction ms generalizing s conn with
  | nil => simp [sendAll, sentFrames]
  | cons m ms ih =>
      rw [sendAll, sentFrames, ih, List.flatMap_cons, send_fst s conn [] m]
      simp [send]

/-- Frames within the cap are read back one by one. -/
theorem framesOf_flatMap {fs : List Frame} (h : ∀ f ∈ fs, f.length ≤ maxFrame) :
    framesOf fs.length (fs.flatMap frameBytes) = fs.map some := by
  induction fs with
  | nil => rfl
  | cons f fs ih =>
      obtain ⟨hf, hfs⟩ := List.forall_mem_cons.mp h
      rw [List.length_cons, framesOf, List.flatMap_cons, recvFrame_frameBytes hf, ih hfs,
        List.map_cons]

@[simp] theorem length_sentFrames (s : Session) (ms : List (List UInt8)) :
    (s.sentFrames ms).length = ms.length := by
  induction ms generalizing s with
  | nil => rfl
  | cons m ms ih => simp [sentFrames, ih]

/-- Opening all frames of a mirrored session. -/
theorem map_openFrame_sentFrames {a b : Session} (h : a.kSend = b.kRecv)
    (ms : List (List UInt8)) :
    (a.sentFrames ms).map b.openFrame = ms.map fun m => if m.isEmpty then none else some m := by
  induction ms generalizing a with
  | nil => rfl
  | cons m ms ih =>
      rw [sentFrames, List.map_cons, List.map_cons, openFrame_sealFrame h, ih]
      exact h

theorem length_mem_sentFrames {s : Session} {ms : List (List UInt8)} {f : Frame}
    (hf : f ∈ s.sentFrames ms) : ∃ m ∈ ms, f.length = m.length + 29 := by
  induction ms generalizing s with
  | nil => simp [sentFrames] at hf
  | cons m ms ih =>
      rcases List.mem_cons.mp hf with rfl | hf
      · exact ⟨m, by simp, length_sealFrame s m⟩
      · obtain ⟨m', hm', hlen⟩ := ih hf
        exact ⟨m', List.mem_cons_of_mem _ hm', hlen⟩

end Session

end PeerToPeer
