import PeerToPeer.Session.Session
import PeerToPeer.Transfer.Chunker

/-!
`node`: how messages leave a node and arrive at another.

Short messages are sent as they are, long ones in chunks. The receiver cannot
see which it was: it takes for a chunk whatever parses as one.
-/

namespace PeerToPeer.Node

open Lib Crypto Net Protocol Transfer

/-- The sending side of a `peer_conn`: its session and the outgoing stream. -/
abbrev Outgoing := Session × List UInt8

/-- `send_msg`. -/
def sendMsg (out : Outgoing) (data : List UInt8) : Outgoing × Bool := (out.1.send out.2 data, true)

/-- `send_chunked_msg`. -/
def sendChunkedMsg (transferId : UInt32) (out : Outgoing) (data : List UInt8)
    (chunkSize : UInt64 := chunkPayloadSize) : Outgoing × Bool :=
  let (out, sent) := sendChunked sendMsg transferId data chunkSize out
  (out, decide (0 < sent))

/-- What `ctl_send`, `ctl_broadcast` and `broadcast` do with one connection. -/
def sendText (out : Outgoing) (transferId : UInt32) (text : List UInt8) : Outgoing × Bool :=
  if text.length > chunkPayloadSize.toNat then sendChunkedMsg transferId out text
  else sendMsg out text

/-- Successive messages over one connection, each with the number that is drawn
if it goes out in chunks. -/
def sendTexts (out : Outgoing) : List (UInt32 × List UInt8) → Outgoing
  | [] => out
  | (transferId, text) :: rest => sendTexts (sendText out transferId text).1 rest

/-- A hexadecimal digit. -/
def hexDigit (n : ℕ) : Char := "0123456789abcdef".toList.getD n '0'

/-- The first four bytes of an identity key, in hexadecimal. -/
def pkHex (pk : Bytes 32) : String :=
  String.ofList ((pk.toList.take 4).flatMap fun b =>
    [hexDigit (b.toNat / 16), hexDigit (b.toNat % 16)])

/-- An entry of `received_msgs_`. -/
structure ReceivedMsg where
  pkHex : String
  text : List UInt8
  deriving DecidableEq

/-- What `recv_loop` makes of one session message: a text, if there is one to
deliver, and the open transfers. -/
def deliver (chunks : TransferRegistry) (msg : List UInt8) :
    Option (List UInt8) × TransferRegistry :=
  match parseChunkFrame msg with
  | some ci => chunks.ingest ci
  | none => (some msg, chunks)

/-- A call of `recv` that returns something has taken it from the stream. -/
theorem recv_length_lt {sess : Session} {conn rest msg : List UInt8}
    (h : sess.recv conn = (some msg, rest)) : rest.length < conn.length := by
  unfold Session.recv at h
  split at h
  · cases h
  · rename_i hframe
    obtain ⟨-, rfl⟩ := Prod.mk.inj h
    have := length_of_recvFrame hframe
    omega

/-- `recv_loop`: the entries that are pushed onto `received_msgs_`, until `recv`
returns nothing. -/
def recvLoop (sess : Session) (conn : List UInt8) (chunks : TransferRegistry) :
    List ReceivedMsg :=
  match _h : sess.recv conn with
  | (none, _) => []
  | (some msg, rest) =>
      let (text, chunks) := deliver chunks msg
      let pushed := text.toList.map fun text => ⟨pkHex sess.peerIdentityPk, text⟩
      pushed ++ recvLoop sess rest chunks
  termination_by conn.length
  decreasing_by exact recv_length_lt ‹_›

end PeerToPeer.Node
