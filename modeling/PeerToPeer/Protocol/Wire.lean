import PeerToPeer.Crypto.FieldOps

/-!
The frames of `protocol/wire.cpp`: their layouts, builders and parsers.

Every parser accepts what its builder made, whatever follows it for the
fixed-size frames, and returns the fields that went in.
-/

namespace PeerToPeer.Protocol

open PeerToPeer.Lib PeerToPeer.Crypto

/-- A frame is a byte string. -/
abbrev Frame := List UInt8

/-- `msg_type`. -/
inductive MsgType where
  | registerNode
  | getPeers
  | peerList
  | ok
  | hsInit
  | hsResp
  | hsFinish
  | encrypted
  deriving DecidableEq

def MsgType.code : MsgType → UInt8
  | .registerNode => 0x01
  | .getPeers => 0x02
  | .peerList => 0x03
  | .ok => 0x04
  | .hsInit => 0x10
  | .hsResp => 0x11
  | .hsFinish => 0x12
  | .encrypted => 0x20

/-- `peer_info`. -/
structure PeerInfo where
  ip : Bytes 4
  port : UInt16
  pubkey : Bytes 32
  deriving DecidableEq

/-! ### Builders -/

/-- `append_u16be`. -/
def u16be (x : UInt16) : List UInt8 := beBytes 2 x.toNat

def buildRegister (port : UInt16) (pubkey : Bytes 32) : Frame :=
  MsgType.registerNode.code :: (u16be port ++ pubkey.toList)

def buildGetPeers : Frame := [MsgType.getPeers.code]

def encodePeer (p : PeerInfo) : List UInt8 := p.ip.toList ++ u16be p.port ++ p.pubkey.toList

/-- `build_peer_list`: the count is cast to 16 bits. -/
def buildPeerList (peers : List PeerInfo) : Frame :=
  MsgType.peerList.code :: (u16be (UInt16.ofNat peers.length) ++ peers.flatMap encodePeer)

def buildOk : Frame := [MsgType.ok.code]

def buildHsInit (ephPk : Bytes 32) : Frame := MsgType.hsInit.code :: ephPk.toList

def buildHsResp (ephPk identityPk : Bytes 32) (sig : Bytes 64) : Frame :=
  MsgType.hsResp.code :: (ephPk.toList ++ identityPk.toList ++ sig.toList)

def buildHsFinish (identityPk : Bytes 32) (sig : Bytes 64) : Frame :=
  MsgType.hsFinish.code :: (identityPk.toList ++ sig.toList)

def buildEncrypted (nonce : Bytes 12) (blob : List UInt8) : Frame :=
  MsgType.encrypted.code :: (nonce.toList ++ blob)

/-! ### Parsers -/

/-- `get_type`: the first byte, which need not be the code of a message type. -/
def getType (frame : Frame) : UInt8 := frame.headD 0x00

/-- `n` bytes copied from an offset. -/
def slice (f : List UInt8) (offset n : ℕ) : Bytes n := Vector.ofFn fun i => f.getD (offset + i) 0

/-- `read_u16be`. -/
def readU16be (f : List UInt8) (offset : ℕ) : UInt16 :=
  UInt16.ofNat (beNat (slice f offset 2).toList)

structure ParsedRegister where
  port : UInt16
  pubkey : Bytes 32
  deriving DecidableEq

structure ParsedHsInit where
  ephPk : Bytes 32
  deriving DecidableEq

structure ParsedHsResp where
  ephPk : Bytes 32
  identityPk : Bytes 32
  sig : Bytes 64
  deriving DecidableEq

structure ParsedHsFinish where
  identityPk : Bytes 32
  sig : Bytes 64
  deriving DecidableEq

structure ParsedEncrypted where
  nonce : Bytes 12
  blob : List UInt8
  deriving DecidableEq

/-- The two checks that every parser starts with. -/
def accepts (f : Frame) (minLength : ℕ) (type : MsgType) : Bool :=
  decide (minLength ≤ f.length) && getType f == type.code

def parseRegister (f : Frame) : Option ParsedRegister :=
  if accepts f 35 .registerNode then some ⟨readU16be f 1, slice f 3 32⟩ else none

def decodePeer (f : List UInt8) (offset : ℕ) : PeerInfo :=
  ⟨slice f offset 4, readU16be f (offset + 4), slice f (offset + 6) 32⟩

def parsePeerList (f : Frame) : Option (List PeerInfo) :=
  if accepts f 3 .peerList then
    let count := (readU16be f 1).toNat
    if f.length < 3 + count * 38 then none
    else some ((List.range count).map fun i => decodePeer f (3 + i * 38))
  else none

def parseHsInit (f : Frame) : Option ParsedHsInit :=
  if accepts f 33 .hsInit then some ⟨slice f 1 32⟩ else none

def parseHsResp (f : Frame) : Option ParsedHsResp :=
  if accepts f 129 .hsResp then some ⟨slice f 1 32, slice f 33 32, slice f 65 64⟩ else none

def parseHsFinish (f : Frame) : Option ParsedHsFinish :=
  if accepts f 97 .hsFinish then some ⟨slice f 1 32, slice f 33 64⟩ else none

def parseEncrypted (f : Frame) : Option ParsedEncrypted :=
  if accepts f 29 .encrypted then some ⟨slice f 1 12, f.drop 13⟩ else none

/-! ### Parsing what was built -/

theorem slice_append (front : List UInt8) {n : ℕ} (v : Bytes n) (rest : List UInt8) :
    slice (front ++ (v.toList ++ rest)) front.length n = v := by
  apply Vector.ext
  intro i hi
  rw [slice, Vector.getElem_ofFn, List.getD_eq_getElem?_getD,
    List.getElem?_append_right (Nat.le_add_right _ _), Nat.add_sub_cancel_left,
    List.getElem?_append_left (by rwa [Vector.length_toList]),
    List.getElem?_eq_getElem (by rwa [Vector.length_toList]), Option.getD_some,
    Vector.getElem_toList]

/-- The same with the offset given as a number. -/
theorem slice_append_of_length (front : List UInt8) (offset : ℕ) {n : ℕ} (h : front.length = offset)
    (v : Bytes n) (rest : List UInt8) :
    slice (front ++ (v.toList ++ rest)) offset n = v := by
  subst h
  exact slice_append front v rest

/-- A two-byte number is read back. -/
theorem readU16be_append (front : List UInt8) (offset : ℕ) (h : front.length = offset)
    (x : UInt16) (rest : List UInt8) : readU16be (front ++ (u16be x ++ rest)) offset = x := by
  have hslice := slice_append_of_length front offset h
    (⟨(u16be x).toArray, by simp [u16be]⟩ : Bytes 2) rest
  simp only [Vector.toList_mk] at hslice
  rw [readU16be, hslice]
  simp only [Vector.toList_mk]
  have hx := x.toNat_lt
  apply UInt16.toNat_inj.mp
  rw [UInt16.toNat_ofNat', u16be, beNat_beBytes]
  omega

theorem length_buildHsInit (ephPk : Bytes 32) : (buildHsInit ephPk).length = 33 := by
  simp [buildHsInit]

theorem length_buildHsResp (ephPk identityPk : Bytes 32) (sig : Bytes 64) :
    (buildHsResp ephPk identityPk sig).length = 129 := by
  simp [buildHsResp]

theorem length_buildHsFinish (identityPk : Bytes 32) (sig : Bytes 64) :
    (buildHsFinish identityPk sig).length = 97 := by
  simp [buildHsFinish]

@[simp] theorem length_u16be (x : UInt16) : (u16be x).length = 2 := length_beBytes 2 _

@[simp] theorem length_encodePeer (p : PeerInfo) : (encodePeer p).length = 38 := by
  simp [encodePeer]

theorem length_flatMap_encodePeer (peers : List PeerInfo) :
    (peers.flatMap encodePeer).length = peers.length * 38 := by
  induction peers with
  | nil => rfl
  | cons p peers ih =>
      rw [List.flatMap_cons, List.length_append, ih, length_encodePeer, List.length_cons]
      omega

theorem length_buildPeerList (peers : List PeerInfo) :
    (buildPeerList peers).length = 3 + peers.length * 38 := by
  rw [buildPeerList, List.length_cons, List.length_append, length_flatMap_encodePeer, length_u16be]
  omega

theorem length_buildEncrypted (nonce : Bytes 12) (blob : List UInt8) :
    (buildEncrypted nonce blob).length = 13 + blob.length := by
  simp [buildEncrypted]
  omega

theorem accepts_cons (type : MsgType) (body : List UInt8) {n : ℕ} (h : n ≤ body.length + 1) :
    accepts (type.code :: body) n type = true := by
  simp [accepts, getType, h]

theorem accepts_cons_append (type : MsgType) (body rest : List UInt8) {n : ℕ}
    (h : n ≤ body.length + 1) : accepts (type.code :: body ++ rest) n type = true :=
  accepts_cons type (body ++ rest) (by rw [List.length_append]; omega)

theorem parseRegister_append (port : UInt16) (pubkey : Bytes 32) (rest : List UInt8) :
    parseRegister (buildRegister port pubkey ++ rest) = some ⟨port, pubkey⟩ := by
  have h1 : readU16be (buildRegister port pubkey ++ rest) 1 = port := by
    simpa [buildRegister] using
      readU16be_append [MsgType.registerNode.code] 1 rfl port (pubkey.toList ++ rest)
  have h2 : slice (buildRegister port pubkey ++ rest) 3 32 = pubkey := by
    simpa [buildRegister] using
      slice_append_of_length (MsgType.registerNode.code :: u16be port) 3 (by simp) pubkey rest
  rw [parseRegister, h1, h2, buildRegister, accepts_cons_append _ _ _ (by simp)]
  rfl

@[simp] theorem parseRegister_buildRegister (port : UInt16) (pubkey : Bytes 32) :
    parseRegister (buildRegister port pubkey) = some ⟨port, pubkey⟩ := by
  simpa using parseRegister_append port pubkey []

/-- One entry of a peer list is read back. -/
theorem decodePeer_append (front : List UInt8) (offset : ℕ) (h : front.length = offset)
    (p : PeerInfo) (rest : List UInt8) :
    decodePeer (front ++ (encodePeer p ++ rest)) offset = p := by
  have h1 : slice (front ++ (encodePeer p ++ rest)) offset 4 = p.ip := by
    simpa [encodePeer] using
      slice_append_of_length front offset h p.ip (u16be p.port ++ (p.pubkey.toList ++ rest))
  have h2 : readU16be (front ++ (encodePeer p ++ rest)) (offset + 4) = p.port := by
    simpa [encodePeer] using
      readU16be_append (front ++ p.ip.toList) (offset + 4) (by simp [h]) p.port
        (p.pubkey.toList ++ rest)
  have h3 : slice (front ++ (encodePeer p ++ rest)) (offset + 6) 32 = p.pubkey := by
    simpa [encodePeer] using
      slice_append_of_length (front ++ (p.ip.toList ++ u16be p.port)) (offset + 6)
        (by simp [h]) p.pubkey rest
  rw [decodePeer, h1, h2, h3]

/-- A peer list is read back when its length fits the count field. -/
theorem parsePeerList_append {peers : List PeerInfo} (h : peers.length < 2 ^ 16)
    (rest : List UInt8) : parsePeerList (buildPeerList peers ++ rest) = some peers := by
  have hcount : readU16be (buildPeerList peers ++ rest) 1 = UInt16.ofNat peers.length := by
    simpa [buildPeerList] using
      readU16be_append [MsgType.peerList.code] 1 rfl (UInt16.ofNat peers.length)
        (peers.flatMap encodePeer ++ rest)
  have hnat : (UInt16.ofNat peers.length).toNat = peers.length := by
    rw [UInt16.toNat_ofNat', Nat.mod_eq_of_lt h]
  have haccepts : accepts (buildPeerList peers ++ rest) 3 .peerList = true :=
    accepts_cons _ _ (by simp)
  have hlen : ¬(buildPeerList peers ++ rest).length < 3 + peers.length * 38 := by
    rw [List.length_append, length_buildPeerList]
    omega
  rw [parsePeerList, if_pos haccepts]
  simp only [hcount, hnat]
  rw [if_neg hlen, Option.some.injEq]
  apply List.ext_getElem
  · simp
  intro i hi hi'
  rw [List.getElem_map, List.getElem_range]
  -- the entry stands after the header and the `i` entries before it
  have hsplit : buildPeerList peers ++ rest =
      (MsgType.peerList.code :: (u16be (UInt16.ofNat peers.length) ++
        (peers.take i).flatMap encodePeer)) ++
      (encodePeer peers[i] ++ ((peers.drop (i + 1)).flatMap encodePeer ++ rest)) := by
    rw [← List.append_assoc (encodePeer _), ← List.flatMap_cons, ← List.drop_eq_getElem_cons hi',
      ← List.append_assoc, List.cons_append, List.append_assoc, ← List.flatMap_append,
      List.take_append_drop]
    rfl
  rw [hsplit]
  apply decodePeer_append
  rw [List.length_cons, List.length_append, length_flatMap_encodePeer, length_u16be,
    List.length_take]
  omega

theorem parsePeerList_buildPeerList {peers : List PeerInfo} (h : peers.length < 2 ^ 16) :
    parsePeerList (buildPeerList peers) = some peers := by
  simpa using parsePeerList_append h []

/-- A peer list has at most as many entries as its count field can say. -/
theorem length_of_parsePeerList {f : Frame} {peers : List PeerInfo}
    (h : parsePeerList f = some peers) : peers.length < 2 ^ 16 := by
  unfold parsePeerList at h
  split at h
  · simp only at h
    split at h
    · cases h
    · cases h
      rw [List.length_map, List.length_range]
      exact UInt16.toNat_lt _
  · cases h

theorem parseHsInit_append (ephPk : Bytes 32) (rest : List UInt8) :
    parseHsInit (buildHsInit ephPk ++ rest) = some ⟨ephPk⟩ := by
  have h1 : slice (buildHsInit ephPk ++ rest) 1 32 = ephPk := by
    simpa [buildHsInit] using
      slice_append_of_length [MsgType.hsInit.code] 1 rfl ephPk rest
  rw [parseHsInit, h1, buildHsInit, accepts_cons_append _ _ _ (by simp)]
  rfl

@[simp] theorem parseHsInit_buildHsInit (ephPk : Bytes 32) :
    parseHsInit (buildHsInit ephPk) = some ⟨ephPk⟩ := by
  simpa using parseHsInit_append ephPk []

theorem parseHsResp_append (ephPk identityPk : Bytes 32) (sig : Bytes 64) (rest : List UInt8) :
    parseHsResp (buildHsResp ephPk identityPk sig ++ rest) = some ⟨ephPk, identityPk, sig⟩ := by
  have h1 : slice (buildHsResp ephPk identityPk sig ++ rest) 1 32 = ephPk := by
    simpa [buildHsResp] using
      slice_append_of_length [MsgType.hsResp.code] 1 rfl ephPk
        (identityPk.toList ++ (sig.toList ++ rest))
  have h2 : slice (buildHsResp ephPk identityPk sig ++ rest) 33 32 = identityPk := by
    simpa [buildHsResp] using
      slice_append_of_length (MsgType.hsResp.code :: ephPk.toList) 33
        (by simp) identityPk (sig.toList ++ rest)
  have h3 : slice (buildHsResp ephPk identityPk sig ++ rest) 65 64 = sig := by
    simpa [buildHsResp] using
      slice_append_of_length
        (MsgType.hsResp.code :: (ephPk.toList ++ identityPk.toList)) 65
        (by simp) sig rest
  rw [parseHsResp, h1, h2, h3, buildHsResp, accepts_cons_append _ _ _ (by simp)]
  rfl

@[simp] theorem parseHsResp_buildHsResp (ephPk identityPk : Bytes 32) (sig : Bytes 64) :
    parseHsResp (buildHsResp ephPk identityPk sig) = some ⟨ephPk, identityPk, sig⟩ := by
  simpa using parseHsResp_append ephPk identityPk sig []

theorem parseHsFinish_append (identityPk : Bytes 32) (sig : Bytes 64) (rest : List UInt8) :
    parseHsFinish (buildHsFinish identityPk sig ++ rest) = some ⟨identityPk, sig⟩ := by
  have h1 : slice (buildHsFinish identityPk sig ++ rest) 1 32 = identityPk := by
    simpa [buildHsFinish] using
      slice_append_of_length [MsgType.hsFinish.code] 1 rfl identityPk
        (sig.toList ++ rest)
  have h2 : slice (buildHsFinish identityPk sig ++ rest) 33 64 = sig := by
    simpa [buildHsFinish] using
      slice_append_of_length (MsgType.hsFinish.code :: identityPk.toList)
        33 (by simp) sig rest
  rw [parseHsFinish, h1, h2, buildHsFinish, accepts_cons_append _ _ _ (by simp)]
  rfl

@[simp] theorem parseHsFinish_buildHsFinish (identityPk : Bytes 32) (sig : Bytes 64) :
    parseHsFinish (buildHsFinish identityPk sig) = some ⟨identityPk, sig⟩ := by
  simpa using parseHsFinish_append identityPk sig []

/-- Encrypted frames are parsed when the blob has room for a tag. -/
theorem parseEncrypted_buildEncrypted (nonce : Bytes 12) {blob : List UInt8}
    (h : 16 ≤ blob.length) :
    parseEncrypted (buildEncrypted nonce blob) = some ⟨nonce, blob⟩ := by
  have h1 : slice (buildEncrypted nonce blob) 1 12 = nonce := by
    simpa [buildEncrypted] using
      slice_append_of_length [MsgType.encrypted.code] 1 rfl nonce blob
  have h2 : (buildEncrypted nonce blob).drop 13 = blob := by
    rw [buildEncrypted, List.drop_succ_cons]
    exact List.drop_left' (by simp)
  rw [parseEncrypted, h1, h2, buildEncrypted, accepts_cons]
  · rfl
  · rw [List.length_append, Vector.length_toList]
    omega

@[simp] theorem getType_buildOk : getType buildOk = MsgType.ok.code := rfl

end PeerToPeer.Protocol
