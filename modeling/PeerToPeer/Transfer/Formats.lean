import PeerToPeer.Transfer.Chunker

/-!
The parsers accept what the builders build, and nothing else.

Each parser reads fields at fixed offsets. Put together again in their order, the
fields are the front of the frame, so a frame that is accepted starts with the
bytes that the builder makes of the result.
-/

namespace PeerToPeer

open Lib Crypto

namespace Protocol

/-! ### Fields and bytes -/

theorem toList_slice {f : List UInt8} {offset n : ℕ} (h : offset + n ≤ f.length) :
    (slice f offset n).toList = (f.drop offset).take n := by
  apply List.ext_getElem
  · rw [Vector.length_toList, List.length_take, List.length_drop]
    omega
  · intro i hi hi'
    rw [Vector.length_toList] at hi
    rw [Vector.getElem_toList]
    simp only [slice, Vector.getElem_ofFn]
    rw [List.getD_eq_getElem _ _ (by omega), List.getElem_take, List.getElem_drop]

/-- One more field of the front of a frame. -/
theorem take_append_slice (f : List UInt8) (offset n stop : ℕ) (hstop : offset + n = stop)
    (h : stop ≤ f.length) : f.take offset ++ (slice f offset n).toList = f.take stop := by
  subst hstop
  rw [toList_slice h, List.take_add]

theorem u16be_readU16be (f : List UInt8) (offset : ℕ) :
    u16be (readU16be f offset) = (slice f offset 2).toList := by
  have hlt : beNat (slice f offset 2).toList < 2 ^ 16 := by
    have h := leNat_lt (slice f offset 2).toList.reverse
    rw [List.length_reverse, Vector.length_toList] at h
    exact h
  have h := beBytes_beNat (slice f offset 2).toList
  rw [Vector.length_toList] at h
  rw [u16be, readU16be, UInt16.toNat_ofNat', Nat.mod_eq_of_lt hlt, h]

/-- The type byte of an accepted frame, and its length. -/
theorem accepts_iff {f : Frame} {n : ℕ} {type : MsgType} (hn : 0 < n) :
    accepts f n type = true ↔ n ≤ f.length ∧ f.take 1 = [type.code] := by
  simp only [accepts, Bool.and_eq_true, decide_eq_true_eq, beq_iff_eq, getType]
  constructor
  · rintro ⟨hlen, htype⟩
    obtain ⟨b, rest, rfl⟩ := List.exists_cons_of_length_pos (lt_of_lt_of_le hn hlen)
    exact ⟨hlen, by simpa using htype⟩
  · rintro ⟨hlen, htype⟩
    obtain ⟨b, rest, rfl⟩ := List.exists_cons_of_length_pos (lt_of_lt_of_le hn hlen)
    exact ⟨hlen, by simpa using htype⟩

/-! ### The wire frames -/

/-- A parser that reads back what was built, and whose results make up the front of
the frame, accepts exactly the frames that start with a built one. -/
theorem parse_eq_some_iff_prefix {α : Type} {parse : Frame → Option α} (build : α → Frame) {m : α}
    {f : Frame} (happend : ∀ rest, parse (build m ++ rest) = some m)
    (hfront : parse f = some m → ∃ n, build m = f.take n) :
    parse f = some m ↔ build m <+: f := by
  constructor
  · intro h
    obtain ⟨n, hn⟩ := hfront h
    rw [hn]
    exact List.take_prefix n f
  · rintro ⟨rest, rfl⟩
    exact happend rest

theorem parseRegister_eq_some_iff (f : Frame) (m : ParsedRegister) :
    parseRegister f = some m ↔ buildRegister m.port m.pubkey <+: f := by
  refine parse_eq_some_iff_prefix (fun m : ParsedRegister => buildRegister m.port m.pubkey)
    (parseRegister_append m.port m.pubkey) fun h => ⟨35, ?_⟩
  unfold parseRegister at h
  split at h
  · rename_i haccepts
    obtain ⟨hlen, htype⟩ := (accepts_iff (by norm_num)).mp haccepts
    obtain rfl := Option.some.inj h
    rw [← take_append_slice f 3 32 35 rfl hlen, ← take_append_slice f 1 2 3 rfl (by omega), htype,
      ← u16be_readU16be]
    rfl
  · cases h

/-- The entries of a peer list are read one after the other. -/
theorem take_peers (f : Frame) {count : ℕ} (h : 3 + count * 38 ≤ f.length) :
    f.take 3 ++ ((List.range count).map fun i => decodePeer f (3 + i * 38)).flatMap encodePeer =
      f.take (3 + count * 38) := by
  induction count with
  | zero => simp
  | succ count ih =>
      have hip := take_append_slice f (3 + count * 38) 4 (3 + count * 38 + 4) rfl (by omega)
      have hport := take_append_slice f (3 + count * 38 + 4) 2 (3 + count * 38 + 6) rfl (by omega)
      have hkey := take_append_slice f (3 + count * 38 + 6) 32 (3 + (count + 1) * 38) (by omega) h
      rw [← hport, ← hip, ← ih (by omega)] at hkey
      rw [← hkey, List.range_succ, List.map_append, List.flatMap_append, List.map_singleton,
        List.flatMap_singleton, encodePeer, decodePeer, u16be_readU16be]
      simp only [List.append_assoc]

theorem parsePeerList_eq_some_iff (f : Frame) (peers : List PeerInfo) :
    parsePeerList f = some peers ↔ peers.length ≤ 65535 ∧ buildPeerList peers <+: f := by
  constructor
  · intro h
    have hlt := length_of_parsePeerList h
    refine ⟨by omega, ?_⟩
    unfold parsePeerList at h
    split at h
    · rename_i haccepts
      obtain ⟨hlen, htype⟩ := (accepts_iff (by norm_num)).mp haccepts
      simp only at h
      split at h
      · cases h
      · rename_i hcount
        obtain rfl := Option.some.inj h
        have hfront := take_peers f (Nat.not_lt.mp hcount)
        rw [← take_append_slice f 1 2 3 rfl hlen, htype, ← u16be_readU16be] at hfront
        rw [buildPeerList, List.length_map, List.length_range, UInt16.ofNat_toNat,
          ← List.cons_append, ← List.singleton_append, hfront]
        exact List.take_prefix _ _
    · cases h
  · rintro ⟨hlen, rest, rfl⟩
    exact parsePeerList_append (by omega) rest

theorem parseHsInit_eq_some_iff (f : Frame) (m : ParsedHsInit) :
    parseHsInit f = some m ↔ buildHsInit m.ephPk <+: f := by
  refine parse_eq_some_iff_prefix (fun m : ParsedHsInit => buildHsInit m.ephPk)
    (parseHsInit_append m.ephPk) fun h => ⟨33, ?_⟩
  unfold parseHsInit at h
  split at h
  · rename_i haccepts
    obtain ⟨hlen, htype⟩ := (accepts_iff (by norm_num)).mp haccepts
    obtain rfl := Option.some.inj h
    rw [← take_append_slice f 1 32 33 rfl hlen, htype]
    rfl
  · cases h

theorem parseHsResp_eq_some_iff (f : Frame) (m : ParsedHsResp) :
    parseHsResp f = some m ↔ buildHsResp m.ephPk m.identityPk m.sig <+: f := by
  refine parse_eq_some_iff_prefix
    (fun m : ParsedHsResp => buildHsResp m.ephPk m.identityPk m.sig)
    (parseHsResp_append m.ephPk m.identityPk m.sig) fun h => ⟨129, ?_⟩
  unfold parseHsResp at h
  split at h
  · rename_i haccepts
    obtain ⟨hlen, htype⟩ := (accepts_iff (by norm_num)).mp haccepts
    obtain rfl := Option.some.inj h
    rw [← take_append_slice f 65 64 129 rfl hlen, ← take_append_slice f 33 32 65 rfl (by omega),
      ← take_append_slice f 1 32 33 rfl (by omega), htype]
    rfl
  · cases h

theorem parseHsFinish_eq_some_iff (f : Frame) (m : ParsedHsFinish) :
    parseHsFinish f = some m ↔ buildHsFinish m.identityPk m.sig <+: f := by
  refine parse_eq_some_iff_prefix
    (fun m : ParsedHsFinish => buildHsFinish m.identityPk m.sig)
    (parseHsFinish_append m.identityPk m.sig) fun h => ⟨97, ?_⟩
  unfold parseHsFinish at h
  split at h
  · rename_i haccepts
    obtain ⟨hlen, htype⟩ := (accepts_iff (by norm_num)).mp haccepts
    obtain rfl := Option.some.inj h
    rw [← take_append_slice f 33 64 97 rfl hlen, ← take_append_slice f 1 32 33 rfl (by omega),
      htype]
    rfl
  · cases h

theorem parseEncrypted_eq_some_iff (f : Frame) (m : ParsedEncrypted) :
    parseEncrypted f = some m ↔ f = buildEncrypted m.nonce m.blob ∧ 16 ≤ m.blob.length := by
  constructor
  · intro h
    unfold parseEncrypted at h
    split at h
    · rename_i haccepts
      obtain ⟨hlen, htype⟩ := (accepts_iff (by norm_num)).mp haccepts
      obtain rfl := Option.some.inj h
      constructor
      · have hfront := take_append_slice f 1 12 13 rfl (by omega)
        rw [htype, List.singleton_append] at hfront
        rw [buildEncrypted, ← List.cons_append, hfront, List.take_append_drop]
      · simp only [List.length_drop]
        omega
    · cases h
  · rintro ⟨rfl, hlen⟩
    exact parseEncrypted_buildEncrypted m.nonce hlen

/-- The parser for a kind of frame returns something. GET_PEERS and OK have none. -/
def Parses (f : Frame) : MsgType → Prop
  | .registerNode => (parseRegister f).isSome
  | .peerList => (parsePeerList f).isSome
  | .hsInit => (parseHsInit f).isSome
  | .hsResp => (parseHsResp f).isSome
  | .hsFinish => (parseHsFinish f).isSome
  | .encrypted => (parseEncrypted f).isSome
  | .getPeers | .ok => False

theorem getType_of_parses {f : Frame} {type : MsgType} (h : Parses f type) :
    getType f = type.code := by
  have hif : ∀ {α : Type} {n : ℕ} {x : Option α},
      (if accepts f n type then x else none).isSome = true → getType f = type.code := by
    intro α n x hsome
    split at hsome
    · rename_i haccepts
      rw [accepts, Bool.and_eq_true, beq_iff_eq] at haccepts
      exact haccepts.2
    · cases hsome
  cases type with
  | registerNode => exact hif h
  | getPeers => exact h.elim
  | peerList => exact hif h
  | ok => exact h.elim
  | hsInit => exact hif h
  | hsResp => exact hif h
  | hsFinish => exact hif h
  | encrypted => exact hif h

theorem code_injective {type type' : MsgType} (h : type.code = type'.code) : type = type' := by
  cases type <;> cases type' <;> first | rfl | exact absurd h (by decide)

/-- No frame is accepted by two parsers. -/
theorem eq_of_parses {f : Frame} {type type' : MsgType} (h : Parses f type)
    (h' : Parses f type') : type = type' :=
  code_injective ((getType_of_parses h).symm.trans (getType_of_parses h'))

end Protocol

namespace Transfer

open Protocol

/-! ### Chunk frames -/

theorem leBytes_slice (f : List UInt8) (offset n : ℕ) :
    leBytes n (leNat (slice f offset n).toList) = (slice f offset n).toList := by
  have h := leBytes_leNat (slice f offset n).toList
  rwa [Vector.length_toList] at h

theorem leNat_slice_lt (f : List UInt8) (offset n : ℕ) :
    leNat (slice f offset n).toList < 256 ^ n := by
  have h := leNat_lt (slice f offset n).toList
  rwa [Vector.length_toList] at h

theorem parseChunkFrame_eq_some_iff (f : List UInt8) (ci : ChunkInfo) :
    parseChunkFrame f = some ci ↔
      f = makeChunkFrame ci.transferId ci.index ci.total ci.data ∧ ci.index < ci.total := by
  constructor
  · intro h
    unfold parseChunkFrame at h
    split at h
    · cases h
    rename_i hlen
    split at h
    · cases h
    rename_i hmagic
    simp only at h
    split at h
    · cases h
    rename_i hindex
    obtain rfl := Option.some.inj h
    simp only [not_or, UInt16.not_le] at hindex
    refine ⟨?_, hindex.2⟩
    unfold chunkHeaderSize at hlen
    have hfirst : f.take 1 = [chunkMagic] := by
      obtain ⟨b, rest, rfl⟩ := List.exists_cons_of_length_pos (l := f) (by omega)
      simpa using hmagic
    have hid := take_append_slice f 1 4 5 rfl (by omega)
    have hindex := take_append_slice f 5 2 7 rfl (by omega)
    have htotal := take_append_slice f 7 2 9 rfl (by omega)
    rw [← hindex, ← hid, hfirst] at htotal
    simp only [makeChunkFrame, toList_leVector]
    rw [UInt32.toNat_ofNat_of_lt' (leNat_slice_lt f 1 4),
      UInt16.toNat_ofNat_of_lt' (leNat_slice_lt f 5 2),
      UInt16.toNat_ofNat_of_lt' (leNat_slice_lt f 7 2), leBytes_slice, leBytes_slice, leBytes_slice]
    conv_lhs => rw [← List.take_append_drop 9 f, ← htotal]
    simp [chunkHeaderSize]
  · rintro ⟨rfl, hlt⟩
    exact parseChunkFrame_makeChunkFrame hlt ci.data

/-- The parsers accept exactly the built formats, and each frame at most one of them. -/
theorem formats_exact (f : List UInt8) :
    (∀ m, parseRegister f = some m ↔ buildRegister m.port m.pubkey <+: f) ∧
    (∀ peers, parsePeerList f = some peers ↔
      peers.length ≤ 65535 ∧ buildPeerList peers <+: f) ∧
    (∀ m, parseHsInit f = some m ↔ buildHsInit m.ephPk <+: f) ∧
    (∀ m, parseHsResp f = some m ↔ buildHsResp m.ephPk m.identityPk m.sig <+: f) ∧
    (∀ m, parseHsFinish f = some m ↔ buildHsFinish m.identityPk m.sig <+: f) ∧
    (∀ m, parseEncrypted f = some m ↔ f = buildEncrypted m.nonce m.blob ∧ 16 ≤ m.blob.length) ∧
    (∀ ci, parseChunkFrame f = some ci ↔
      f = makeChunkFrame ci.transferId ci.index ci.total ci.data ∧ ci.index < ci.total) ∧
    ∀ type type', Parses f type → Parses f type' → type = type' :=
  ⟨parseRegister_eq_some_iff f, parsePeerList_eq_some_iff f, parseHsInit_eq_some_iff f,
    parseHsResp_eq_some_iff f, parseHsFinish_eq_some_iff f, parseEncrypted_eq_some_iff f,
    parseChunkFrame_eq_some_iff f, fun _ _ => eq_of_parses⟩

end Transfer

end PeerToPeer
