import PeerToPeer.Lib.LittleEndian

/-!
The framing of `net/tcp.cpp`: a length of four bytes, most significant first,
and then the payload.

One direction of a connection is the byte string that has been sent and not yet
read. `recv_frame` blocks until the bytes it asks for are there; the string is
what arrives before the connection closes.
-/

namespace PeerToPeer.Net

open PeerToPeer.Lib

/-- The cap of `recv_frame`. -/
def maxFrame : ℕ := 2 ^ 20

/-- The bytes that `send_frame` writes: the size is cast to 32 bits. -/
def frameBytes (data : List UInt8) : List UInt8 := beBytes 4 (data.length % 2 ^ 32) ++ data

/-- `recv_all`: the bytes asked for, or what is left when there are too few. -/
def recvAll (stream : List UInt8) (len : ℕ) : Option (List UInt8) × List UInt8 :=
  if len ≤ stream.length then (some (stream.take len), stream.drop len) else (none, [])

/-- `recv_frame`. -/
def recvFrame (stream : List UInt8) : Option (List UInt8) × List UInt8 :=
  match recvAll stream 4 with
  | (none, rest) => (none, rest)
  | (some lenNet, rest) =>
      let len := beNat lenNet
      if len > maxFrame then (none, rest) else recvAll rest len

/-- `recv_frame` need not wait: a whole frame is there, or a length above the
cap. -/
def frameReady (stream : List UInt8) : Bool :=
  decide (4 ≤ stream.length) &&
    (decide (beNat (stream.take 4) > maxFrame) ||
      decide (beNat (stream.take 4) ≤ stream.length - 4))

theorem recvAll_append {front : List UInt8} {len : ℕ} (h : front.length = len)
    (rest : List UInt8) : recvAll (front ++ rest) len = (some front, rest) := by
  subst h
  simp [recvAll]

/-- A frame within the cap is read back, and what follows it is left. -/
theorem recvFrame_frameBytes {data : List UInt8} (h : data.length ≤ maxFrame)
    (rest : List UInt8) : recvFrame (frameBytes data ++ rest) = (some data, rest) := by
  have hlen : beNat (beBytes 4 (data.length % 2 ^ 32)) = data.length := by
    rw [beNat_beBytes]
    unfold maxFrame at h
    omega
  rw [recvFrame, frameBytes, List.append_assoc, recvAll_append (length_beBytes _ _)]
  simp only [hlen, if_neg (Nat.not_lt.mpr h)]
  exact recvAll_append rfl rest

theorem length_of_recvAll {stream f rest : List UInt8} {len : ℕ}
    (h : recvAll stream len = (some f, rest)) : rest.length + len = stream.length := by
  unfold recvAll at h
  split at h
  · cases h
    rw [List.length_drop]
    omega
  · cases h

/-- A frame takes at least its length field from the stream. -/
theorem length_of_recvFrame {stream f rest : List UInt8} (h : recvFrame stream = (some f, rest)) :
    rest.length + 4 ≤ stream.length := by
  unfold recvFrame at h
  split at h
  · cases h
  · rename_i hlen
    have := length_of_recvAll hlen
    simp only at h
    split at h
    · cases h
    · have := length_of_recvAll h
      omega

@[simp] theorem recvFrame_nil : recvFrame [] = (none, []) := rfl

theorem frameReady_frameBytes {data : List UInt8} (h : data.length ≤ maxFrame)
    (rest : List UInt8) : frameReady (frameBytes data ++ rest) = true := by
  have htake : (frameBytes data ++ rest).take 4 = beBytes 4 (data.length % 2 ^ 32) := by
    rw [frameBytes, List.append_assoc]
    exact List.take_left' (length_beBytes _ _)
  rw [frameReady, htake, beNat_beBytes]
  unfold maxFrame at h
  simp only [frameBytes, List.length_append, length_beBytes, Bool.and_eq_true,
    Bool.or_eq_true, decide_eq_true_eq]
  omega

theorem recvAll_append_right {stream : List UInt8} {len : ℕ} (h : len ≤ stream.length)
    (more : List UInt8) :
    recvAll (stream ++ more) len = ((recvAll stream len).1, (recvAll stream len).2 ++ more) := by
  rw [recvAll, recvAll, if_pos h, if_pos (by rw [List.length_append]; omega),
    List.take_append_of_le_length h, List.drop_append_of_le_length h]

/-- What is sent later does not matter to a call that need not wait. -/
theorem recvFrame_append {stream : List UInt8} (h : frameReady stream = true)
    (more : List UInt8) :
    frameReady (stream ++ more) = true ∧
      recvFrame (stream ++ more) = ((recvFrame stream).1, (recvFrame stream).2 ++ more) := by
  simp only [frameReady, Bool.and_eq_true, Bool.or_eq_true, decide_eq_true_eq] at h
  obtain ⟨hfour, hlen⟩ := h
  constructor
  · simp only [frameReady, Bool.and_eq_true, Bool.or_eq_true, decide_eq_true_eq,
      List.take_append_of_le_length hfour, List.length_append]
    omega
  · rw [recvFrame, recvFrame, recvAll_append_right hfour]
    simp only [recvAll, if_pos hfour]
    split
    · rfl
    · rename_i hcap
      have hrest : beNat (stream.take 4) ≤ (stream.drop 4).length := by
        rw [List.length_drop]
        omega
      have := recvAll_append_right hrest more
      simpa only [recvAll] using this

end PeerToPeer.Net
