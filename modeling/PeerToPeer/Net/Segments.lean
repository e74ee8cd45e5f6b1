import PeerToPeer.Net.Tcp
import Mathlib.Algebra.BigOperators.Group.List.Basic

/-!
`send_all` and `recv_all` call by call: frames do not depend on how the operating
system splits the transfers.

A call moves some of the bytes that it could move, and at least one. At the end of
the stream `recv` returns zero. The loops turn this into the calls of
`Net.Tcp`, which take as many bytes as they ask for, or fail.
-/

namespace PeerToPeer.Net

open PeerToPeer.Lib

/-- How the operating system splits transfers: of `n` bytes that could be moved, call
number `k` moves `moved k n`. -/
structure Segmentation where
  moved : ℕ → ℕ → ℕ
  pos : ∀ k n, 0 < n → 0 < moved k n
  le : ∀ k n, moved k n ≤ n

namespace Segmentation

/-- Every call moves all it can. -/
def whole : Segmentation := ⟨fun _ n => n, fun _ _ h => h, fun _ n => le_refl n⟩

/-- Every call moves a single byte. -/
def single : Segmentation :=
  ⟨fun _ n => min 1 n, fun _ _ h => lt_min Nat.one_pos h, fun _ _ => min_le_right _ _⟩

/-! ### Sending -/

/-- The loop of `send_all`: the number of the next call, and what has been sent. -/
def sendAll (os : Segmentation) (k : ℕ) (wire buf : List UInt8) : ℕ × List UInt8 :=
  if h : buf = [] then (k, wire)
  else
    let n := os.moved k buf.length
    have _ := os.pos k buf.length (List.length_pos_iff.mpr h)
    sendAll os (k + 1) (wire ++ buf.take n) (buf.drop n)
  termination_by buf.length
  decreasing_by
    rw [List.length_drop]
    have := List.length_pos_iff.mpr h
    omega

/-- `send_frame`. -/
def sendFrame (os : Segmentation) (k : ℕ) (wire data : List UInt8) : ℕ × List UInt8 :=
  let (k, wire) := os.sendAll k wire (beBytes 4 (data.length % 2 ^ 32))
  os.sendAll k wire data

/-- Successive calls of `send_frame`. -/
def sendFrames (os : Segmentation) : ℕ → List UInt8 → List (List UInt8) → List UInt8
  | _, wire, [] => wire
  | k, wire, f :: fs =>
      let (k, wire) := os.sendFrame k wire f
      os.sendFrames k wire fs

theorem sendAll_snd (os : Segmentation) (k : ℕ) (wire buf : List UInt8) :
    (os.sendAll k wire buf).2 = wire ++ buf := by
  induction k, wire, buf using sendAll.induct os with
  | case1 k wire => rw [sendAll, dif_pos rfl, List.append_nil]
  | case2 k wire buf h n _ ih =>
      rw [sendAll, dif_neg h]
      simp only
      rw [ih, List.append_assoc, List.take_append_drop]

theorem sendFrame_snd (os : Segmentation) (k : ℕ) (wire data : List UInt8) :
    (os.sendFrame k wire data).2 = wire ++ frameBytes data := by
  rw [sendFrame, sendAll_snd, sendAll_snd, frameBytes, List.append_assoc]

/-- What is sent is the frames, one after the other. -/
theorem sendFrames_eq (os : Segmentation) (k : ℕ) (wire : List UInt8)
    (frames : List (List UInt8)) :
    os.sendFrames k wire frames = wire ++ frames.flatMap frameBytes := by
  induction frames generalizing k wire with
  | nil => rw [sendFrames, List.flatMap_nil, List.append_nil]
  | cons f fs ih =>
      rw [sendFrames]
      simp only
      rw [ih, sendFrame_snd, List.flatMap_cons, List.append_assoc]

/-! ### Receiving -/

/-- The loop of `recv_all`, with the bytes still asked for and those there already. -/
def recvLoop (os : Segmentation) (k : ℕ) (stream : List UInt8) (len : ℕ) (got : List UInt8) :
    Option (List UInt8) × ℕ × List UInt8 :=
  if hlen : len = 0 then (some got, k, stream)
  else if hstream : stream = [] then (none, k + 1, [])
  else
    let n := os.moved k (min len stream.length)
    have _ := os.pos k (min len stream.length)
      (lt_min (Nat.pos_of_ne_zero hlen) (List.length_pos_iff.mpr hstream))
    recvLoop os (k + 1) (stream.drop n) (len - n) (got ++ stream.take n)
  termination_by len
  decreasing_by omega

/-- `recv_all`. -/
def recvAll (os : Segmentation) (k : ℕ) (stream : List UInt8) (len : ℕ) :
    Option (List UInt8) × ℕ × List UInt8 :=
  os.recvLoop k stream len []

/-- `recv_frame`. -/
def recvFrame (os : Segmentation) (k : ℕ) (stream : List UInt8) :
    Option (List UInt8) × ℕ × List UInt8 :=
  match os.recvAll k stream 4 with
  | (none, k, rest) => (none, k, rest)
  | (some lenNet, k, rest) =>
      let len := beNat lenNet
      if len > maxFrame then (none, k, rest) else os.recvAll k rest len

/-- The results of successive calls of `recv_frame`. -/
def recvFrames (os : Segmentation) : ℕ → ℕ → List UInt8 → List (Option (List UInt8))
  | 0, _, _ => []
  | calls + 1, k, stream =>
      let (f, k, rest) := os.recvFrame k stream
      f :: os.recvFrames calls k rest

/-- The loop takes the bytes asked for, or what is left when there are too few. -/
theorem recvLoop_eq (os : Segmentation) (k : ℕ) (stream : List UInt8) (len : ℕ)
    (got : List UInt8) :
    (os.recvLoop k stream len got).1 = (Net.recvAll stream len).1.map (got ++ ·) ∧
      (os.recvLoop k stream len got).2.2 = (Net.recvAll stream len).2 := by
  induction k, stream, len, got using recvLoop.induct os with
  | case1 k stream got => simp [recvLoop, Net.recvAll]
  | case2 k len got hlen =>
      rw [recvLoop, dif_neg hlen, dif_pos rfl, Net.recvAll, if_neg (by simpa using hlen)]
      exact ⟨rfl, rfl⟩
  | case3 k stream len got hlen hstream n _ ih =>
      have hle : n ≤ min len stream.length := os.le k _
      obtain ⟨h₁, h₂⟩ := ih
      rw [recvLoop, dif_neg hlen, dif_neg hstream]
      simp only
      rw [h₁, h₂, Net.recvAll, Net.recvAll, List.length_drop]
      by_cases hfit : len ≤ stream.length
      · rw [if_pos hfit, if_pos (by omega), List.drop_drop, Nat.add_sub_of_le (by omega)]
        refine ⟨?_, rfl⟩
        rw [Option.map_some, Option.map_some, List.append_assoc, ← List.take_add,
          Nat.add_sub_of_le (by omega)]
      · rw [if_neg hfit, if_neg (by omega)]
        exact ⟨rfl, rfl⟩

theorem recvAll_eq (os : Segmentation) (k : ℕ) (stream : List UInt8) (len : ℕ) :
    (os.recvAll k stream len).1 = (Net.recvAll stream len).1 ∧
      (os.recvAll k stream len).2.2 = (Net.recvAll stream len).2 := by
  obtain ⟨h₁, h₂⟩ := os.recvLoop_eq k stream len []
  simp only [List.nil_append, Option.map_id'] at h₁
  exact ⟨h₁, h₂⟩

theorem recvFrame_eq (os : Segmentation) (k : ℕ) (stream : List UInt8) :
    (os.recvFrame k stream).1 = (Net.recvFrame stream).1 ∧
      (os.recvFrame k stream).2.2 = (Net.recvFrame stream).2 := by
  obtain ⟨h₁, h₂⟩ := os.recvAll_eq k stream 4
  rw [recvFrame, Net.recvFrame]
  generalize os.recvAll k stream 4 = result at *
  generalize Net.recvAll stream 4 = result' at *
  obtain ⟨got, k', rest⟩ := result
  obtain ⟨got', rest'⟩ := result'
  obtain rfl : got = got' := h₁
  obtain rfl : rest = rest' := h₂
  cases got with
  | none => exact ⟨rfl, rfl⟩
  | some lenNet =>
      simp only
      split
      · exact ⟨rfl, rfl⟩
      · exact os.recvAll_eq k' rest (beNat lenNet)

end Segmentation

/-! ### A stream that is cut -/

/-- The number of bytes up to the end of frame `i`. -/
def frameEnd (frames : List (List UInt8)) (i : ℕ) : ℕ :=
  ((frames.take (i + 1)).map fun f => 4 + f.length).sum

theorem length_frameBytes (data : List UInt8) : (frameBytes data).length = 4 + data.length := by
  rw [frameBytes, List.length_append, length_beBytes]

/-- A frame that lies wholly before the cut is received; another one ends the stream. -/
theorem recvFrame_take {data : List UInt8} (h : data.length ≤ maxFrame) (rest : List UInt8)
    (cut : ℕ) :
    recvFrame ((frameBytes data ++ rest).take cut) =
      if 4 + data.length ≤ cut then (some data, rest.take (cut - (4 + data.length)))
      else (none, []) := by
  have hlen := length_frameBytes data
  split
  · rename_i hle
    rw [List.take_append, List.take_of_length_le (by omega), hlen, recvFrame_frameBytes h]
  · rename_i hlt
    have hshort : (frameBytes data ++ rest).take cut = (frameBytes data).take cut := by
      rw [List.take_append, hlen, Nat.sub_eq_zero_of_le (by omega), List.take_zero,
        List.append_nil]
    rw [hshort, recvFrame]
    by_cases hfour : 4 ≤ cut
    · have hhead : (frameBytes data).take cut =
          beBytes 4 (data.length % 2 ^ 32) ++ data.take (cut - 4) := by
        rw [frameBytes, List.take_append, List.take_of_length_le (by rwa [length_beBytes]),
          length_beBytes]
      have hnat : beNat (beBytes 4 (data.length % 2 ^ 32)) = data.length := by
        rw [beNat_beBytes]
        unfold maxFrame at h
        omega
      rw [hhead, recvAll_append (length_beBytes _ _)]
      simp only [hnat, if_neg (Nat.not_lt.mpr h)]
      rw [recvAll, if_neg (by rw [List.length_take]; omega)]
    · rw [recvAll, if_neg (by rw [List.length_take]; omega)]

namespace Segmentation

theorem recvFrames_nil (os : Segmentation) (calls k : ℕ) :
    os.recvFrames calls k [] = List.replicate calls none := by
  induction calls generalizing k with
  | zero => rfl
  | succ calls ih =>
      obtain ⟨h₁, h₂⟩ := os.recvFrame_eq k []
      rw [recvFrame_nil] at h₁ h₂
      rw [recvFrames, List.replicate_succ]
      simp only
      rw [h₁, h₂, ih]

/-- Successive calls on the frames of a stream that is cut. -/
theorem recvFrames_take (os : Segmentation) {frames : List (List UInt8)}
    (h : ∀ f ∈ frames, f.length ≤ maxFrame) (cut calls k : ℕ) :
    os.recvFrames calls k ((frames.flatMap frameBytes).take cut) =
      (List.range calls).map fun i => if frameEnd frames i ≤ cut then frames[i]? else none := by
  induction frames generalizing cut calls k with
  | nil => simp [recvFrames_nil, List.map_const']
  | cons f fs ih =>
      cases calls with
      | zero => rfl
      | succ calls =>
          obtain ⟨h₁, h₂⟩ := os.recvFrame_eq k (((f :: fs).flatMap frameBytes).take cut)
          rw [List.flatMap_cons, recvFrame_take (h f (by simp))] at h₁ h₂
          rw [recvFrames, List.range_succ_eq_map, List.map_cons, List.map_map]
          simp only
          rw [List.flatMap_cons, h₁, h₂]
          have hhead : frameEnd (f :: fs) 0 = 4 + f.length := by simp [frameEnd]
          have htail : ∀ i, frameEnd (f :: fs) (i + 1) = 4 + f.length + frameEnd fs i := by
            intro i
            simp [frameEnd]
          by_cases hle : 4 + f.length ≤ cut
          · rw [if_pos hle, hhead, if_pos hle, List.getElem?_cons_zero,
              ih fun g hg => h g (by simp [hg])]
            congr 1
            apply List.map_congr_left
            intro i _
            rw [Function.comp_apply, htail, List.getElem?_cons_succ]
            congr 1
            rw [eq_iff_iff]
            omega
          · rw [if_neg hle, hhead, if_neg hle, recvFrames_nil]
            congr 1
            symm
            rw [List.eq_replicate_iff]
            refine ⟨by simp, ?_⟩
            intro result hresult
            obtain ⟨i, -, rfl⟩ := List.mem_map.mp hresult
            rw [Function.comp_apply, htail, if_neg (by omega)]

/-- Whatever the two operating systems do with the transfers, call number `i` of
`recv_frame` returns frame `i` if it lies wholly before the cut, and nothing
otherwise. -/
theorem recvFrames_sendFrames (sender receiver : Segmentation) {frames : List (List UInt8)}
    (h : ∀ f ∈ frames, f.length ≤ 2 ^ 20) (cut calls : ℕ) :
    receiver.recvFrames calls 0 ((sender.sendFrames 0 [] frames).take cut) =
      (List.range calls).map fun i => if frameEnd frames i ≤ cut then frames[i]? else none := by
  rw [sendFrames_eq, List.nil_append]
  exact receiver.recvFrames_take h cut calls 0

/-- Two frames sent byte by byte, cut inside the second. -/
theorem recvFrames_sendFrames_two :
    whole.recvFrames 3 0 ((single.sendFrames 0 [] [[], [1, 2]]).take 9) = [some [], none, none] :=
  recvFrames_sendFrames single whole (by decide) 9 3

end Segmentation

end PeerToPeer.Net
