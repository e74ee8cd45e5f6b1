import Mathlib.Data.List.TakeWhile
import PeerToPeer.Net.Segments

/-!
`control/control.hpp`: lines over the control socket.

A `line_reader` keeps what it has read beyond the line it returns. What it returns
depends only on the bytes that were written, not on how they are split into reads.
-/

namespace PeerToPeer.Control

open Net

/-- `find` and `substr`: what stands before the first `c`, and what comes after it. -/
def cutAt (c : UInt8) (s : List UInt8) : Option (List UInt8 × List UInt8) :=
  match s.span (· ≠ c) with
  | (_, []) => none
  | (front, _ :: rest) => some (front, rest)

theorem cutAt_append {c : UInt8} {front : List UInt8} (h : c ∉ front) (rest : List UInt8) :
    cutAt c (front ++ c :: rest) = some (front, rest) := by
  have hall : ∀ b ∈ front, decide (b ≠ c) = true := fun b hb =>
    decide_eq_true (ne_of_mem_of_not_mem hb h)
  rw [cutAt, List.span_eq_takeWhile_dropWhile, List.takeWhile_append_of_pos hall,
    List.dropWhile_append_of_pos hall]
  simp

theorem cutAt_of_notMem {c : UInt8} {s : List UInt8} (h : c ∉ s) : cutAt c s = none := by
  have hall : ∀ b ∈ s, decide (b ≠ c) = true := fun b hb =>
    decide_eq_true (ne_of_mem_of_not_mem hb h)
  rw [cutAt, List.span_eq_takeWhile_dropWhile, List.dropWhile_eq_nil_iff.mpr hall]

theorem cutAt_eq_some {c : UInt8} {s front rest : List UInt8} (h : cutAt c s = some (front, rest)) :
    s = front ++ c :: rest ∧ c ∉ front := by
  by_cases hc : c ∈ s
  · obtain ⟨as, bs, rfl, has⟩ := List.eq_append_cons_of_mem hc
    rw [cutAt_append has, Option.some.injEq, Prod.mk.injEq] at h
    obtain ⟨rfl, rfl⟩ := h
    exact ⟨rfl, has⟩
  · rw [cutAt_of_notMem hc] at h
    cases h

/-- A carriage return at the end of a line is dropped. -/
def dropCr (line : List UInt8) : List UInt8 :=
  if line.getLast? = some 13 then line.dropLast else line

/-- A `line_reader`: its buffer, the bytes that are on the way to it, and how many reads
there were. -/
structure LineReader where
  buf : List UInt8
  stream : List UInt8
  calls : ℕ

namespace LineReader

/-- `read_line`. Without a line, and with nothing on the way, the read waits. -/
def readLine (os : Segmentation) (r : LineReader) : Option (List UInt8) × LineReader :=
  match cutAt 10 r.buf with
  | some (line, rest) => (some (dropCr line), { r with buf := rest })
  | none =>
      if h : r.stream = [] then (none, r)
      else
        let n := os.moved r.calls (min 512 r.stream.length)
        have _ := os.pos r.calls (min 512 r.stream.length)
          (lt_min (by decide) (List.length_pos_iff.mpr h))
        readLine os ⟨r.buf ++ r.stream.take n, r.stream.drop n, r.calls + 1⟩
  termination_by r.stream.length
  decreasing_by
    rw [List.length_drop]
    have := List.length_pos_iff.mpr h
    omega

/-- Successive calls of `read_line`, up to one that gets nothing. -/
def readLines (os : Segmentation) : ℕ → LineReader → Option (List (List UInt8)) × LineReader
  | 0, r => (some [], r)
  | n + 1, r =>
      match r.readLine os with
      | (none, r) => (none, r)
      | (some line, r) =>
          match readLines os n r with
          | (none, r) => (none, r)
          | (some lines, r) => (some (line :: lines), r)

/-- More bytes are on the way. -/
def receive (r : LineReader) (bytes : List UInt8) : LineReader :=
  { r with stream := r.stream ++ bytes }

/-- All that was written and not returned. -/
def unread (r : LineReader) : List UInt8 := r.buf ++ r.stream

@[simp] theorem unread_receive (r : LineReader) (bytes : List UInt8) :
    (r.receive bytes).unread = r.unread ++ bytes := by
  simp [unread, receive]

/-- What one read leaves unread. -/
theorem unread_take_drop (r : LineReader) (n calls : ℕ) :
    unread ⟨r.buf ++ r.stream.take n, r.stream.drop n, calls⟩ = r.unread := by
  rw [unread, unread, List.append_assoc, List.take_append_drop]

/-- A line that was written is returned, however it is read. -/
theorem readLine_of_cutAt (os : Segmentation) {r : LineReader} {line rest : List UInt8}
    (h : cutAt 10 r.unread = some (line, rest)) :
    ∃ r', r.readLine os = (some (dropCr line), r') ∧ r'.unread = rest := by
  induction r using readLine.induct os with
  | case1 r line' rest' hbuf =>
      obtain ⟨heq, hline'⟩ := cutAt_eq_some hbuf
      rw [unread, heq, List.append_assoc, List.cons_append, cutAt_append hline',
        Option.some.injEq, Prod.mk.injEq] at h
      obtain ⟨rfl, rfl⟩ := h
      refine ⟨{ r with buf := rest' }, ?_, rfl⟩
      rw [readLine, hbuf]
  | case2 r hbuf hstream =>
      rw [unread, hstream, List.append_nil, hbuf] at h
      cases h
  | case3 r hbuf hstream n _ ih =>
      rw [readLine, hbuf]
      simp only
      rw [dif_neg hstream]
      exact ih (by rwa [unread_take_drop])

/-- Without a line the read waits. -/
theorem readLine_of_notMem (os : Segmentation) {r : LineReader} (h : 10 ∉ r.unread) :
    ∃ r', r.readLine os = (none, r') ∧ r'.unread = r.unread := by
  induction r using readLine.induct os with
  | case1 r line rest hbuf =>
      refine absurd ?_ h
      rw [unread, (cutAt_eq_some hbuf).1]
      simp
  | case2 r hbuf hstream =>
      refine ⟨r, ?_, rfl⟩
      rw [readLine, hbuf]
      simp only
      rw [dif_pos hstream]
  | case3 r hbuf hstream n _ ih =>
      rw [readLine, hbuf]
      simp only
      rw [dif_neg hstream]
      rw [unread_take_drop] at ih
      exact ih h

/-- A line comes out of what was unread. -/
theorem unread_of_readLine {os : Segmentation} {r r' : LineReader} {line : List UInt8}
    (h : r.readLine os = (some line, r')) : r'.unread.length < r.unread.length := by
  cases hcut : cutAt 10 r.unread with
  | none =>
      have hmem : 10 ∉ r.unread := by
        intro hmem
        obtain ⟨as, bs, heq, has⟩ := List.eq_append_cons_of_mem hmem
        rw [heq, cutAt_append has] at hcut
        cases hcut
      obtain ⟨r'', hnone, -⟩ := readLine_of_notMem os hmem
      rw [hnone] at h
      cases h
  | some p =>
      obtain ⟨front, rest⟩ := p
      obtain ⟨r'', hsome, hrest⟩ := readLine_of_cutAt os hcut
      rw [hsome, Prod.mk.injEq] at h
      obtain ⟨-, rfl⟩ := h
      rw [(cutAt_eq_some hcut).1, hrest]
      simp
      omega

/-- Lines that were written come back one by one. -/
theorem readLines_eq (os : Segmentation) {lines : List (List UInt8)} (hlines : ∀ l ∈ lines, 10 ∉ l)
    {r : LineReader} {rest : List UInt8} (h : r.unread = lines.flatMap (· ++ [10]) ++ rest) :
    ∃ r', r.readLines os lines.length = (some (lines.map dropCr), r') ∧ r'.unread = rest := by
  induction lines generalizing r with
  | nil => exact ⟨r, rfl, by simpa using h⟩
  | cons line lines ih =>
      have hcut : cutAt 10 r.unread = some (line, lines.flatMap (· ++ [10]) ++ rest) := by
        rw [h, List.flatMap_cons, List.append_assoc, List.append_assoc, List.singleton_append,
          cutAt_append (hlines line (by simp))]
      obtain ⟨r₁, hline, h₁⟩ := readLine_of_cutAt os hcut
      obtain ⟨r₂, hrest, h₂⟩ := ih (fun l hl => hlines l (List.mem_cons_of_mem _ hl)) h₁
      refine ⟨r₂, ?_, h₂⟩
      rw [List.length_cons, readLines, hline]
      simp only [hrest, List.map_cons]

end LineReader

end PeerToPeer.Control
