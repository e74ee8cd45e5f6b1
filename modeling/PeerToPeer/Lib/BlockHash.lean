import PeerToPeer.Lib.LittleEndian
import PeerToPeer.Lib.Pieces

/-!
Iterated hash functions: a compression function folded over the blocks of a padded
message.

The padding is a marker byte, zeros and the length in bits. A message that arrives in
parts can be absorbed as far as it fills blocks; what is left waits in a buffer, and
becomes one or two blocks with the padding.
-/

namespace PeerToPeer.Lib

variable {σ : Type*}

/-! ### Absorbing blocks -/

section Absorb

variable (compress : σ → List UInt8 → σ) (size : ℕ)

/-- The compression function folded over the full blocks of a string. -/
def absorbBlocks (s : σ) (m : List UInt8) : σ :=
  (pieces size (m.length / size) m).foldl compress s

@[simp] theorem absorbBlocks_nil (s : σ) : absorbBlocks compress size s [] = s := by
  simp [absorbBlocks, pieces]

variable {size}

theorem absorbBlocks_append (hsize : 0 < size) (s : σ) {as : List UInt8} (bs : List UInt8)
    (h : size ∣ as.length) :
    absorbBlocks compress size s (as ++ bs) =
      absorbBlocks compress size (absorbBlocks compress size s as) bs := by
  obtain ⟨n, hn⟩ := h
  have hdiv : (as ++ bs).length / size = n + bs.length / size := by
    rw [List.length_append, hn, Nat.mul_add_div hsize]
  rw [absorbBlocks, absorbBlocks, absorbBlocks, hdiv, hn, Nat.mul_div_cancel_left _ hsize,
    pieces_append _ _ (by rw [hn, Nat.mul_comm]), List.foldl_append]

theorem absorbBlocks_block (hsize : 0 < size) (s : σ) {block : List UInt8}
    (h : block.length = size) : absorbBlocks compress size s block = compress s block := by
  rw [absorbBlocks, h, Nat.div_self hsize, pieces_succ_eq_cons, ← h, List.take_length]
  rfl

/-- A map between the states of two compression functions carries over to all blocks. -/
theorem map_absorbBlocks {τ : Type*} {compress : σ → List UInt8 → σ}
    {compress' : τ → List UInt8 → τ} (φ : σ → τ)
    (h : ∀ s block, block.length = size → φ (compress s block) = compress' (φ s) block) (s : σ)
    (m : List UInt8) :
    φ (absorbBlocks compress size s m) = absorbBlocks compress' size (φ s) m := by
  refine List.foldl_rel (r := fun s t => φ s = t) rfl ?_
  rintro block hblock s t rfl
  exact h s block (length_eq_of_mem_pieces (Nat.div_mul_le_self _ _) hblock)

end Absorb

/-! ### Padding -/

/-- The least number of zeros that makes full blocks of `n` bytes, a marker byte and a
length field. -/
def padZeros (size field n : ℕ) : ℕ := (size - (n + 1 + field) % size) % size

/-- A message with the marker byte, zeros, and its length in bits as a big-endian number
of `field` bytes. -/
def padMessage (size field : ℕ) (m : List UInt8) : List UInt8 :=
  m ++ [0x80] ++ List.replicate (padZeros size field m.length) 0 ++ beBytes field (8 * m.length)

/-- The number of zeros depends on the length modulo the block size only. -/
theorem padZeros_add {size : ℕ} (field : ℕ) {k : ℕ} (n : ℕ) (h : size ∣ k) :
    padZeros size field (k + n) = padZeros size field n := by
  obtain ⟨j, rfl⟩ := h
  rw [padZeros, padZeros, Nat.add_assoc, Nat.add_assoc, Nat.mul_add_mod, ← Nat.add_assoc]

/-- With enough room for the length field, the zeros fill up the block. -/
theorem padZeros_of_le {size field n : ℕ} (h : n + 1 + field ≤ size) :
    padZeros size field n = size - field - (n + 1) := by
  rw [padZeros]
  rcases Nat.lt_or_ge (n + 1 + field) size with hlt | hge
  · rw [Nat.mod_eq_of_lt hlt, Nat.mod_eq_of_lt (by omega)]
    omega
  · rw [show n + 1 + field = size by omega, Nat.mod_self, Nat.sub_zero, Nat.mod_self]
    omega

/-- Without it, they fill up the block and the next one. -/
theorem padZeros_of_lt {size field n : ℕ} (hfield : field < size) (hn : n < size)
    (h : size < n + 1 + field) :
    padZeros size field n = (size - (n + 1)) + (size - field) := by
  have hmod : (n + 1 + field) % size = n + 1 + field - size := by
    rw [Nat.mod_eq_sub_mod h.le, Nat.mod_eq_of_lt (by omega)]
  rw [padZeros, hmod, Nat.mod_eq_of_lt (by omega)]
  omega

section Pad

variable (compress : σ → List UInt8 → σ) {size field : ℕ}

/-- Absorbing a padded message: the full blocks, and one or two more for the rest. -/
theorem absorbBlocks_padMessage (hfield : field < size) (s : σ) {full rest : List UInt8}
    (hfull : size ∣ full.length) (hrest : rest.length < size) :
    absorbBlocks compress size s (padMessage size field (full ++ rest)) =
      if (rest ++ [0x80]).length > size - field then
        compress (compress (absorbBlocks compress size s full)
            (rest ++ [0x80] ++ List.replicate (size - (rest ++ [0x80]).length) 0))
          (List.replicate (size - field) 0 ++ beBytes field (8 * (full ++ rest).length))
      else
        compress (absorbBlocks compress size s full)
          (rest ++ [0x80] ++ List.replicate (size - field - (rest ++ [0x80]).length) 0 ++
            beBytes field (8 * (full ++ rest).length)) := by
  have hsize : 0 < size := by omega
  have hpad : padMessage size field (full ++ rest) = full ++ (rest ++ [0x80] ++
      List.replicate (padZeros size field rest.length) 0 ++
        beBytes field (8 * (full ++ rest).length)) := by
    rw [padMessage, List.length_append, padZeros_add field _ hfull]
    simp only [List.append_assoc]
  rw [hpad, absorbBlocks_append compress hsize s _ hfull]
  generalize absorbBlocks compress size s full = s'
  simp only [List.length_append, List.length_singleton]
  split
  · rename_i hlong
    rw [padZeros_of_lt hfield hrest (by omega), List.replicate_add, ← List.append_assoc,
      List.append_assoc (_ ++ _), absorbBlocks_append compress hsize]
    · rw [absorbBlocks_block compress hsize, absorbBlocks_block compress hsize]
      · simp only [List.length_append, List.length_replicate, List.length_singleton]
        omega
      · simp only [List.length_append, List.length_replicate, length_beBytes]
        omega
    · simp only [List.length_append, List.length_replicate, List.length_singleton]
      exact ⟨1, by omega⟩
  · rename_i hshort
    rw [padZeros_of_le (by omega), absorbBlocks_block compress hsize]
    simp only [List.length_append, List.length_replicate, List.length_singleton, length_beBytes]
    omega

end Pad

/-! ### Buffering -/

/-- A relation between a state and its input that every byte keeps is kept by a string. -/
theorem foldl_append_induction {σ : Type*} {f : σ → UInt8 → σ} {R : σ → List UInt8 → Prop}
    (hbyte : ∀ s m b, R s m → R (f s b) (m ++ [b])) (data : List UInt8) {s : σ}
    {m : List UInt8} (h : R s m) : R (data.foldl f s) (m ++ data) := by
  induction data generalizing s m with
  | nil => rwa [List.append_nil]
  | cons b data ih =>
      rw [List.foldl_cons, List.append_cons]
      exact ih (hbyte s m b h)

section Buffer

variable (compress : σ → List UInt8 → σ) (size : ℕ) (init : σ)

/-- Of the input `m`, the full blocks have been absorbed and `rest` is waiting. -/
def Buffered (s : σ) (rest m : List UInt8) : Prop :=
  ∃ full, m = full ++ rest ∧ size ∣ full.length ∧ s = absorbBlocks compress size init full

variable {compress size init}

theorem buffered_nil : Buffered compress size init init [] [] :=
  ⟨[], rfl, Nat.dvd_zero size, (absorbBlocks_nil compress size init).symm⟩

variable {s : σ} {rest m : List UInt8}

theorem Buffered.push (h : Buffered compress size init s rest m) (b : UInt8) :
    Buffered compress size init s (rest ++ [b]) (m ++ [b]) := by
  obtain ⟨full, rfl, hfull, hs⟩ := h
  exact ⟨full, List.append_assoc _ _ _, hfull, hs⟩

/-- A block that is full is absorbed. -/
theorem Buffered.absorb (h : Buffered compress size init s rest m) (hsize : 0 < size)
    (hrest : rest.length = size) : Buffered compress size init (compress s rest) [] m := by
  obtain ⟨full, rfl, hfull, rfl⟩ := h
  refine ⟨full ++ rest, (List.append_nil _).symm, ?_, ?_⟩
  · rw [List.length_append, hrest]
    exact Nat.dvd_add_self_right.mpr hfull
  · rw [absorbBlocks_append compress hsize init _ hfull, absorbBlocks_block compress hsize _ hrest]

end Buffer

end PeerToPeer.Lib
