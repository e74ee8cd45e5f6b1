import PeerToPeer.Control.Inbox

/-!
What `do_recv` writes on the screen.

The texts of the peers go to the terminal as they are. What holds a message together is the
layout alone: its first line starts with the sender in brackets, and all others are indented.
So whoever reads the lines of the screen finds every message under the sender that it came
with, and no text can pass for a message of its own. What a terminal makes of the control
bytes within a line is another matter.
-/

namespace PeerToPeer.Control

open Crypto Node

/-! ### Writing -/

/-- A control byte other than a line feed, a carriage return or a tab. -/
def isNonText (c : UInt8) : Bool :=
  decide (c ≠ 10 ∧ c ≠ 13 ∧ c ≠ 9 ∧ (c < 0x20 ∨ c = 0x7f))

/-- More than a tenth of the text is no text. -/
def isBinary (text : List UInt8) : Bool :=
  !text.isEmpty && decide (text.countP isNonText > text.length / 10)

/-- `MAX_LINES`. -/
def maxLines : ℕ := 5

/-- `cont`: what continues a message. -/
def indent : List UInt8 := List.replicate 13 32

/-- The loop over the lines of a text, with the number of lines that may still be shown: the
lines, and what is left of the text. -/
def textLines : ℕ → List UInt8 → List (List UInt8) × List UInt8
  | 0, text => ([], text)
  | left + 1, text =>
      if text = [] then ([], [])
      else
        match cutAt 10 text with
        | none => ([text], [])
        | some (line, text) =>
            let (lines, rest) := textLines left text
            (line :: lines, rest)

/-- What the loop writes. -/
def printLines : List (List UInt8) → List UInt8
  | [] => []
  | line :: more => line ++ [10] ++ more.flatMap (indent ++ · ++ [10])

/-- What a text is followed by if it has more lines. -/
def sizeNote (text : List UInt8) : List UInt8 :=
  ascii "\x1b[2m... (" ++ decimal text.length ++ ascii " bytes)\x1b[0m"

/-- What is written for a text. -/
def showText (text : List UInt8) : List UInt8 :=
  if isBinary text then ascii "<binary, " ++ decimal text.length ++ ascii " bytes>\n"
  else
    let (lines, rest) := textLines maxLines text
    printLines lines ++ (if rest = [] then [] else indent ++ sizeNote text ++ [10]) ++
      if lines = [] then ascii "(empty)\n" else []

/-- What the first line of a message starts with, up to the sender. -/
def headMark : List UInt8 := ascii "  \x1b[32m["

/-- What stands between the sender and the text, after the bracket. -/
def headEnd : List UInt8 := ascii "\x1b[0m "

/-- What is written for a message. -/
def showMsg (m : List UInt8 × List UInt8) : List UInt8 :=
  headMark ++ m.1 ++ ascii "]" ++ headEnd ++ showText m.2

/-- What `do_recv` writes. -/
def screen (msgs : List (List UInt8 × List UInt8)) : List UInt8 := msgs.flatMap showMsg

/-! ### Reading -/

/-- The lines of the screen, each up to its line feed. -/
def screenLines (out : List UInt8) : List (List UInt8) := (out.splitOn 10).dropLast

/-- The sender and the rest of a line that starts a message. -/
def headOf (line : List UInt8) : Option (List UInt8 × List UInt8) :=
  if line.take headMark.length = headMark then
    (cutAt 93 (line.drop headMark.length)).map fun (pk, rest) => (pk, rest.drop headEnd.length)
  else none

/-- Lines read as messages: each with its sender and the lines that belong to it. -/
def entries : List (List UInt8) → List (List UInt8 × List (List UInt8))
  | [] => []
  | line :: more =>
      match headOf line with
      | none => entries more
      | some (pk, first) =>
          (pk, first :: (more.takeWhile (headOf · = none)).map (·.drop indent.length)) ::
            entries more

/-- What a reader of the screen sees. -/
def readScreen (out : List UInt8) : List (List UInt8 × List (List UInt8)) :=
  entries (screenLines out)

/-- The lines that are shown of a text. -/
def shownLines (text : List UInt8) : List (List UInt8) :=
  if isBinary text then [ascii "<binary, " ++ decimal text.length ++ ascii " bytes>"]
  else if text = [] then [ascii "(empty)"]
  else
    let (lines, rest) := textLines maxLines text
    lines ++ if rest = [] then [] else [sizeNote text]

/-- A message as it stands on the screen. -/
def onScreen (m : List UInt8 × List UInt8) : List UInt8 × List (List UInt8) :=
  (m.1, shownLines m.2)

/-! ### The lines of a text -/

theorem textLines_nil (left : ℕ) : textLines left [] = ([], []) := by
  cases left <;> rfl

/-- The lines that are shown are the first ones of the text, and there are more of them only
if they are not allowed. A line feed at the end makes no difference. -/
theorem textLines_spec (left : ℕ) (text : List UInt8) :
    (∀ l ∈ (textLines left text).1, 10 ∉ l) ∧ (textLines left text).1.length ≤ left ∧
    ((textLines left text).2 ≠ [] → (textLines left text).1.length = left) ∧
    ((textLines left text).1.flatMap (· ++ [10]) ++ (textLines left text).2 = text ∨
      (textLines left text).2 = [] ∧
        (textLines left text).1.flatMap (· ++ [10]) = text ++ [10]) := by
  induction left generalizing text with
  | zero =>
      simp [textLines]
  | succ left ih =>
      rw [textLines]
      split
      · rename_i hnil
        simp [hnil]
      · rcases hcut : cutAt 10 text with _ | ⟨line, rest⟩
        · have hfeed : 10 ∉ text := by
            intro hc
            obtain ⟨front, rest, rfl, hfront⟩ := List.eq_append_cons_of_mem hc
            rw [cutAt_append hfront] at hcut
            cases hcut
          simp [hfeed]
        · obtain ⟨rfl, hfeed⟩ := cutAt_eq_some hcut
          obtain ⟨hlines, hlen, hmore, hwhole⟩ := ih rest
          refine ⟨List.forall_mem_cons.mpr ⟨hfeed, hlines⟩, Nat.succ_le_succ hlen,
            fun h => congrArg Nat.succ (hmore h), ?_⟩
          simp only [List.flatMap_cons, List.append_assoc, List.cons_append, List.nil_append]
          exact hwhole.imp (fun h => by rw [h]) (fun h => ⟨h.1, by rw [h.2]⟩)

/-- What is written for a text are its lines, all but the first indented. -/
theorem showText_eq (text : List UInt8) : ∃ first more, shownLines text = first :: more ∧
    showText text = printLines (first :: more) ∧ ∀ l ∈ first :: more, 10 ∉ l := by
  have hdecimal : 10 ∉ decimal text.length := fun hc => (mem_decimal hc).1 rfl
  rw [shownLines, showText]
  split
  · refine ⟨_, [], rfl, by simp [printLines, ascii], List.forall_mem_singleton.mpr ?_⟩
    simp only [List.mem_append, not_or]
    exact ⟨⟨by decide, hdecimal⟩, by decide⟩
  · split
    · rename_i hnil
      rw [hnil, textLines_nil]
      exact ⟨_, [], rfl, by decide, List.forall_mem_singleton.mpr (by decide)⟩
    · rename_i hne
      obtain ⟨hlines, -⟩ := textLines_spec maxLines text
      obtain ⟨first, more, hcons⟩ : ∃ first more, (textLines maxLines text).1 = first :: more := by
        rw [maxLines, textLines, if_neg hne]
        split <;> exact ⟨_, _, rfl⟩
      have hnote : 10 ∉ sizeNote text := by
        simp only [sizeNote, List.mem_append, not_or]
        exact ⟨⟨by decide, hdecimal⟩, by decide⟩
      simp only [hcons] at hlines ⊢
      rw [if_neg (List.cons_ne_nil _ _), List.append_nil]
      split
      · exact ⟨first, more, List.append_nil _, List.append_nil _, hlines⟩
      · refine ⟨first, more ++ [sizeNote text], rfl, ?_, ?_⟩
        · simp [printLines]
        · rw [← List.cons_append]
          exact List.forall_mem_append.mpr ⟨hlines, List.forall_mem_singleton.mpr hnote⟩

/-! ### The lines of the screen -/

theorem screenLines_flatMap {lines : List (List UInt8)} (h : ∀ l ∈ lines, 10 ∉ l) :
    screenLines (lines.flatMap (· ++ [10])) = lines := by
  have hsplit : (lines.flatMap (· ++ [10])).splitOn 10 = lines ++ [[]] := by
    induction lines with
    | nil => rfl
    | cons line lines ih =>
        obtain ⟨hline, hlines⟩ := List.forall_mem_cons.mp h
        rw [List.flatMap_cons, List.append_assoc, List.singleton_append,
          List.splitOn_append_cons_self_of_not_mem hline, ih hlines, List.cons_append]
  rw [screenLines, hsplit, List.dropLast_concat]

theorem headOf_head {pk : List UInt8} (h : 93 ∉ pk) (first : List UInt8) :
    headOf (headMark ++ pk ++ ascii "]" ++ headEnd ++ first) = some (pk, first) := by
  have hline : headMark ++ pk ++ ascii "]" ++ headEnd ++ first =
      headMark ++ (pk ++ 93 :: (headEnd ++ first)) := by
    simp [ascii]
  rw [hline, headOf, List.take_left, if_pos rfl, List.drop_left, cutAt_append h, Option.map_some]
  simp only [List.drop_left]

/-- A line that is indented starts no message. -/
theorem headOf_indent (line : List UInt8) : headOf (indent ++ line) = none := by
  refine if_neg fun htake => ?_
  rw [List.take_append_of_le_length (by decide)] at htake
  revert htake
  decide

/-- The lines of a message. -/
def msgLines (m : List UInt8 × List UInt8) : List (List UInt8) :=
  match shownLines m.2 with
  | [] => []
  | first :: more =>
      (headMark ++ m.1 ++ ascii "]" ++ headEnd ++ first) :: more.map (indent ++ ·)

theorem showMsg_eq {m : List UInt8 × List UInt8} (h : 10 ∉ m.1) :
    showMsg m = (msgLines m).flatMap (· ++ [10]) ∧ ∀ l ∈ msgLines m, 10 ∉ l := by
  obtain ⟨first, more, hcontents, hshow, hfeed⟩ := showText_eq m.2
  obtain ⟨hfirst, hmore⟩ := List.forall_mem_cons.mp hfeed
  rw [msgLines, hcontents]
  constructor
  · simp [showMsg, hshow, printLines, List.flatMap_map]
  · refine List.forall_mem_cons.mpr ⟨?_, ?_⟩
    · simp only [List.mem_append, not_or]
      exact ⟨⟨⟨⟨by decide, h⟩, by decide⟩, by decide⟩, hfirst⟩
    · intro l hl
      obtain ⟨line, hline, rfl⟩ := List.mem_map.mp hl
      exact List.mem_append.not.mpr (not_or.mpr ⟨by decide, hmore line hline⟩)

/-- Lines that continue a message are passed over. -/
theorem entries_indent (more rest : List (List UInt8)) :
    entries (more.map (indent ++ ·) ++ rest) = entries rest := by
  induction more with
  | nil => rfl
  | cons line more ih =>
      rw [List.map_cons, List.cons_append, entries, headOf_indent]
      exact ih

/-- The lines of messages are read as these messages. -/
theorem entries_msgLines {msgs : List (List UInt8 × List UInt8)} (h : ∀ m ∈ msgs, 93 ∉ m.1) :
    (msgs.flatMap msgLines).takeWhile (headOf · = none) = [] ∧
      entries (msgs.flatMap msgLines) = msgs.map onScreen := by
  induction msgs with
  | nil => exact ⟨rfl, rfl⟩
  | cons m msgs ih =>
      obtain ⟨hm, hmsgs⟩ := List.forall_mem_cons.mp h
      obtain ⟨hstop, hrest⟩ := ih hmsgs
      obtain ⟨first, more, hcontents, -, -⟩ := showText_eq m.2
      have hhead := headOf_head hm first
      have hmore : ∀ l ∈ more.map (indent ++ ·), decide (headOf l = none) = true := by
        intro l hl
        obtain ⟨line, -, rfl⟩ := List.mem_map.mp hl
        exact decide_eq_true (headOf_indent line)
      have hdrop : (more.map (indent ++ ·)).map (·.drop indent.length) = more := by
        rw [List.map_map]
        exact List.map_id'' (fun line => List.drop_left) more
      rw [List.flatMap_cons, List.map_cons, onScreen, msgLines, hcontents]
      simp only [List.cons_append]
      constructor
      · exact List.takeWhile_cons_of_neg (by rw [hhead]; exact Bool.false_ne_true)
      · rw [entries, hhead]
        simp only
        rw [List.takeWhile_append_of_pos hmore, hstop, List.append_nil, hdrop, entries_indent,
          hrest]

/-- The prefix of a key has no bracket. -/
theorem bracket_notMem_pkHex (pk : Bytes 32) : 93 ∉ ascii (pkHex pk) := by
  have hdigit : ∀ n < 16, UInt8.ofNat (hexDigit n).toNat ≠ 93 := by
    decide
  intro h
  rw [ascii, pkHex, String.toList_ofList, List.mem_map] at h
  obtain ⟨d, hd, hdeq⟩ := h
  obtain ⟨b, -, hb⟩ := List.mem_flatMap.mp hd
  have hlt := b.toNat_lt
  rcases List.mem_cons.mp hb with rfl | hb
  · exact hdigit _ (by omega) hdeq
  · rw [List.mem_singleton] at hb
    exact hdigit _ (by omega) (hb ▸ hdeq)

/-- Whatever the texts are, the screen is read as the messages, each under its sender. -/
theorem readScreen_screen {msgs : List ReceivedMsg}
    (h : ∀ m ∈ msgs, ∃ pk : Bytes 32, m.pkHex = pkHex pk) :
    readScreen (screen (msgs.map shown)) = (msgs.map shown).map onScreen := by
  have hsender : ∀ m ∈ msgs.map shown, 10 ∉ m.1 ∧ 93 ∉ m.1 := by
    intro x hx
    obtain ⟨m, hm, rfl⟩ := List.mem_map.mp hx
    obtain ⟨pk, hpk⟩ := h m hm
    rw [shown, hpk]
    exact ⟨fun hc => (mem_pkHex hc).1 rfl, bracket_notMem_pkHex pk⟩
  have hscreen : screen (msgs.map shown) =
      ((msgs.map shown).flatMap msgLines).flatMap (· ++ [10]) := by
    rw [screen, List.flatMap_assoc]
    exact List.flatMap_congr fun m hm => (showMsg_eq (hsender m hm).1).1
  have hfeed : ∀ l ∈ (msgs.map shown).flatMap msgLines, 10 ∉ l := by
    intro l hl
    obtain ⟨m, hm, hl⟩ := List.mem_flatMap.mp hl
    exact (showMsg_eq (hsender m hm).1).2 l hl
  rw [readScreen, hscreen, screenLines_flatMap hfeed,
    (entries_msgLines fun m hm => (hsender m hm).2).2]

end PeerToPeer.Control
