import Mathlib.Data.List.TakeWhile
import Mathlib.Data.Nat.Digits.Defs
import PeerToPeer.Node.Node
import PeerToPeer.Node.Peers

/-!
The commands of the control socket that list the connections and name them by their
numbers.
-/

namespace PeerToPeer.Node

open Lib Crypto Transfer

/-- The bytes of an ASCII text. -/
def ascii (s : String) : List UInt8 := s.toList.map fun c => UInt8.ofNat c.toNat

/-- `std::to_string`. -/
def decimal (n : ℕ) : List UInt8 :=
  if n = 0 then [48] else (Nat.digits 10 n).reverse.map fun d => UInt8.ofNat (48 + d)

/-! ### `std::stoi` -/

def isSpace (c : UInt8) : Bool := c == 32 || (decide (9 ≤ c) && decide (c ≤ 13))

def isDigit (c : UInt8) : Bool := decide (48 ≤ c) && decide (c ≤ 57)

/-- The value of a string of digits. -/
def digitsValue (ds : List UInt8) : ℕ := ds.foldl (fun v d => 10 * v + (d.toNat - 48)) 0

/-- `std::stoi`: blanks, a sign, and digits up to the first other character. There
is no result without a digit, and none outside the range of `int`. -/
def stoi (s : List UInt8) : Option ℤ :=
  let s := s.dropWhile isSpace
  let negative := s.head? = some 45
  let s := if negative ∨ s.head? = some 43 then s.tail else s
  let digits := s.takeWhile isDigit
  if digits.isEmpty then none else
  let value : ℤ := if negative then -digitsValue digits else digitsValue digits
  if -2 ^ 31 ≤ value ∧ value < 2 ^ 31 then some value else none

/-! ### The commands -/

/-- The arguments up to the first blank and after it. -/
def splitArgs (args : List UInt8) : Option (List UInt8 × List UInt8) :=
  match args.span (· ≠ 32) with
  | (_, []) => none
  | (front, _ :: rest) => some (front, rest)

/-- A line of the reply to LIST: number, identity prefix, address and port. -/
def listLine (ipText : Bytes 4 → List UInt8) (n : ℕ) (c : PeerConn) : List UInt8 :=
  decimal n ++ ascii " " ++ ascii (pkHex c.identity) ++ ascii " " ++ ipText c.ip ++ ascii ":" ++
    (if c.listenPort = 0 then ascii "?" else decimal c.listenPort.toNat) ++ ascii "\n"

/-- The lines of the reply to LIST. -/
def listLines (ipText : Bytes 4 → List UInt8) (ps : Peers) : List (List UInt8) :=
  ps.conns.mapIdx fun i c => listLine ipText (i + 1) c

/-- `ctl_list`; `ipText` is `inet_ntop`. -/
def ctlList (ipText : Bytes 4 → List UInt8) (ps : Peers) : List UInt8 :=
  ascii "PEERS " ++ decimal ps.conns.length ++ ascii "\n" ++ (listLines ipText ps).flatten

/-- `peers_[idx - 1]`, after the check of the index. -/
def peerAt (ps : Peers) (idx : ℤ) : Option PeerConn :=
  if idx < 1 ∨ idx.toNat > ps.conns.length then none else ps.conns[(idx - 1).toNat]?

/-- What a command does: the connection it sends over, with the data, if it comes
to that, and its reply. -/
structure CtlResult where
  sent : Option (PeerConn × List UInt8)
  reply : List UInt8

/-- `ctl_send`; `sends` tells whether sending the text over a connection succeeds. -/
def ctlSend (sends : PeerConn → List UInt8 → Bool) (ps : Peers) (args : List UInt8) : CtlResult :=
  match splitArgs args with
  | none => ⟨none, ascii "ERR usage: SEND <idx> <message>"⟩
  | some (front, text) =>
      match stoi front with
      | none => ⟨none, ascii "ERR invalid index"⟩
      | some idx =>
          match peerAt ps idx with
          | none => ⟨none, ascii "ERR peer index out of range"⟩
          | some target =>
              ⟨some (target, text),
                if sends target text then ascii "OK" else ascii "ERR send failed"⟩

/-- `ctl_send_file`; `files` is what can be read under a path. -/
def ctlSendFile (files : List UInt8 → Option (List UInt8))
    (sends : PeerConn → List UInt8 → Bool) (ps : Peers) (args : List UInt8) : CtlResult :=
  match splitArgs args with
  | none => ⟨none, ascii "ERR usage: SENDFILE <idx> <path>"⟩
  | some (front, path) =>
      match stoi front with
      | none => ⟨none, ascii "ERR invalid index"⟩
      | some idx =>
          match files path with
          | none => ⟨none, ascii "ERR cannot open: " ++ path⟩
          | some [] => ⟨none, ascii "ERR file is empty"⟩
          | some data =>
              match peerAt ps idx with
              | none => ⟨none, ascii "ERR peer index out of range"⟩
              | some target =>
                  ⟨some (target, data),
                    if sends target data then
                      ascii "OK " ++ decimal data.length ++ ascii " bytes"
                    else ascii "ERR send failed"⟩

/-! ### Reading numbers back -/

theorem isDigit_digit {d : ℕ} (h : d < 10) : isDigit (UInt8.ofNat (48 + d)) = true := by
  have hd : (UInt8.ofNat (48 + d)).toNat = 48 + d := by
    rw [UInt8.toNat_ofNat']
    omega
  simp only [isDigit, Bool.and_eq_true, decide_eq_true_eq, UInt8.le_iff_toNat_le, hd]
  exact ⟨Nat.le_add_right 48 d, Nat.add_le_add_left (Nat.le_of_lt_succ h) 48⟩

/-- A number is written in digits, and with at least one. -/
theorem decimal_spec (n : ℕ) :
    decimal n ≠ [] ∧ (∀ c ∈ decimal n, isDigit c = true) ∧ digitsValue (decimal n) = n := by
  by_cases hn : n = 0
  · rw [decimal, if_pos hn, hn]
    exact ⟨List.cons_ne_nil _ _, List.forall_mem_singleton.mpr rfl, rfl⟩
  rw [decimal, if_neg hn]
  refine ⟨?_, ?_, ?_⟩
  · simpa using Nat.digits_ne_nil_iff_ne_zero.mpr hn
  · intro c hc
    obtain ⟨d, hd, rfl⟩ := List.mem_map.mp hc
    exact isDigit_digit (Nat.digits_lt_base (by decide) (List.mem_reverse.mp hd))
  · -- Horner's rule, most significant digit first
    have hfold : ∀ ds : List ℕ, (∀ d ∈ ds, d < 10) →
        digitsValue (ds.reverse.map fun d => UInt8.ofNat (48 + d)) = Nat.ofDigits 10 ds := by
      intro ds hds
      induction ds with
      | nil => rfl
      | cons d ds ih =>
          have hd := hds d (by simp)
          have hval : (UInt8.ofNat (48 + d)).toNat - 48 = d := by
            rw [UInt8.toNat_ofNat']
            omega
          rw [List.reverse_cons, List.map_append, digitsValue, List.foldl_append,
            ← digitsValue, ih fun e he => hds e (by simp [he]), Nat.ofDigits_cons]
          simp only [List.map_cons, List.map_nil, List.foldl_cons, List.foldl_nil, hval]
          exact Nat.add_comm _ _
    rw [hfold _ fun d hd => Nat.digits_lt_base (by decide) hd, Nat.ofDigits_digits]

theorem not_isSpace_of_isDigit {c : UInt8} (h : isDigit c = true) :
    isSpace c = false ∧ c ≠ 45 ∧ c ≠ 43 ∧ c ≠ 32 := by
  simp only [isDigit, Bool.and_eq_true, decide_eq_true_eq, UInt8.le_iff_toNat_le] at h
  simp only [isSpace, Bool.or_eq_false_iff, beq_eq_false_iff_ne, Bool.and_eq_false_iff,
    decide_eq_false_iff_not, UInt8.le_iff_toNat_le, ne_eq, ← UInt8.toNat_inj]
  simp only [UInt8.reduceToNat] at h ⊢
  omega

/-- `stoi` reads a number back when it fits an `int`. -/
theorem stoi_decimal (n : ℕ) : stoi (decimal n) = if n < 2 ^ 31 then some (n : ℤ) else none := by
  obtain ⟨hne, hdigits, hvalue⟩ := decimal_spec n
  obtain ⟨c, cs, hcs⟩ := List.exists_cons_of_ne_nil hne
  have hc := not_isSpace_of_isDigit (hdigits c (by simp [hcs]))
  have hdrop : (decimal n).dropWhile isSpace = decimal n := by
    rw [hcs, List.dropWhile_cons_of_neg (by simp [hc.1])]
  have hhead : (decimal n).head? = some c := by rw [hcs, List.head?_cons]
  have htake : (decimal n).takeWhile isDigit = decimal n :=
    List.takeWhile_eq_self_iff.mpr hdigits
  have hempty : (decimal n).isEmpty = false := by rw [hcs, List.isEmpty_cons]
  have hrange : (-2 ^ 31 ≤ (n : ℤ) ∧ (n : ℤ) < 2 ^ 31) ↔ n < 2 ^ 31 := by omega
  simp only [stoi, hdrop, hhead, Option.some.injEq, hc.2.1, hc.2.2.1, or_self, if_false, htake,
    hempty, Bool.false_eq_true, hvalue, hrange]

theorem splitArgs_decimal (n : ℕ) (text : List UInt8) :
    splitArgs (decimal n ++ 32 :: text) = some (decimal n, text) := by
  have hspan : (decimal n ++ 32 :: text).span (fun c : UInt8 => decide (c ≠ 32)) =
      (decimal n, 32 :: text) := by
    have hall : ∀ c ∈ decimal n, decide (c ≠ 32) = true := fun c hc =>
      decide_eq_true (not_isSpace_of_isDigit ((decimal_spec n).2.1 c hc)).2.2.2
    rw [List.span_eq_takeWhile_dropWhile, List.takeWhile_append_of_pos hall,
      List.dropWhile_append_of_pos hall]
    simp
  rw [splitArgs, hspan]

end PeerToPeer.Node
