import Acqua.Library.Decimal
import Acqua.Library.Hexadecimal

/-! `hexdump.hpp`. An iterator is its distance from `beg_`, and `mem` is what stands at a
position, also outside the range. -/

namespace Acqua

/-- The element type, `char` or another one of one byte. Only for `char` is the conditional
expression with `'.'` a character, otherwise it is an `int`. -/
inductive CharT
  | char
  | other
  deriving DecidableEq

structure Hexdump where
  charT : CharT
  canonical : Bool
  length : Nat

/-- What is written to the stream, and the positions that are read. -/
structure Dump where
  text : List UInt8
  reads : List Int

namespace Dump

instance : Append Dump := ⟨fun d e => ⟨d.text ++ e.text, d.reads ++ e.reads⟩⟩

def write (text : List UInt8) : Dump := ⟨text, []⟩

def deref (it : Int) : Dump := ⟨[], [it]⟩

@[simp] theorem text_append (d e : Dump) : (d ++ e).text = d.text ++ e.text := rfl

@[simp] theorem reads_append (d e : Dump) : (d ++ e).reads = d.reads ++ e.reads := rfl

@[simp] theorem text_write (text : List UInt8) : (write text).text = text := rfl

@[simp] theorem reads_write (text : List UInt8) : (write text).reads = [] := rfl

@[simp] theorem text_deref (it : Int) : (deref it).text = [] := rfl

@[simp] theorem reads_deref (it : Int) : (deref it).reads = [it] := rfl

theorem ext {d e : Dump} (htext : d.text = e.text) (hreads : d.reads = e.reads) : d = e := by
  cases d
  cases e
  exact congrArg₂ Dump.mk htext hreads

theorem append_assoc (d e f : Dump) : d ++ e ++ f = d ++ (e ++ f) :=
  ext (List.append_assoc ..) (List.append_assoc ..)

theorem write_nil_append (d : Dump) : write [] ++ d = d := rfl

theorem write_append (s t : List UInt8) : write s ++ write t = write (s ++ t) := rfl

def concat (dumps : List Dump) : Dump := ⟨dumps.flatMap text, dumps.flatMap reads⟩

theorem concat_cons (d : Dump) (dumps : List Dump) : concat (d :: dumps) = d ++ concat dumps :=
  ext List.flatMap_cons List.flatMap_cons

end Dump

namespace Hexdump

open Dump

variable (h : Hexdump) (mem : Int → UInt8)

/-- The character that stands for a byte in the text column. -/
def shown (ch : UInt8) : UInt8 := if isprint ch then ch else chr '.'

def putChar (charT : CharT) (ch : UInt8) : List UInt8 :=
  match charT with
  | .char => [shown ch]
  | .other => octets (Nat.repr (shown ch).toNat)

def hexDigit (hex : UInt8) : UInt8 := hex + (if hex < 10 then chr '0' else chr 'a' - 10)

def putHex (ch : UInt8) : List UInt8 := [hexDigit (ch >>> 4), hexDigit (ch &&& 0x0f)]

/-- `setw(width)` with the fill character `'0'`. -/
def putLinum (pos : Nat) (carry : Int) : List UInt8 :=
  List.replicate (carry + 1 - (octets (Nat.repr pos)).length).toNat (chr '0') ++
    octets (Nat.repr pos) ++ octets " | "

/-- `for(;--pos; ++it)`, where `pos` starts above zero. -/
def canonLoop : Nat → Int → Dump
  | 0, _ => write []
  | 1, _ => write []
  | pos + 2, it =>
    deref it ++ write (putChar h.charT (mem it)) ++ canonLoop (pos + 1) (it + 1)

def putCanon (pos : Nat) (it : Int) : Dump :=
  if h.canonical then
    let pos := pos % h.length
    let gap := if 0 < pos then List.replicate ((h.length - pos) * 3) (chr ' ') else []
    let pos := if 0 < pos then pos else h.length
    write (gap ++ octets " \"") ++ canonLoop h mem pos (it - pos) ++ write (octets "\"")
  else write []

def putEndline (it : Nat) (carry : Int) : Dump × Bool :=
  if it % h.length ≠ 0 then (write [], false)
  else (h.putCanon mem it it ++ write (octets "\n") ++ write (putLinum it carry), true)

/-- The loop of `puts` over the `left` positions from `it` on. -/
def putsLoop (carry : Int) : Nat → Nat → Dump
  | 0, _ => write []
  | left + 1, it =>
    let r := h.putEndline mem it carry
    r.1 ++ write (if !r.2 then octets " " else []) ++ deref it ++ write (putHex (mem it)) ++
      putsLoop carry left (it + 1)

/-- `carry` is what the cast of the logarithm, a `double`, gives. -/
def puts (n : Nat) (carry : Int) : Dump :=
  write (putLinum 0 carry) ++
    (if n ≠ 0 then deref 0 ++ write (putHex (mem 0)) ++ h.putsLoop mem carry (n - 1) 1
    else write []) ++ h.putCanon mem n n ++ write (octets "\n")

/-- The number of lines; a dump of nothing has one. -/
def lineCount (n : Nat) : Nat := (n - 1) / h.length + 1

/-- The number of bytes of a line. -/
def lineLength (n i : Nat) : Nat := min h.length (n - i * h.length)

def lineBytes (n i : Nat) : List UInt8 :=
  (List.range' (i * h.length) (h.lineLength n i)).map fun p : Nat => mem p

def hexRun (positions : List Nat) : Dump :=
  ⟨positions.flatMap fun p : Nat => chr ' ' :: putHex (mem p),
    positions.map fun p : Nat => (p : Int)⟩

/-- A line with the break behind it. -/
def line (n : Nat) (carry : Int) (i : Nat) : Dump :=
  let stop : Nat := i * h.length + h.lineLength n i
  write (putLinum (i * h.length) carry).dropLast ++
    hexRun mem (List.range' (i * h.length) (h.lineLength n i)) ++ h.putCanon mem stop stop ++
    write (octets "\n")

section Lines

variable {h mem}

theorem hexRun_append (positions positions' : List Nat) :
    hexRun mem (positions ++ positions') = hexRun mem positions ++ hexRun mem positions' :=
  Dump.ext (by simp [hexRun]) (by simp [hexRun])

theorem hexRun_cons (p : Nat) (positions : List Nat) :
    hexRun mem (p :: positions) = hexRun mem [p] ++ hexRun mem positions :=
  hexRun_append [p] positions

theorem putLinum_dropLast (pos : Nat) (carry : Int) :
    (putLinum pos carry).dropLast ++ octets " " = putLinum pos carry := by
  have hsplit : putLinum pos carry = (List.replicate (carry + 1 -
      (octets (Nat.repr pos)).length).toNat (chr '0') ++ octets (Nat.repr pos) ++ octets " |") ++
      octets " " := by
    simp [putLinum, octets]
  rw [hsplit, show octets " " = [chr ' '] from rfl, List.dropLast_concat]

theorem write_putLinum (pos : Nat) (carry : Int) :
    write (putLinum pos carry).dropLast ++ write (octets " ") = write (putLinum pos carry) :=
  (write_append _ _).trans (congrArg write (putLinum_dropLast pos carry))

theorem hexRun_singleton (p : Nat) :
    hexRun mem [p] = write (octets " ") ++ deref p ++ write (putHex (mem p)) := by
  refine Dump.ext ?_ rfl
  simp [hexRun, octets]

/-- Positions that begin no line. -/
theorem putsLoop_within {carry : Int} {k left it : Nat}
    (hit : ∀ j < k, (it + j) % h.length ≠ 0) :
    h.putsLoop mem carry (k + left) it =
      hexRun mem (List.range' it k) ++ h.putsLoop mem carry left (it + k) := by
  induction k generalizing it with
  | zero =>
    rw [Nat.zero_add, List.range'_zero]
    rfl
  | succ k ih =>
    have hhere : it % h.length ≠ 0 := hit 0 (Nat.succ_pos k)
    have hrest : ∀ j < k, (it + 1 + j) % h.length ≠ 0 := by
      intro j hj
      have hj' := hit (j + 1) (Nat.succ_lt_succ hj)
      rwa [show it + (j + 1) = it + 1 + j by omega] at hj'
    rw [Nat.succ_add, putsLoop, ih hrest, List.range'_succ, hexRun_cons, hexRun_singleton,
      show it + 1 + k = it + (k + 1) by omega]
    simp only [putEndline, if_pos hhere, Dump.append_assoc, Dump.write_nil_append]
    rfl

/-- What is left of the dump from the beginning of a line on. -/
def fromLine (h : Hexdump) (mem : Int → UInt8) (n : Nat) (carry : Int) (i : Nat) : Dump :=
  write (putLinum (i * h.length) carry).dropLast ++ hexRun mem [i * h.length] ++
    h.putsLoop mem carry (n - (i * h.length + 1)) (i * h.length + 1) ++ h.putCanon mem n n ++
    write (octets "\n")

theorem puts_eq_fromLine {n : Nat} (hn : 0 < n) (carry : Int) :
    h.puts mem n carry = h.fromLine mem n carry 0 := by
  unfold puts fromLine
  rw [if_pos hn.ne', ← write_putLinum, Nat.zero_mul, hexRun_singleton, Nat.zero_add]
  simp only [Dump.append_assoc]
  rfl

theorem lineLength_of_last {n i : Nat} (hn : n ≤ (i + 1) * h.length) :
    h.lineLength n i = n - i * h.length := by
  unfold lineLength
  rw [Nat.succ_mul] at hn
  exact min_eq_right (by omega)

theorem lineLength_of_full {n i : Nat} (hn : (i + 1) * h.length ≤ n) :
    h.lineLength n i = h.length := by
  unfold lineLength
  rw [Nat.succ_mul] at hn
  exact min_eq_left (by omega)

theorem not_dvd_within {L i j k : Nat} (hk : k < L) (hj : j < k) :
    (i * L + 1 + j) % L ≠ 0 := by
  rw [Nat.add_assoc, Nat.mul_comm, Nat.mul_add_mod, Nat.mod_eq_of_lt (by omega)]
  omega

/-- The rest of a line that `k + 1` bytes stand on. -/
theorem fromLine_within {n : Nat} {carry : Int} {i k left : Nat} (hk : k < h.length)
    (hleft : n - (i * h.length + 1) = k + left) :
    h.fromLine mem n carry i =
      write (putLinum (i * h.length) carry).dropLast ++
        hexRun mem (List.range' (i * h.length) (k + 1)) ++
        h.putsLoop mem carry left (i * h.length + 1 + k) ++ h.putCanon mem n n ++
        write (octets "\n") := by
  unfold fromLine
  rw [hleft, putsLoop_within fun j hj => not_dvd_within hk hj, List.range'_succ,
    hexRun_cons (i * h.length) (List.range' _ k)]
  simp only [Dump.append_assoc]

theorem fromLine_last {n : Nat} {carry : Int} {i : Nat} (hi : i * h.length < n)
    (hn : n ≤ (i + 1) * h.length) : h.fromLine mem n carry i = h.line mem n carry i := by
  have hlen : h.lineLength n i = n - (i * h.length + 1) + 1 := by
    rw [lineLength_of_last hn]
    omega
  have hk : n - (i * h.length + 1) < h.length := by
    rw [Nat.succ_mul] at hn
    omega
  rw [fromLine_within hk (Nat.add_zero _).symm, line, hlen,
    show i * h.length + (n - (i * h.length + 1) + 1) = n by omega]
  simp only [Dump.append_assoc]
  rfl

theorem fromLine_next {n : Nat} {carry : Int} {i : Nat} (hL : 0 < h.length)
    (hn : (i + 1) * h.length < n) :
    h.fromLine mem n carry i = h.line mem n carry i ++ h.fromLine mem n carry (i + 1) := by
  have hnext : (i + 1) * h.length = i * h.length + h.length := Nat.succ_mul i h.length
  have hleft : n - (i * h.length + 1) =
      (h.length - 1) + (n - ((i + 1) * h.length + 1) + 1) := by omega
  rw [fromLine_within (Nat.sub_lt hL Nat.one_pos) hleft, line, lineLength_of_full hn.le,
    show i * h.length + 1 + (h.length - 1) = (i + 1) * h.length by omega,
    Nat.sub_add_cancel hL, ← hnext, fromLine, hexRun_singleton, putsLoop]
  have hend : (i + 1) * h.length % h.length = 0 := Nat.mul_mod_left _ _
  simp only [putEndline, hend, ne_eq, not_true_eq_false, if_false]
  rw [← write_putLinum ((i + 1) * h.length) carry]
  simp only [Dump.append_assoc]
  rfl

theorem lt_lineCount {n i : Nat} (hL : 0 < h.length) (hn : 0 < n) :
    i < h.lineCount n ↔ i * h.length < n := by
  unfold lineCount
  rw [Nat.lt_succ_iff, Nat.le_div_iff_mul_le hL]
  omega

theorem fromLine_eq_concat {n : Nat} {carry : Int} (hL : 0 < h.length) (hn : 0 < n) {m i : Nat}
    (hm : i + (m + 1) = h.lineCount n) :
    h.fromLine mem n carry i = concat ((List.range' i (m + 1)).map (h.line mem n carry)) := by
  have hi : i * h.length < n := (lt_lineCount hL hn).mp (by omega)
  induction m generalizing i with
  | zero =>
    have hlast : n ≤ (i + 1) * h.length := by
      by_contra hmore
      have := (lt_lineCount hL hn).mpr (not_le.mp hmore)
      omega
    rw [fromLine_last hi hlast]
    exact Dump.ext (List.append_nil _).symm (List.append_nil _).symm
  | succ m ih =>
    have hnext : (i + 1) * h.length < n := (lt_lineCount hL hn).mp (by omega)
    rw [fromLine_next hL hnext, List.range'_succ, List.map_cons, concat_cons,
      ih (by omega) hnext]

/-- The dump is line after line. -/
theorem puts_eq_concat {n : Nat} (hL : 0 < h.length) (hn : 0 < n) (carry : Int) :
    h.puts mem n carry = concat ((List.range (h.lineCount n)).map (h.line mem n carry)) := by
  have hm : 0 + ((n - 1) / h.length + 1) = h.lineCount n := Nat.zero_add _
  rw [puts_eq_fromLine hn, fromLine_eq_concat hL hn hm, List.range_eq_range']
  rfl

end Lines

end Hexdump

end Acqua
