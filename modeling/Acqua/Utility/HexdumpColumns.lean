import Acqua.Library.Splits
import Acqua.Utility.Hexdump

/-! The columns of a hex dump, read back from its text. -/

namespace Acqua

namespace Hexdump

open Dump

def offsetColumn (row : List UInt8) : List UInt8 := row.takeWhile fun ch => ch != chr ' '

/-- The words between the bar and the first quotation mark. -/
def hexColumn (row : List UInt8) : List (List UInt8) :=
  ((((row.dropWhile fun ch => ch != chr '|').drop 1).takeWhile fun ch => ch != chr '"').splitOn
    (chr ' ')).filter fun word => word != []

/-- What stands between the first quotation mark and the end of the line. -/
def textColumn (row : List UInt8) : List UInt8 :=
  (row.dropWhile fun ch => ch != chr '"').drop 1

structure FaithfulRow (offset : Nat) (bytes row : List UInt8) : Prop where
  offset : ∃ zeros, offsetColumn row =
    List.replicate zeros (chr '0') ++ octets (Nat.repr offset)
  hex : ∀ word ∈ hexColumn row, word.length = 2 ∧ ∀ ch ∈ word, isxdigit ch
  values : (hexColumn row).map hexadecimalValue = bytes.map UInt8.toNat
  text : textColumn row = bytes.map shown ++ [chr '"']

/-- Nothing outside the range is read, and the text is a row for each line. -/
structure Faithful (h : Hexdump) (mem : Int → UInt8) (n : Nat) (dump : Dump) : Prop where
  inside : ∀ p ∈ dump.reads, 0 ≤ p ∧ p < n
  rows : ∃ rows : List (List UInt8), dump.text.splitOn (chr '\n') = rows ++ [[]] ∧
    rows.length = h.lineCount n ∧ ∀ i row, rows[i]? = some row →
      FaithfulRow (i * h.length) (h.lineBytes mem n i) row

/-- A row as it is written: the text column lacks the last byte of the line. -/
def row (h : Hexdump) (carry : Int) (offset : Nat) (bytes : List UInt8) : List UInt8 :=
  (putLinum offset carry).dropLast ++ (bytes.flatMap fun ch => chr ' ' :: putHex ch) ++
    (List.replicate ((h.length - bytes.length) * 3) (chr ' ') ++ octets " \"") ++
    bytes.dropLast.flatMap (putChar h.charT) ++ octets "\""

/-- A number, the hexadecimal digits of the bytes, and a text between quotation marks. -/
def layout (zeros gap offset : Nat) (bytes text : List UInt8) : List UInt8 :=
  (List.replicate zeros (chr '0') ++ octets (Nat.repr offset)) ++ chr ' ' :: chr '|' ::
    (((bytes.flatMap fun ch => chr ' ' :: putHex ch) ++ List.replicate gap (chr ' ')) ++
      chr '"' :: (text ++ [chr '"']))

variable {h : Hexdump} {mem : Int → UInt8}

section Rows

theorem canonLoop_eq (k start : Nat) :
    h.canonLoop mem (k + 1) start =
      ⟨(List.range' start k).flatMap fun p : Nat => putChar h.charT (mem p),
        (List.range' start k).map fun p : Nat => (p : Int)⟩ := by
  induction k generalizing start with
  | zero => rfl
  | succ k ih =>
    have hih := ih (start + 1)
    rw [Nat.cast_succ] at hih
    rw [canonLoop, hih, List.range'_succ]
    rfl

theorem putCanon_stop (hcanon : h.canonical = true) {start len : Nat} (hlen : len < h.length)
    (hstart : start % h.length = 0) :
    h.putCanon mem (start + (len + 1)) ((start + (len + 1) : Nat) : Int) =
      write (List.replicate ((h.length - (len + 1)) * 3) (chr ' ') ++ octets " \"") ++
        ⟨(List.range' start len).flatMap fun p : Nat => putChar h.charT (mem p),
          (List.range' start len).map fun p : Nat => (p : Int)⟩ ++ write (octets "\"") := by
  have hback : ((start + (len + 1) : Nat) : Int) - ((len + 1 : Nat) : Int) = (start : Int) := by
    push_cast
    ring
  unfold putCanon
  rw [if_pos hcanon, Nat.add_mod, hstart, Nat.zero_add, Nat.mod_mod]
  by_cases hfull : len + 1 = h.length
  · simp only [hfull, Nat.mod_self, Nat.lt_irrefl, if_false, Nat.sub_self]
    rw [← hfull, hback, canonLoop_eq]
    rfl
  · have hmod : (len + 1) % h.length = len + 1 := Nat.mod_eq_of_lt (by omega)
    simp only [hmod, Nat.succ_pos, if_true]
    rw [hback, canonLoop_eq]

theorem dropLast_lineBytes {n i len : Nat} (hlen : h.lineLength n i = len + 1) :
    (h.lineBytes mem n i).dropLast = (List.range' (i * h.length) len).map fun p : Nat => mem p := by
  unfold lineBytes
  rw [hlen, List.range'_concat, List.map_append, List.map_singleton, List.dropLast_concat]

theorem lineLength_pos {n i : Nat} (hL : 0 < h.length) (hi : i * h.length < n) :
    ∃ len, h.lineLength n i = len + 1 ∧ len < h.length ∧ i * h.length + len < n := by
  unfold lineLength
  refine ⟨min h.length (n - i * h.length) - 1, ?_, ?_, ?_⟩ <;> omega

/-- A line is its row with a break, and reads the positions of its bytes alone. -/
theorem line_eq (hcanon : h.canonical = true) {n i : Nat} (hL : 0 < h.length)
    (hi : i * h.length < n) (carry : Int) :
    (h.line mem n carry i).text =
        h.row carry (i * h.length) (h.lineBytes mem n i) ++ [chr '\n'] ∧
      ∀ p ∈ (h.line mem n carry i).reads, 0 ≤ p ∧ p < n := by
  obtain ⟨len, hlen, hshort, hstop⟩ := lineLength_pos hL hi
  have hcanonical := @putCanon_stop h mem hcanon _ _ hshort (Nat.mul_mod_left i h.length)
  have hlength : (h.lineBytes mem n i).length = len + 1 := by
    rw [lineBytes, List.length_map, List.length_range', hlen]
  unfold line row
  rw [dropLast_lineBytes hlen, hlength, hlen]
  simp only [hcanonical]
  constructor
  · simp [lineBytes, hlen, hexRun, List.flatMap_map, octets]
  · simp only [reads_append, reads_write, hexRun, List.nil_append, List.append_nil,
      List.mem_append, List.mem_map, List.mem_range'_1]
    rintro p (⟨q, hq, rfl⟩ | ⟨q, hq, rfl⟩) <;> omega

end Rows

section Columns

theorem isxdigit_putHex (ch : UInt8) : ∀ digit ∈ putHex ch, isxdigit digit := by
  have hall : (putHex ch).all isxdigit = true := by
    refine octet_forall (P := fun ch => (putHex ch).all isxdigit = true) ?_ ch
    decide +kernel
  exact List.all_eq_true.mp hall

theorem hexadecimalValue_putHex (ch : UInt8) : hexadecimalValue (putHex ch) = ch.toNat := by
  refine octet_forall (P := fun ch => hexadecimalValue (putHex ch) = ch.toNat) ?_ ch
  decide +kernel

theorem isxdigit_ne {ch : UInt8} (hch : isxdigit ch) :
    ch ≠ chr ' ' ∧ ch ≠ chr '"' ∧ ch ≠ chr '\n' := by
  refine ⟨?_, ?_, ?_⟩ <;> rintro rfl <;> exact absurd hch (by decide)

theorem isdigit_ne {ch : UInt8} (hch : isdigit ch) :
    ch ≠ chr ' ' ∧ ch ≠ chr '|' ∧ ch ≠ chr '"' ∧ ch ≠ chr '\n' := by
  refine ⟨?_, ?_, ?_, ?_⟩ <;> rintro rfl <;> exact absurd hch (by decide)

theorem putLinum_eq (pos : Nat) (carry : Int) :
    ∃ zeros, (putLinum pos carry).dropLast =
      List.replicate zeros (chr '0') ++ octets (Nat.repr pos) ++ [chr ' ', chr '|'] := by
  refine ⟨(carry + 1 - (octets (Nat.repr pos)).length).toNat, ?_⟩
  rw [putLinum, show octets " | " = [chr ' ', chr '|'] ++ [chr ' '] from rfl, ← List.append_assoc,
    List.dropLast_concat]

theorem isdigit_number {zeros pos : Nat} :
    ∀ ch ∈ List.replicate zeros (chr '0') ++ octets (Nat.repr pos), isdigit ch := by
  intro ch hch
  rcases List.mem_append.mp hch with hzero | hdigit
  · rw [List.eq_of_mem_replicate hzero]
    rfl
  · exact isdigit_repr pos ch hdigit

/-- The words of a text, where blanks are between them. -/
theorem words_append (xs ys : List UInt8) :
    ((xs ++ chr ' ' :: ys).splitOn (chr ' ')).filter (fun word => word != []) =
      (xs.splitOn (chr ' ')).filter (fun word => word != []) ++
        (ys.splitOn (chr ' ')).filter fun word => word != [] := by
  rw [List.splitOn_append_cons_self, List.filter_append]

theorem words_replicate (n : Nat) :
    ((List.replicate n (chr ' ')).splitOn (chr ' ')).filter (fun word => word != []) = [] := by
  induction n with
  | zero => rfl
  | succ n ih =>
    rw [List.replicate_succ, ← List.nil_append (chr ' ' :: _), words_append, ih]
    rfl

theorem words_flatMap (bytes : List UInt8) :
    ((bytes.flatMap fun ch => chr ' ' :: putHex ch).splitOn (chr ' ')).filter
      (fun word => word != []) = bytes.map putHex := by
  induction bytes using List.reverseRecOn with
  | nil => rfl
  | append_singleton bytes ch ih =>
    have hword : (putHex ch).splitOn (chr ' ') = [putHex ch] :=
      List.splitOn_eq_singleton fun hmem => (isxdigit_ne (isxdigit_putHex ch _ hmem)).1 rfl
    rw [List.flatMap_append, List.flatMap_singleton, words_append, ih, hword, List.map_append]
    rfl

theorem words_hex (bytes : List UInt8) (n : Nat) :
    (((bytes.flatMap fun ch => chr ' ' :: putHex ch) ++ List.replicate n (chr ' ')).splitOn
      (chr ' ')).filter (fun word => word != []) = bytes.map putHex := by
  cases n with
  | zero => rw [List.replicate_zero, List.append_nil, words_flatMap]
  | succ n =>
    rw [List.replicate_succ, words_append, words_replicate, List.append_nil, words_flatMap]

theorem row_eq (h : Hexdump) (carry : Int) (offset : Nat) (bytes : List UInt8) :
    ∃ zeros gap, h.row carry offset bytes =
      layout zeros gap offset bytes (bytes.dropLast.flatMap (putChar h.charT)) := by
  obtain ⟨zeros, hnumber⟩ := putLinum_eq offset carry
  refine ⟨zeros, (h.length - bytes.length) * 3 + 1, ?_⟩
  rw [row, layout, hnumber, List.replicate_succ', show octets " \"" = [chr ' ', chr '"'] from rfl,
    show octets "\"" = [chr '"'] from rfl]
  simp only [List.append_assoc, List.cons_append, List.nil_append]

section Layout

variable {zeros gap offset : Nat} {bytes text : List UInt8}

theorem words_range {ch : UInt8}
    (hch : ch ∈ (bytes.flatMap fun ch => chr ' ' :: putHex ch) ++ List.replicate gap (chr ' ')) :
    ch ≠ chr '"' ∧ ch ≠ chr '\n' := by
  rcases List.mem_append.mp hch with hword | hblank
  · obtain ⟨byte, -, hbyte⟩ := List.mem_flatMap.mp hword
    rcases List.mem_cons.mp hbyte with rfl | hdigit
    · decide
    · exact (isxdigit_ne (isxdigit_putHex byte ch hdigit)).2
  · rw [List.eq_of_mem_replicate hblank]
    decide

theorem offsetColumn_layout : offsetColumn (layout zeros gap offset bytes text) =
    List.replicate zeros (chr '0') ++ octets (Nat.repr offset) := by
  refine takeWhile_run (fun ch hch => ?_) (by decide)
  exact bne_iff_ne.mpr (isdigit_ne (isdigit_number ch hch)).1

theorem hexColumn_layout : hexColumn (layout zeros gap offset bytes text) = bytes.map putHex := by
  have hbar : (layout zeros gap offset bytes text).dropWhile (fun ch => ch != chr '|') = chr '|' ::
      (((bytes.flatMap fun ch => chr ' ' :: putHex ch) ++ List.replicate gap (chr ' ')) ++
        chr '"' :: (text ++ [chr '"'])) := by
    rw [layout, List.append_cons]
    refine dropWhile_run (fun ch hch => ?_) (by decide)
    rcases List.mem_append.mp hch with hdigit | hblank
    · exact bne_iff_ne.mpr (isdigit_ne (isdigit_number ch hdigit)).2.1
    · rw [List.mem_singleton.mp hblank]
      decide
  rw [hexColumn, hbar, List.drop_one, List.tail_cons,
    takeWhile_run (fun ch hch => bne_iff_ne.mpr (words_range hch).1) (by decide), words_hex]

theorem textColumn_layout :
    textColumn (layout zeros gap offset bytes text) = text ++ [chr '"'] := by
  have hquote : (layout zeros gap offset bytes text).dropWhile (fun ch => ch != chr '"') =
      chr '"' :: (text ++ [chr '"']) := by
    rw [layout, List.append_cons, List.append_cons, ← List.append_assoc]
    refine dropWhile_run (fun ch hch => bne_iff_ne.mpr ?_) (by decide)
    rcases List.mem_append.mp hch with hfront | hword
    · simp only [List.mem_append, List.mem_singleton] at hfront
      rcases hfront with (hdigit | rfl) | rfl
      · exact (isdigit_ne (isdigit_number ch (List.mem_append.mpr hdigit))).2.2.1
      · decide
      · decide
    · exact (words_range hword).1
  rw [textColumn, hquote, List.drop_one, List.tail_cons]

/-- All columns of a row are right but for the text column. -/
theorem faithfulRow_layout :
    FaithfulRow offset bytes (layout zeros gap offset bytes text) ↔ text = bytes.map shown := by
  constructor
  · intro hfaithful
    exact List.append_cancel_right (textColumn_layout.symm.trans hfaithful.text)
  · intro heq
    refine ⟨⟨zeros, offsetColumn_layout⟩, ?_, ?_,
      textColumn_layout.trans (congrArg (· ++ [chr '"']) heq)⟩
    · rw [hexColumn_layout]
      intro word hword
      obtain ⟨byte, -, rfl⟩ := List.mem_map.mp hword
      exact ⟨rfl, isxdigit_putHex byte⟩
    · rw [hexColumn_layout, List.map_map]
      exact List.map_congr_left fun byte _ => hexadecimalValue_putHex byte

theorem newline_notMem_layout (htext : chr '\n' ∉ text) :
    chr '\n' ∉ layout zeros gap offset bytes text := by
  intro hmem
  rcases List.mem_append.mp hmem with hdigit | hrest
  · exact (isdigit_ne (isdigit_number _ hdigit)).2.2.2 rfl
  · have hblank : chr '\n' ≠ chr ' ' := by decide
    have hbar : chr '\n' ≠ chr '|' := by decide
    have hquote : chr '\n' ≠ chr '"' := by decide
    simp only [List.mem_cons, hblank, hbar, false_or] at hrest
    rcases List.mem_append.mp hrest with hword | htail
    · exact (words_range hword).2 rfl
    · simp only [List.mem_cons, List.mem_append, List.not_mem_nil, hquote, false_or,
        or_false] at htail
      exact htext htail

end Layout

theorem newline_notMem_putChar (charT : CharT) (ch : UInt8) : chr '\n' ∉ putChar charT ch := by
  cases charT with
  | char =>
    refine octet_forall (P := fun ch => chr '\n' ∉ putChar .char ch) ?_ ch
    decide +kernel
  | other => exact fun hmem => (isdigit_ne (isdigit_repr _ _ hmem)).2.2.2 rfl

theorem splitOn_rows {rows : List (List UInt8)} (hrows : ∀ row ∈ rows, chr '\n' ∉ row) :
    (rows.flatMap fun row => row ++ [chr '\n']).splitOn (chr '\n') = rows ++ [[]] := by
  induction rows with
  | nil => rfl
  | cons row rows ih =>
    obtain ⟨hrow, hrest⟩ := List.forall_mem_cons.mp hrows
    rw [List.flatMap_cons, List.append_assoc, List.singleton_append,
      List.splitOn_append_cons_self_of_not_mem hrow, ih hrest, List.cons_append]

end Columns

end Hexdump

end Acqua
