import Acqua.Utility.HexdumpColumns

/-! When a hex dump shows what it is a dump of. -/

namespace Acqua

namespace Hexdump

open Dump

variable {h : Hexdump} {mem : Int → UInt8}

section Text

theorem two_le_length_repr (ch : UInt8) :
    2 ≤ (octets (Nat.repr (shown ch).toNat)).length := by
  have hlarge : 10 ≤ (shown ch).toNat := by
    refine octet_forall (P := fun ch => 10 ≤ (shown ch).toNat) ?_ ch
    decide +kernel
  by_contra hshort
  have := (length_repr_le Nat.one_pos).mp (Nat.le_of_lt_succ (not_le.mp hshort))
  omega

/-- The only number of two digits that begins with the character it is the number of. -/
theorem repr_shown_iff (a b : UInt8) :
    octets (Nat.repr (shown a).toNat) = [shown a, shown b] ↔ [a, b] = octets "53" := by
  have hfirst : ∀ n < 256, octets (Nat.repr (shown (UInt8.ofNat n)).toNat) =
      shown (UInt8.ofNat n) :: (octets (Nat.repr (shown (UInt8.ofNat n)).toNat)).drop 1 →
      (octets (Nat.repr (shown (UInt8.ofNat n)).toNat)).length = 2 → n = 53 := by
    decide +kernel
  have hsecond : ∀ n < 256, shown (UInt8.ofNat n) = chr '3' → n = 51 := by decide +kernel
  constructor
  · intro heq
    have ha : a = UInt8.ofNat 53 := by
      have hnat := hfirst a.toNat a.toNat_lt
      rw [UInt8.ofNat_toNat, heq] at hnat
      rw [← hnat rfl rfl, UInt8.ofNat_toNat]
    subst ha
    have hb : shown b = chr '3' := by
      have htail := congrArg (fun l => l.drop 1) heq
      exact (List.cons.inj htail).1.symm
    have hnat := hsecond b.toNat b.toNat_lt
    rw [UInt8.ofNat_toNat] at hnat
    rw [← UInt8.ofNat_toNat (x := b), hnat hb]
    rfl
  · intro heq
    obtain ⟨rfl, htail⟩ := List.cons.inj heq
    obtain ⟨rfl, -⟩ := List.cons.inj htail
    decide

/-- The text of a line lacks a byte, unless numbers of two digits make up for it. -/
theorem text_right_iff {charT : CharT} {bytes : List UInt8} (hne : bytes ≠ []) :
    bytes.dropLast.flatMap (putChar charT) = bytes.map shown ↔
      charT = .other ∧ bytes = octets "53" := by
  have hpos : 0 < bytes.length := List.length_pos_iff.mpr hne
  cases charT with
  | char =>
    refine ⟨fun heq => ?_, fun hother => absurd hother.1 (by decide)⟩
    have hlength := congrArg List.length heq
    simp [List.length_flatMap, putChar] at hlength
    omega
  | other =>
    match bytes with
    | [a] => simp [octets]
    | [a, b] =>
      simp only [List.dropLast_cons_cons, List.dropLast_singleton, List.flatMap_singleton, putChar,
        List.map_cons, List.map_nil, true_and]
      exact repr_shown_iff a b
    | a :: b :: c :: rest =>
      refine ⟨fun heq => ?_, fun hother => absurd hother.2 (by simp [octets])⟩
      have hlength := congrArg List.length heq
      have hlong : ∀ bytes : List UInt8,
          2 * bytes.length ≤ (bytes.flatMap (putChar .other)).length := by
        intro bytes
        induction bytes with
        | nil => simp
        | cons ch bytes ih =>
          have hch : 2 ≤ (putChar .other ch).length := two_le_length_repr ch
          rw [List.flatMap_cons, List.length_append, List.length_cons]
          omega
      have hdrop := hlong (a :: b :: c :: rest).dropLast
      rw [hlength, List.length_dropLast, List.length_map] at hdrop
      simp at hdrop
      omega

end Text

section Faithful

theorem newline_notMem_row (carry : Int) (offset : Nat) (bytes : List UInt8) :
    chr '\n' ∉ h.row carry offset bytes := by
  obtain ⟨zeros, gap, hrow⟩ := row_eq h carry offset bytes
  rw [hrow]
  refine newline_notMem_layout fun hmem => ?_
  obtain ⟨ch, -, hch⟩ := List.mem_flatMap.mp hmem
  exact newline_notMem_putChar _ ch hch

theorem length_lineBytes (n i : Nat) : (h.lineBytes mem n i).length = h.lineLength n i := by
  rw [lineBytes, List.length_map, List.length_range']

/-- A dump of some bytes is right where the texts of its lines are. -/
theorem faithful_iff_texts (hcanon : h.canonical = true) (hL : 0 < h.length) {n : Nat}
    (hn : 0 < n) (carry : Int) :
    Faithful h mem n (h.puts mem n carry) ↔ ∀ i < h.lineCount n,
      (h.lineBytes mem n i).dropLast.flatMap (putChar h.charT) =
        (h.lineBytes mem n i).map shown := by
  have hlines : ∀ i ∈ List.range (h.lineCount n), (h.line mem n carry i).text =
      h.row carry (i * h.length) (h.lineBytes mem n i) ++ [chr '\n'] ∧
      ∀ p ∈ (h.line mem n carry i).reads, 0 ≤ p ∧ p < n := by
    intro i hi
    exact line_eq hcanon hL ((lt_lineCount hL hn).mp (List.mem_range.mp hi)) carry
  have hsplit : (h.puts mem n carry).text.splitOn (chr '\n') =
      (List.range (h.lineCount n)).map (fun i => h.row carry (i * h.length)
        (h.lineBytes mem n i)) ++ [[]] := by
    have htext : (h.puts mem n carry).text = ((List.range (h.lineCount n)).map fun i =>
        h.row carry (i * h.length) (h.lineBytes mem n i)).flatMap fun row => row ++ [chr '\n'] := by
      rw [puts_eq_concat hL hn, concat]
      simp only [List.flatMap_map]
      exact List.flatMap_congr fun i hi => (hlines i hi).1
    rw [htext, splitOn_rows]
    intro row hrow
    obtain ⟨i, -, rfl⟩ := List.mem_map.mp hrow
    exact newline_notMem_row carry _ _
  have hinside : ∀ p ∈ (h.puts mem n carry).reads, 0 ≤ p ∧ p < n := by
    rw [puts_eq_concat hL hn]
    intro p hp
    obtain ⟨dump, hdump, hp⟩ := List.mem_flatMap.mp hp
    obtain ⟨i, hi, rfl⟩ := List.mem_map.mp hdump
    exact (hlines i hi).2 p hp
  have hrow : ∀ i, FaithfulRow (i * h.length) (h.lineBytes mem n i)
      (h.row carry (i * h.length) (h.lineBytes mem n i)) ↔
      (h.lineBytes mem n i).dropLast.flatMap (putChar h.charT) =
        (h.lineBytes mem n i).map shown := by
    intro i
    obtain ⟨zeros, gap, heq⟩ := row_eq h carry (i * h.length) (h.lineBytes mem n i)
    rw [heq, faithfulRow_layout]
  constructor
  · intro hfaithful i hi
    obtain ⟨rows, hrows, -, hright⟩ := hfaithful.rows
    have heq := List.append_cancel_right (hrows.symm.trans hsplit)
    exact (hrow i).mp (hright i _ (by rw [heq]; simp [hi]))
  · intro hright
    refine ⟨hinside, _, hsplit, by simp, ?_⟩
    intro i row hi
    obtain ⟨hlt, rfl⟩ : i < h.lineCount n ∧
        h.row carry (i * h.length) (h.lineBytes mem n i) = row := by
      simpa [List.getElem?_eq_some_iff] using hi
    exact (hrow i).mpr (hright i hlt)

/-- A dump of nothing steps back a whole line before it writes the text. -/
theorem faithful_empty_iff (hcanon : h.canonical = true) (hL : 0 < h.length) (carry : Int) :
    Faithful h mem 0 (h.puts mem 0 carry) ↔ h.length = 1 := by
  have hputs : h.puts mem 0 carry = write (putLinum 0 carry) ++ write [] ++
      (write (octets " \"") ++ h.canonLoop mem h.length (0 - h.length) ++ write (octets "\"")) ++
      write (octets "\n") := by
    simp only [puts, putCanon, if_pos hcanon, Nat.zero_mod, Nat.lt_irrefl, if_false]
    rfl
  constructor
  · intro hfaithful
    by_contra hone
    obtain ⟨k, hk⟩ : ∃ k, h.length = k + 2 := ⟨h.length - 2, by omega⟩
    have hread : (0 - ((k + 2 : Nat) : Int)) ∈ (h.puts mem 0 carry).reads := by
      rw [hputs, hk]
      simp [canonLoop]
    have := (hfaithful.inside _ hread).1
    omega
  · intro hone
    obtain ⟨zeros, hnumber⟩ := putLinum_eq 0 carry
    have htext : (h.puts mem 0 carry).text =
        ([layout zeros 2 0 [] []].flatMap fun row => row ++ [chr '\n']) := by
      rw [hputs, hone, ← write_putLinum, hnumber]
      simp [canonLoop, layout, octets]
    refine ⟨?_, [layout zeros 2 0 [] []], ?_, ?_, ?_⟩
    · rw [hputs, hone]
      simp [canonLoop]
    · rw [htext, splitOn_rows]
      intro row hrow
      rw [List.mem_singleton.mp hrow]
      exact newline_notMem_layout (by simp)
    · simp [lineCount]
    · intro i row hi
      obtain ⟨rfl, rfl⟩ : i = 0 ∧ layout zeros 2 0 [] [] = row := by
        simpa [List.getElem?_singleton] using hi
      have hbytes : h.lineBytes mem 0 0 = [] := by
        rw [← List.length_eq_zero_iff, length_lineBytes, lineLength, Nat.zero_sub, Nat.min_zero]
      rw [hbytes, Nat.zero_mul]
      exact faithfulRow_layout.mpr rfl

/-- A dump is faithful for nothing in lines of one byte. Otherwise the numbers that are written
for another element type than `char` must be what two characters look like, in every line. -/
theorem hexdump_faithful_iff (h : Hexdump) (mem : Int → UInt8) (n : Nat) (carry : Int)
    (hcanon : h.canonical = true) (hL : 1 ≤ h.length) :
    Faithful h mem n (h.puts mem n carry) ↔
      (n = 0 ∧ h.length = 1) ∨ (0 < n ∧ h.charT = .other ∧
        ∀ i < h.lineCount n, h.lineBytes mem n i = octets "53") := by
  rcases Nat.eq_zero_or_pos n with rfl | hn
  · rw [faithful_empty_iff hcanon hL]
    simp
  · have hne : ∀ i < h.lineCount n, h.lineBytes mem n i ≠ [] := by
      intro i hi
      obtain ⟨len, hlen, -⟩ := lineLength_pos hL ((lt_lineCount hL hn).mp hi)
      rw [← List.length_pos_iff, length_lineBytes, hlen]
      exact Nat.succ_pos len
    rw [faithful_iff_texts hcanon hL hn]
    constructor
    · intro htexts
      refine .inr ⟨hn, ?_, fun i hi => ((text_right_iff (hne i hi)).mp (htexts i hi)).2⟩
      exact ((text_right_iff (hne 0 (Nat.succ_pos _))).mp (htexts 0 (Nat.succ_pos _))).1
    · rintro (⟨hzero, -⟩ | ⟨-, hother, hbytes⟩)
      · exact absurd hzero hn.ne'
      · exact fun i hi => (text_right_iff (hne i hi)).mpr ⟨hother, hbytes i hi⟩

theorem hexdump_faithful_iff_of_two_bytes :
    Faithful ⟨.other, true, 16⟩ (fun p => if p = 0 then 0x35 else 0x33) 2
      (puts ⟨.other, true, 16⟩ (fun p => if p = 0 then 0x35 else 0x33) 2 1) ∧
    ¬ Faithful ⟨.char, true, 16⟩ (fun p => if p = 0 then 0x35 else 0x33) 2
      (puts ⟨.char, true, 16⟩ (fun p => if p = 0 then 0x35 else 0x33) 2 1) := by
  constructor
  · refine (hexdump_faithful_iff _ _ 2 1 rfl (by decide)).mpr (.inr ⟨by decide, rfl, ?_⟩)
    decide
  · refine fun hfaithful => absurd ((hexdump_faithful_iff _ _ 2 1 rfl (by decide)).mp hfaithful) ?_
    simp

/-- One character in lines of sixteen: nothing stands between the quotation marks. -/
theorem not_faithful_of_one_byte :
    ((⟨.char, true, 16⟩ : Hexdump).puts (fun _ => chr 'A') 1 1).text =
      octets ("00 | 41" ++ String.ofList (List.replicate 45 ' ') ++ " \"\"\n") ∧
    ¬ ∀ (h : Hexdump) (mem : Int → UInt8) (n : Nat) (carry : Int), h.canonical = true →
      1 ≤ h.length → Faithful h mem n (h.puts mem n carry) := by
  refine ⟨by decide, fun hall => ?_⟩
  have hfaithful := hall ⟨.char, true, 16⟩ (fun _ => chr 'A') 1 1 rfl (by decide)
  have htext := (faithful_iff_texts rfl (by decide) (by decide) 1).mp hfaithful 0 (by decide)
  exact absurd htext (by decide)

end Faithful

end Hexdump

end Acqua
