import Acqua.Iostreams.IstreamReads

/-! What `basic_istream_locale_codecvt` makes of a text through its buffer, of a text of one line
above all. -/

namespace Acqua

namespace IstreamLocaleCodecvt

variable {fromUtf : List UInt8 → Option (List UInt8)} {area : Nat → UInt8}
  {s s' : IstreamLocaleCodecvt} {text line out : List UInt8}

theorem content_of_read_nil (h : read fromUtf bufferSize area s = some ([], s')) :
    content fromUtf area s = ([], false) := by
  rw [content]
  split
  next hnone => exact absurd (hnone.symm.trans h).symm (Option.some_ne_none _)
  next => rfl
  next hsome =>
    exact absurd (Prod.mk.inj (Option.some.inj (hsome.symm.trans h))).1 (List.cons_ne_nil _ _)

theorem content_of_read (h : read fromUtf bufferSize area s = some (out, s')) (hout : out ≠ []) :
    content fromUtf area s =
      (out ++ (content fromUtf (overwrite area out) s').1,
        (content fromUtf (overwrite area out) s').2) := by
  rw [content]
  split
  next hnone => exact absurd (hnone.symm.trans h).symm (Option.some_ne_none _)
  next hnil => exact absurd (Prod.mk.inj (Option.some.inj (hnil.symm.trans h))).1.symm hout
  next hsome =>
    obtain ⟨rfl, rfl⟩ := Prod.mk.inj (Option.some.inj (hsome.symm.trans h))
    rfl

section Octets

variable {P : UInt8 → Prop}

/-- Every octet that a reader still has is of one kind. -/
structure Holds (P : UInt8 → Prop) (s : IstreamLocaleCodecvt) : Prop where
  text : ∀ ch ∈ s.text, P ch
  line : ∀ ch ∈ s.line, P ch

theorem mem_getline {l rest : List UInt8} (h : getline text = some (l, rest)) :
    (∀ ch ∈ trimCrln l, ch ∈ text) ∧ ∀ ch ∈ rest, ch ∈ text := by
  unfold getline at h
  split_ifs at h
  obtain ⟨rfl, rfl⟩ := Prod.mk.inj (Option.some.inj h)
  constructor
  · intro ch hch
    exact (List.takeWhile_sublist _).subset ((List.rdropWhile_prefix _ _).subset hch)
  · intro ch hch
    exact (List.dropWhile_sublist _).subset (List.mem_of_mem_tail hch)

theorem forall_append_lf (hlf : P (chr '\n')) (hline : ∀ ch ∈ line, P ch) (c : Prop)
    [Decidable c] : ∀ ch ∈ if c then line ++ [chr '\n'] else line, P ch := by
  split_ifs
  · exact List.forall_mem_append.mpr ⟨hline, by simpa using hlf⟩
  · exact hline

variable (hlf : P (chr '\n'))
  (hfrom : ∀ text out, (∀ ch ∈ text, P ch) → fromUtf text = some out → ∀ ch ∈ out, P ch)
include hlf hfrom

theorem copy_holds {i : Nat} (hs : Holds P ⟨text, line⟩)
    (h : copy fromUtf text line i = some (out, s)) : (∀ ch ∈ out, P ch) ∧ Holds P s := by
  induction hn : text.length using Nat.strong_induction_on generalizing text line i out with
  | _ n ih =>
    subst hn
    rw [copy] at h
    split_ifs at h with hi
    · obtain ⟨rfl, rfl⟩ := Prod.mk.inj (Option.some.inj h)
      exact ⟨by simp, hs⟩
    · split at h
      next =>
        obtain ⟨rfl, rfl⟩ := Prod.mk.inj (Option.some.inj h)
        exact ⟨by simp, hs⟩
      next l rest hline =>
        obtain ⟨hl, hrest⟩ := mem_getline hline
        dsimp only at h
        split at h
        next => exact absurd h (Option.some_ne_none _).symm
        next out' line' hcopied =>
          obtain ⟨hout, hleft⟩ : (∀ ch ∈ out', P ch) ∧ ∀ ch ∈ line', P ch := by
            split_ifs at hcopied
            · obtain ⟨rfl, rfl⟩ := Prod.mk.inj (Option.some.inj hcopied)
              exact ⟨by simp, hs.line⟩
            · obtain ⟨str, hstr, heq⟩ := Option.map_eq_some_iff.mp hcopied
              obtain ⟨rfl, rfl⟩ := Prod.mk.inj heq
              have hall : ∀ ch ∈ line ++ str, P ch := List.forall_mem_append.mpr
                ⟨hs.line, hfrom _ _ (fun ch hch => hs.text ch (hl ch hch)) hstr⟩
              exact ⟨fun ch hch => hall ch (List.mem_of_mem_take hch),
                fun ch hch => hall ch (List.mem_of_mem_drop hch)⟩
          obtain ⟨r, hr, heq⟩ := Option.map_eq_some_iff.mp h
          obtain ⟨rfl, rfl⟩ := Prod.mk.inj heq
          obtain ⟨hout', hs'⟩ := ih rest.length (length_getline_lt hline)
            ⟨fun ch hch => hs.text ch (hrest ch hch), forall_append_lf hlf hleft _⟩ hr rfl
          exact ⟨List.forall_mem_append.mpr ⟨hout, hout'⟩, hs'⟩

theorem read_holds {n : Nat} (harea : ∀ i, P (area i)) (hs : Holds P s)
    (h : read fromUtf n area s = some (out, s')) : (∀ ch ∈ out, P ch) ∧ Holds P s' := by
  unfold read at h
  split_ifs at h
  · obtain ⟨r, hr, heq⟩ := Option.map_eq_some_iff.mp h
    obtain ⟨rfl, rfl⟩ := Prod.mk.inj heq
    have hleft : ∀ ch ∈ s.line.drop (min s.line.length n), P ch :=
      fun ch hch => hs.line ch (List.mem_of_mem_drop hch)
    have hrest : Holds P ⟨s.text, if 0 < n - min s.line.length n then
        s.line.drop (min s.line.length n) ++ [chr '\n']
        else s.line.drop (min s.line.length n)⟩ := ⟨hs.text, forall_append_lf hlf hleft _⟩
    obtain ⟨hout, hs'⟩ := copy_holds hlf hfrom hrest hr
    refine ⟨List.forall_mem_append.mpr ⟨fun ch hch => ?_, hout⟩, hs'⟩
    obtain ⟨i, -, rfl⟩ := List.mem_map.mp hch
    exact harea i
  · exact copy_holds hlf hfrom hs h

/-- What is read is of the kind of the text and of what the buffer held before. -/
theorem content_holds (harea : ∀ i, P (area i)) (hs : Holds P s) :
    ∀ ch ∈ (content fromUtf area s).1, P ch := by
  induction area, s using content.induct fromUtf with
  | case1 area s hnone =>
    rw [content]
    split <;> simp_all
  | case2 area s s' hnil =>
    rw [content_of_read_nil hnil]
    simp
  | case3 area s ch out s' hread ih =>
    obtain ⟨hout, hs'⟩ := read_holds hlf hfrom harea hs hread
    have harea' : ∀ i, P (overwrite area (ch :: out) i) := by
      intro i
      rw [overwrite, List.getD_eq_getElem?_getD]
      cases hget : (ch :: out)[i]? with
      | none => exact harea i
      | some c => exact hout c (List.mem_of_getElem? hget)
    rw [content_of_read hread (List.cons_ne_nil _ _)]
    exact List.forall_mem_append.mpr ⟨hout, ih harea' hs'⟩

end Octets

section Line

/-- A text that fits the buffer, or that shows in every further buffer what the first one held and
does not leave one octet for the last. -/
def FitsBuffer (text : List UInt8) : Prop :=
  text.length ≤ bufferSize ∨
    text.length % bufferSize ≠ 1 ∧ ∀ i < text.length, text[i]? = text[i % bufferSize]?

theorem overwrite_range (area : Nat → UInt8) (width : Nat) :
    overwrite area ((List.range width).map area) = area := by
  funext i
  rw [overwrite, List.getD_eq_getElem?_getD, List.getElem?_map]
  by_cases hi : i < width
  · rw [List.getElem?_range hi]
    rfl
  · rw [List.getElem?_eq_none (by simpa using hi)]
    rfl

/-- How much is read of what is left of a line: one octet is not. -/
def leftSize (n : Nat) : Nat := if n % bufferSize = 1 then n - 1 else n

theorem leftSize_add (n : Nat) : leftSize (bufferSize + n) = bufferSize + leftSize n := by
  rw [leftSize, leftSize, Nat.add_mod_left]
  split_ifs with hone
  · have hle := Nat.mod_le n bufferSize
    omega
  · rfl

theorem content_left (fromUtf : List UInt8 → Option (List UInt8)) (area : Nat → UInt8)
    (line : List UInt8) :
    content fromUtf area ⟨[], line⟩ =
      ((List.range (leftSize line.length)).map fun i => area (i % bufferSize), false) := by
  induction hn : line.length using Nat.strong_induction_on generalizing line with
  | _ n ih =>
    subst hn
    by_cases hline : 1 < line.length
    · have hread : ∀ width left, width = min line.length bufferSize →
          left = (if 0 < bufferSize - width then line.drop width ++ [chr '\n']
            else line.drop width) →
          read fromUtf bufferSize area ⟨[], line⟩ =
            some ((List.range width).map area, ⟨[], left⟩) := by
        rintro width left rfl rfl
        rw [read, if_pos hline]
        dsimp only
        rw [copy_nil, Option.map_some, List.append_nil]
      by_cases hroom : line.length < bufferSize
      · have hshort : ∀ i ∈ List.range line.length, area i = area (i % bufferSize) := by
          intro i hi
          rw [Nat.mod_eq_of_lt ((List.mem_range.mp hi).trans hroom)]
        have hsize : leftSize line.length = line.length := by
          rw [leftSize, Nat.mod_eq_of_lt hroom, if_neg (by omega)]
        have hleft := hread line.length [chr '\n'] (by omega)
          (by rw [if_pos (by omega), List.drop_length, List.nil_append])
        have hend : content fromUtf area ⟨[], [chr '\n']⟩ = ([], false) :=
          content_of_read_nil (by rw [read_of_short (by simp), copy_nil])
        rw [content_of_read hleft (by simpa using hline.ne_bot), overwrite_range, hend, hsize,
          List.append_nil, List.map_congr_left hshort]
      · have hleft := hread bufferSize (line.drop bufferSize) (by omega)
          (by rw [if_neg (by omega)])
        have hlt : (line.drop bufferSize).length < line.length := by
          rw [List.length_drop]
          simp only [bufferSize]
          omega
        have hsplit : line.length = bufferSize + (line.drop bufferSize).length := by
          rw [List.length_drop]
          omega
        have hfirst : ∀ i ∈ List.range bufferSize, area i = area (i % bufferSize) := by
          intro i hi
          rw [Nat.mod_eq_of_lt (List.mem_range.mp hi)]
        rw [content_of_read hleft (by simp [bufferSize]), overwrite_range, ih _ hlt _ rfl,
          hsplit, leftSize_add, List.range_add, List.map_append, List.map_map,
          List.map_congr_left hfirst]
        simp [Function.comp_def]
    · have hsize : leftSize line.length = 0 := by
        rw [leftSize, Nat.mod_eq_of_lt (by simp only [bufferSize]; omega)]
        split_ifs <;> omega
      rw [content_of_read_nil (by rw [read_of_short hline, copy_nil]), hsize]
      rfl

theorem trimCrln_nil : trimCrln [] = [] := rfl

theorem getline_of_line (hne : text ≠ []) (hline : chr '\n' ∉ text) :
    getline text = some (text, []) := by
  have hmem : ∀ ch ∈ text, decide (ch ≠ chr '\n') = true := by
    intro ch hch
    exact decide_eq_true fun heq => hline (heq ▸ hch)
  rw [getline_of_ne_nil hne, List.takeWhile_eq_self_iff.mpr hmem,
    List.dropWhile_eq_nil_iff.mpr hmem]
  rfl

theorem copy_of_line (hgetline : getline text = some (text, [])) (htrim : trimCrln text ≠ [])
    (hout : fromUtf (trimCrln text) = some out) :
    ∃ left, copy fromUtf text [] bufferSize = some (out.take bufferSize, ⟨[], left⟩) ∧
      leftSize left.length = leftSize (out.length - bufferSize) := by
  have hsize : bufferSize ≠ 0 := by decide
  rw [copy, if_neg hsize]
  split
  next hnone => exact absurd (hnone.symm.trans hgetline).symm (Option.some_ne_none _)
  next l rest hsome =>
    obtain ⟨rfl, rfl⟩ := Prod.mk.inj (Option.some.inj (hsome.symm.trans hgetline))
    rw [if_neg htrim, hout]
    simp only [Option.map_some, List.nil_append, copy_nil, List.append_nil]
    refine ⟨_, rfl, ?_⟩
    rw [List.length_take]
    split_ifs with hroom
    · rw [List.drop_eq_nil_of_le (by omega), Nat.sub_eq_zero_of_le (by omega)]
      rfl
    · rw [List.length_drop]

variable (area) in
/-- A line is converted as a whole. Behind the first buffer it is no longer copied. -/
theorem content_of_line (hgetline : getline text = some (text, [])) (htrim : trimCrln text ≠ [])
    (hout : fromUtf (trimCrln text) = some out) (hne : out ≠ []) :
    content fromUtf area ⟨text, []⟩ = (out.take bufferSize ++
      (List.range (leftSize (out.length - bufferSize))).map fun i =>
        overwrite area (out.take bufferSize) (i % bufferSize), false) := by
  obtain ⟨left, hcopy, hsize⟩ := copy_of_line hgetline htrim hout
  have hread : read fromUtf bufferSize area ⟨text, []⟩ =
      some (out.take bufferSize, ⟨[], left⟩) := by
    rw [read_of_short (by simp), hcopy]
  have htake : out.take bufferSize ≠ [] := by
    simpa [List.take_eq_nil_iff, bufferSize] using hne
  rw [content_of_read hread htake, content_left, hsize]

theorem content_of_blank (hgetline : getline text = some (text, [])) (htrim : trimCrln text = []) :
    content fromUtf area ⟨text, []⟩ = ([], false) := by
  have hsize : bufferSize ≠ 0 := by decide
  have hcopy : copy fromUtf text [] bufferSize = some ([], ⟨[], [chr '\n']⟩) := by
    rw [copy, if_neg hsize]
    split
    next hnone => exact absurd (hnone.symm.trans hgetline).symm (Option.some_ne_none _)
    next l rest hsome =>
      obtain ⟨rfl, rfl⟩ := Prod.mk.inj (Option.some.inj (hsome.symm.trans hgetline))
      rw [if_pos htrim]
      simp [bufferSize]
  exact content_of_read_nil (by rw [read_of_short (by simp), hcopy])

theorem leftSize_le (n : Nat) : leftSize n ≤ n := by
  rw [leftSize]
  split_ifs
  · exact Nat.sub_le n 1
  · exact le_rfl

theorem leftSize_eq_iff (n : Nat) (hn : 0 < n) : leftSize n = n ↔ n % bufferSize ≠ 1 := by
  rw [leftSize]
  split_ifs with hone
  · exact iff_of_false (by omega) (not_not_intro hone)
  · exact iff_of_true rfl hone

/-- What is read behind the first buffer is what a text has there. -/
theorem reread_eq_drop_iff (area : Nat → UInt8) (hlong : bufferSize < text.length) :
    ((List.range (leftSize (text.length - bufferSize))).map fun i =>
        overwrite area (text.take bufferSize) (i % bufferSize)) = text.drop bufferSize ↔
      FitsBuffer text := by
  have hpos : 0 < bufferSize := by decide
  have harea : ∀ i, some (overwrite area (text.take bufferSize) (i % bufferSize)) =
      text[i % bufferSize]? := by
    intro i
    have hlt := Nat.mod_lt i hpos
    have hget : (text.take bufferSize)[i % bufferSize]? = text[i % bufferSize]? :=
      List.getElem?_take_of_lt hlt
    rw [overwrite, List.getD_eq_getElem?_getD, hget, List.getElem?_eq_getElem (hlt.trans hlong)]
    rfl
  have hmod : text.length % bufferSize = (text.length - bufferSize) % bufferSize := by
    rw [← Nat.add_mod_left bufferSize (text.length - bufferSize), Nat.add_sub_of_le hlong.le]
  have hread : ∀ j < leftSize (text.length - bufferSize),
      ((List.range (leftSize (text.length - bufferSize))).map fun i =>
        overwrite area (text.take bufferSize) (i % bufferSize))[j]? =
          text[(bufferSize + j) % bufferSize]? := by
    intro j hj
    rw [List.getElem?_map, List.getElem?_range hj, Option.map_some, harea, Nat.add_mod_left]
  have hsize := leftSize_eq_iff (text.length - bufferSize) (by omega)
  rw [FitsBuffer, or_iff_right (by omega), hmod, ← hsize]
  constructor
  · intro heq
    have hlength := congrArg List.length heq
    rw [List.length_map, List.length_range, List.length_drop] at hlength
    refine ⟨hlength, fun i hi => ?_⟩
    by_cases hfirst : i < bufferSize
    · rw [Nat.mod_eq_of_lt hfirst]
    · obtain ⟨j, rfl⟩ := Nat.exists_eq_add_of_le (not_lt.mp hfirst)
      rw [← hread j (by omega), heq, List.getElem?_drop]
  · rintro ⟨hlength, hrepeat⟩
    refine List.ext_getElem? fun j => ?_
    by_cases hj : j < text.length - bufferSize
    · rw [hread j (by omega), ← hrepeat _ (by omega), List.getElem?_drop]
    · rw [List.getElem?_eq_none (by simp; omega), List.getElem?_eq_none (by simp; omega)]

theorem take_append_eq_iff {n : Nat} {rest : List UInt8} :
    text.take n ++ rest = text ↔ rest = text.drop n := by
  constructor
  · intro h
    rw [← List.append_right_inj (text.take n), h, List.take_append_drop]
  · rintro rfl
    exact List.take_append_drop n text

theorem content_of_nil : content fromUtf area ⟨[], []⟩ = ([], false) :=
  content_of_read_nil (by rw [read_of_short (by simp), copy_nil])

theorem content_of_line_snd (hline : chr '\n' ∉ text)
    (hfrom : fromUtf (trimCrln text) = some (trimCrln text)) :
    (content fromUtf area ⟨text, []⟩).2 = false := by
  by_cases hne : text = []
  · rw [hne, content_of_nil]
  have hgetline := getline_of_line hne hline
  by_cases htrim : trimCrln text = []
  · rw [content_of_blank hgetline htrim]
  · rw [content_of_line area hgetline htrim hfrom htrim]

/-- A line comes out of the buffer as it is exactly when nothing is trimmed off it and it fits. -/
theorem content_eq_iff (hline : chr '\n' ∉ text)
    (hfrom : fromUtf (trimCrln text) = some (trimCrln text)) :
    (content fromUtf area ⟨text, []⟩).1 = text ↔ trimCrln text = text ∧ FitsBuffer text := by
  by_cases hne : text = []
  · rw [hne, content_of_nil]
    exact iff_of_true rfl ⟨trimCrln_nil, Or.inl (Nat.zero_le _)⟩
  have hgetline := getline_of_line hne hline
  by_cases htrim : trimCrln text = []
  · rw [content_of_blank hgetline htrim, htrim]
    exact iff_of_false (Ne.symm hne) fun h => hne h.1.symm
  rw [content_of_line area hgetline htrim hfrom htrim]
  have hprefix : trimCrln text <+: text := List.rdropWhile_prefix _ _
  have hfits : trimCrln text = text → ((trimCrln text).take bufferSize ++
      (List.range (leftSize ((trimCrln text).length - bufferSize))).map (fun i =>
        overwrite area ((trimCrln text).take bufferSize) (i % bufferSize)) = text ↔
          FitsBuffer text) := by
    intro heq
    rw [heq]
    by_cases hlong : bufferSize < text.length
    · rw [take_append_eq_iff, reread_eq_drop_iff area hlong]
    · rw [List.take_of_length_le (not_lt.mp hlong), Nat.sub_eq_zero_of_le (not_lt.mp hlong)]
      exact iff_of_true (List.append_nil _) (Or.inl (not_lt.mp hlong))
  constructor
  · intro h
    have hlength := congrArg List.length h
    have hle := leftSize_le ((trimCrln text).length - bufferSize)
    rw [List.length_append, List.length_take, List.length_map, List.length_range] at hlength
    have heq := hprefix.eq_of_length (le_antisymm hprefix.length_le (by omega))
    exact ⟨heq, (hfits heq).mp h⟩
  · rintro ⟨heq, h⟩
    exact (hfits heq).mpr h

/-- Nothing of what the buffer held before is read where the text is one line. -/
theorem mem_content_of_line (hline : chr '\n' ∉ text)
    (hfrom : fromUtf (trimCrln text) = some (trimCrln text)) {ch : UInt8}
    (hmem : ch ∈ (content fromUtf area ⟨text, []⟩).1) : ch ∈ text := by
  by_cases hne : text = []
  · rw [hne, content_of_nil] at hmem
    exact absurd hmem List.not_mem_nil
  have hgetline := getline_of_line hne hline
  by_cases htrim : trimCrln text = []
  · rw [content_of_blank hgetline htrim] at hmem
    exact absurd hmem List.not_mem_nil
  rw [content_of_line area hgetline htrim hfrom htrim, List.mem_append] at hmem
  have htext : trimCrln text <+: text := List.rdropWhile_prefix _ text
  refine htext.subset ?_
  rcases hmem with hfirst | hagain
  · exact List.mem_of_mem_take hfirst
  · obtain ⟨i, hi, rfl⟩ := List.mem_map.mp hagain
    have hle := leftSize_le ((trimCrln text).length - bufferSize)
    have hlong := List.mem_range.mp hi
    have hlt : i % bufferSize < ((trimCrln text).take bufferSize).length := by
      rw [List.length_take, Nat.min_eq_left (by omega)]
      exact Nat.mod_lt i (by decide)
    rw [overwrite, List.getD_eq_getElem _ _ hlt]
    exact List.mem_of_mem_take (List.getElem_mem hlt)

end Line

end IstreamLocaleCodecvt

end Acqua
