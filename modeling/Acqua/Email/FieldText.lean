import Acqua.Email.GeneratorText
import Acqua.Email.HeaderBlock
import Acqua.Email.Multipart
import Acqua.Email.ParamRoundTrip

/-! The header fields that the encoder writes, as a block that the header parser reads. -/

namespace Acqua

namespace Email

/-- Each line break and the blanks after it as one blank, which is how the header parser unfolds. -/
def oneBlank (_ : List UInt8) : List UInt8 := [chr ' ']

theorem Unfolds.exists_lines {text out : List UInt8} (h : Unfolds oneBlank text out) :
    ∃ first conts, text = foldedText first conts ∧ out = blankFolds first conts ∧ Clean first ∧
      (∀ cont ∈ conts, HeaderParser.Continues cont) ∧
        ∀ cont ∈ conts, Clean (cont.1 ++ cont.2) := by
  induction h with
  | nil => exact ⟨[], [], rfl, rfl, by simp [Clean], by simp, by simp⟩
  | @clean s text out hs _ ih =>
    obtain ⟨first, conts, rfl, rfl, hclean, hconts, hcleanConts⟩ := ih
    exact ⟨s ++ first, conts, by simp [foldedText], by simp [blankFolds], hs.append hclean, hconts,
      hcleanConts⟩
  | @fold gap text out hgap hblank hnext _ ih =>
    obtain ⟨first, conts, rfl, rfl, hclean, hconts, hcleanConts⟩ := ih
    have hcont : HeaderParser.Continues (gap, first) := by
      refine ⟨hgap, fun ch hch => ?_, fun ch hch => hnext ch ?_⟩
      · rcases hblank ch hch with rfl | rfl <;> decide
      · rw [foldedText, List.head?_append, Option.mem_def.mp hch]
        rfl
    refine ⟨[], (gap, first) :: conts, by simp [foldedText], by simp [blankFolds, oneBlank],
      by simp [Clean], List.forall_mem_cons.mpr ⟨hcont, hconts⟩,
      List.forall_mem_cons.mpr ⟨(clean_of_blank hblank).append hclean, hcleanConts⟩⟩

theorem Unfolds.foldedValue {main out text : List UInt8} (hmain : IsWord main)
    (h : Unfolds oneBlank out text) :
    ∃ first conts, main ++ out = foldedText first conts ∧ main ++ text = blankFolds first conts ∧
      FoldedValue first conts := by
  obtain ⟨first, conts, rfl, rfl, hclean, hconts, hcleanConts⟩ := h.exists_lines
  refine ⟨main ++ first, conts, by simp [foldedText], by simp [blankFolds], ?_, ?_, hconts,
    hmain.clean.append hclean, hcleanConts⟩
  · exact List.append_ne_nil_of_left_ne_nil hmain.ne_nil _
  · intro ch hch
    rw [List.head?_append_of_ne_nil _ hmain.ne_nil] at hch
    exact (hmain.octet ch (List.mem_of_mem_head? hch)).2.1

section Field

variable {name first : List UInt8} {conts : List (List UInt8 × List UInt8)}

theorem FoldedValue.dropWhile_first (h : FoldedValue first conts) :
    (chr ' ' :: first).dropWhile isspace = first := by
  rw [List.dropWhile_cons_of_pos (by decide), HeaderParser.dropWhile_head h.head]

theorem FoldedValue.foldl_addSegment_eq (h : FoldedValue first conts) :
    ((chr ' ' :: first) :: conts.map fun cont => cont.1 ++ cont.2).foldl addSegment [] =
      blankFolds first conts := by
  rw [List.foldl_cons, addSegment_nil, h.dropWhile_first, foldl_addSegment h.ne_nil,
    List.flatMap_map, blankFolds]
  refine congrArg (first ++ ·) (List.flatMap_congr fun cont hcont => ?_)
  have hcont' := h.continues cont hcont
  rw [HeaderParser.dropWhile_isspace hcont'.blank hcont'.head]

/-- The field of a name and the lines of a value. -/
def FoldedValue.field (h : FoldedValue first conts) (hname : isName name) : Field where
  name := name
  text := chr ' ' :: first
  conts := conts.map fun cont => cont.1 ++ cont.2
  name_ne_nil := isName_ne_nil hname
  colon_notMem := by
    intro hmem
    rcases isName_char hname hmem with h | h
    · exact absurd h (by decide)
    · exact absurd h (by decide)
  name_head := fun ch hch hspace =>
    not_skip_of_isName hname ch (List.mem_of_mem_head? hch) (Or.inl hspace)
  conts_blank := by
    intro cont hcont
    obtain ⟨⟨gap, text⟩, hmem, rfl⟩ := List.mem_map.mp hcont
    obtain ⟨hne, hblank, -⟩ := h.continues _ hmem
    obtain ⟨ch, gap, rfl⟩ := List.exists_cons_of_ne_nil hne
    exact ⟨ch, gap ++ text, rfl, hblank ch List.mem_cons_self⟩
  text_clean := fun ch hch => by
    rcases List.mem_cons.mp hch with rfl | hmem
    · decide
    · exact h.clean ch hmem
  conts_clean := by
    intro cont hcont
    obtain ⟨c, hmem, rfl⟩ := List.mem_map.mp hcont
    exact h.clean_conts c hmem
  value_ne_nil := by
    have hclean : Clean (chr ' ' :: first) :=
      List.forall_mem_cons.mpr ⟨by decide, h.clean⟩
    rw [unfoldText_clean hclean, List.dropWhile_append, h.dropWhile_first,
      if_neg (by simpa using h.ne_nil)]
    exact List.append_ne_nil_of_left_ne_nil h.ne_nil _

theorem foldedText_crlf (first : List UInt8) (conts : List (List UInt8 × List UInt8)) :
    foldedText first conts ++ crlf = (unfolded first conts).flatMap (· ++ crlf) := by
  induction conts generalizing first with
  | nil => simp [foldedText, unfolded]
  | cons cont conts ih =>
    have hrest := ih (cont.1 ++ cont.2)
    have htext : foldedText first (cont :: conts) =
        first ++ (crlf ++ foldedText (cont.1 ++ cont.2) conts) := by simp [foldedText]
    rw [htext, List.append_assoc, List.append_assoc, hrest]
    simp [unfolded]

theorem Field.isFieldLine_of_mem {field : Field} {line : List UInt8} (h : line ∈ field.lines) :
    isFieldLine line := by
  rcases List.mem_cons.mp h with rfl | hmem
  · obtain ⟨front, rest, hname⟩ := List.exists_cons_of_ne_nil field.name_ne_nil
    rw [hname, List.cons_append, isFieldLine]
    simp
  · obtain ⟨ch, rest, rfl, hch⟩ := field.conts_blank line hmem
    rw [isFieldLine, hch, Bool.true_or]

end Field

/-- A header that comes back. One whose name begins with `Content-` has a word as its value, and
parameters that come back, of which no line is broken at anything but one blank. Another one has
no parameters, and a value that comes back. -/
def KeepsHeader (name : List UInt8) (disp : Disposition) : Prop :=
  if istartsWith name (octets "Content-") then
    IsWord disp.str ∧ ∃ params, disp.params = utf8Params params ∧
      (∀ param ∈ params, isName param.1) ∧
      ((utf8Params params).Pairwise fun p q => ¬ iequals p.1 q.1) ∧ KeepsParams params ∧
      FoldsKept oneBlank (name.length + 2 + disp.str.length) params
  else disp.params = [] ∧ ∃ cs, cs ≠ [] ∧ disp.str = utf8 cs ∧ KeepsValue name cs

section Block

variable {L : Locale} (hL : L.Documented) (hascii : L.KeepsAscii)
include hL hascii

theorem KeepsHeader.exists_lines {name : List UInt8} {disp : Disposition} (hname : isName name)
    (h : KeepsHeader name disp) :
    ∃ first conts, encodeMimeheader L (octets "UTF-8") name disp.str disp.params =
        some (name ++ octets ": " ++ foldedText first conts) ∧ FoldedValue first conts ∧
      storeValue L name (blankFolds first conts) ⟨[], []⟩ = some disp := by
  obtain ⟨main, ps⟩ := disp
  rw [KeepsHeader] at h
  split_ifs at h with hcontent
  · obtain ⟨hmain, params, rfl, hnames, hdistinct, hkeeps, hfolds⟩ := h
    obtain ⟨out, text, hout, hunfolds, hdecode⟩ := encodeMimeheader_unfolds hL hascii
      (f := oneBlank) (by simp [oneBlank]; decide) (by simp [oneBlank]) hname hmain hnames
      hdistinct hkeeps hfolds
    obtain ⟨first, conts, hbody, hvalue, hfolded⟩ := hunfolds.foldedValue hmain
    exact ⟨first, conts, by rw [← hbody, hout], hfolded,
      by rw [storeValue, if_pos hcontent, ← hvalue, hdecode]⟩
  · obtain ⟨rfl, cs, hcs, rfl, hkeeps⟩ := h
    obtain ⟨first, conts, hout, hfolded, hdecode⟩ := foldedValue_iff hL hname hcs
    refine ⟨first, conts, hout, hfolded, ?_⟩
    rw [storeValue, if_neg hcontent, hdecode.mpr hkeeps]
    rfl

theorem KeepsHeader.exists_field {name : List UInt8} {disp : Disposition} (hname : isName name)
    (h : KeepsHeader name disp) :
    ∃ field : Field, field.name = name ∧ field.stored L = some (name, disp) ∧
      (∀ line ∈ field.lines, Clean line) ∧
      ∃ out, encodeMimeheader L (octets "UTF-8") name disp.str disp.params = some out ∧
        out ++ crlf = field.lines.flatMap (· ++ crlf) := by
  obtain ⟨first, conts, hout, hfolded, hstore⟩ := h.exists_lines hL hascii hname
  have hfirst : Clean (name ++ octets ": " ++ first) :=
    ((clean_of_isName hname).append (clean_octets ": ")).append hfolded.clean
  have hlines : (hfolded.field hname).lines = unfolded (name ++ octets ": " ++ first) conts := by
    rw [Field.lines, FoldedValue.field, unfolded, List.append_assoc]
    rfl
  refine ⟨hfolded.field hname, rfl, ?_, ?_, _, hout, ?_⟩
  · have hparams : (hfolded.field hname).params = blankFolds first conts :=
      hfolded.foldl_addSegment_eq
    rw [Field.stored, Field.entryOf, hparams, FoldedValue.field, hstore]
    rfl
  · rw [hlines, unfolded]
    refine List.forall_mem_cons.mpr ⟨hfirst, fun line hline => ?_⟩
    obtain ⟨cont, hcont, rfl⟩ := List.mem_map.mp hline
    exact hfolded.clean_conts cont hcont
  · have htext : name ++ octets ": " ++ foldedText first conts =
        foldedText (name ++ octets ": " ++ first) conts := by simp [foldedText]
    rw [htext, foldedText_crlf, hlines]

/-- The header lines are those of a block of fields that are read as they were written. -/
theorem exists_fields {headers : Headers}
    (hheaders : ∀ elem ∈ headers, isName elem.1 ∧ KeepsHeader elem.1 elem.2) :
    ∃ fields : List Field, fields.map Field.name = headers.map Prod.fst ∧
      fields.mapM (Field.stored L) = some headers ∧
      (∀ line ∈ fields.flatMap Field.lines, Clean line) ∧
      headerText L headers = some ((fields.flatMap Field.lines).flatMap (· ++ crlf)) := by
  induction headers with
  | nil => exact ⟨[], rfl, rfl, by simp, rfl⟩
  | cons elem headers ih =>
    obtain ⟨⟨hname, hkeeps⟩, hrest⟩ := List.forall_mem_cons.mp hheaders
    obtain ⟨fields, hnames, hentries, hclean, htext⟩ := ih hrest
    obtain ⟨field, hfield, hentry, hlines, out, hout, hcrlf⟩ :=
      hkeeps.exists_field hL hascii hname
    refine ⟨field :: fields, by rw [List.map_cons, List.map_cons, hfield, hnames], ?_, ?_, ?_⟩
    · rw [mapM_fields_eq_some] at hentries ⊢
      exact List.Forall₂.cons hentry hentries
    · rw [List.flatMap_cons]
      exact List.forall_mem_append.mpr ⟨hlines, hclean⟩
    · rw [headerText, hout, Option.bind_some, htext, Option.map_some, List.flatMap_cons,
        List.flatMap_append, hcrlf]

end Block

end Email

end Acqua
