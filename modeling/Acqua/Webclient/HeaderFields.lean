import Acqua.Asio.ReadUntil
import Acqua.Email.Folding
import Acqua.Library.DelimitedReads
import Acqua.Library.Splits

/-! The grammar of header fields of `client_socket.hpp`, in `on_read_header` and `on_move`. -/

namespace Acqua

namespace Webclient

open Asio (crlf)
open Email (Clean)

section Grammar

/-- `*(qi::char_ - "\r\n")`, and the rest. -/
def untilCrlf : List UInt8 → List UInt8 × List UInt8
  | a :: b :: s =>
    if [a, b] = crlf then ([], a :: b :: s)
    else
      let r := untilCrlf (b :: s)
      (a :: r.1, r.2)
  | s => (s, [])

/-- `*(qi::char_ - ':') >> ':' >> qi::omit[ *qi::space ] >> *(qi::char_ - "\r\n")`. -/
def field (text : List UInt8) : Option ((List UInt8 × List UInt8) × List UInt8) :=
  match text.dropWhile (· ≠ chr ':') with
  | [] => none
  | _ :: rest =>
    let r := untilCrlf (rest.dropWhile isspace)
    some ((text.takeWhile (· ≠ chr ':'), r.1), r.2)

theorem length_untilCrlf_le (s : List UInt8) : (untilCrlf s).2.length ≤ s.length := by
  induction s using untilCrlf.induct with
  | case1 a b s h => rw [untilCrlf, if_pos h]
  | case2 a b s h ih =>
    rw [untilCrlf, if_neg h]
    exact ih.trans (Nat.le_succ _)
  | case3 s h =>
    rw [untilCrlf]
    · exact Nat.zero_le _
    · exact h

theorem length_field_lt {text rest : List UInt8} {elem : List UInt8 × List UInt8}
    (h : field text = some (elem, rest)) : rest.length < text.length := by
  rw [field] at h
  have hdrop := List.length_dropWhile_le (fun ch => decide (ch ≠ chr ':')) text
  split at h
  next => cases h
  next ch tail htail =>
    cases h
    have hle := length_untilCrlf_le (tail.dropWhile isspace)
    have hspace := List.length_dropWhile_le isspace tail
    rw [htail, List.length_cons] at hdrop
    omega

/-- The fields behind the first, up to where no further one follows. -/
def moreFields (text : List UInt8) : List (List UInt8 × List UInt8) × List UInt8 :=
  if crlf.isPrefixOf text then
    match _hfield : field (text.drop 2) with
    | none => ([], text)
    | some (elem, rest) =>
      let r := moreFields rest
      (elem :: r.1, r.2)
  else ([], text)
termination_by text.length
decreasing_by
  have hlt := length_field_lt _hfield
  rw [List.length_drop] at hlt
  omega

/-- The fields that are put to the header, and where `beg` stands if all of it is matched. -/
def parseHeader (text : List UInt8) : List (List UInt8 × List UInt8) × Option (List UInt8) :=
  match field text with
  | none => ([], none)
  | some (elem, rest) =>
    let r := moreFields rest
    (elem :: r.1, if crlf.isPrefixOf r.2 then some (r.2.drop 2) else none)

end Grammar

/-- A field as it is sent. -/
structure HeaderField where
  name : List UInt8
  value : List UInt8
  name_ne_nil : name ≠ []
  name_chars : ∀ ch ∈ name, ¬ isspace ch ∧ ch ≠ chr ':'
  value_clean : Clean value
  value_head : ∀ ch ∈ value.head?, ¬ isspace ch

namespace HeaderField

def line (f : HeaderField) : List UInt8 := f.name ++ octets ": " ++ f.value

def elem (f : HeaderField) : List UInt8 × List UInt8 := (f.name, f.value)

end HeaderField

section Fields

theorem untilCrlf_clean {s : List UInt8} (hs : Clean s) (rest : List UInt8) :
    untilCrlf (s ++ (crlf ++ rest)) = (s, crlf ++ rest) := by
  induction s with
  | nil => rfl
  | cons a s ih =>
    have ha : a ≠ chr '\r' := (hs a List.mem_cons_self).1
    have hrec := ih fun ch hch => hs ch (List.mem_cons_of_mem _ hch)
    obtain ⟨b, t, hbt⟩ : ∃ b t, s ++ (crlf ++ rest) = b :: t :=
      List.exists_cons_of_ne_nil (by simp [crlf, octets])
    have hne : ¬ [a, b] = crlf := fun he => ha (List.cons.inj he).1
    rw [hbt] at hrec
    rw [List.cons_append, hbt, untilCrlf, if_neg hne, hrec]

theorem field_colon {name rest : List UInt8} (hname : ∀ ch ∈ name, ch ≠ chr ':') :
    field (name ++ chr ':' :: rest) =
      some ((name, (untilCrlf (rest.dropWhile isspace)).1),
        (untilCrlf (rest.dropWhile isspace)).2) := by
  have hrun : ∀ ch ∈ name, decide (ch ≠ chr ':') = true := fun ch hch =>
    decide_eq_true (hname ch hch)
  rw [field, dropWhile_run hrun (by decide), takeWhile_run hrun (by decide)]

theorem field_eq_none {text : List UInt8} (h : chr ':' ∉ text) : field text = none := by
  have hall : text.dropWhile (fun ch => decide (ch ≠ chr ':')) = [] :=
    List.dropWhile_eq_nil_iff.mpr fun ch hch => decide_eq_true fun heq => h (heq ▸ hch)
  rw [field, hall]

theorem crlf_isPrefixOf (rest : List UInt8) : crlf.isPrefixOf (crlf ++ rest) :=
  List.isPrefixOf_iff_prefix.mpr (List.prefix_append _ _)

variable {f : HeaderField} {fs : List HeaderField}

/-- The line of a field from its colon on, without the blanks behind it. -/
theorem dropWhile_value (rest : List UInt8) (hne : f.value ≠ []) :
    (chr ' ' :: (f.value ++ rest)).dropWhile isspace = f.value ++ rest := by
  obtain ⟨ch, value, hvalue⟩ := List.exists_cons_of_ne_nil hne
  have hhead : ¬ isspace ch := f.value_head ch (by rw [hvalue]; rfl)
  rw [List.dropWhile_cons_of_pos (by decide), hvalue, List.cons_append,
    List.dropWhile_cons_of_neg hhead]

theorem HeaderField.line_append (f : HeaderField) (rest : List UInt8) :
    f.line ++ rest = f.name ++ chr ':' :: chr ' ' :: (f.value ++ rest) := by
  simp [HeaderField.line, octets]

theorem field_line (hne : f.value ≠ []) (rest : List UInt8) :
    field (f.line ++ (crlf ++ rest)) = some (f.elem, crlf ++ rest) := by
  rw [f.line_append, field_colon fun ch hch => (f.name_chars ch hch).2, dropWhile_value _ hne,
    untilCrlf_clean f.value_clean]
  rfl

theorem moreFields_of_field {rest rest' : List UInt8} {elem : List UInt8 × List UInt8}
    (h : field rest = some (elem, rest')) :
    moreFields (crlf ++ rest) = (elem :: (moreFields rest').1, (moreFields rest').2) := by
  rw [moreFields, if_pos (crlf_isPrefixOf rest)]
  have hdrop : (crlf ++ rest).drop 2 = rest := rfl
  split
  next hnone =>
    rw [hdrop, h] at hnone
    cases hnone
  next elem' rest'' hsome =>
    rw [hdrop, h] at hsome
    cases hsome
    rfl

theorem moreFields_of_none {rest : List UInt8} (h : field rest = none) :
    moreFields (crlf ++ rest) = ([], crlf ++ rest) := by
  rw [moreFields, if_pos (crlf_isPrefixOf rest)]
  have hdrop : (crlf ++ rest).drop 2 = rest := rfl
  split
  next => rfl
  next elem rest' hsome =>
    rw [hdrop, h] at hsome
    cases hsome

/-- The further lines, each behind the end of the one before. -/
def moreLines (fs : List HeaderField) : List UInt8 := fs.flatMap fun f => crlf ++ f.line

/-- What stands behind the end of a line begins with one. -/
theorem exists_moreLines (fs : List HeaderField) (rest : List UInt8) :
    ∃ next, moreLines fs ++ (crlf ++ rest) = crlf ++ next := by
  cases fs with
  | nil => exact ⟨rest, rfl⟩
  | cons g fs => exact ⟨g.line ++ (moreLines fs ++ (crlf ++ rest)), by simp [moreLines]⟩

theorem moreLines_cons (f : HeaderField) (fs : List HeaderField) (rest : List UInt8) :
    moreLines (f :: fs) ++ rest = crlf ++ (f.line ++ (moreLines fs ++ rest)) := by
  simp [moreLines]

theorem moreFields_line (hne : f.value ≠ []) (fs : List HeaderField) (rest : List UInt8) :
    moreFields (moreLines (f :: fs) ++ (crlf ++ rest)) =
      (f.elem :: (moreFields (moreLines fs ++ (crlf ++ rest))).1,
        (moreFields (moreLines fs ++ (crlf ++ rest))).2) := by
  obtain ⟨next, hnext⟩ := exists_moreLines fs rest
  rw [moreLines_cons, hnext, moreFields_of_field (field_line hne next)]

theorem moreFields_lines {rest : List UInt8} (hrest : chr ':' ∉ rest)
    (hfs : ∀ f ∈ fs, f.value ≠ []) :
    moreFields (moreLines fs ++ (crlf ++ rest)) = (fs.map HeaderField.elem, crlf ++ rest) := by
  induction fs with
  | nil => exact moreFields_of_none (field_eq_none hrest)
  | cons f fs ih =>
    obtain ⟨hf, hfs⟩ := List.forall_mem_cons.mp hfs
    rw [moreFields_line hf, ih hfs]
    rfl

/-- The lines of a header with what stands behind them. -/
def headerText (f : HeaderField) (fs : List HeaderField) : List UInt8 :=
  f.line ++ (moreLines fs ++ (crlf ++ crlf))

theorem HeaderField.line_clean (f : HeaderField) : Clean f.line := by
  intro ch hch
  rw [line, List.mem_append, List.mem_append] at hch
  rcases hch with (hch | hch) | hch
  · have hspace := (f.name_chars ch hch).1
    constructor <;>
    · rintro rfl
      exact hspace (by decide)
  · have hall : (octets ": ").all fun ch => ch ≠ chr '\r' ∧ ch ≠ chr '\n' := by decide
    exact of_decide_eq_true (List.all_eq_true.mp hall ch hch)
  · exact f.value_clean ch hch

theorem dropWhile_of_empty (hnil : f.value = []) {rest : List UInt8} :
    (chr ' ' :: (f.value ++ rest)).dropWhile isspace = rest.dropWhile isspace := by
  rw [List.dropWhile_cons_of_pos (by decide), hnil, List.nil_append]

/-- The end of a line with an empty value is taken for a blank in front of the value. -/
theorem field_of_empty (hnil : f.value = []) (rest : List UInt8) :
    field (f.line ++ rest) = some ((f.name, (untilCrlf (rest.dropWhile isspace)).1),
      (untilCrlf (rest.dropWhile isspace)).2) := by
  rw [f.line_append, field_colon fun ch hch => (f.name_chars ch hch).2, dropWhile_of_empty hnil]

theorem HeaderField.dropWhile_line (g : HeaderField) (rest : List UInt8) :
    (crlf ++ (g.line ++ rest)).dropWhile isspace = g.line ++ rest := by
  obtain ⟨ch, name, hname⟩ := List.exists_cons_of_ne_nil g.name_ne_nil
  have hch : ¬ isspace ch := (g.name_chars ch (by rw [hname]; exact List.mem_cons_self)).1
  have hcrlf : crlf.dropWhile isspace = [] := by decide
  rw [List.dropWhile_append_of_pos (List.all_eq_true.mp (by decide)), g.line_append, hname,
    List.cons_append, List.dropWhile_cons_of_neg hch]

/-- A field is lost with each line that is taken for a value. -/
theorem moreFields_count (fs : List HeaderField) :
    (moreFields (moreLines fs ++ (crlf ++ crlf))).1.length ≤ fs.length ∧
      (crlf.isPrefixOf (moreFields (moreLines fs ++ (crlf ++ crlf))).2 →
        (moreFields (moreLines fs ++ (crlf ++ crlf))).1.length = fs.length →
          ∀ f ∈ fs, f.value ≠ []) := by
  induction hn : fs.length using Nat.strong_induction_on generalizing fs with
  | _ n ih =>
    subst hn
    match fs with
    | [] =>
      rw [moreFields_lines (by decide) (by simp)]
      exact ⟨le_rfl, by simp⟩
    | f :: fs =>
      by_cases hne : f.value = []
      · match fs with
        | [] =>
          have hblank : (crlf ++ crlf).dropWhile isspace = [] := by decide
          have hnil : moreFields [] = ([], []) := by rw [moreFields, if_neg (by decide)]
          have hfield : moreFields (moreLines [f] ++ (crlf ++ crlf)) =
              ([(f.name, [])], []) := by
            rw [moreLines_cons, moreFields_of_field (field_of_empty hne _)]
            rw [show moreLines [] ++ (crlf ++ crlf) = crlf ++ crlf from rfl, hblank, untilCrlf, hnil]
            simp
          rw [hfield]
          exact ⟨le_rfl, fun hpre => absurd hpre (show ¬ crlf.isPrefixOf [] by decide)⟩
        | g :: fs =>
          obtain ⟨next, hnext⟩ := exists_moreLines fs crlf
          have hfield : moreFields (moreLines (f :: g :: fs) ++ (crlf ++ crlf)) =
              ((f.name, g.line) :: (moreFields (moreLines fs ++ (crlf ++ crlf))).1,
                (moreFields (moreLines fs ++ (crlf ++ crlf))).2) := by
            rw [moreLines_cons, moreFields_of_field (field_of_empty hne _), moreLines_cons,
              g.dropWhile_line, hnext, untilCrlf_clean g.line_clean]
          have hle := (ih fs.length (by simp) fs rfl).1
          rw [hfield, List.length_cons, List.length_cons, List.length_cons]
          exact ⟨by omega, fun _ hcount => absurd hcount (by omega)⟩
      · obtain ⟨hle, hall⟩ := ih fs.length (Nat.lt_succ_self _) fs rfl
        rw [moreFields_line hne, List.length_cons, List.length_cons]
        refine ⟨Nat.succ_le_succ hle, fun hpre hcount => List.forall_mem_cons.mpr ⟨hne, ?_⟩⟩
        exact hall hpre (Nat.succ.inj hcount)

theorem parseHeader_text (f : HeaderField) (fs : List HeaderField) (rest : List UInt8) :
    parseHeader (headerText f fs ++ rest) =
      ((moreFields (moreLines (f :: fs) ++ (crlf ++ (crlf ++ rest)))).1,
        if crlf.isPrefixOf (moreFields (moreLines (f :: fs) ++ (crlf ++ (crlf ++ rest)))).2
        then some ((moreFields (moreLines (f :: fs) ++ (crlf ++ (crlf ++ rest)))).2.drop 2)
        else none) := by
  obtain ⟨r, hfield⟩ : ∃ r, field (headerText f fs ++ rest) = some r := by
    rw [headerText, List.append_assoc, f.line_append]
    exact ⟨_, field_colon fun ch hch => (f.name_chars ch hch).2⟩
  have htext : moreLines (f :: fs) ++ (crlf ++ (crlf ++ rest)) =
      crlf ++ (headerText f fs ++ rest) := by
    rw [moreLines_cons, headerText]
    simp only [List.append_assoc]
  rw [htext, moreFields_of_field hfield, parseHeader, hfield]

/-- The header is read as it was sent where no value is empty and no field can follow. -/
theorem parseHeader_lines (h : ∀ g ∈ f :: fs, g.value ≠ []) {rest : List UInt8}
    (hrest : chr ':' ∉ rest) :
    parseHeader (headerText f fs ++ rest) =
      ((f :: fs).map HeaderField.elem, some (crlf ++ rest)) := by
  have hcrlf : chr ':' ∉ crlf ++ rest := by
    rw [List.mem_append, not_or]
    exact ⟨by decide, hrest⟩
  rw [parseHeader_text, moreFields_lines hcrlf h, if_pos (crlf_isPrefixOf (crlf ++ rest))]
  rfl

theorem parseHeader_count (hsome : (parseHeader (headerText f fs)).2 ≠ none)
    (hcount : (parseHeader (headerText f fs)).1.length = (f :: fs).length) :
    ∀ g ∈ f :: fs, g.value ≠ [] := by
  have htext := parseHeader_text f fs []
  rw [List.append_nil, List.append_nil] at htext
  rw [htext] at hsome hcount
  refine (moreFields_count (f :: fs)).2 ?_ hcount
  by_contra hpre
  exact hsome (if_neg hpre)

theorem findDelimiter_line (f : HeaderField) (rest : List UInt8) :
    findDelimiter (crlf ++ crlf) (f.line ++ rest) =
      (findDelimiter (crlf ++ crlf) rest).map (· + f.line.length) := by
  refine findDelimiter_run (by decide) fun ch hch heq => ?_
  exact (f.line_clean ch hch).1 (Option.some.inj heq).symm

theorem findDelimiter_crlf_line (g : HeaderField) (rest : List UInt8) :
    findDelimiter (crlf ++ crlf) (crlf ++ (g.line ++ rest)) =
      (findDelimiter (crlf ++ crlf) rest).map (· + (crlf ++ g.line).length) := by
  obtain ⟨ch, name, hname⟩ := List.exists_cons_of_ne_nil g.name_ne_nil
  have hch : ch ≠ chr '\r' := by
    rintro rfl
    exact (g.name_chars (chr '\r') (by rw [hname]; exact List.mem_cons_self)).1 (by decide)
  have hline : g.line ++ rest = ch :: (name ++ chr ':' :: chr ' ' :: (g.value ++ rest)) := by
    rw [g.line_append, hname, List.cons_append]
  have hpre : ¬ crlf ++ crlf <+: chr '\r' :: chr '\n' :: (g.line ++ rest) := by
    rw [hline]
    intro hpre
    have htail := (List.cons_prefix_cons.mp (List.cons_prefix_cons.mp hpre).2).2
    exact hch (List.cons_prefix_cons.mp htail).1.symm
  have hend : chr '\n' ≠ chr '\r' := by decide
  have hpre' : ¬ crlf ++ crlf <+: chr '\n' :: (g.line ++ rest) := fun hpre =>
    hend (List.cons_prefix_cons.mp hpre).1.symm
  have htext : crlf ++ (g.line ++ rest) = chr '\r' :: chr '\n' :: (g.line ++ rest) := rfl
  rw [htext, findDelimiter_cons hpre, findDelimiter_cons hpre', findDelimiter_line, Option.map_map,
    Option.map_map]
  congr 1

theorem findDelimiter_header (f : HeaderField) (fs : List HeaderField) (rest : List UInt8) :
    findDelimiter (crlf ++ crlf) (headerText f fs ++ rest) = some (headerText f fs).length := by
  have hmore : findDelimiter (crlf ++ crlf) (moreLines fs ++ (crlf ++ crlf ++ rest)) =
      some (moreLines fs ++ (crlf ++ crlf)).length := by
    induction fs with
    | nil =>
      exact findDelimiter_of_prefix (by decide) (List.prefix_append _ _)
    | cons g fs ih =>
      rw [moreLines_cons, findDelimiter_crlf_line, ih, Option.map_some, moreLines_cons]
      simp only [List.length_append]
      exact congrArg some (by omega)
  have htext : headerText f fs ++ rest = f.line ++ (moreLines fs ++ (crlf ++ crlf ++ rest)) := by
    simp [headerText]
  rw [htext, findDelimiter_line, hmore, Option.map_some, headerText]
  refine congrArg some ?_
  rw [@List.length_append _ f.line, Nat.add_comm]

end Fields

end Webclient

end Acqua
