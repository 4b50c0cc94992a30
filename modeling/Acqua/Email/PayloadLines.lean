import Acqua.Email.HeaderBlock
import Acqua.Email.PayloadText

/-! Whether the lines of a text are still lines in the payload. -/

namespace Acqua

namespace Email

/-- A text without a transfer encoding. -/
structure PlainText (headers : Headers) : Prop where
  contentType : ∃ disp ∈ headers.find (octets "Content-Type"),
    iequals disp.str (octets "text/plain")
  noTransfer : headers.find (octets "Content-Transfer-Encoding") = none

/-- Lines with an end between them, and maybe one after the last. -/
def Separated (lines : List (List UInt8)) (text : List UInt8) : Prop :=
  ∃ lineEnd ∈ [crlf, [chr '\n'], [chr '\r']],
    text = lineEnd.intercalate lines ∨ text = lines.flatMap (· ++ lineEnd)

/-- The lines of the body are stored as the lines that they are. -/
def LinesKept (L : Locale) (S : Buffering UInt8) (head body : List (List UInt8)) : Prop :=
  ∃ payload, StoresPayload L S head body payload ∧ Separated body payload

theorem PlainText.params {headers : Headers} (h : PlainText headers) :
    (getEncodingParams headers).textMode = true ∧ (getEncodingParams headers).enc = .ascii := by
  obtain ⟨⟨disp, hfind, hplain⟩, hnone⟩ := h
  have htext : istartsWith disp.str (octets "text/") = true := by
    have hupper := iequals_iff.mp hplain
    rw [istartsWith, hupper]
    decide +kernel
  rw [getEncodingParams, Option.mem_def.mp hfind, hnone]
  simp [EncodingParams.ofContentType, htext, EncodingParams.init]

theorem length_intercalate {α : Type*} (sep : List α) (lines : List (List α)) :
    (sep.intercalate lines).length = lines.flatten.length + (lines.length - 1) * sep.length := by
  induction lines with
  | nil => simp
  | cons line lines ih =>
    cases lines with
    | nil => simp
    | cons next lines =>
      rw [List.intercalate_cons_cons, List.length_append, List.length_append, ih]
      simp only [List.flatten_cons, List.length_append, List.length_cons, Nat.add_sub_cancel]
      ring

theorem length_flatMap_append {α : Type*} (sep : List α) (lines : List (List α)) :
    (lines.flatMap (· ++ sep)).length = lines.flatten.length + lines.length * sep.length := by
  induction lines with
  | nil => simp
  | cons line lines ih =>
    rw [List.flatMap_cons, List.length_append, List.length_append, ih]
    simp only [List.flatten_cons, List.length_append, List.length_cons]
    ring

/-- Lines that are put together are only told apart where there are not two of them. -/
theorem separated_flatten_iff {lines : List (List UInt8)} :
    Separated lines lines.flatten ↔ lines.length ≤ 1 := by
  constructor
  · rintro ⟨lineEnd, hend, h⟩
    have hpos : 0 < lineEnd.length := by
      have hall : ∀ s ∈ [crlf, [chr '\n'], [chr '\r']], 0 < s.length := by decide
      exact hall lineEnd hend
    by_contra hlong
    have hbetween : 0 < (lines.length - 1) * lineEnd.length := Nat.mul_pos (by omega) hpos
    have hbehind : 0 < lines.length * lineEnd.length := Nat.mul_pos (by omega) hpos
    rcases h with h | h
    · have hlength := congrArg List.length h
      rw [length_intercalate] at hlength
      omega
    · have hlength := congrArg List.length h
      rw [length_flatMap_append] at hlength
      omega
  · intro hshort
    refine ⟨crlf, List.mem_cons_self, .inl ?_⟩
    rcases lines with _ | ⟨line, _ | ⟨next, lines⟩⟩
    · rfl
    · simp
    · simp at hshort

section Kept

variable {L : Locale} {S : Buffering UInt8} {head body : List (List UInt8)} {headers : Headers}

/-- A line that can be in the body of a text. -/
structure IsTextLine (childBoundary : Option (List UInt8)) (line : List UInt8) : Prop where
  body : isBodyLine childBoundary line
  clean : Clean line
  ascii : ∀ ch ∈ line, ch < 128

theorem content_plainText (hplain : PlainText headers)
    (hcharset : L.KeepsCharset (getEncodingParams headers).charset)
    (hbody : ∀ line ∈ body, IsTextLine (getEncodingParams headers).boundary line) :
    (payloadOutput headers body).content L S = body.flatten := by
  obtain ⟨htext, henc⟩ := hplain.params
  have hall : body.takeWhile (isBodyLine (getEncodingParams headers).boundary) = body :=
    List.takeWhile_eq_self_iff.mpr fun line hline => (hbody line hline).body
  have hout : payloadOutput headers body =
      ⟨.ascii, some (getEncodingParams headers).charset, body.flatten⟩ := by
    rw [payloadOutput, bodyText, hall, henc, htext]
    rfl
  rw [hout]
  refine PayloadOutput.content_text (by simp) ?_ ?_ ?_ (by simp)
  · intro charset hsome
    exact Option.some.inj hsome ▸ hcharset
  · intro ch hch
    obtain ⟨line, hline, hmem⟩ := List.mem_flatten.mp hch
    exact (hbody line hline).ascii ch hmem
  · intro ch hch
    obtain ⟨line, hline, hmem⟩ := List.mem_flatten.mp hch
    exact (hbody line hline).clean ch hmem

theorem linesKept_iff_separated (hhead : ∀ line ∈ head, isFieldLine line ∧ Clean line)
    (hparse : HeaderParser.init.parse L (decodeMimeheader L) [] (head ++ [[]]) = some headers)
    (hplain : PlainText headers) (hcharset : L.KeepsCharset (getEncodingParams headers).charset)
    (hbody : ∀ line ∈ body, IsTextLine (getEncodingParams headers).boundary line) :
    LinesKept L S head body ↔ Separated body body.flatten := by
  have hstored := storesPayload_iff (S := S) hhead hparse fun line hline =>
    (hbody line hline).clean
  rw [LinesKept]
  simp only [hstored, content_plainText hplain hcharset hbody, exists_eq_left']

/-- The lines of a text are put together without their ends. -/
theorem linesKept_iff (hhead : ∀ line ∈ head, isFieldLine line ∧ Clean line)
    (hparse : HeaderParser.init.parse L (decodeMimeheader L) [] (head ++ [[]]) = some headers)
    (hplain : PlainText headers) (hcharset : L.KeepsCharset (getEncodingParams headers).charset)
    (hbody : ∀ line ∈ body, IsTextLine (getEncodingParams headers).boundary line) :
    LinesKept L S head body ↔ body.length ≤ 1 :=
  (linesKept_iff_separated hhead hparse hplain hcharset hbody).trans separated_flatten_iff

end Kept

section Two

theorem parse_textPlain :
    HeaderParser.init.parse utf8Locale (decodeMimeheader utf8Locale) []
        ([octets "Content-Type: text/plain"] ++ [[]]) =
      some [(octets "Content-Type", ⟨octets "text/plain", []⟩)] := by decide

theorem plainText_textPlain :
    PlainText [(octets "Content-Type", ⟨octets "text/plain", []⟩)] :=
  ⟨⟨⟨octets "text/plain", []⟩, by decide, by decide⟩, by decide⟩

theorem isFieldLine_textPlain :
    ∀ line ∈ [octets "Content-Type: text/plain"], isFieldLine line ∧ Clean line := by
  intro line hline
  rw [List.mem_singleton.mp hline]
  exact ⟨by decide, clean_octets "Content-Type: text/plain"⟩

theorem isTextLine_two (childBoundary : Option (List UInt8)) (hchild : childBoundary = none) :
    ∀ line ∈ [octets "a", octets "b"], IsTextLine childBoundary line := by
  subst hchild
  simp only [List.forall_mem_cons, List.not_mem_nil, IsEmpty.forall_iff, implies_true, and_true]
  exact ⟨⟨by decide, clean_octets "a", by decide +kernel⟩,
    ⟨by decide, clean_octets "b", by decide +kernel⟩⟩

theorem linesKept_iff_of_two :
    LinesKept utf8Locale (.flushed 1) [octets "Content-Type: text/plain"]
        [octets "a", octets "b"] ↔
      [octets "a", octets "b"].length ≤ 1 :=
  linesKept_iff isFieldLine_textPlain parse_textPlain plainText_textPlain
    (fun _ _ => ⟨rfl, rfl⟩) (isTextLine_two _ (by decide))

theorem not_linesKept_of_two :
    ¬ LinesKept utf8Locale (.flushed 1) [octets "Content-Type: text/plain"]
      [octets "a", octets "b"] := by
  rw [linesKept_iff_separated isFieldLine_textPlain parse_textPlain plainText_textPlain
    (fun _ _ => ⟨rfl, rfl⟩) (isTextLine_two _ (by decide)), separated_flatten_iff]
  decide

end Two

end Email

end Acqua
