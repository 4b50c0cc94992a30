import Acqua.Email.Folding
import Acqua.Email.Multipart

/-! The payload of a message that is read line by line. -/

namespace Acqua

namespace Email

section Body

variable {L : Locale} {S : Buffering UInt8}

/-- A line of the payload that is written to `out_`. -/
def isBodyLine (childBoundary : Option (List UInt8)) (line : List UInt8) : Bool :=
  line ≠ [chr '.'] && !ParserImpl.isChildMultipartBegin childBoundary line

/-- What is written to `out_` of some lines. -/
def bodyText (childBoundary : Option (List UInt8)) (body : List (List UInt8)) : List UInt8 :=
  (body.takeWhile (isBodyLine childBoundary)).flatten

theorem isBodyLine_nil {childBoundary : Option (List UInt8)} : isBodyLine childBoundary [] := by
  cases childBoundary with
  | none => decide
  | some boundary => simp [isBodyLine, ParserImpl.isChildMultipartBegin, octets]

namespace ParserImpl

variable {childBoundary : Option (List UInt8)} {line : List UInt8} {out : PayloadOutput}
  {email : Message}

theorem payloadLine_of_isBodyLine (h : isBodyLine childBoundary line) (parsed : Option ParserImpl) :
    payloadLine L S line childBoundary none out email absent parsed =
      some (.payload childBoundary none { out with text := out.text ++ line } email absent) := by
  obtain ⟨hperiod, hchild⟩ := Bool.and_eq_true_iff.mp h
  unfold payloadLine
  dsimp only
  rw [if_neg (by simpa using hperiod), if_neg (by simpa using hchild)]
  rfl

theorem payloadLine_of_not_isBodyLine (h : ¬ isBodyLine childBoundary line)
    (parsed : Option ParserImpl) :
    payloadLine L S line childBoundary none out email absent parsed =
      some (.complete { email with payload := out.content L S }) := by
  have hend : line = [chr '.'] ∨ isChildMultipartBegin childBoundary line := by
    simpa [isBodyLine, or_iff_not_imp_left] using h
  have hsubparts : email.subparts ++ finished L S absent = email.subparts := List.append_nil _
  unfold payloadLine
  dsimp only
  rw [hsubparts]
  rcases hend with hperiod | hchild
  · rw [if_pos hperiod]
  · split_ifs <;> rfl

/-- The lines up to the one that completes the message are the payload. -/
theorem parseLines_payload (body : List (List UInt8)) :
    ((lines L S).parseLines (body ++ [[chr '.']])
        (.payload childBoundary none out email .absent)).2 =
      some (.complete { email with
        payload := PayloadOutput.content L S
          { out with text := out.text ++ bodyText childBoundary body } }) := by
  induction body generalizing out with
  | nil =>
    have hperiod : ¬ isBodyLine childBoundary [chr '.'] := by simp [isBodyLine]
    have hline : (lines L S).parseLine [chr '.'] (.payload childBoundary none out email .absent) =
        some _ := payloadLine_of_not_isBodyLine hperiod (some .absent)
    rw [List.nil_append, LineParser.parseLines_cons_some rfl hline, bodyText, List.takeWhile_nil,
      List.flatten_nil, List.append_nil]
    rfl
  | cons line body ih =>
    rw [List.cons_append]
    by_cases hbody : isBodyLine childBoundary line
    · have hline : (lines L S).parseLine line (.payload childBoundary none out email .absent) =
          some _ := payloadLine_of_isBodyLine hbody (some .absent)
      rw [LineParser.parseLines_cons_some rfl hline]
      dsimp only
      rw [ih, bodyText, bodyText, List.takeWhile_cons_of_pos hbody, List.flatten_cons,
        List.append_assoc]
    · have hline : (lines L S).parseLine line (.payload childBoundary none out email .absent) =
          some _ := payloadLine_of_not_isBodyLine hbody (some .absent)
      rw [LineParser.parseLines_cons_some rfl hline,
        LineParser.parseLines_of_complete Bool.false_ne_true, bodyText,
        List.takeWhile_cons_of_neg hbody, List.flatten_nil, List.append_nil]

end ParserImpl

theorem qprint_written {text : List UInt8} (h : chr '=' ∉ text) (S : Buffering UInt8) :
    QprintDecoder.written S text = text := by
  have hoffer := QprintDecoder.offer_unescaped h
  have haccepts : QprintDecoder.Accepts text := by rw [QprintDecoder.Accepts, hoffer]
  rw [haccepts.written_eq S, QprintDecoder.offered, hoffer]

/-- A text of US-ASCII is written in the charset as it is. -/
def Locale.KeepsCharset (L : Locale) (charset : List UInt8) : Prop :=
  ∀ str, (∀ ch ∈ str, ch < 128) → L.fromUtf charset str = some str ∧ L.toUtf str charset = some str

theorem PayloadOutput.content_text {out : PayloadOutput} (hbase64 : out.enc ≠ .base64)
    (hcharset : ∀ charset ∈ out.charset, L.KeepsCharset charset)
    (htext : ∀ ch ∈ out.text, ch < 128) (hclean : Clean out.text)
    (hescape : out.enc = .qprint → chr '=' ∉ out.text) : out.content L S = out.text := by
  have hfiltered : out.filtered S = out.text := by
    rw [filtered]
    cases henc : out.enc with
    | ascii =>
      dsimp only
      split_ifs
      · rfl
      · exact AsciiDecoder.pushAll_put (by decide) fun hmem => (hclean _ hmem).1 rfl
    | qprint => exact qprint_written (hescape henc) S
    | base64 => exact absurd henc hbase64
  rw [content, hfiltered]
  cases hcs : out.charset with
  | none => rfl
  | some charset =>
    by_cases hne : out.text = []
    · rw [hne]
      rfl
    · have hsep : ∀ ch ∈ out.text, ¬ OstreamLocaleCodecvt.isSep ch := by
        intro ch hch
        rw [OstreamLocaleCodecvt.isSep_iff]
        exact not_or.mpr (hclean ch hch)
      exact OstreamLocaleCodecvt.content_line hsep (hcharset charset hcs _ htext).2 hne

end Body

section Message

variable (L : Locale) (S : Buffering UInt8)

/-- What is written to `out_` of the lines after the headers. -/
def payloadOutput (headers : Headers) (body : List (List UInt8)) : PayloadOutput :=
  let params := getEncodingParams headers
  ⟨params.enc, if params.textMode then some params.charset else none,
    bodyText params.boundary body⟩

/-- A message with the lines of its headers and of its body. -/
def messageText (head body : List (List UInt8)) : List UInt8 :=
  (head ++ [[]] ++ body ++ [[chr '.']]).flatMap (· ++ crlf)

/-- A message that is read, however it is cut into calls of `write`, as one with this payload. -/
def StoresPayload (head body : List (List UInt8)) (payload : List UInt8) : Prop :=
  ∃ headers, ∀ chunks : List (List UInt8), (∀ beg ∈ chunks, beg ≠ []) →
    chunks.flatten = messageText head body →
      (EmailParser.writes (ParserImpl.lines L S) chunks (.init (.init none))).2.map (·.parser) =
        some (.complete ⟨headers, payload, []⟩)

variable {L S} {head body : List (List UInt8)} {headers : Headers}

theorem writes_message (hhead : ∀ line ∈ head, isFieldLine line)
    (hparse : HeaderParser.init.parse L (decodeMimeheader L) [] (head ++ [[]]) = some headers)
    {chunks : List (List UInt8)} (hchunks : ∀ beg ∈ chunks, beg ≠ [])
    (hlines : (EmailParser.universalLines chunks.flatten).1 =
      head ++ [[]] ++ body ++ [[chr '.']]) :
    (EmailParser.writes (ParserImpl.lines L S) chunks (.init (.init none))).2.map (·.parser) =
      some (.complete ⟨headers, (payloadOutput headers body).content L S, []⟩) := by
  have hparsed := EmailParser.writes_parsed (P := ParserImpl.lines L S) hchunks
    (.init (.init none))
  have htext : EmailParser.textLines (.init (ParserImpl.init none)) chunks.flatten =
      EmailParser.universalLines chunks.flatten := rfl
  have hheaders := @ParserImpl.parseLines_headers L S head hhead _ ⟨[], [], []⟩ _ hparse none
  rw [hparsed.parser, htext, hlines, List.append_assoc, EmailParser.init, ParserImpl.init,
    LineParser.parseLines_append_some (congrArg Prod.snd hheaders)]
  exact ParserImpl.parseLines_payload body

theorem universalLines_messageText (hhead : ∀ line ∈ head, Clean line)
    (hbody : ∀ line ∈ body, Clean line) :
    (EmailParser.universalLines (messageText head body)).1 =
      head ++ [[]] ++ body ++ [[chr '.']] := by
  have hcrlf : chr '\r' ≠ chr '\n' := by decide
  have hlines : ∀ line ∈ head ++ [[]] ++ body ++ [[chr '.']], Clean line := by
    simp only [List.forall_mem_append, List.forall_mem_singleton]
    exact ⟨⟨⟨hhead, by simp [Clean]⟩, hbody⟩, clean_octets "."⟩
  have hsplit := linesFrom_lines hcrlf hlines []
  rw [List.append_nil] at hsplit
  exact (congrArg Prod.fst hsplit).trans (List.append_nil _)

/-- What is stored of a message is what its lines are taken to. -/
theorem storesPayload_iff (hhead : ∀ line ∈ head, isFieldLine line ∧ Clean line)
    (hparse : HeaderParser.init.parse L (decodeMimeheader L) [] (head ++ [[]]) = some headers)
    (hbody : ∀ line ∈ body, Clean line) (payload : List UInt8) :
    StoresPayload L S head body payload ↔ (payloadOutput headers body).content L S = payload := by
  have hlines := universalLines_messageText (fun line hline => (hhead line hline).2) hbody
  have hwrites : ∀ chunks : List (List UInt8), (∀ beg ∈ chunks, beg ≠ []) →
      chunks.flatten = messageText head body →
        (EmailParser.writes (ParserImpl.lines L S) chunks (.init (.init none))).2.map (·.parser) =
          some (.complete ⟨headers, (payloadOutput headers body).content L S, []⟩) := by
    intro chunks hchunks htext
    exact writes_message (fun line hline => (hhead line hline).1) hparse hchunks
      (by rw [htext, hlines])
  constructor
  · rintro ⟨headers', hstored⟩
    have hwhole : ∀ beg ∈ [messageText head body], beg ≠ [] := by
      simp [messageText]
    have hsame := (hwrites _ hwhole (by simp)).symm.trans (hstored _ hwhole (by simp))
    simp only [Option.some.injEq, ParserImpl.complete.injEq, Message.mk.injEq] at hsame
    exact hsame.2.1
  · rintro rfl
    exact ⟨headers, hwrites⟩

end Message

end Email

end Acqua
