import Acqua.Email.FieldText
import Acqua.Email.PayloadText
import Acqua.Iostreams.IstreamLine

/-! Which emails the parser reads as the generator wrote them. -/

namespace Acqua

namespace FilteringIstream

variable {s s' : FilteringIstream}

theorem mem_getline {line : List UInt8} (h : s.getline = (some line, s')) :
    (∀ ch ∈ line, ch ∈ s.text) ∧ ∀ ch ∈ s'.text, ch ∈ s.text := by
  unfold getline at h
  split at h
  next => cases h
  next first rest hfirst =>
    unfold Acqua.getline at hfirst
    split_ifs at hfirst
    obtain ⟨rfl, rfl⟩ := Prod.mk.inj (Option.some.inj hfirst)
    split_ifs at h <;> cases h
    · exact ⟨fun ch hch => (List.takeWhile_sublist _).subset hch,
        fun ch hch => (List.dropWhile_sublist _).subset (List.mem_of_mem_tail hch)⟩
    · exact ⟨fun ch hch => (List.takeWhile_sublist _).subset hch, by simp⟩

theorem mem_of_mem_lines {line : List UInt8} (hmem : line ∈ s.lines) :
    ∀ ch ∈ line, ch ∈ s.text := by
  induction hn : s.work using Nat.strong_induction_on generalizing s with
  | _ n ih =>
    subst hn
    by_cases hgood : s.good
    · have hlt := work_getline_lt hgood
      rcases hline : s.getline with ⟨_ | first, s'⟩
      · simp [lines_of_none hline] at hmem
      · rw [hline] at hlt
        obtain ⟨hfirst, hrest⟩ := mem_getline hline
        rw [lines_of_some hgood hline, List.mem_cons] at hmem
        rcases hmem with rfl | hmem
        · exact hfirst
        · exact fun ch hch => hrest ch (ih _ hlt hmem rfl ch hch)
    · simp [lines_of_not_good hgood] at hmem

/-- A text of one line that is read to its end. -/
theorem written_of_line {text : List UInt8} (hline : chr '\n' ∉ text) (textMode : Bool) :
    (FilteringIstream.mk text false true).written textMode = text := by
  cases textMode with
  | false => rfl
  | true =>
    rw [written, if_pos rfl]
    by_cases hne : text = []
    · have hend : (FilteringIstream.mk text false true).getline = (none, ⟨text, false, false⟩) := by
        rw [getline, Acqua.getline_eq_none.mpr hne]
      rw [lines_of_none hend, hne, List.flatten_nil]
    · have hlast : (FilteringIstream.mk text false true).getline =
          (some text, ⟨[], false, false⟩) := by
        rw [getline, IstreamLocaleCodecvt.getline_of_line hne hline]
        exact (if_neg hline).trans (if_neg Bool.false_ne_true)
      rw [lines_of_some rfl hlast, lines_of_not_good Bool.false_ne_true]
      simp

end FilteringIstream

namespace Email

section Read

variable {L : Locale} {S : Buffering UInt8} {fresh : Message → Nat → UInt8}
  {email : Message}

theorem universalLines_written {lines : List (List UInt8)} (hlines : ∀ line ∈ lines, Clean line)
    {text : List UInt8} (htext : chr '\r' ∉ text) :
    (EmailParser.universalLines
        (lines.flatMap (· ++ crlf) ++ crlf ++ text ++ GeneratorImpl.terminator)).1 =
      lines ++ [[]] ++ text.splitOn (chr '\n') ++ [[chr '.']] := by
  have hcrlf : chr '\r' ≠ chr '\n' := by decide
  have hbody : ∀ line ∈ text.splitOn (chr '\n'), Clean line := by
    intro line hline ch hch
    obtain ⟨hmem, hlf⟩ := mem_splitOn hline ch hch
    exact ⟨fun heq => htext (heq ▸ hmem), hlf⟩
  have hhead : ∀ line ∈ lines ++ [[]], Clean line := by
    intro line hline
    rcases List.mem_append.mp hline with hmem | hmem
    · exact hlines line hmem
    · rw [List.mem_singleton.mp hmem]
      simp [Clean]
  have hperiod : ∀ line ∈ [[chr '.']], Clean line := by
    intro line hline ch hch
    rw [List.mem_singleton.mp hline, List.mem_singleton] at hch
    rw [hch]
    decide
  have hsplit : lines.flatMap (· ++ crlf) ++ crlf ++ text ++ GeneratorImpl.terminator =
      (lines ++ [[]]).flatMap (· ++ [chr '\r', chr '\n']) ++
        ([chr '\n'].intercalate (text.splitOn (chr '\n')) ++ chr '\r' :: chr '\n' ::
          ([[chr '.']].flatMap (· ++ [chr '\r', chr '\n']) ++ [])) := by
    rw [List.intercalate_splitOn]
    simp [crlf, GeneratorImpl.terminator, octets]
  rw [hsplit, EmailParser.universalLines, linesFrom_lines hcrlf hhead,
    linesFrom_joined hcrlf (List.splitOn_ne_nil _ _) hbody, linesFrom_lines hcrlf hperiod]
  simp [linesFrom]

/-- What is written of the payload. -/
def Message.written (L : Locale) (fresh : Message → Nat → UInt8) (email : Message) : List UInt8 :=
  (GeneratorImpl.inputOf L fresh email).written (getEncodingParams email.headers).textMode

/-- An email without subparts, of which each header comes back and no two have a name in common. -/
structure Message.SinglePart (email : Message) : Prop where
  alone : email.subparts = []
  distinct : email.headers.Pairwise fun elem elem' => ¬ iequals elem.1 elem'.1
  keeps : ∀ elem ∈ email.headers, isName elem.1 ∧ KeepsHeader elem.1 elem.2

theorem Message.SinglePart.eq_mk (h : email.SinglePart) :
    email = ⟨email.headers, email.payload, []⟩ := by
  obtain ⟨headers, payload, subparts⟩ := email
  obtain rfl : subparts = [] := h.alone
  rfl

theorem parse_fields {headers : Headers} {fields : List Field}
    (hnames : fields.map Field.name = headers.map Prod.fst)
    (hentries : fields.mapM (Field.stored L) = some headers)
    (hdistinct : headers.Pairwise fun elem elem' => ¬ iequals elem.1 elem'.1) :
    HeaderParser.init.parse L (decodeMimeheader L) [] (fields.flatMap Field.lines ++ [[]]) =
      some headers := by
  have hpairwise : DistinctNames fields := by
    rw [DistinctNames, ← List.pairwise_map (R := fun name name' => ¬ iequals name name'), hnames,
      List.pairwise_map]
    exact hdistinct
  have hstore := parse_headerBlock_init (L := L) fields
  rw [storeFields_of_distinct (by simp) hpairwise, hentries] at hstore
  exact hstore

/-- The headers come back, and the payload as the parser reads it. -/
theorem exists_generated (hL : L.Documented) (hascii : L.KeepsAscii) (h : email.SinglePart)
    (hcr : chr '\r' ∉ email.written L fresh) :
    ∃ text, text ≠ [] ∧ email.generated L fresh = some text ∧
      ∀ chunks : List (List UInt8), (∀ beg ∈ chunks, beg ≠ []) → chunks.flatten = text →
        (EmailParser.writes (ParserImpl.lines L S) chunks (.init (.init none))).2.map (·.parser) =
          some (.complete ⟨email.headers, (payloadOutput email.headers
            ((email.written L fresh).splitOn (chr '\n'))).content L S, []⟩) := by
  obtain ⟨fields, hnames, hentries, hclean, htext⟩ := exists_fields hL hascii h.keeps
  refine ⟨(fields.flatMap Field.lines).flatMap (· ++ crlf) ++ crlf ++ email.written L fresh ++
    GeneratorImpl.terminator, by simp [GeneratorImpl.terminator, octets], ?_,
    fun chunks hchunks hflatten => ?_⟩
  · rw [generated_eq, Message.ownText, htext, h.alone]
    rfl
  · refine writes_message (fun line hline => ?_) (parse_fields hnames hentries h.distinct) hchunks ?_
    · obtain ⟨field, -, hmem⟩ := List.mem_flatMap.mp hline
      exact Field.isFieldLine_of_mem hmem
    · rw [hflatten, universalLines_written hclean hcr]

/-- The parser reads the email as it was written, however the text is cut into calls of `write`. -/
def Message.ReadBack (L : Locale) (S : Buffering UInt8) (fresh : Message → Nat → UInt8)
    (email : Message) : Prop :=
  ∃ text, email.generated L fresh = some text ∧
    ∀ chunks : List (List UInt8), (∀ beg ∈ chunks, beg ≠ []) → chunks.flatten = text →
      (EmailParser.writes (ParserImpl.lines L S) chunks (.init (.init none))).2.map (·.parser) =
        some (.complete email)

theorem readBack_iff_content (hL : L.Documented) (hascii : L.KeepsAscii) (h : email.SinglePart)
    (hcr : chr '\r' ∉ email.written L fresh) :
    email.ReadBack L S fresh ↔ (payloadOutput email.headers
      ((email.written L fresh).splitOn (chr '\n'))).content L S = email.payload := by
  obtain ⟨text, hne, htext, hwrites⟩ := exists_generated hL hascii h hcr
  constructor
  · rintro ⟨text', htext', hback⟩
    obtain rfl := Option.some.inj (htext.symm.trans htext')
    have hwhole : ∀ beg ∈ [text], beg ≠ [] := List.forall_mem_singleton.mpr hne
    have hsame := (hwrites _ hwhole (by simp)).symm.trans (hback _ hwhole (by simp))
    exact congrArg Message.payload (ParserImpl.complete.inj (Option.some.inj hsame))
  · intro hpayload
    refine ⟨text, htext, fun chunks hchunks hflatten => ?_⟩
    rw [hwrites chunks hchunks hflatten, hpayload, ← h.eq_mk]

end Read

section Payload

/-- An octet that is text on both sides. -/
structure IsPlainOctet (enc : Encoding) (ch : UInt8) : Prop where
  ascii : ch < 128
  ne_cr : ch ≠ chr '\r'
  ne_escape : enc = .qprint → ch ≠ chr '='

/-- A payload of one line that is not taken for a delimiter. Where it goes through the buffer of
the charset, nothing is trimmed off it and it fits. -/
structure Message.PayloadKept (email : Message) : Prop where
  oneLine : chr '\n' ∉ email.payload
  body : isBodyLine (getEncodingParams email.headers).boundary email.payload
  buffered : (getEncodingParams email.headers).textMode →
    trimCrln email.payload = email.payload ∧ IstreamLocaleCodecvt.FitsBuffer email.payload

theorem enc_ne_base64 (headers : Headers) : (getEncodingParams headers).enc ≠ .base64 := by
  have hparams : ((headers.find (octets "Content-Type")).elim EncodingParams.init
      EncodingParams.ofContentType).enc = .ascii := by
    cases headers.find (octets "Content-Type") with
    | none => rfl
    | some disp =>
      rw [Option.elim_some, EncodingParams.ofContentType]
      split_ifs <;> rfl
  rw [getEncodingParams]
  split
  · rw [hparams]
    exact Encoding.noConfusion
  · split_ifs
    · exact Encoding.noConfusion
    · rw [hparams]
      exact Encoding.noConfusion

variable {L : Locale} {S : Buffering UInt8} {headers : Headers} {body : List (List UInt8)}

theorem mem_bodyText {childBoundary : Option (List UInt8)} {ch : UInt8}
    (h : ch ∈ bodyText childBoundary body) : ∃ line ∈ body, ch ∈ line := by
  obtain ⟨line, hline, hmem⟩ := List.mem_flatten.mp h
  exact ⟨line, (List.takeWhile_sublist _).subset hline, hmem⟩

theorem content_payloadOutput
    (hcharset : (getEncodingParams headers).textMode →
      L.KeepsCharset (getEncodingParams headers).charset)
    (hbody : ∀ line ∈ body, ∀ ch ∈ line,
      IsPlainOctet (getEncodingParams headers).enc ch ∧ ch ≠ chr '\n') :
    (payloadOutput headers body).content L S =
      bodyText (getEncodingParams headers).boundary body := by
  have htext : ∀ ch ∈ (payloadOutput headers body).text,
      IsPlainOctet (getEncodingParams headers).enc ch ∧ ch ≠ chr '\n' := by
    intro ch hch
    obtain ⟨line, hline, hmem⟩ := mem_bodyText hch
    exact hbody line hline ch hmem
  refine PayloadOutput.content_text (enc_ne_base64 headers) ?_ (fun ch hch => (htext ch hch).1.ascii)
    (fun ch hch => ⟨(htext ch hch).1.ne_cr, (htext ch hch).2⟩)
    fun henc hmem => (htext _ hmem).1.ne_escape henc rfl
  intro charset hsome
  simp only [payloadOutput, Option.mem_def] at hsome
  split_ifs at hsome with hmode
  exact Option.some.inj hsome ▸ hcharset hmode

theorem bodyText_singleton_eq_iff {childBoundary : Option (List UInt8)} {line text : List UInt8}
    (hnil : text = [] → line = []) :
    bodyText childBoundary [line] = text ↔ isBodyLine childBoundary text ∧ line = text := by
  by_cases hline : isBodyLine childBoundary line
  · rw [bodyText, List.takeWhile_cons_of_pos hline, List.takeWhile_nil, List.flatten_singleton]
    exact ⟨fun h => ⟨h ▸ hline, h⟩, And.right⟩
  · rw [bodyText, List.takeWhile_cons_of_neg hline, List.flatten_nil]
    constructor
    · intro h
      rw [hnil h.symm] at hline
      exact absurd isBodyLine_nil hline
    · rintro ⟨hbody, rfl⟩
      exact absurd hbody hline

section Written

variable {fresh : Message → Nat → UInt8} {email : Message}

theorem written_of_not_textMode (h : ¬ (getEncodingParams email.headers).textMode) :
    email.written L fresh = email.payload := by
  rw [Message.written, GeneratorImpl.inputOf, if_neg h, FilteringIstream.written, if_neg h]

theorem mem_of_mem_written (h : (getEncodingParams email.headers).textMode) {ch : UInt8}
    (hmem : ch ∈ email.written L fresh) :
    ch ∈ (IstreamLocaleCodecvt.content (L.fromUtf (getEncodingParams email.headers).charset)
      (fresh email) ⟨email.payload, []⟩).1 := by
  rw [Message.written, GeneratorImpl.inputOf, if_pos h, FilteringIstream.written, if_pos h] at hmem
  obtain ⟨line, hline, hch⟩ := List.mem_flatten.mp hmem
  exact FilteringIstream.mem_of_mem_lines hline ch hch

/-- Where the text is one line, all that comes out of the buffer is written. -/
theorem written_of_textMode (h : (getEncodingParams email.headers).textMode)
    (hline : chr '\n' ∉ email.payload)
    (hfrom : L.fromUtf (getEncodingParams email.headers).charset (trimCrln email.payload) =
      some (trimCrln email.payload)) :
    email.written L fresh =
      (IstreamLocaleCodecvt.content (L.fromUtf (getEncodingParams email.headers).charset)
        (fresh email) ⟨email.payload, []⟩).1 := by
  have hbroken := @IstreamLocaleCodecvt.content_of_line_snd _ (fresh email) _ hline hfrom
  have hout : chr '\n' ∉ (IstreamLocaleCodecvt.content
      (L.fromUtf (getEncodingParams email.headers).charset) (fresh email)
        ⟨email.payload, []⟩).1 := fun hmem =>
    hline (IstreamLocaleCodecvt.mem_content_of_line hline hfrom hmem)
  rw [Message.written, GeneratorImpl.inputOf, if_pos h]
  dsimp only
  rw [hbroken]
  exact FilteringIstream.written_of_line hout _

/-- What is written is as plain as the payload, and as the buffer before it where the payload has
more than one line. -/
theorem plain_written
    (hcharset : (getEncodingParams email.headers).textMode →
      L.KeepsCharset (getEncodingParams email.headers).charset)
    (hpayload : ∀ ch ∈ email.payload, IsPlainOctet (getEncodingParams email.headers).enc ch)
    (hfresh : chr '\n' ∈ email.payload →
      ∀ i, IsPlainOctet (getEncodingParams email.headers).enc (fresh email i)) :
    ∀ ch ∈ email.written L fresh, IsPlainOctet (getEncodingParams email.headers).enc ch := by
  intro ch hch
  by_cases hmode : (getEncodingParams email.headers).textMode
  · have hfrom : ∀ text, (∀ ch ∈ text, IsPlainOctet (getEncodingParams email.headers).enc ch) →
        L.fromUtf (getEncodingParams email.headers).charset text = some text := fun text htext =>
      (hcharset hmode text fun ch hch => (htext ch hch).ascii).1
    have hmem := mem_of_mem_written hmode hch
    by_cases hline : chr '\n' ∈ email.payload
    · refine IstreamLocaleCodecvt.content_holds
        (P := IsPlainOctet (getEncodingParams email.headers).enc) (hpayload _ hline) ?_
        (hfresh hline) ⟨hpayload, by simp⟩ ch hmem
      intro text out htext hout
      obtain rfl := Option.some.inj ((hfrom text htext).symm.trans hout)
      exact htext
    · have htrim : trimCrln email.payload <+: email.payload := List.rdropWhile_prefix _ _
      exact hpayload ch (IstreamLocaleCodecvt.mem_content_of_line hline
        (hfrom _ fun ch hch => hpayload ch (htrim.subset hch)) hmem)
  · rw [written_of_not_textMode hmode] at hch
    exact hpayload ch hch

theorem written_eq_payload_iff (hline : chr '\n' ∉ email.payload)
    (hfrom : (getEncodingParams email.headers).textMode →
      L.fromUtf (getEncodingParams email.headers).charset (trimCrln email.payload) =
        some (trimCrln email.payload)) :
    (chr '\n' ∉ email.written L fresh ∧ (email.payload = [] → email.written L fresh = [])) ∧
      (email.written L fresh = email.payload ↔ ((getEncodingParams email.headers).textMode →
        trimCrln email.payload = email.payload ∧
          IstreamLocaleCodecvt.FitsBuffer email.payload)) := by
  by_cases hmode : (getEncodingParams email.headers).textMode
  · rw [written_of_textMode hmode hline (hfrom hmode)]
    refine ⟨⟨fun hmem => hline (IstreamLocaleCodecvt.mem_content_of_line hline (hfrom hmode) hmem),
      fun hnil => ?_⟩, ?_⟩
    · rw [hnil, IstreamLocaleCodecvt.content_of_nil]
    · rw [IstreamLocaleCodecvt.content_eq_iff hline (hfrom hmode)]
      exact ⟨fun h _ => h, fun h => h hmode⟩
  · rw [written_of_not_textMode hmode]
    exact ⟨⟨hline, id⟩, fun _ h => absurd h hmode, fun _ => rfl⟩

/-- An email whose headers come back comes back as a whole exactly when its payload is one line
that both sides leave as it is: neither of them writes or restores the end of a line. -/
theorem readBack_iff (hL : L.Documented) (hascii : L.KeepsAscii) (h : email.SinglePart)
    (hcharset : (getEncodingParams email.headers).textMode →
      L.KeepsCharset (getEncodingParams email.headers).charset)
    (hpayload : ∀ ch ∈ email.payload, IsPlainOctet (getEncodingParams email.headers).enc ch)
    (hfresh : chr '\n' ∈ email.payload →
      ∀ i, IsPlainOctet (getEncodingParams email.headers).enc (fresh email i)) :
    email.ReadBack L S fresh ↔ email.PayloadKept := by
  have hplain := plain_written hcharset hpayload hfresh
  have hcontent := @content_payloadOutput L S _ ((email.written L fresh).splitOn (chr '\n')) hcharset
    fun line hline ch hch =>
      ⟨hplain ch (mem_splitOn hline ch hch).1, (mem_splitOn hline ch hch).2⟩
  rw [readBack_iff_content hL hascii h fun hmem => (hplain _ hmem).ne_cr rfl, hcontent]
  by_cases hline : chr '\n' ∈ email.payload
  · refine iff_of_false (fun heq => ?_) fun hkept => hkept.oneLine hline
    rw [← heq] at hline
    obtain ⟨line, hmem, hlf⟩ := mem_bodyText hline
    exact (mem_splitOn hmem _ hlf).2 rfl
  · have htrim : trimCrln email.payload <+: email.payload := List.rdropWhile_prefix _ _
    obtain ⟨⟨hsingle, hnil⟩, hkept⟩ := @written_eq_payload_iff L fresh _ hline fun hmode =>
      (hcharset hmode _ fun ch hch => (hpayload ch (htrim.subset hch)).ascii).1
    rw [List.splitOn_eq_singleton hsingle, bodyText_singleton_eq_iff hnil, hkept]
    exact ⟨fun ⟨hbody, hbuffer⟩ => ⟨hline, hbody, hbuffer⟩, fun hk => ⟨hk.body, hk.buffered⟩⟩

theorem keepsHeader_textPlain :
    KeepsHeader (octets "Content-Type") ⟨octets "text/plain", []⟩ := by
  rw [KeepsHeader, if_pos (by decide)]
  have hchars : (octets "text/plain").all fun ch => isgraph ch ∧ ch ≠ chr ';' := by decide
  refine ⟨⟨by decide, fun ch hch => ?_, by decide⟩, [], rfl, by simp, List.Pairwise.nil, trivial,
    trivial⟩
  exact of_decide_eq_true (List.all_eq_true.mp hchars ch hch)

theorem plain_hello : ∀ ch ∈ octets "hello", IsPlainOctet .ascii ch := by
  intro ch hch
  have hascii : (octets "hello").all fun ch => ch < 128 := by decide
  have hclean : Clean (octets "hello") := clean_octets "hello"
  exact ⟨of_decide_eq_true (List.all_eq_true.mp hascii ch hch), (hclean ch hch).1,
    fun h => absurd h (by decide)⟩

theorem readBack_hello :
    Message.ReadBack utf8Locale (.flushed 1) (fun _ _ => 0)
      ⟨[(octets "Content-Type", ⟨octets "text/plain", []⟩)], octets "hello", []⟩ := by
  have hline : chr '\n' ∉ octets "hello" := by decide
  refine (readBack_iff utf8Locale_documented (fun _ _ => rfl) ⟨rfl, List.pairwise_singleton _ _,
    List.forall_mem_singleton.mpr ⟨by decide, keepsHeader_textPlain⟩⟩ (fun _ _ _ => ⟨rfl, rfl⟩)
    plain_hello fun hmem => absurd hmem hline).mpr ⟨hline, by decide, fun _ => ⟨by decide, ?_⟩⟩
  exact Or.inl (by decide)

end Written

end Payload

end Email

end Acqua
