import Acqua.Email.HeaderBlock
import Acqua.Email.PayloadText
import Acqua.Iostreams.Base64Text
import Acqua.Iostreams.QprintLayout

/-! Whether a transfer encoding is undone in the payload of a message that is no text. -/

namespace Acqua

namespace Email

/-- The encoding is named in any letter case, and the content is no text. -/
structure NonText (headers : Headers) (transfer : List UInt8) : Prop where
  contentType : ∀ disp ∈ headers.find (octets "Content-Type"),
    ¬ istartsWith disp.str (octets "text/")
  transfer : ∃ disp ∈ headers.find (octets "Content-Transfer-Encoding"),
    iequals disp.str transfer

/-- What is no character of US-ASCII is skipped. -/
def Locale.SkipsNonAscii (L : Locale) : Prop :=
  ∀ str, L.toUtf str (octets "US-ASCII") = some (Qprint.ascii str)

/-- The standard encoding of some octets in any layout of lines. -/
inductive EncodedBody
  | base64 (data : List UInt8) (lines : List (List UInt8))
    (h : lines.flatten = Base64.text base64Traits data)
  | qprint (us : List Qprint.Octet)

namespace EncodedBody

def transfer : EncodedBody → List UInt8
  | base64 .. => octets "base64"
  | qprint _ => octets "quoted-printable"

def data : EncodedBody → List UInt8
  | base64 data .. => data
  | qprint us => Qprint.data us

def lines : EncodedBody → List (List UInt8)
  | base64 _ lines _ => lines
  | qprint us => Qprint.layout us

/-- Base64 is not decoded at all. Quoted-printable is where each escape has two decimal digits and
is for a character of US-ASCII, only the last line ends in a soft line break, and no line ends the
message. -/
def Undoable (childBoundary : Option (List UInt8)) : EncodedBody → Prop
  | base64 data .. => data = []
  | qprint us => (∀ line ∈ Qprint.layout us, isBodyLine childBoundary line) ∧ Qprint.Kept us

end EncodedBody

section Params

variable {headers : Headers}

theorem NonText.params_base64 (h : NonText headers (octets "base64")) :
    (getEncodingParams headers).enc = .ascii ∧ (getEncodingParams headers).textMode = false := by
  obtain ⟨hcontent, disp, hfind, hbase64⟩ := h
  have hqprint : ¬ iequals disp.str (octets "quoted-printable") := by
    rw [iequals_iff] at hbase64 ⊢
    rw [hbase64]
    decide +kernel
  rw [getEncodingParams, Option.mem_def.mp hfind]
  dsimp only
  rw [if_neg hqprint]
  cases htype : headers.find (octets "Content-Type") with
  | none => exact ⟨rfl, rfl⟩
  | some contenttype =>
    have htext := hcontent contenttype htype
    simp [EncodingParams.ofContentType, htext, EncodingParams.init]

/-- Quoted-printable makes a text of any content, and its charset is not looked for. -/
theorem NonText.params_qprint (h : NonText headers (octets "quoted-printable")) :
    (getEncodingParams headers).enc = .qprint ∧ (getEncodingParams headers).textMode = true ∧
      (getEncodingParams headers).charset = octets "US-ASCII" := by
  obtain ⟨hcontent, disp, hfind, hqprint⟩ := h
  rw [getEncodingParams, Option.mem_def.mp hfind]
  dsimp only
  rw [if_pos hqprint]
  cases htype : headers.find (octets "Content-Type") with
  | none => exact ⟨rfl, rfl, rfl⟩
  | some contenttype =>
    have htext := hcontent contenttype htype
    simp [EncodingParams.ofContentType, htext, EncodingParams.init]

end Params

section Base64

variable {L : Locale} {S : Buffering UInt8} {childBoundary : Option (List UInt8)}
  {lines : List (List UInt8)} {data : List UInt8}

theorem mem_of_base64 (h : lines.flatten = Base64.text base64Traits data) :
    ∀ line ∈ lines, ∀ ch ∈ line, base64Traits.IsChar ch := by
  intro line hline ch hch
  refine Base64.isChar_text base64Traits data ch ?_
  rw [← h]
  exact List.mem_flatten.mpr ⟨line, hline, hch⟩

theorem clean_of_base64 (h : lines.flatten = Base64.text base64Traits data) :
    ∀ line ∈ lines, Clean line := by
  intro line hline ch hch
  have hchar := mem_of_base64 h line hline ch hch
  constructor
  · rintro rfl
    exact absurd hchar (by unfold Base64Traits.IsChar; decide)
  · rintro rfl
    exact absurd hchar (by unfold Base64Traits.IsChar; decide)

theorem isBodyLine_of_base64 (h : lines.flatten = Base64.text base64Traits data) :
    ∀ line ∈ lines, isBodyLine childBoundary line := by
  intro line hline
  have hchars := mem_of_base64 h line hline
  have hperiod : line ≠ [chr '.'] := by
    rintro rfl
    exact absurd (hchars (chr '.') (by simp)) (by unfold Base64Traits.IsChar; decide)
  have hchild : ¬ ParserImpl.isChildMultipartBegin childBoundary line := by
    cases childBoundary with
    | none => exact Bool.false_ne_true
    | some boundary =>
      rw [ParserImpl.isChildMultipartBegin, Option.elim_some, decide_eq_true_iff]
      rintro rfl
      exact absurd (hchars (chr '-') (List.mem_append_left _ (by decide)))
        (by unfold Base64Traits.IsChar; decide)
  rw [isBodyLine, Bool.and_eq_true_iff]
  exact ⟨by simpa using hperiod, by simpa using hchild⟩

/-- The payload is the text of the body. -/
theorem content_of_base64 {headers : Headers} (hnonText : NonText headers (octets "base64"))
    (h : lines.flatten = Base64.text base64Traits data) :
    (payloadOutput headers lines).content L S = Base64.text base64Traits data := by
  obtain ⟨henc, htext⟩ := hnonText.params_base64
  have hout : payloadOutput headers lines = ⟨.ascii, none, lines.flatten⟩ := by
    rw [payloadOutput, henc, htext, bodyText,
      List.takeWhile_eq_self_iff.mpr (isBodyLine_of_base64 h)]
    rfl
  rw [hout, h]
  rfl

end Base64

section Qprint

variable {L : Locale} {S : Buffering UInt8} {us : List Qprint.Octet}

theorem content_ascii (hskips : L.SkipsNonAscii) {text : List UInt8}
    (htext : ∀ ch ∈ text, ch ≠ chr '\r' ∧ ch ≠ chr '\n') :
    OstreamLocaleCodecvt.content (fun str => L.toUtf str (octets "US-ASCII")) text =
      Qprint.ascii text := by
  by_cases hne : text = []
  · subst hne
    rfl
  · refine OstreamLocaleCodecvt.content_line ?_ (hskips text) hne
    intro ch hch
    rw [OstreamLocaleCodecvt.isSep_iff]
    exact not_or.mpr (htext ch hch)

/-- The payload is what the decoder makes of the lines, as a text of US-ASCII. -/
theorem content_of_qprint {headers : Headers} (hskips : L.SkipsNonAscii)
    (hnonText : NonText headers (octets "quoted-printable")) (us : List Qprint.Octet) :
    (payloadOutput headers (Qprint.layout us)).content L S =
      Qprint.ascii (QprintDecoder.written S
        (bodyText (getEncodingParams headers).boundary (Qprint.layout us))) := by
  obtain ⟨henc, htext, hcharset⟩ := hnonText.params_qprint
  rw [payloadOutput, henc, htext, hcharset]
  refine content_ascii hskips (Qprint.not_newline_written S ?_)
  intro ch hch
  obtain ⟨line, hline, hmem⟩ := List.mem_flatten.mp hch
  exact Qprint.not_newline_of_mem_layout ((List.takeWhile_subset _) hline) ch hmem

end Qprint

section Undone

variable {L : Locale} {head : List (List UInt8)} {headers : Headers}

theorem EncodedBody.clean (body : EncodedBody) : ∀ line ∈ body.lines, Clean line := by
  cases body with
  | base64 data lines h => exact clean_of_base64 h
  | qprint us => exact fun line hline => Qprint.not_newline_of_mem_layout hline

/-- The octets are the payload, whatever the stream in front of the decoder does, exactly where
their encoding can be undone. -/
theorem encodingUndone_iff (body : EncodedBody)
    (hhead : ∀ line ∈ head, isFieldLine line ∧ Clean line)
    (hparse : HeaderParser.init.parse L (decodeMimeheader L) [] (head ++ [[]]) = some headers)
    (hnonText : NonText headers body.transfer) (hskips : L.SkipsNonAscii) :
    (∀ S, StoresPayload L S head body.lines body.data) ↔
      body.Undoable (getEncodingParams headers).boundary := by
  simp only [storesPayload_iff hhead hparse body.clean]
  cases body with
  | base64 data lines h =>
    change (∀ S, (payloadOutput headers lines).content L S = data) ↔ data = []
    simp only [content_of_base64 hnonText h]
    constructor
    · intro hall
      have heq := hall (.flushed 1)
      by_contra hne
      have hlt := Base64.length_lt_text base64Traits data hne
      rw [heq] at hlt
      exact absurd hlt (Nat.lt_irrefl _)
    · rintro rfl S
      rfl
  | qprint us =>
    change (∀ S, (payloadOutput headers (Qprint.layout us)).content L S = Qprint.data us) ↔ _
    simp only [content_of_qprint hskips hnonText]
    exact Qprint.ascii_written_layout_iff isBodyLine_nil us

end Undone

section Fixed

/-- A locale that takes only US-ASCII for what it is. -/
def asciiLocale : Locale :=
  { utf8Locale with toUtf := fun str charset =>
      if charset = octets "US-ASCII" then some (Qprint.ascii str) else some str }

theorem skipsNonAscii_asciiLocale : asciiLocale.SkipsNonAscii := fun _ => rfl

theorem isFieldLine_transfer :
    ∀ line ∈ [octets "Content-Transfer-Encoding: Quoted-Printable"], isFieldLine line ∧ Clean line := by
  intro line hline
  rw [List.mem_singleton.mp hline]
  exact ⟨by decide, clean_octets "Content-Transfer-Encoding: Quoted-Printable"⟩

theorem encodingUndone_iff_of_qprint :
    let body := EncodedBody.qprint
      [⟨chr 'a', false, false, by decide⟩, ⟨16, true, true, by decide⟩]
    (∀ S, StoresPayload asciiLocale S
        [octets "Content-Transfer-Encoding: Quoted-Printable"] body.lines body.data) ↔
      body.Undoable (getEncodingParams [(octets "Content-Transfer-Encoding",
        ⟨octets "Quoted-Printable", []⟩)]).boundary :=
  encodingUndone_iff _ isFieldLine_transfer (by decide)
    ⟨by decide, ⟨octets "Quoted-Printable", []⟩, by decide, by decide⟩ skipsNonAscii_asciiLocale

theorem not_encodingUndone_of_base64 :
    Base64.text base64Traits (octets "a") = octets "YQ==" ∧
      ¬ StoresPayload asciiLocale (.flushed 1) [octets "Content-Transfer-Encoding: base64"]
        [octets "YQ=="] (octets "a") := by
  have htext : [octets "YQ=="].flatten = Base64.text base64Traits (octets "a") := by decide
  have hhead : ∀ line ∈ [octets "Content-Transfer-Encoding: base64"],
      isFieldLine line ∧ Clean line := by
    intro line hline
    rw [List.mem_singleton.mp hline]
    exact ⟨by decide, clean_octets "Content-Transfer-Encoding: base64"⟩
  have hparse : HeaderParser.init.parse asciiLocale (decodeMimeheader asciiLocale) []
      ([octets "Content-Transfer-Encoding: base64"] ++ [[]]) =
        some [(octets "Content-Transfer-Encoding", ⟨octets "base64", []⟩)] := by decide
  refine ⟨by decide, ?_⟩
  rw [storesPayload_iff hhead hparse (clean_of_base64 htext), content_of_base64
    ⟨by decide, ⟨octets "base64", []⟩, by decide, by decide⟩ htext]
  decide

end Fixed

end Email

end Acqua
