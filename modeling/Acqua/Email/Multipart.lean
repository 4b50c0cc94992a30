import Acqua.Email.ParserImpl
import Acqua.Email.WriteChunks

/-! What becomes of the parts of a multipart message. -/

namespace Acqua

namespace Email

/-- A line that does not end the headers. -/
def isFieldLine : List UInt8 → Bool
  | [] => false
  | front :: rest => isspace front || (front :: rest).contains (chr ':')

section Headers

variable {L : Locale} {decodeParams : List UInt8 → Disposition → Option Disposition}

theorem HeaderParser.line_fieldLine {line : List UInt8} (hline : isFieldLine line)
    {p : HeaderParser} {headers : Headers} {r : LineResult}
    (h : p.line L decodeParams headers line = some r) : ¬ r.payload := by
  cases line with
  | nil => exact absurd hline (by decide)
  | cons front rest =>
    have hdot : front :: rest ≠ [chr '.'] := by
      intro heq
      rw [heq] at hline
      exact absurd hline (by decide)
    rw [HeaderParser.line, if_neg hdot] at h
    by_cases hfront : isspace front
    · rw [if_neg (not_not_intro hfront)] at h
      rw [← Option.some.inj h]
      exact Bool.false_ne_true
    · have hcolon : chr ':' ∈ front :: rest := by simpa [isFieldLine, hfront] using hline
      rw [if_pos hfront, if_neg (not_not_intro hcolon)] at h
      obtain ⟨headers', -, rfl⟩ := Option.map_eq_some_iff.mp h
      exact Bool.false_ne_true

end Headers

namespace ParserImpl

variable {L : Locale} {S : Buffering UInt8}

theorem parseLines_headers {head : List (List UInt8)} (hhead : ∀ line ∈ head, isFieldLine line)
    {p : HeaderParser} {email : Message} {headers : Headers}
    (hparse : p.parse L (decodeMimeheader L) email.headers (head ++ [[]]) = some headers)
    (boundary : Option (List UInt8)) :
    (lines L S).parseLines (head ++ [[]]) (.header p boundary email) =
      (head ++ [[]], some (toPayload { email with headers := headers } boundary)) := by
  induction head generalizing p email with
  | nil =>
    rw [List.nil_append, HeaderParser.parse] at hparse
    obtain ⟨r, hr, hheaders⟩ := Option.bind_eq_some_iff.mp hparse
    obtain ⟨headers', happend, rfl⟩ := Option.map_eq_some_iff.mp hr
    obtain rfl := Option.some.inj hheaders
    have hline : (lines L S).parseLine [] (.header p boundary email) =
        some (toPayload { email with headers := headers' } boundary) := by
      change parseLine L S [] _ = _
      rw [parseLine, hr]
      rfl
    rw [List.nil_append, LineParser.parseLines_cons_some rfl hline]
    rfl
  | cons line head ih =>
    rw [List.cons_append, HeaderParser.parse] at hparse
    obtain ⟨r, hr, hheaders⟩ := Option.bind_eq_some_iff.mp hparse
    have hpayload := HeaderParser.line_fieldLine (hhead line (by simp)) hr
    rw [if_neg hpayload] at hheaders
    let email' : Message := { email with headers := r.headers }
    have hparse' : r.parser.parse L (decodeMimeheader L) email'.headers (head ++ [[]]) =
        some headers := hheaders
    have hline : (lines L S).parseLine line (.header p boundary email) =
        some (.header r.parser boundary email') := by
      change parseLine L S line _ = _
      rw [parseLine, hr, Option.bind_some]
      exact if_neg hpayload
    rw [List.cons_append, LineParser.parseLines_cons_some rfl hline,
      ih (fun l hl => hhead l (by simp [hl])) hparse']

/-- Nothing that could be a subpart. -/
def TopLevel : ParserImpl → Prop
  | absent => False
  | header _ boundary email => boundary = none ∧ email.subparts = []
  | payload _ parentBoundary _ email subpart =>
    parentBoundary = none ∧ email.subparts = [] ∧ subpart = absent
  | complete email => email.subparts = []

theorem topLevel_toPayload {email : Message} (h : email.subparts = []) :
    (toPayload email none).TopLevel := ⟨rfl, h, rfl⟩

theorem topLevel_payloadLine {line : List UInt8} {childBoundary : Option (List UInt8)}
    {out : PayloadOutput} {email : Message} (hemail : email.subparts = [])
    {parsed : Option ParserImpl} {q : ParserImpl}
    (h : payloadLine L S line childBoundary none out email absent parsed = some q) :
    q.TopLevel := by
  have hsubparts : email.subparts ++ finished L S absent = [] := by rw [hemail]; rfl
  unfold payloadLine at h
  dsimp only at h
  split_ifs at h with hperiod hchild hparent hprogress
  · rw [← Option.some.inj h]
    exact hsubparts
  · rw [← Option.some.inj h]
    exact hsubparts
  · exact absurd hparent Bool.false_ne_true
  · exact absurd hprogress Bool.false_ne_true
  · rw [← Option.some.inj h]
    exact ⟨rfl, hemail, rfl⟩

theorem topLevel_parseLine {line : List UInt8} {p q : ParserImpl} (hp : p.TopLevel)
    (h : parseLine L S line p = some q) : q.TopLevel := by
  cases p with
  | absent => exact absurd hp id
  | header parser boundary email =>
    obtain ⟨rfl, hemail⟩ := hp
    obtain ⟨r, -, hr⟩ := Option.bind_eq_some_iff.mp h
    dsimp only at hr
    split_ifs at hr with hpayload htaken
    · rw [← Option.some.inj hr]
      exact topLevel_toPayload hemail
    · have hemail' : ({ email with headers := r.headers } : Message).subparts = [] := hemail
      exact topLevel_payloadLine hemail' hr
    · rw [← Option.some.inj hr]
      exact ⟨rfl, hemail⟩
  | payload childBoundary parentBoundary out email subpart =>
    obtain ⟨rfl, hemail, rfl⟩ := hp
    exact topLevel_payloadLine hemail h
  | complete email =>
    rw [← Option.some.inj h]
    exact hp

theorem topLevel_parseLines {text : List (List UInt8)} {p q : ParserImpl} (hp : p.TopLevel)
    (h : ((lines L S).parseLines text p).2 = some q) : q.TopLevel := by
  induction text generalizing p with
  | nil =>
    rw [← Option.some.inj h]
    exact hp
  | cons line text ih =>
    by_cases hprogress : (lines L S).inProgress p
    · cases hline : (lines L S).parseLine line p with
      | none =>
        rw [LineParser.parseLines_cons_none hprogress hline] at h
        exact absurd h (Option.some_ne_none q).symm
      | some p' =>
        rw [LineParser.parseLines_cons_some hprogress hline] at h
        exact ih (topLevel_parseLine hp hline) h
    · rw [LineParser.parseLines_of_complete hprogress] at h
      rw [← Option.some.inj h]
      exact hp

theorem TopLevel.finished_eq {p : ParserImpl} (hp : p.TopLevel) :
    ∃ email, p.finished L S = [email] ∧ email.subparts = [] := by
  cases p with
  | absent => exact absurd hp id
  | header parser boundary email => exact ⟨email, rfl, hp.2⟩
  | payload childBoundary parentBoundary out email subpart =>
    obtain ⟨-, hemail, rfl⟩ := hp
    exact ⟨_, rfl, by rw [hemail]; rfl⟩
  | complete email => exact ⟨email, rfl, hp⟩

end ParserImpl

/-- The lines of the headers and of the body of a part. -/
structure Part where
  headers : List (List UInt8)
  body : List (List UInt8)

def Part.lines (part : Part) : List (List UInt8) := part.headers ++ [] :: part.body

section Multipart

variable (L : Locale) (S : Buffering UInt8)

/-- The message that is read from some lines. -/
def readMessage (text : List (List UInt8)) : Option Message :=
  ((ParserImpl.lines L S).parseLines text (.init none)).2.bind fun p => (p.finished L S).head?

/-- The body of a multipart message. -/
def multipartLines (b : List UInt8) (parts : List Part) : List (List UInt8) :=
  parts.flatMap (fun part => (octets "--" ++ b) :: part.lines) ++ [octets "--" ++ b ++ octets "--"]

/-- The subparts are the parts, each as it is read by itself, and no line of them is in the
payload. -/
def ReadAsMultipart (head : List (List UInt8)) (b : List UInt8) (parts : List Part) : Prop :=
  ∃ email, readMessage L S (head ++ [] :: multipartLines b parts) = some email ∧
    List.Forall₂ (fun part sub => readMessage L S part.lines = some sub) parts email.subparts ∧
    ∀ part ∈ parts, ∀ line ∈ part.lines, line ≠ [] → ¬ line <:+: email.payload

variable {L S}

theorem subparts_eq_nil_of_readMessage {text : List (List UInt8)} {email : Message}
    (h : readMessage L S text = some email) : email.subparts = [] := by
  obtain ⟨q, hq, hhead⟩ := Option.bind_eq_some_iff.mp h
  have htop : (ParserImpl.init none).TopLevel := ⟨rfl, rfl⟩
  obtain ⟨email', hfinished, hsubparts⟩ :=
    (ParserImpl.topLevel_parseLines htop hq).finished_eq (L := L) (S := S)
  rw [hfinished, List.head?_cons, Option.some.injEq] at hhead
  rw [← hhead, hsubparts]

theorem ParserImpl.payloadLine_isSome (line : List UInt8)
    (childBoundary : Option (List UInt8)) (out : PayloadOutput) (email : Message) :
    ∃ q, payloadLine L S line childBoundary none out email absent none = some q := by
  unfold payloadLine
  dsimp only
  by_cases hperiod : line = [chr '.']
  · exact ⟨_, if_pos hperiod⟩
  · rw [if_neg hperiod]
    by_cases hchild : isChildMultipartBegin childBoundary line
    · exact ⟨_, if_pos hchild⟩
    · rw [if_neg hchild]
      exact ⟨_, rfl⟩

/-- Headers, and then the parts: they become subparts exactly if there is none. -/
theorem readAsMultipart_iff {head : List (List UInt8)} (hhead : ∀ line ∈ head, isFieldLine line)
    {headers : Headers}
    (hparse : HeaderParser.init.parse L (decodeMimeheader L) [] (head ++ [[]]) = some headers)
    (b : List UInt8) (parts : List Part) : ReadAsMultipart L S head b parts ↔ parts = [] := by
  constructor
  · rintro ⟨email, hemail, hparts, -⟩
    rw [subparts_eq_nil_of_readMessage hemail] at hparts
    exact List.forall₂_nil_right_iff.mp hparts
  · rintro rfl
    have hparse' : HeaderParser.init.parse L (decodeMimeheader L)
        (⟨[], [], []⟩ : Message).headers (head ++ [[]]) = some headers := hparse
    have hheaders := ParserImpl.parseLines_headers (S := S) hhead hparse' none
    obtain ⟨q, hq⟩ := ParserImpl.payloadLine_isSome (L := L) (S := S)
      (octets "--" ++ b ++ octets "--") (getEncodingParams headers).boundary
      ⟨(getEncodingParams headers).enc, if (getEncodingParams headers).textMode then
        some (getEncodingParams headers).charset else none, []⟩ ⟨headers, [], []⟩
    have hlast : ((ParserImpl.lines L S).parseLines [octets "--" ++ b ++ octets "--"]
        (ParserImpl.toPayload ⟨headers, [], []⟩ none)).2 = some q := by
      rw [LineParser.parseLines_cons_some rfl hq]
      rfl
    have htop : (ParserImpl.toPayload ⟨headers, [], []⟩ none).TopLevel :=
      ParserImpl.topLevel_toPayload rfl
    obtain ⟨email, hfinished, hsubparts⟩ :=
      (ParserImpl.topLevel_parseLines htop hlast).finished_eq (L := L) (S := S)
    have hsplit : head ++ [] :: multipartLines b [] =
        (head ++ [[]]) ++ [octets "--" ++ b ++ octets "--"] := by simp [multipartLines]
    refine ⟨email, ?_, by rw [hsubparts]; exact List.Forall₂.nil, by simp⟩
    rw [readMessage, hsplit, ParserImpl.init,
      LineParser.parseLines_append_some (congrArg Prod.snd hheaders), hlast, Option.bind_some,
      hfinished]
    rfl

theorem readAsMultipart_iff_of_one_part :
    ReadAsMultipart utf8Locale (.flushed 1)
        [octets "Content-Type: multipart/mixed; boundary=x"] (octets "x")
        [⟨[octets "Subject: a"], [octets "text"]⟩] ↔
      [(⟨[octets "Subject: a"], [octets "text"]⟩ : Part)] = [] := by
  have hparse : HeaderParser.init.parse utf8Locale (decodeMimeheader utf8Locale) []
      [octets "Content-Type: multipart/mixed; boundary=x", []] = some [(octets "Content-Type",
        ⟨octets "multipart/mixed", [(octets "boundary", octets "x")]⟩)] := by decide
  exact readAsMultipart_iff (by decide) hparse _ _

/-- A part of one line is not read. -/
theorem not_readAsMultipart_of_one_part :
    (HeaderParser.init.parse utf8Locale (decodeMimeheader utf8Locale) []
      [octets "Content-Type: multipart/mixed; boundary=x", []]).map
        (fun headers => (getEncodingParams headers).boundary) = some (some (octets "x")) ∧
      ¬ ReadAsMultipart utf8Locale (.flushed 1) [octets "Content-Type: multipart/mixed; boundary=x"]
        (octets "x") [⟨[], [octets "text"]⟩] := by
  refine ⟨by decide, ?_⟩
  rintro ⟨email, hemail, hparts, -⟩
  rw [subparts_eq_nil_of_readMessage hemail] at hparts
  exact absurd (List.forall₂_nil_right_iff.mp hparts) (List.cons_ne_nil _ _)

end Multipart

end Email

end Acqua
