import Acqua.Email.HeaderBlock
import Acqua.Email.Multipart

/-! What the payload parser is configured with when a line that is no field ends the headers. -/

namespace Acqua

namespace Email

/-- A line that the header parser cannot take apart. -/
def isBrokenLine (line : List UInt8) : Bool :=
  !isFieldLine line && line ≠ [] && line ≠ [chr '.']

namespace Headers

theorem update_eq_self_iff {f : Disposition → Option Disposition} {name : List UInt8}
    {headers : Headers} :
    headers.update f name = some headers ↔
      ∃ disp ∈ headers.find name, f disp = some disp := by
  induction headers with
  | nil =>
    rw [update, find]
    cases f ⟨[], []⟩ <;> simp
  | cons elem headers ih =>
    obtain ⟨key, disp⟩ := elem
    by_cases hkey : iequals key name
    · have hfind : find ((key, disp) :: headers) name = some disp := by simp [find, hkey]
      rw [update, if_pos hkey, hfind]
      rcases hf : f disp with _ | disp' <;> simp [hf]
    · have hfind : find ((key, disp) :: headers) name = find headers name := by
        simp [find, hkey]
      rw [update, if_neg hkey, hfind, ← ih]
      cases update f name headers <;> simp

end Headers

theorem LineParser.parseLines_singleton {σ : Type*} {P : LineParser σ} {parser : σ}
    (h : P.inProgress parser) (line : List UInt8) :
    (P.parseLines [line] parser).2 = P.parseLine line parser := by
  rw [parseLines, if_pos h]
  cases P.parseLine line parser <;> rfl

section Abrupt

variable (L : Locale) (S : Buffering UInt8)

/-- Nothing is left to store: there is no field, its value is blank, or the entry of its name,
which is there already, stays as it is. -/
def NothingPending (p : HeaderParser) (headers : Headers) : Prop :=
  p.name = [] ∨ p.params = [] ∨
    ∃ disp ∈ headers.find p.name, storeValue L p.name p.params disp = some disp

/-- The line is handed to a payload parser that is configured with all the fields before it,
which are those that an empty line would have stored. -/
def StoresAll (head : List (List UInt8)) (line : List UInt8) (boundary : Option (List UInt8)) :
    Prop :=
  ∃ headers, HeaderParser.init.parse L (decodeMimeheader L) [] (head ++ [[]]) = some headers ∧
    ((ParserImpl.lines L S).parseLines (head ++ [line]) (.init boundary)).2 =
      ParserImpl.parseLine L S line (ParserImpl.toPayload ⟨headers, [], []⟩ boundary)

variable {L S} {p : HeaderParser}

theorem HeaderParser.append_eq_self_iff {headers : Headers} :
    p.append L (decodeMimeheader L) headers = some headers ↔ NothingPending L p headers := by
  rw [append, NothingPending]
  by_cases hname : p.name = []
  · simp [hname]
  · by_cases hparams : p.params = []
    · simp [hparams]
    · rw [if_pos ⟨hname, hparams⟩, or_iff_right hname, or_iff_right hparams]
      exact Headers.update_eq_self_iff

theorem HeaderParser.line_broken {line : List UInt8} (hline : isBrokenLine line)
    (headers : Headers) :
    p.line L (decodeMimeheader L) headers line = some ⟨p, headers, true, false⟩ := by
  simp only [isBrokenLine, Bool.and_eq_true, Bool.not_eq_true', decide_eq_true_eq] at hline
  obtain ⟨⟨hfield, hne⟩, hperiod⟩ := hline
  cases line with
  | nil => exact absurd rfl hne
  | cons front rest =>
    obtain ⟨hfront, hcolon⟩ := Bool.or_eq_false_iff.mp hfield
    have hcolon : chr ':' ∉ front :: rest := by simpa using hcolon
    rw [HeaderParser.line, if_neg hperiod, if_pos (by simp [hfront]), if_pos hcolon]

namespace ParserImpl

/-- The state after some lines of the headers stands for these lines. -/
theorem parse_of_parseLines {head : List (List UInt8)} (hhead : ∀ line ∈ head, isFieldLine line)
    {p₀ : HeaderParser} {boundary : Option (List UInt8)} {email₀ email : Message}
    (h : ((lines L S).parseLines head (.header p₀ boundary email₀)).2 =
      some (.header p boundary email)) (rest : List (List UInt8)) :
    p₀.parse L (decodeMimeheader L) email₀.headers (head ++ rest) =
        p.parse L (decodeMimeheader L) email.headers rest ∧
      email = { email₀ with headers := email.headers } := by
  induction head generalizing p₀ email₀ with
  | nil =>
    cases h
    exact ⟨rfl, by cases email; rfl⟩
  | cons line head ih =>
    rcases hr : p₀.line L (decodeMimeheader L) email₀.headers line with _ | r
    · have hline : (lines L S).parseLine line (.header p₀ boundary email₀) = none := by
        change parseLine L S line _ = none
        rw [parseLine, hr, Option.bind_none]
      rw [LineParser.parseLines_cons_none rfl hline] at h
      cases h
    · have hpayload := HeaderParser.line_fieldLine (hhead line List.mem_cons_self) hr
      have hline : (lines L S).parseLine line (.header p₀ boundary email₀) =
          some (.header r.parser boundary { email₀ with headers := r.headers }) := by
        change parseLine L S line _ = _
        rw [parseLine, hr, Option.bind_some]
        exact if_neg hpayload
      rw [LineParser.parseLines_cons_some rfl hline] at h
      obtain ⟨hparse, hemail⟩ := ih (fun l hl => hhead l (List.mem_cons_of_mem _ hl)) h
      refine ⟨?_, hemail⟩
      rw [List.cons_append, HeaderParser.parse, hr, Option.bind_eq_bind, Option.bind_some,
        if_neg hpayload, hparse]

/-- A broken line goes to the payload parser, which is configured with what is stored. -/
theorem parseLine_broken {line : List UInt8} (hline : isBrokenLine line)
    (boundary : Option (List UInt8)) (email : Message) :
    parseLine L S line (.header p boundary email) =
      parseLine L S line (toPayload email boundary) := by
  rw [parseLine, HeaderParser.line_broken hline, Option.bind_some]
  cases email
  rfl

/-- The message that a state is about. -/
def message : ParserImpl → Option Message
  | absent => none
  | header _ _ email => some email
  | payload _ _ _ email _ => some email
  | complete email => some email

theorem headers_payloadLine {line : List UInt8} {childBoundary parentBoundary : Option (List UInt8)}
    {out : PayloadOutput} {email : Message} {q : ParserImpl}
    (h : payloadLine L S line childBoundary parentBoundary out email absent (some absent) = some q) :
    q.message.map (·.headers) = some email.headers := by
  unfold payloadLine at h
  dsimp only at h
  split_ifs at h <;> cases h <;> rfl

/-- The headers can be told from what the payload parser makes of a line. -/
theorem headers_of_parseLine_eq {line : List UInt8} {boundary : Option (List UInt8)}
    {email email' : Message}
    (h : parseLine L S line (toPayload email boundary) =
      parseLine L S line (toPayload email' boundary)) : email.headers = email'.headers := by
  obtain ⟨q, hq⟩ : ∃ q, parseLine L S line (toPayload email boundary) = some q := by
    change ∃ q, payloadLine L S line _ boundary _ email absent (some absent) = some q
    unfold payloadLine
    dsimp only
    split_ifs <;> exact ⟨_, rfl⟩
  have hheaders := headers_payloadLine (L := L) (S := S) hq
  have hheaders' := headers_payloadLine (L := L) (S := S) (h ▸ hq)
  exact Option.some.inj (hheaders.symm.trans hheaders')

end ParserImpl

theorem storesAll_iff_append {head : List (List UInt8)} (hhead : ∀ line ∈ head, isFieldLine line)
    {line : List UInt8} (hline : isBrokenLine line) {boundary : Option (List UInt8)}
    {email : Message}
    (hstate : ((ParserImpl.lines L S).parseLines head (.init boundary)).2 =
      some (.header p boundary email)) :
    StoresAll L S head line boundary ↔
      p.append L (decodeMimeheader L) email.headers = some email.headers := by
  obtain ⟨hparse, hemail⟩ := ParserImpl.parse_of_parseLines hhead hstate [[]]
  have hend : HeaderParser.init.parse L (decodeMimeheader L) [] (head ++ [[]]) =
      p.append L (decodeMimeheader L) email.headers := by
    rw [hparse, HeaderParser.parse, HeaderParser.line]
    cases p.append L (decodeMimeheader L) email.headers <;> rfl
  have hlast : ((ParserImpl.lines L S).parseLines (head ++ [line]) (.init boundary)).2 =
      ParserImpl.parseLine L S line (ParserImpl.toPayload email boundary) := by
    rw [LineParser.parseLines_append_some hstate, LineParser.parseLines_singleton rfl]
    exact ParserImpl.parseLine_broken hline boundary email
  rw [StoresAll, hend, hlast]
  constructor
  · rintro ⟨headers, happend, hsame⟩
    rw [happend, ParserImpl.headers_of_parseLine_eq hsame]
  · intro happend
    refine ⟨email.headers, happend, ?_⟩
    rw [hemail]

/-- All fields before a line that is no field are stored exactly when nothing is left to store,
since only the two other ends of the headers store the last one. -/
theorem storesAll_iff {head : List (List UInt8)} (hhead : ∀ line ∈ head, isFieldLine line)
    {line : List UInt8} (hline : isBrokenLine line) {boundary : Option (List UInt8)}
    {email : Message}
    (hstate : ((ParserImpl.lines L S).parseLines head (.init boundary)).2 =
      some (.header p boundary email)) :
    StoresAll L S head line boundary ↔ NothingPending L p email.headers :=
  (storesAll_iff_append hhead hline hstate).trans HeaderParser.append_eq_self_iff

theorem storesAll_iff_of_encoding :
    StoresAll utf8Locale (.flushed 1) [octets "Content-Transfer-Encoding: quoted-printable"]
        (octets "no blank line") none ↔
      NothingPending utf8Locale
        ⟨octets "Content-Transfer-Encoding", octets "quoted-printable"⟩ [] :=
  @storesAll_iff _ _ _ _ (by decide) _ (by decide) _ ⟨[], [], []⟩ rfl

theorem not_storesAll_of_encoding :
    ¬ StoresAll utf8Locale (.flushed 1) [octets "Content-Transfer-Encoding: quoted-printable"]
        (octets "no blank line") none := by
  intro h
  have hsame := (@storesAll_iff_append _ _ _ _ (by decide) _ (by decide) _ ⟨[], [], []⟩ rfl).mp h
  rcases HeaderParser.append_eq_self_iff.mp hsame with hname | hparams | ⟨disp, hfind, -⟩
  · exact absurd hname (by decide)
  · exact absurd hparams (by decide)
  · cases hfind

end Abrupt

end Email

end Acqua
