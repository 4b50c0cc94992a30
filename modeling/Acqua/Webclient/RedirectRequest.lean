import Acqua.Email.ParamMatching
import Acqua.Webclient.Redirect
import Acqua.Webclient.ResponseRead

/-! What `on_move` makes of the request that was sent. -/

namespace Acqua

namespace Webclient

open Asio (crlf)
open Email (Clean)

namespace Method

def text : Method → List UInt8
  | get => octets "GET"
  | post => octets "POST"

/-- The method that a redirect is followed with. -/
def moved (statusCode : Option Int) (method : Method) : Method :=
  if statusCode = some 303 then get else method

/-- The request that a redirect is followed with; a line end has come in front of the content. -/
def req (content : List UInt8) : Method → Req
  | get => getReq
  | post => nonEncodedPost (crlf ++ content)

end Method

/-- A request as it is written, up to its content. -/
structure Sent where
  method : Method
  target : List UInt8
  host : List UInt8
  first : HeaderField
  fields : List HeaderField
  target_ne_nil : target ≠ []
  target_chars : ∀ ch ∈ target, ¬ isspace ch
  host_ne_nil : host ≠ []
  host_chars : ∀ ch ∈ host, ¬ isspace ch
  values : ∀ f ∈ first :: fields, f.value ≠ []

namespace Sent

variable (s : Sent)

/-- The request line. -/
def line : List UInt8 :=
  s.method.text ++ (octets " " ++ (s.target ++ (octets " HTTP/1.1\r\n")))

def hostLine : List UInt8 := octets "Host:" ++ (octets " " ++ (s.host ++ octets "\r\n"))

def text : List UInt8 := s.line ++ (s.hostLine ++ headerText s.first s.fields)

def elems : List (List UInt8 × List UInt8) := (s.first :: s.fields).map HeaderField.elem

variable {s}

theorem parseMethod_text (method : Method) (rest : List UInt8) :
    parseMethod (method.text ++ rest) = some (method, rest) := by
  cases method with
  | get =>
    have hget : Method.get.text = octets "GET" := rfl
    rw [parseMethod, hget, literal_append]
  | post =>
    have hpost : Method.post.text = octets "POST" := rfl
    have hget : literal "GET" (octets "POST" ++ rest) = none := rfl
    rw [parseMethod, hpost, hget, literal_append]
    rfl

theorem dropWhile_blank {word rest : List UInt8} (hne : word ≠ [])
    (hword : ∀ ch ∈ word, ¬ isspace ch) :
    (octets " " ++ (word ++ rest)).dropWhile isspace = word ++ rest := by
  obtain ⟨ch, word, rfl⟩ := List.exists_cons_of_ne_nil hne
  rw [List.dropWhile_append_of_pos (List.all_eq_true.mp (by decide)), List.cons_append,
    List.dropWhile_cons_of_neg (hword ch List.mem_cons_self)]

theorem parseTarget_text {target : List UInt8} (hne : target ≠ [])
    (htarget : ∀ ch ∈ target, ¬ isspace ch) (rest : List UInt8) :
    parseTarget (octets " " ++ (target ++ (octets " HTTP/1.1\r\n" ++ rest))) = some rest := by
  have hrun : ∀ ch ∈ target, (!isspace ch) = true := fun ch hch => by simp [htarget ch hch]
  have hblank : ¬ (!isspace (chr ' ')) = true := by decide
  have hend : octets " HTTP/1.1\r\n" ++ rest = chr ' ' :: (octets "HTTP/" ++ (octets (Nat.repr 1) ++
      (octets "." ++ (octets (Nat.repr 1) ++ (octets "\r\n" ++ rest))))) := by
    have hsplit : octets " HTTP/1.1\r\n" = chr ' ' :: (octets "HTTP/" ++ (octets (Nat.repr 1) ++
        (octets "." ++ (octets (Nat.repr 1) ++ octets "\r\n")))) := by decide +kernel
    rw [hsplit]
    simp only [List.cons_append, List.append_assoc]
  have hdot : ¬ isdigit (chr '.') := by decide
  have hcr : ¬ isdigit (chr '\r') := by decide
  have hspace : (chr ' ' :: (octets "HTTP/" ++ (octets (Nat.repr 1) ++ (octets "." ++
      (octets (Nat.repr 1) ++ (octets "\r\n" ++ rest)))))).dropWhile isspace =
      octets "HTTP/" ++ (octets (Nat.repr 1) ++ (octets "." ++
      (octets (Nat.repr 1) ++ (octets "\r\n" ++ rest)))) := rfl
  rw [parseTarget, dropWhile_blank hne htarget, hend, takeWhile_run hrun hblank,
    dropWhile_run hrun hblank, if_neg hne, hspace, literal_append]
  simp only [Option.bind_eq_bind, Option.bind_some]
  rw [parseInt_repr (by decide) (not_isdigit_head rfl hdot), Option.bind_some, literal_append,
    Option.bind_some, parseInt_repr (by decide) (not_isdigit_head rfl hcr), Option.bind_some,
    literal_append]

theorem parseRequestLine_text (rest : List UInt8) :
    parseRequestLine (s.line ++ rest) = (some s.method, rest) := by
  have htext : s.line ++ rest = s.method.text ++ (octets " " ++ (s.target ++
      (octets " HTTP/1.1\r\n" ++ rest))) := by
    rw [line]
    simp only [List.append_assoc]
  rw [parseRequestLine, htext, parseMethod_text]
  simp only [parseTarget_text s.target_ne_nil s.target_chars, Option.getD_some]

theorem parseHost_text (rest : List UInt8) :
    parseHost (s.hostLine ++ rest) = some (s.host, rest) := by
  have htext : s.hostLine ++ rest = octets "Host:" ++ (octets " " ++ (s.host ++
      chr '\r' :: chr '\n' :: rest)) := by
    have hend : octets "\r\n" = [chr '\r', chr '\n'] := rfl
    rw [hostLine, hend]
    simp only [List.append_assoc, List.cons_append, List.nil_append]
  have hhost : ∀ ch ∈ s.host, decide (ch ≠ chr '\r') = true := by
    intro ch hch
    refine decide_eq_true ?_
    rintro rfl
    exact s.host_chars _ hch (by decide)
  have hend : literal "\r\n" (chr '\r' :: chr '\n' :: rest) = some rest := literal_append "\r\n" rest
  have hcr : ¬ decide (chr '\r' ≠ chr '\r') = true := by simp
  rw [htext, parseHost, literal_append]
  simp only [Option.bind_eq_bind, Option.bind_some]
  rw [dropWhile_blank s.host_ne_nil s.host_chars, dropWhile_run hhost hcr, hend, Option.bind_some,
    takeWhile_run hhost hcr]

theorem dropWhile_hostLine (rest : List UInt8) :
    ((s.hostLine ++ rest).dropWhile (· ≠ chr '\n')).drop 1 = rest := by
  have htext : s.hostLine ++ rest = (octets "Host:" ++ octets " " ++ s.host ++ [chr '\r']) ++
      chr '\n' :: rest := by
    have hend : octets "\r\n" = [chr '\r', chr '\n'] := rfl
    rw [hostLine, hend]
    simp only [List.append_assoc, List.cons_append, List.nil_append]
  have hrun : ∀ ch ∈ octets "Host:" ++ octets " " ++ s.host ++ [chr '\r'],
      decide (ch ≠ chr '\n') = true := by
    intro ch hch
    have hfixed : ∀ ch ∈ octets "Host:" ++ octets " " ++ [chr '\r'], ch ≠ chr '\n' := by
      decide +kernel
    refine decide_eq_true ?_
    rw [List.mem_append, List.mem_append] at hch
    rcases hch with (hch | hch) | hch
    · exact hfixed ch (List.mem_append_left _ hch)
    · rintro rfl
      exact s.host_chars _ hch (by decide)
    · exact hfixed ch (List.mem_append_right _ hch)
  have hstop : ¬ decide (chr '\n' ≠ chr '\n') = true := by simp
  rw [htext, dropWhile_run hrun hstop]
  rfl

end Sent

/-- A redirect within the host, where the content makes no field of the header. -/
theorem onMove_text {sent : Request} {s : Sent} {content : List UInt8}
    (hwritten : sent.written = s.text ++ content) (hcontent : chr ':' ∉ content)
    (context keepAlive : Bool) (statusCode : Option Int) {loc : List UInt8}
    (hloc : loc.head? = some (chr '/')) :
    onMove context keepAlive sent statusCode loc =
      .connect (Header.insertFields [] s.elems)
        (doConnect context keepAlive ((s.method.moved statusCode).req content)
          ⟨sent.scheme.text ++ s.host ++ portName sent ++ loc, [],
            some (writeFields (Header.insertFields [] s.elems))⟩) := by
  have htext : sent.written =
      s.line ++ (s.hostLine ++ (headerText s.first s.fields ++ content)) := by
    rw [hwritten, Sent.text]
    simp only [List.append_assoc]
  have hmethod : (if statusCode = some 303 then some .get else some s.method) =
      some (s.method.moved statusCode) := (apply_ite some _ _ _).symm
  rw [onMove, htext, Sent.parseRequestLine_text]
  simp only [if_pos (Or.inr hloc), Sent.parseHost_text, moveTo, hmethod,
    parseHeader_lines s.values hcontent, Option.getD_some]
  cases s.method.moved statusCode <;> rfl

/-- A redirect to an address. The line of the host is passed over. -/
theorem onMove_elsewhere {sent : Request} {s : Sent} {content : List UInt8}
    (hwritten : sent.written = s.text ++ content) (hcontent : chr ':' ∉ content)
    (context keepAlive : Bool) (statusCode : Option Int) {loc : List UInt8} (hne : loc ≠ [])
    (hloc : loc.head? ≠ some (chr '/')) :
    onMove context keepAlive sent statusCode loc =
      .connect (Header.insertFields [] s.elems)
        (doConnect context keepAlive ((s.method.moved statusCode).req content)
          ⟨loc, [], some (writeFields (Header.insertFields [] s.elems))⟩) := by
  have htext : sent.written =
      s.line ++ (s.hostLine ++ (headerText s.first s.fields ++ content)) := by
    rw [hwritten, Sent.text]
    simp only [List.append_assoc]
  have hmethod : (if statusCode = some 303 then some .get else some s.method) =
      some (s.method.moved statusCode) := (apply_ite some _ _ _).symm
  rw [onMove, htext, Sent.parseRequestLine_text]
  simp only [if_neg (not_or.mpr ⟨hne, hloc⟩), Sent.dropWhile_hostLine, moveTo, hmethod,
    parseHeader_lines s.values hcontent, Option.getD_some]
  cases s.method.moved statusCode <;> rfl

end Webclient

end Acqua
