import Acqua.Email.ParamMatching
import Acqua.Webclient.Response

/-! What is delivered of a response, however it comes in. -/

namespace Acqua

namespace Webclient

open Asio
open Email (Clean)

/-- How the end of the content is told. -/
inductive Framing
  | sized (content : List UInt8)
  | chunked (chunks : List Chunk) (zeros : Nat)
  | untilClose (content : List UInt8)

namespace Framing

def content : Framing → List UInt8
  | sized content => content
  | chunked chunks zeros => encodeBody chunks zeros
  | untilClose content => content

def isChunked (value : Option (List UInt8)) : Bool :=
  value.any (Email.iequals · (octets "chunked"))

/-- The first field of a name is the one that is looked at, and its name is compared as it is. -/
def Announced (lookup : String → Option (List UInt8)) : Framing → Prop
  | sized content => isChunked (lookup "Transfer-Encoding") = false ∧ content.length < 2 ^ 63 ∧
      lookup "Content-Length" = some (octets (Nat.repr content.length))
  | chunked _ _ => isChunked (lookup "Transfer-Encoding") = true
  | untilClose _ => isChunked (lookup "Transfer-Encoding") = false ∧ lookup "Content-Length" = none

end Framing

/-- A response up to its content. -/
structure Head where
  major : Nat
  minor : Nat
  statusCode : Nat
  reason : List UInt8
  first : HeaderField
  fields : List HeaderField
  major_lt : major < 2 ^ 31
  minor_lt : minor < 2 ^ 31
  statusCode_lt : statusCode < 2 ^ 31
  reason_clean : Clean reason

namespace Head

def statusLine (head : Head) : List UInt8 :=
  octets "HTTP/" ++ (octets (Nat.repr head.major) ++ (octets "." ++ (octets (Nat.repr head.minor) ++
    (octets " " ++ (octets (Nat.repr head.statusCode) ++ (octets " " ++ head.reason))))))

def text (head : Head) : List UInt8 :=
  head.statusLine ++ crlf ++ headerText head.first head.fields

def allFields (head : Head) : List HeaderField := head.first :: head.fields

def lookup (head : Head) (name : String) : Option (List UInt8) :=
  (head.allFields.find? fun f => f.name = octets name).map HeaderField.value

end Head

/-- A response that is not to be followed and whose content is not compressed. -/
structure Response extends Head where
  framing : Framing
  no_location : toHead.lookup "Location" = none
  identity : ∀ value ∈ toHead.lookup "Content-Encoding",
    ¬ Email.iequals value (octets "gzip") ∧ ¬ Email.iequals value (octets "zlib")
  announced : framing.Announced toHead.lookup

namespace Response

def text (r : Response) : List UInt8 := r.toHead.text ++ r.framing.content

/-- What the handler is to see: the status, the fields behind those that are there, and the content,
each chunk of it with its line end; and an error when the content ends with the connection. -/
def received (r : Response) (header : Header) : ResponseEnd :=
  let result (buffer : List UInt8) : ClientResult :=
    { statusCode := some r.statusCode
      header := header.insertFields (r.allFields.map HeaderField.elem)
      buffer := buffer
      isKeepAlive := ((header.find "Connection").or (r.lookup "Connection")).any
        (Email.iequals · (octets "keep-alive")) }
  match r.framing with
  | .sized content => .callback (result content)
  | .chunked chunks _ => .callback (result (chunks.flatMap fun c => c.data ++ crlf))
  | .untilClose _ => .error (result [])

end Response

/-- A header in which none of the fields is found that decide about what follows. -/
structure Header.Neutral (header : Header) : Prop where
  sorted : FlatMultimap.Sorted (fun lhs rhs : List UInt8 => lhs < rhs) header
  absent : ∀ name ∈ ["Location", "Content-Encoding", "Transfer-Encoding", "Content-Length"],
    header.find name = none

namespace ResponseEnd

def header : ResponseEnd → Header
  | closed => []
  | callback result => result.header
  | error result => result.header
  | onMove _ result => result.header
  | decompress result => result.header

end ResponseEnd

section Read

theorem readOne_bytes {ch : UInt8} {text : List UInt8} {reads : List (List UInt8)}
    (h : reads.flatten = ch :: text) :
    ∃ reads', readOne reads = some (ch, reads') ∧ reads'.flatten = text := by
  induction reads with
  | nil => cases h
  | cons read reads ih =>
    match read with
    | [] => exact ih h
    | c :: read =>
      obtain ⟨rfl, htext⟩ := List.cons.inj h
      exact ⟨read :: reads, rfl, htext⟩

theorem not_isdigit_head {s : String} {text : List UInt8} {ch : UInt8}
    (hs : (octets s).head? = some ch) (hch : ¬ isdigit ch) : ∀ c ∈ (octets s ++ text).head?, ¬ isdigit c := by
  intro c hc
  rw [List.head?_append, hs] at hc
  obtain rfl : ch = c := Option.some.inj hc
  exact hch

namespace Header

variable {header : Header}

theorem length_insertFields (elems : List (List UInt8 × List UInt8)) :
    (header.insertFields elems).length = elems.length + header.length := by
  rw [insertFields, (FlatMultimap.perm_insertAll header elems).length_eq, List.length_append]

theorem find_insertFields
    (h : FlatMultimap.Sorted (fun lhs rhs : List UInt8 => lhs < rhs) header) (head : Head)
    (name : String) :
    (header.insertFields (head.allFields.map HeaderField.elem)).find name =
      (header.find name).or (head.lookup name) := by
  rw [find, insertFields, FlatMultimap.find?_insertAll h, List.find?_map, find, Head.lookup]
  cases header.find? (fun elem => elem.1 = octets name) with
  | some elem => rfl
  | none => rw [Option.none_or, Option.map_map]; rfl

end Header

theorem Header.sorted_insertFields (elems : List (List UInt8 × List UInt8)) :
    FlatMultimap.Sorted (fun lhs rhs : List UInt8 => lhs < rhs) (Header.insertFields [] elems) :=
  FlatMultimap.Sorted.insertAll List.Pairwise.nil elems

namespace Head

variable (head : Head)

theorem statusLine_clean : chr '\r' ∉ head.statusLine := by
  have hdigits : ∀ n : Nat, chr '\r' ∉ octets (Nat.repr n) := fun n hmem =>
    absurd (isdigit_repr n _ hmem) (by decide)
  have hreason : chr '\r' ∉ head.reason := fun hmem => (head.reason_clean _ hmem).1 rfl
  have hhttp : chr '\r' ∉ octets "HTTP/" := by decide
  have hdot : chr '\r' ∉ octets "." := by decide
  have hblank : chr '\r' ∉ octets " " := by decide
  simp only [statusLine, List.mem_append, hdigits, hreason, hhttp, hdot, hblank, or_self,
    not_false_eq_true]

theorem parseStatusLine_text (text : List UInt8) :
    parseStatusLine (head.statusLine ++ text) = some (head.statusCode : Int) := by
  obtain ⟨d, ds, hd⟩ := List.exists_cons_of_ne_nil (octets_repr_ne_nil head.statusCode)
  have hdigit : ¬ isspace d := (isdigit_facts d (isdigit_repr head.statusCode d
    (by rw [hd]; exact List.mem_cons_self))).1
  have hspace : ∀ rest : List UInt8, (octets " " ++ rest).head?.any isspace = true := fun _ => rfl
  have hdrop : ∀ rest : List UInt8,
      (octets " " ++ (octets (Nat.repr head.statusCode) ++ rest)).dropWhile isspace =
        octets (Nat.repr head.statusCode) ++ rest := by
    intro rest
    rw [List.dropWhile_append_of_pos (List.all_eq_true.mp (by decide)), hd, List.cons_append,
      List.dropWhile_cons_of_neg hdigit]
  have hdot : ¬ isdigit (chr '.') := by decide
  have hblank : ¬ isdigit (chr ' ') := by decide
  rw [statusLine]
  simp only [List.append_assoc]
  rw [parseStatusLine, literal_append]
  simp only [Option.bind_eq_bind, Option.bind_some]
  rw [parseInt_repr head.major_lt (not_isdigit_head rfl hdot), Option.bind_some, literal_append,
    Option.bind_some, parseInt_repr head.minor_lt (not_isdigit_head rfl hblank), Option.bind_some,
    if_pos (hspace _), hdrop, parseInt_repr head.statusCode_lt (not_isdigit_head rfl hblank),
    Option.bind_some]

theorem headerText_ne_nil : headerText head.first head.fields ≠ [] := by
  simp [headerText, HeaderField.line, head.first.name_ne_nil]

/-- Whatever pieces a response comes in, `on_read_header` sees all of its header. -/
theorem readResponse_text (result : ClientResult) {tail : List UInt8} {reads : List (List UInt8)}
    (h : reads.flatten = head.text ++ tail) :
    ∃ rest reads', rest ++ List.flatten reads' = tail ∧
      readResponse result reads = onReadHeader (headerText head.first head.fields).length
        { result with statusCode := some head.statusCode }
        (headerText head.first head.fields ++ rest) reads' := by
  obtain ⟨line, hline⟩ : ∃ line, head.statusLine = chr 'H' :: line := ⟨_, rfl⟩
  have htext : reads.flatten = chr 'H' ::
      (line ++ (crlf ++ (headerText head.first head.fields ++ tail))) := by
    rw [h, text, hline]
    simp only [List.append_assoc, List.cons_append]
  obtain ⟨reads₁, hone, hflat⟩ := readOne_bytes htext
  have hbytes : [chr 'H'] ++ reads₁.flatten = head.statusLine ++ crlf ++
      (headerText head.first head.fields ++ tail) := by
    rw [hflat, hline]
    simp only [List.append_assoc, List.cons_append, List.nil_append]
  obtain ⟨buffer, reads₂, huntil, hrest⟩ := readUntil_line head.statusLine_clean hbytes
  have hdrop : (head.statusLine ++ crlf ++ buffer).drop (head.statusLine.length + 2) = buffer :=
    List.drop_left' (by simp [crlf, octets])
  have hfind := findDelimiter_header head.first head.fields tail
  rw [← hrest] at hfind
  obtain ⟨buffer', reads₃, hread, hle, hsame⟩ := readDelimited_bytes hfind
  obtain ⟨rest, rfl⟩ : headerText head.first head.fields <+: buffer' :=
    List.prefix_of_prefix_length_le (List.prefix_append _ tail) ⟨_, hsame.trans hrest⟩ hle
  have hcontent : rest ++ reads₃.flatten = tail := by
    have heq := hsame.trans hrest
    rw [List.append_assoc] at heq
    exact List.append_cancel_left heq
  refine ⟨rest, reads₃, hcontent, ?_⟩
  rw [readResponse, hone]
  simp only [huntil, onReadLine]
  rw [List.append_assoc, parseStatusLine_text, ← List.append_assoc, hdrop]
  simp only [hread]

theorem onReadHeader_values (h : ∀ f ∈ head.allFields, f.value ≠ []) (result : ClientResult)
    (rest : List UInt8) (reads : List (List UInt8)) :
    onReadHeader (headerText head.first head.fields).length result
        (headerText head.first head.fields ++ rest) reads =
      let result := { result with
        header := result.header.insertFields (head.allFields.map HeaderField.elem) }
      match result.header.find "Location" with
      | some location => some (.onMove location { result with buffer := rest })
      | none => readContent result rest reads := by
  have hparse := @parseHeader_lines head.first head.fields h [] List.not_mem_nil
  rw [List.append_nil] at hparse
  rw [onReadHeader, List.take_left' rfl, List.drop_left' rfl, hparse]
  simp only [Option.isNone_some, Bool.false_eq_true, if_false]
  rfl

end Head

theorem readContent_header {result : ClientResult} {buffer : List UInt8}
    {reads : List (List UInt8)} {e : ResponseEnd} (h : readContent result buffer reads = some e) :
    e.header = result.header := by
  simp only [readContent] at h
  split at h
  · cases h
    rfl
  · split at h
    · obtain ⟨body, -, rfl⟩ := Option.map_eq_some_iff.mp h
      cases body <;> rfl
    · split at h
      · cases h
        rw [readSized]
        split <;> rfl
      · cases h
        rfl

theorem readSized_content {content tail : List UInt8} (result : ClientResult) {buffer : List UInt8}
    {reads : List (List UInt8)} (h : buffer ++ reads.flatten = content ++ tail) :
    readSized content.length result buffer reads = .callback { result with buffer := content } := by
  have hcount : 0 + content.length ≤ (buffer ++ reads.flatten).length := by
    rw [h, List.length_append]
    omega
  obtain ⟨buffer', reads', hread, hle, hsame⟩ := readUntilSize_spec (Nat.zero_le _) hcount
  rw [Nat.zero_add] at hread hle
  obtain ⟨rest, rfl⟩ : content <+: buffer' :=
    List.prefix_of_prefix_length_le (List.prefix_append _ tail) ⟨_, hsame.trans h⟩ hle
  rw [readSized, hread]
  simp only [bufferCopy, List.take_left']

namespace Response

variable (r : Response) {header : Header} {result : ClientResult}

theorem not_compressed : ((r.lookup "Content-Encoding").any
    fun s => Email.iequals s (octets "gzip") || Email.iequals s (octets "zlib")) = false := by
  rcases hlookup : r.lookup "Content-Encoding" with _ | value
  · rfl
  · obtain ⟨hgzip, hzlib⟩ := r.identity value hlookup
    rw [Option.any_some, Bool.or_eq_false_iff]
    exact ⟨Bool.eq_false_iff.mpr hgzip, Bool.eq_false_iff.mpr hzlib⟩

theorem length_header :
    (r.received header).header.length = r.allFields.length + header.length := by
  have hlen := @Header.length_insertFields header (r.allFields.map HeaderField.elem)
  rw [List.length_map] at hlen
  rw [received]
  cases r.framing <;> exact hlen

theorem received_ne_error {failed : ClientResult} (hne : failed.buffer ≠ []) :
    r.received header ≠ .error failed := by
  intro heq
  rw [received] at heq
  cases hframing : r.framing with
  | sized content => simp [hframing] at heq
  | chunked chunks zeros => simp [hframing] at heq
  | untilClose content =>
    rw [hframing] at heq
    exact hne (congrArg ClientResult.buffer (ResponseEnd.error.inj heq)).symm

theorem readContent_received (hneutral : result.header.Neutral) (hbuffer : result.buffer = [])
    {tail buffer : List UInt8} {reads : List (List UInt8)} (h : buffer ++ reads.flatten = r.framing.content ++ tail) :
    readContent { result with
        statusCode := some r.statusCode
        header := result.header.insertFields (r.allFields.map HeaderField.elem) } buffer reads =
      some (r.received result.header) := by
  have hannounced := r.announced
  have hencoding : result.header.find "Content-Encoding" = none := hneutral.absent _ (by simp)
  have htransfer : result.header.find "Transfer-Encoding" = none := hneutral.absent _ (by simp)
  have hsize : result.header.find "Content-Length" = none := hneutral.absent _ (by simp)
  simp only [readContent, Header.find_insertFields hneutral.sorted, hencoding, htransfer, hsize,
    Option.none_or, r.not_compressed, Bool.false_eq_true, if_false]
  rcases hframing : r.framing with content | ⟨chunks, zeros⟩ | content
  · rw [hframing] at hannounced h
    obtain ⟨hchunked, hlt, hlength⟩ := hannounced
    have hatol := @atol_size [] _ hlt (by simp)
    rw [List.append_nil] at hatol
    have hcontent : buffer ++ reads.flatten = content ++ tail := h
    rw [Framing.isChunked] at hchunked
    simp only [hchunked, Bool.false_eq_true, if_false, hlength, hatol]
    rw [readSized_content _ hcontent, received, hframing]
  · rw [hframing] at hannounced h
    rw [Framing.Announced, Framing.isChunked] at hannounced
    rw [if_pos hannounced, readChunked_body h, received, hframing]
    rfl
  · rw [hframing] at hannounced
    obtain ⟨hchunked, hlength⟩ := hannounced
    rw [Framing.isChunked] at hchunked
    simp only [hchunked, Bool.false_eq_true, if_false, hlength]
    rw [received, hframing, hbuffer]

/-- A response is received into a header that is there already as into a new one. -/
theorem readResponse_received (hneutral : result.header.Neutral) (hbuffer : result.buffer = [])
    {tail : List UInt8} {reads : List (List UInt8)} (h : reads.flatten = r.text ++ tail) :
    readResponse result reads = some (r.received result.header) ↔
      ∀ f ∈ r.allFields, f.value ≠ [] := by
  have htext : reads.flatten = r.toHead.text ++ (r.framing.content ++ tail) := by
    rw [h, text, List.append_assoc]
  obtain ⟨rest, reads', hrest, hread⟩ := r.readResponse_text result htext
  rw [hread]
  constructor
  · intro hreceived
    rw [onReadHeader, List.take_left' rfl, List.drop_left' rfl] at hreceived
    dsimp only at hreceived
    split_ifs at hreceived with hnone
    · refine absurd (Option.some.inj hreceived).symm (r.received_ne_error ?_)
      simp [r.headerText_ne_nil]
    · refine parseHeader_count (fun heq => hnone (by rw [heq]; rfl)) ?_
      have hheader : (result.header.insertFields
          (parseHeader (headerText r.first r.fields)).1) = (r.received result.header).header := by
        split at hreceived
        next location _ =>
          rw [← Option.some.inj hreceived]
          rfl
        next => exact (readContent_header hreceived).symm
      have hlen := congrArg List.length hheader
      rw [Header.length_insertFields, r.length_header] at hlen
      exact Nat.add_right_cancel hlen
  · intro hvalues
    have hlocation : (result.header.insertFields (r.allFields.map HeaderField.elem)).find
        "Location" = none := by
      rw [Header.find_insertFields hneutral.sorted, hneutral.absent _ (by simp), r.no_location]
      rfl
    rw [r.onReadHeader_values hvalues]
    simp only [hlocation]
    exact r.readContent_received hneutral hbuffer hrest

theorem neutral_nil : Header.Neutral [] := ⟨List.Pairwise.nil, fun _ _ => rfl⟩

/-- Whatever pieces a response comes in, it is delivered as it was sent exactly when none of its
fields has an empty value. -/
theorem readResponse_iff (tail : List UInt8) (reads : List (List UInt8))
    (h : reads.flatten = r.text ++ tail) :
    readResponse .new reads = some (r.received []) ↔ ∀ f ∈ r.allFields, f.value ≠ [] :=
  r.readResponse_received neutral_nil rfl h

def hello : Response where
  major := 1
  minor := 1
  statusCode := 200
  reason := octets "OK"
  first :=
    { name := octets "Content-Length"
      value := octets "5"
      name_ne_nil := by decide
      name_chars := by decide +kernel
      value_clean := by
        rw [Clean]
        decide +kernel
      value_head := by
        intro ch hch
        obtain rfl : chr '5' = ch := Option.some.inj hch
        decide }
  fields := []
  major_lt := by decide
  minor_lt := by decide
  statusCode_lt := by decide
  reason_clean := by
    rw [Clean]
    decide +kernel
  framing := .sized (octets "hello")
  no_location := by decide
  identity := by decide
  announced := ⟨by decide, by decide, by decide⟩

theorem readResponse_hello :
    readResponse .new [octets "HTTP/1.1 200 O", octets "K\r\nContent-Length: 5\r\n\r\nhel",
      octets "lo"] = some (hello.received []) ↔ ∀ f ∈ hello.allFields, f.value ≠ [] :=
  hello.readResponse_iff [] _ (by decide +kernel)

end Response

end Read

end Webclient

end Acqua
