import Acqua.Webclient.RedirectChain

/-! What comes back for a form when the server redirects it. -/

namespace Acqua

namespace Webclient

open Asio (crlf)
open Email (Clean)

section Fields

def contentType : HeaderField where
  name := octets "Content-Type"
  value := octets "application/x-www-form-urlencoded"
  name_ne_nil := by decide
  name_chars := by decide +kernel
  value_clean := by
    rw [Clean]
    decide +kernel
  value_head := by
    intro ch hch
    rw [← Option.some.inj hch]
    decide

theorem lengthName_ne_nil : octets "Content-Length" ≠ [] := by decide

theorem lengthName_chars : ∀ ch ∈ octets "Content-Length", ¬ isspace ch ∧ ch ≠ chr ':' := by
  decide +kernel

def contentLength (n : Nat) : HeaderField where
  name := octets "Content-Length"
  value := octets (Nat.repr n)
  name_ne_nil := lengthName_ne_nil
  name_chars := lengthName_chars
  value_clean ch hch := by
    have hdigit := isdigit_repr n ch hch
    constructor <;>
    · rintro rfl
      exact absurd hdigit (by decide)
  value_head ch hch := (isdigit_facts ch (isdigit_repr n ch (List.mem_of_mem_head? hch))).1

theorem form_values (keepAlive : Bool) (n : Nat) :
    ∀ f ∈ [connection keepAlive, accept, acceptEncoding, contentType, contentLength n],
      f.value ≠ [] := by
  have htype : contentType.value ≠ [] := by decide
  have hlength : (contentLength n).value ≠ [] := octets_repr_ne_nil n
  intro f hf
  simp only [List.mem_cons, List.not_mem_nil, or_false] at hf
  rcases hf with rfl | rfl | rfl | rfl | rfl
  · exact default_values keepAlive _ (by simp)
  · exact default_values keepAlive _ (by simp)
  · exact default_values keepAlive _ (by simp)
  · exact htype
  · exact hlength

theorem nonEncodedPost_content (form : List UInt8) :
    (nonEncodedPost form).content =
      writeFields ([contentType, contentLength form.length].map HeaderField.elem) ++
        (crlf ++ form) := by
  have htype : octets "Content-Type: application/x-www-form-urlencoded\r\nContent-Length: " =
      contentType.line ++ (crlf ++ (octets "Content-Length" ++ octets ": ")) := by
    decide +kernel
  have hend : octets "\r\n\r\n" = crlf ++ crlf := rfl
  have hfields : writeFields ([contentType, contentLength form.length].map HeaderField.elem) =
      contentType.line ++ (crlf ++ ((contentLength form.length).line ++ crlf)) := by
    rw [List.map_cons, List.singleton_append.symm, writeFields_append, writeFields_line]
    simp only [List.map_cons, List.map_nil, writeFields_line, List.append_assoc]
  rw [hfields, nonEncodedPost, htype, hend, HeaderField.line]
  simp only [List.append_assoc]
  rfl

end Fields

namespace PlainUrl

variable (url : PlainUrl) {context keepAlive : Bool} {form : List UInt8}

/-- What `wpost` sends in front of the form. -/
def posted (keepAlive : Bool) (n : Nat) : Sent where
  method := .post
  target := url.target
  host := url.hostHeader
  first := connection keepAlive
  fields := [accept, acceptEncoding, contentType, contentLength n]
  target_ne_nil := url.target_ne_nil
  target_chars := url.target_chars
  host_ne_nil := url.hostHeader_ne_nil
  host_chars := url.hostHeader_chars
  values := form_values keepAlive n

/-- The header behind the redirect of a form. -/
def postHeader (keepAlive : Bool) (n : Nat) : Header :=
  [accept, acceptEncoding, connection keepAlive, contentLength n, contentType].map HeaderField.elem

theorem sorted_form (keepAlive : Bool) (n : Nat) :
    Header.insertFields [] ([connection keepAlive, accept, acceptEncoding, contentType,
      contentLength n].map HeaderField.elem) = postHeader keepAlive n := by
  cases keepAlive <;> rfl

theorem insertFields_posted (keepAlive : Bool) (n : Nat) :
    Header.insertFields [] (url.posted keepAlive n).elems = postHeader keepAlive n :=
  sorted_form keepAlive n

theorem written_posted (keepAlive : Bool) (form : List UInt8) :
    (url.request keepAlive (nonEncodedPost form) ⟨url.text, [], none⟩).written =
      (url.posted keepAlive form.length).text ++ form := by
  have hreq : nonEncodedPost form =
      ⟨(url.posted keepAlive form.length).method.text, (nonEncodedPost form).content⟩ := rfl
  have hfields : writeFields ([connection keepAlive, accept, acceptEncoding].map HeaderField.elem) ++
      (writeFields ([contentType, contentLength form.length].map HeaderField.elem) ++
        (crlf ++ form)) = headerText (connection keepAlive)
          [accept, acceptEncoding, contentType, contentLength form.length] ++ form := by
    rw [← writeFields_text, ← List.append_assoc, ← writeFields_append, ← List.map_append,
      ← List.append_assoc]
    rfl
  have hwritten := writeRequest_eq (url.posted keepAlive form.length) keepAlive url.text
    (nonEncodedPost form).content none
  rw [← hreq, writeHeader_none, nonEncodedPost_content] at hwritten
  rw [hfields] at hwritten
  rw [Url.request, Sent.text]
  refine hwritten.trans ?_
  simp only [List.append_assoc]
  rfl

theorem sent_of_post {sent : Request}
    (h : doConnect context keepAlive (nonEncodedPost form) ⟨url.text, [], none⟩ = .ok sent) :
    (url.scheme = .https → context = true) ∧ sent.scheme = url.scheme ∧ sent.serv = url.service ∧
      sent.written = (url.posted keepAlive form.length).text ++ form := by
  have hcontext := url.context_of_doConnect rfl h
  rw [url.doConnect_of_simple rfl hcontext url.simple] at h
  rw [← Except.ok.inj h]
  exact ⟨hcontext, rfl, rfl, url.written_posted keepAlive form⟩

/-- The request that a redirect of a form is followed with. -/
def followPost (keepAlive : Bool) (form : List UInt8) (hop : Redirect) : Request :=
  ⟨url.scheme, url.host, url.service,
    writeRequest keepAlive ((Method.post.moved (some (hop.statusCode : Int))).req form)
      ⟨[], [], some (writeFields (postHeader keepAlive form.length))⟩ hop.location url.hostHeader⟩

theorem sorted_postHeader (keepAlive : Bool) (n : Nat) :
    FlatMultimap.Sorted (fun lhs rhs : List UInt8 => lhs < rhs) (postHeader keepAlive n) := by
  rw [← sorted_form]
  exact Header.sorted_insertFields _

/-- The length that is found first is the one of the form. -/
theorem find_postHeader (keepAlive : Bool) (n : Nat) :
    (postHeader keepAlive n).find "Content-Length" = some (octets (Nat.repr n)) ∧
      ∀ name ∈ ["Location", "Content-Encoding", "Transfer-Encoding"],
        (postHeader keepAlive n).find name = none := by
  constructor
  · cases keepAlive <;> rfl
  · cases keepAlive <;>
    · intro name hname
      simp only [List.mem_cons, List.not_mem_nil, or_false] at hname
      rcases hname with rfl | rfl | rfl <;> rfl

end PlainUrl

section Read

theorem readSized_eq (n : Nat) (result : ClientResult) {text buffer : List UInt8}
    {reads : List (List UInt8)} (h : buffer ++ reads.flatten = text) :
    readSized n result buffer reads =
      if n ≤ text.length then .callback { result with buffer := text.take n }
      else .error result := by
  split_ifs with hle
  · obtain ⟨rest, hrest⟩ : ∃ rest, text = text.take n ++ rest :=
      ⟨text.drop n, (List.take_append_drop n text).symm⟩
    have hlen : (text.take n).length = n := by
      rw [List.length_take]
      omega
    have hread := readSized_content result (h.trans hrest)
    rwa [hlen] at hread
  · have hnone : Asio.readUntilSize n 0 buffer reads = none := by
      by_contra hsome
      obtain ⟨e, he⟩ := Option.ne_none_iff_exists'.mp hsome
      obtain ⟨k, hk, -⟩ := (Asio.readUntilSize_eq_some (Nat.zero_le _) e).mp he
      rw [Nat.zero_add] at hk
      exact hle (h ▸ Asio.exists_firstWith.mp ⟨k, hk⟩)
    rw [readSized, hnone]

/-- Where the header has a length already, that much is read. -/
theorem Response.readResponse_sized (r : Response) (hvalues : ∀ f ∈ r.allFields, f.value ≠ [])
    {content : List UInt8} (hframing : r.framing = .sized content) {result : ClientResult}
    (hsorted : FlatMultimap.Sorted (fun lhs rhs : List UInt8 => lhs < rhs) result.header)
    (habsent : ∀ name ∈ ["Location", "Content-Encoding", "Transfer-Encoding"],
      result.header.find name = none) {n : Nat} (hlt : n < 2 ^ 63)
    (hlength : result.header.find "Content-Length" = some (octets (Nat.repr n)))
    {tail : List UInt8} {reads : List (List UInt8)} (h : reads.flatten = r.text ++ tail) :
    readResponse result reads = some (r.received result.header) ↔ n = content.length := by
  have htext : reads.flatten = r.toHead.text ++ (content ++ tail) := by
    rw [h, text, hframing, Framing.content, List.append_assoc]
  obtain ⟨rest, reads', hrest, hread⟩ := r.readResponse_text result htext
  have hlocation : (result.header.insertFields (r.allFields.map HeaderField.elem)).find
      "Location" = none := by
    rw [Header.find_insertFields hsorted, habsent _ (by simp), r.no_location]
    rfl
  have hencoding : result.header.find "Content-Encoding" = none := habsent _ (by simp)
  have htransfer : result.header.find "Transfer-Encoding" = none := habsent _ (by simp)
  have hannounced := r.announced
  rw [hframing] at hannounced
  have hchunked := hannounced.1
  rw [Framing.isChunked] at hchunked
  have hatol := @atol_size [] _ hlt (by simp)
  rw [List.append_nil] at hatol
  rw [hread, r.onReadHeader_values hvalues]
  simp only [hlocation, readContent, Header.find_insertFields hsorted, hencoding, htransfer, hlength,
    Option.none_or, Option.some_or, r.not_compressed, hchunked, Bool.false_eq_true, if_false, hatol]
  rw [readSized_eq n _ hrest, received, hframing]
  constructor
  · intro heq
    split_ifs at heq with hle
    · have hbuffers := congrArg ClientResult.buffer (ResponseEnd.callback.inj (Option.some.inj heq))
      have hlen := congrArg List.length hbuffers
      rw [List.length_take] at hlen
      dsimp only at hlen
      omega
    · cases heq
  · rintro rfl
    rw [if_pos (by rw [List.length_append]; omega), List.take_left]

theorem Response.received_ne_onMove (r : Response) (header : Header) (location : List UInt8)
    (result : ClientResult) : r.received header ≠ .onMove location result := by
  intro heq
  rw [received] at heq
  split at heq <;> cases heq

/-- The last connection ends with what is read from it. -/
theorem exchange_last {context keepAlive : Bool} {sent : Request} {result : ClientResult}
    {reads : List (List UInt8)} {e : ResponseEnd}
    (he : ∀ location result, e ≠ .onMove location result) :
    exchange context keepAlive sent result [reads] = ([sent], some (.response e)) ↔
      readResponse result reads = some e := by
  rw [exchange]
  rcases readResponse result reads with _ | e'
  · simp
  · cases e' with
    | onMove location moved =>
      have hne : ¬ some (ResponseEnd.onMove location moved) = some e :=
        fun heq => he location moved (Option.some.inj heq).symm
      simp only [hne, iff_false]
      split <;> simp [exchange]
    | _ => simp

end Read

namespace PlainUrl

variable (url : PlainUrl)

/-- The content that comes back for a form that was redirected is cut as long as the form, or never
seen to end: it is delivered as it was sent exactly when it is as long as the form. -/
theorem exchange_post_iff (hport : url.port = none) (context keepAlive : Bool) (form : List UInt8)
    (hcolon : chr ':' ∉ form) (hlt : form.length < 2 ^ 63) (sent : Request)
    (hsent : doConnect context keepAlive (nonEncodedPost form) ⟨url.text, [], none⟩ = .ok sent)
    (hop : Redirect) (connections : List (List (List UInt8))) (hhops : Hops [hop] connections)
    (r : Response) (hvalues : ∀ f ∈ r.allFields, f.value ≠ []) (content : List UInt8)
    (hframing : r.framing = .sized content) (tail : List UInt8) (reads : List (List UInt8))
    (h : reads.flatten = r.text ++ tail) :
    exchange context keepAlive sent .new (connections ++ [reads]) =
        ([sent, url.followPost keepAlive form hop],
          some (.response (r.received (postHeader keepAlive form.length)))) ↔
      form.length = content.length := by
  obtain ⟨hcontext, hscheme, hserv, hwritten⟩ := url.sent_of_post hsent
  obtain ⟨reads', ⟨tail', htail⟩, rfl⟩ : ∃ reads', (∃ tail, List.flatten reads' =
      hop.toHead.text ++ tail) ∧ connections = [reads'] := by
    cases hhops with
    | cons hhop hnil =>
      cases hnil
      exact ⟨_, hhop, rfl⟩
  obtain ⟨rest, hread⟩ := @Redirect.readResponse_redirect hop .new Response.neutral_nil _ _ htail
  have hmove : onMove context keepAlive sent (some (hop.statusCode : Int)) hop.location =
      .connect (postHeader keepAlive form.length) (.ok (url.followPost keepAlive form hop)) := by
    rw [onMove_text hwritten hcolon context keepAlive _ hop.relative, insertFields_posted, hscheme]
    exact congrArg (Moved.connect _)
      (url.doConnect_address hport hcontext hop.relative hscheme hserv)
  obtain ⟨hlength, habsent⟩ := find_postHeader keepAlive form.length
  have hlast : readResponse ⟨some hop.statusCode, postHeader keepAlive form.length, [], false⟩
      reads = some (r.received (postHeader keepAlive form.length)) ↔ form.length = content.length :=
    r.readResponse_sized hvalues hframing (sorted_postHeader keepAlive form.length) habsent hlt
      hlength h
  have hstep (next : List Request × Option ExchangeEnd) (last : List Request)
      (e : Option ExchangeEnd) :
      (sent :: next.1, next.2) = (sent :: last, e) ↔ next = (last, e) := by
    obtain ⟨requests, e'⟩ := next
    simp
  rw [← hlast, ← exchange_last (r.received_ne_onMove _), List.singleton_append, exchange, hread]
  simp only [hmove]
  exact hstep _ _ _

theorem exchange_post_found :
    exchange false true (home.request true (nonEncodedPost (octets "a=b")) ⟨home.text, [], none⟩)
        .new ([[octets "HTTP/1.1 302 Found\r\nLoca", octets "tion: /b\r\n\r\n"]] ++
          [[octets "HTTP/1.1 200 OK\r\nContent-Length: 5\r\n\r\nhello"]]) =
        ([home.request true (nonEncodedPost (octets "a=b")) ⟨home.text, [], none⟩,
            home.followPost true (octets "a=b") Redirect.found],
          some (.response (Response.hello.received (postHeader true (octets "a=b").length)))) ↔
      (octets "a=b").length = (octets "hello").length :=
  home.exchange_post_iff rfl false true (octets "a=b") (by decide +kernel) (by decide) _
    (home.doConnect_of_simple rfl (fun hs => by cases hs) home.simple) Redirect.found
    [[octets "HTTP/1.1 302 Found\r\nLoca", octets "tion: /b\r\n\r\n"]]
    (.cons ⟨[], by decide +kernel⟩ .nil) Response.hello (by decide +kernel) (octets "hello") rfl []
    _ (by decide +kernel)

end PlainUrl

end Webclient

end Acqua
