import Acqua.Webclient.RedirectRequest

/-! Where the redirects of a server lead. -/

namespace Acqua

namespace Webclient

open Asio (crlf)
open Email (Clean)

section Fields

/-- The lines that are written for a `boost::blank`. -/
def connection (keepAlive : Bool) : HeaderField where
  name := octets "Connection"
  value := if keepAlive then octets "Keep-Alive" else octets "Close"
  name_ne_nil := by decide
  name_chars := by decide +kernel
  value_clean := by
    rw [Clean]
    cases keepAlive <;> decide +kernel
  value_head := by
    cases keepAlive <;>
    · intro ch hch
      rw [← Option.some.inj hch]
      decide

def accept : HeaderField where
  name := octets "Accept"
  value := octets "*/*"
  name_ne_nil := by decide
  name_chars := by decide +kernel
  value_clean := by
    rw [Clean]
    decide +kernel
  value_head := by
    intro ch hch
    rw [← Option.some.inj hch]
    decide

def acceptEncoding : HeaderField where
  name := octets "Accept-Encoding"
  value := octets "compress, gzip"
  name_ne_nil := by decide
  name_chars := by decide +kernel
  value_clean := by
    rw [Clean]
    decide +kernel
  value_head := by
    intro ch hch
    rw [← Option.some.inj hch]
    decide

theorem writeHeader_none (keepAlive : Bool) :
    writeHeader keepAlive none =
      writeFields ([connection keepAlive, accept, acceptEncoding].map HeaderField.elem) := by
  cases keepAlive <;> decide +kernel

theorem sorted_elems (keepAlive : Bool) :
    Header.insertFields [] ([connection keepAlive, accept, acceptEncoding].map HeaderField.elem) =
      [accept, acceptEncoding, connection keepAlive].map HeaderField.elem := by
  cases keepAlive <;> decide +kernel

theorem writeFields_append (fs gs : List (List UInt8 × List UInt8)) :
    writeFields (fs ++ gs) = writeFields fs ++ writeFields gs :=
  List.flatMap_append

theorem writeFields_line (f : HeaderField) : writeFields [f.elem] = f.line ++ crlf := by
  simp [writeFields, HeaderField.elem, HeaderField.line, crlf]

/-- The lines of a header up to the end of the last one. -/
theorem writeFields_text (f : HeaderField) (fs : List HeaderField) :
    writeFields ((f :: fs).map HeaderField.elem) ++ crlf = headerText f fs := by
  have hmore : crlf ++ writeFields (fs.map HeaderField.elem) = moreLines fs ++ crlf := by
    induction fs with
    | nil => rfl
    | cons g fs ih =>
      rw [List.map_cons, List.singleton_append.symm, writeFields_append, writeFields_line,
        ← List.append_nil (moreLines (g :: fs) ++ crlf), List.append_assoc, moreLines_cons,
        List.append_nil, ← ih]
  rw [List.map_cons, List.singleton_append.symm, writeFields_append, writeFields_line, headerText,
    ← List.append_assoc (moreLines fs), ← hmore]
  simp only [List.append_assoc]

theorem default_values (keepAlive : Bool) :
    ∀ f ∈ [connection keepAlive, accept, acceptEncoding], f.value ≠ [] := by
  have hconnection : (connection keepAlive).value ≠ [] := by cases keepAlive <;> decide
  have haccept : accept.value ≠ [] := by decide
  have hencoding : acceptEncoding.value ≠ [] := by decide
  simp [hconnection, haccept, hencoding]

end Fields

section Write

variable (s : Sent) (keepAlive : Bool) (text content : List UInt8) (header : Option (List UInt8))

theorem writeRequest_eq :
    writeRequest keepAlive ⟨s.method.text, content⟩ ⟨text, [], header⟩ s.target s.host =
      s.line ++ (s.hostLine ++ (writeHeader keepAlive header ++ content)) := by
  have hsplit : octets " HTTP/1.1\r\nHost: " =
      octets " HTTP/1.1\r\n" ++ (octets "Host:" ++ octets " ") := by decide +kernel
  rw [writeRequest, hsplit, Sent.line, Sent.hostLine]
  simp only [List.append_assoc, List.append_nil]

/-- A request without content. -/
theorem writeRequest_get (hmethod : s.method = .get)
    (hheader : writeHeader keepAlive header = writeFields s.elems) :
    writeRequest keepAlive getReq ⟨text, [], header⟩ s.target s.host = s.text := by
  have hreq : getReq = ⟨s.method.text, crlf⟩ := by
    rw [hmethod]
    rfl
  rw [hreq, writeRequest_eq, hheader, Sent.elems, writeFields_text, Sent.text]

end Write

/-- An address without blanks that is used as it is meant. -/
structure PlainUrl extends Url where
  host_ne_nil : host ≠ []
  chars : ∀ ch ∈ toUrl.text, ¬ isspace ch
  simple : toUrl.Simple

namespace PlainUrl

variable (url : PlainUrl)

theorem target_ne_nil : url.target ≠ [] := List.cons_ne_nil _ _

theorem target_chars : ∀ ch ∈ url.target, ¬ isspace ch := by
  intro ch hch
  rw [Url.target, List.cons_append, List.mem_cons, List.mem_append] at hch
  rcases hch with rfl | hch | hch
  · decide
  · refine url.chars ch ?_
    rcases hpath : url.path with _ | path
    · rw [hpath] at hch
      cases hch
    · rw [hpath, Option.getD_some] at hch
      simp [Url.text, hpath, Url.part, hch]
  · refine url.chars ch ?_
    rw [Url.text]
    exact List.mem_append_right _ hch

theorem hostHeader_ne_nil : url.hostHeader ≠ [] := by
  simp [Url.hostHeader, url.host_ne_nil]

theorem hostHeader_chars : ∀ ch ∈ url.hostHeader, ¬ isspace ch := by
  intro ch hch
  refine url.chars ch ?_
  rw [Url.hostHeader, List.mem_append] at hch
  rw [Url.text]
  simp only [List.mem_append]
  tauto

/-- What `wget` sends. -/
def sent (keepAlive : Bool) : Sent where
  method := .get
  target := url.target
  host := url.hostHeader
  first := connection keepAlive
  fields := [accept, acceptEncoding]
  target_ne_nil := url.target_ne_nil
  target_chars := url.target_chars
  host_ne_nil := url.hostHeader_ne_nil
  host_chars := url.hostHeader_chars
  values := default_values keepAlive

theorem sent_text (keepAlive : Bool) :
    (url.request keepAlive getReq ⟨url.text, [], none⟩).written = (url.sent keepAlive).text :=
  writeRequest_get (url.sent keepAlive) keepAlive url.text none rfl (writeHeader_none keepAlive)

/-- What a redirect to a place on the host is to be followed with. -/
def next (keepAlive : Bool) (loc : List UInt8) (hne : loc ≠ []) (hloc : ∀ ch ∈ loc, ¬ isspace ch) :
    Sent where
  method := .get
  target := loc
  host := url.hostHeader
  first := accept
  fields := [acceptEncoding, connection keepAlive]
  target_ne_nil := hne
  target_chars := hloc
  host_ne_nil := url.hostHeader_ne_nil
  host_chars := url.hostHeader_chars
  values f hf := default_values keepAlive f (by
    simp only [List.mem_cons] at hf ⊢
    tauto)

theorem parseUri_append (tail : List UInt8) :
    parseUri (url.scheme.text ++ (url.host ++ tail)) =
      some ⟨url.scheme, url.host ++ tail.takeWhile isHostChar,
        (parseServ (tail.dropWhile isHostChar)).1, (parseServ (tail.dropWhile isHostChar)).2⟩ := by
  rw [parseUri, Scheme.parse_text, Option.map_some]
  simp only [url.takeWhile_host, url.dropWhile_host]

variable {context keepAlive : Bool} {req : Req} {header : Option (List UInt8)} {loc : List UInt8}

/-- Where an address that `on_move` makes of a place leads to. -/
def address (sent : Request) (loc : List UInt8) : List UInt8 :=
  url.scheme.text ++ url.hostHeader ++ portName sent ++ loc

theorem doConnect_address (hport : url.port = none)
    (hcontext : url.scheme = .https → context = true) (hloc : loc.head? = some (chr '/'))
    {sent : Request} (hscheme : sent.scheme = url.scheme) (hserv : sent.serv = url.service) :
    doConnect context keepAlive req ⟨url.address sent loc, [], header⟩ =
      .ok ⟨url.scheme, url.host, url.service,
        writeRequest keepAlive req ⟨[], [], header⟩ loc url.hostHeader⟩ := by
  have hservice : url.service = url.scheme.service := by rw [Url.service, hport, Option.getD_none]
  have hhost : url.hostHeader = url.host := by simp [Url.hostHeader, hport, Url.part]
  have hname : portName sent = [] := by rw [portName, hserv, hscheme, hservice, if_pos rfl]
  obtain ⟨rest, rfl⟩ : ∃ rest, loc = chr '/' :: rest := by
    obtain ⟨ch, rest, rfl⟩ :=
      List.exists_cons_of_ne_nil (List.ne_nil_of_mem (List.mem_of_mem_head? hloc))
    obtain rfl : ch = chr '/' := Option.some.inj hloc
    exact ⟨rest, rfl⟩
  have hslash : ¬ isHostChar (chr '/') := by decide
  have hne : chr '/' ≠ chr ':' := by decide
  have hparse : parseUri (url.address sent (chr '/' :: rest)) =
      some ⟨url.scheme, url.host, [], chr '/' :: rest⟩ := by
    rw [address, hhost, hname, List.append_nil, List.append_assoc, parseUri_append,
      List.takeWhile_cons_of_neg hslash, List.dropWhile_cons_of_neg hslash, parseServ_of_ne hne,
      List.append_nil]
  rw [Url.doConnect_of_parsed hparse hcontext, hservice, hhost]
  rfl

/-- A port is put to the address twice. -/
theorem doConnect_address_port {port : List UInt8} (hport : url.port = some port)
    (hcontext : url.scheme = .https → context = true)
    {sent : Request} (hscheme : sent.scheme = url.scheme) (hserv : sent.serv = url.service) :
    ∃ name, name ≠ [] ∧ doConnect context keepAlive req ⟨url.address sent loc, [], header⟩ =
      .ok ⟨url.scheme, url.host, url.service,
        writeRequest keepAlive req ⟨[], [], header⟩ (name ++ loc) url.hostHeader⟩ := by
  obtain ⟨digit, rfl⟩ := List.length_eq_one_iff.mp (url.simple.1 port hport)
  have hdigit : isdigit digit = true := (url.port_decimal _ hport).2 digit List.mem_cons_self
  have hservice : url.service = [digit] := by rw [Url.service, hport, Option.getD_some]
  have hhost : url.hostHeader = url.host ++ [chr ':', digit] := by
    simp [Url.hostHeader, hport, Url.part]
  have hvalue : decimalValue [digit] < 10 := by
    have hrange : digit ≤ chr '9' := (of_decide_eq_true hdigit).2
    have hnine : digit.toNat ≤ 57 := UInt8.le_iff_toNat_le.mp hrange
    simp only [decimalValue, List.foldl_cons, List.foldl_nil]
    omega
  have hname : ∃ rest, portName sent = chr ':' :: rest := by
    have hne : decimalValue sent.serv ≠ decimalValue sent.scheme.service := by
      rw [hserv, hservice, hscheme]
      have hhttp : decimalValue Scheme.http.service = 80 := by decide
      have hhttps : decimalValue Scheme.https.service = 443 := by decide
      cases url.scheme <;> omega
    rw [portName, if_neg hne]
    exact ⟨_, rfl⟩
  obtain ⟨rest, hname⟩ := hname
  have hcolon : ¬ isHostChar (chr ':') := by decide
  have hparse : parseUri (url.address sent loc) =
      some ⟨url.scheme, url.host, [digit], chr ':' :: rest ++ loc⟩ := by
    have htext : url.address sent loc = url.scheme.text ++ (url.host ++ chr ':' :: digit ::
        (chr ':' :: rest ++ loc)) := by
      rw [address, hhost, hname]
      simp only [List.append_assoc, List.cons_append, List.nil_append]
    rw [htext, parseUri_append, List.takeWhile_cons_of_neg hcolon,
      List.dropWhile_cons_of_neg hcolon, parseServ, if_pos ⟨rfl, hdigit⟩, List.append_nil]
  have hhead : (chr ':' :: rest ++ loc).head? ≠ some (chr '/') := by
    rw [List.cons_append, List.head?_cons]
    decide
  refine ⟨octets "/" ++ (chr ':' :: rest), by simp, ?_⟩
  have htarget : octets "/" ++ (chr ':' :: rest) ++ loc = octets "/" ++ (chr ':' :: rest ++ loc) :=
    List.append_assoc _ _ _
  have hheader : url.host ++ octets ":" ++ [digit] = url.hostHeader := by
    simp [hhost, octets]
  rw [Url.doConnect_of_parsed hparse hcontext, hservice, htarget, ← hheader]
  simp only [if_neg hhead, List.cons_ne_nil, if_false]
  rfl

/-- A request for a place on the host, with the fields of `s`. -/
def requestOf (s : Sent) : Request := ⟨url.scheme, url.host, url.service, s.text⟩

/-- The fields that the header has behind a redirect. -/
def defaultHeader (keepAlive : Bool) : Header :=
  [accept, acceptEncoding, connection keepAlive].map HeaderField.elem

theorem onMove_sent {s : Sent} (hhost : s.host = url.hostHeader) (hmethod : s.method = .get)
    (helems : Header.insertFields [] s.elems = defaultHeader keepAlive) (statusCode : Option Int)
    (hloc : loc.head? = some (chr '/')) :
    onMove context keepAlive (url.requestOf s) statusCode loc =
      .connect (defaultHeader keepAlive) (doConnect context keepAlive getReq
        ⟨url.address (url.requestOf s) loc, [], some (writeFields (defaultHeader keepAlive))⟩) := by
  have hwritten : (url.requestOf s).written = s.text ++ [] := (List.append_nil _).symm
  have hmoved : s.method.moved statusCode = .get := by
    rw [hmethod, Method.moved]
    split <;> rfl
  rw [onMove_text hwritten List.not_mem_nil context keepAlive statusCode hloc, helems, hmoved, hhost]
  rfl

theorem onMove_next (hport : url.port = none) (hcontext : url.scheme = .https → context = true)
    {s : Sent} (hhost : s.host = url.hostHeader) (hmethod : s.method = .get)
    (helems : Header.insertFields [] s.elems = defaultHeader keepAlive) (statusCode : Option Int)
    (hloc : loc.head? = some (chr '/')) (hne : loc ≠ []) (hchars : ∀ ch ∈ loc, ¬ isspace ch) :
    onMove context keepAlive (url.requestOf s) statusCode loc =
      .connect (defaultHeader keepAlive)
        (.ok (url.requestOf (url.next keepAlive loc hne hchars))) := by
  rw [url.onMove_sent hhost hmethod helems statusCode hloc,
    url.doConnect_address hport hcontext hloc rfl rfl]
  exact congrArg (fun text => Moved.connect (defaultHeader keepAlive)
    (.ok ⟨url.scheme, url.host, url.service, text⟩))
    (writeRequest_get (url.next keepAlive loc hne hchars) keepAlive [] _ rfl rfl)

theorem length_writeRequest (uri : Uri) (target host : List UInt8) :
    (writeRequest keepAlive req uri target host).length =
      target.length + (writeRequest keepAlive req uri [] host).length := by
  simp only [writeRequest, List.length_append, List.length_nil]
  omega

theorem insertFields_sent (keepAlive : Bool) :
    Header.insertFields [] (url.sent keepAlive).elems = defaultHeader keepAlive :=
  sorted_elems keepAlive

/-- What `wget` sends is a request with the fields that are written for a `boost::blank`. -/
theorem sent_of_doConnect {sent : Request}
    (h : doConnect context keepAlive getReq ⟨url.text, [], none⟩ = .ok sent) :
    (url.scheme = .https → context = true) ∧ sent = url.requestOf (url.sent keepAlive) := by
  have hcontext := url.context_of_doConnect rfl h
  rw [url.doConnect_of_simple rfl hcontext url.simple] at h
  refine ⟨hcontext, ?_⟩
  rw [← Except.ok.inj h, Url.request, requestOf, ← url.sent_text keepAlive]
  rfl

/-- A place on the host is gone to exactly when the address has no port. -/
theorem onMove_iff (context keepAlive : Bool) (sent : Request)
    (hsent : doConnect context keepAlive getReq ⟨url.text, [], none⟩ = .ok sent)
    (statusCode : Option Int) (loc : List UInt8) (hloc : loc.head? = some (chr '/'))
    (hne : loc ≠ []) (hchars : ∀ ch ∈ loc, ¬ isspace ch) :
    onMove context keepAlive sent statusCode loc =
        .connect (defaultHeader keepAlive)
          (.ok (url.requestOf (url.next keepAlive loc hne hchars))) ↔
      url.port = none := by
  obtain ⟨hcontext, rfl⟩ := url.sent_of_doConnect hsent
  constructor
  · intro hmove
    by_contra hport
    obtain ⟨port, hport⟩ := Option.ne_none_iff_exists'.mp hport
    obtain ⟨name, hname, hconnect⟩ := @doConnect_address_port url context keepAlive getReq
      (some (writeFields (defaultHeader keepAlive))) loc port hport hcontext
      (url.requestOf (url.sent keepAlive)) rfl rfl
    rw [url.onMove_sent rfl rfl (url.insertFields_sent keepAlive) statusCode hloc, hconnect] at hmove
    have hnext : writeRequest keepAlive getReq
        ⟨[], [], some (writeFields (defaultHeader keepAlive))⟩ loc url.hostHeader =
          (url.next keepAlive loc hne hchars).text :=
      writeRequest_get (url.next keepAlive loc hne hchars) keepAlive [] _ rfl rfl
    have hrequest := Except.ok.inj (Moved.connect.inj hmove).2
    have hlen := congrArg List.length ((congrArg Request.written hrequest).trans hnext.symm)
    rw [length_writeRequest _ (name ++ loc), length_writeRequest _ loc, List.length_append] at hlen
    have hpos := List.length_pos_of_ne_nil hname
    omega
  · intro hport
    exact url.onMove_next hport hcontext rfl rfl (url.insertFields_sent keepAlive) statusCode hloc
      hne hchars

/-- `http://h/a`. -/
def home : PlainUrl where
  scheme := .http
  host := octets "h"
  port := none
  path := some (octets "a")
  query := none
  host_clean := by decide +kernel
  port_decimal := by
    rintro p ⟨⟩
  path_clean := by
    rintro p ⟨⟩
    decide +kernel
  host_ne_nil := by decide
  chars := by decide +kernel
  simple := by
    constructor
    · rintro p ⟨⟩
    · rintro ⟨⟩

theorem onMove_home :
    onMove false true (home.request true getReq ⟨home.text, [], none⟩) (some 302)
        (octets "/b") = .connect (defaultHeader true) (.ok (home.requestOf
          (home.next true (octets "/b") (by decide) (by decide +kernel)))) ↔
      home.port = none :=
  home.onMove_iff false true _
    (home.doConnect_of_simple rfl (fun hs => by cases hs) home.simple) (some 302)
    (octets "/b") (by decide) (by decide) (by decide +kernel)

/-- An address is gone to exactly when there is a context for its scheme and the grammar can take
it apart. -/
theorem onMove_elsewhere_iff (context keepAlive : Bool) (sent : Request)
    (hsent : doConnect context keepAlive getReq ⟨url.text, [], none⟩ = .ok sent)
    (statusCode : Option Int) (dest : Url) :
    onMove context keepAlive sent statusCode dest.text =
        .connect (defaultHeader keepAlive) (.ok (dest.request keepAlive getReq
          ⟨dest.text, [], some (writeFields (defaultHeader keepAlive))⟩)) ↔
      (dest.scheme = .https → context = true) ∧ dest.Simple := by
  obtain ⟨-, rfl⟩ := url.sent_of_doConnect hsent
  have hhead : dest.text.head? = some (chr 'h') := by
    rw [Url.text]
    cases dest.scheme <;> rfl
  have hne : dest.text ≠ [] := List.ne_nil_of_mem (List.mem_of_mem_head? hhead)
  have hslash : dest.text.head? ≠ some (chr '/') := by
    rw [hhead]
    decide
  have hwritten : (url.requestOf (url.sent keepAlive)).written = (url.sent keepAlive).text ++ [] :=
    (List.append_nil _).symm
  have hmoved : (url.sent keepAlive).method.moved statusCode = .get := by
    rw [sent, Method.moved]
    split <;> rfl
  rw [onMove_elsewhere hwritten List.not_mem_nil context keepAlive statusCode hne hslash,
    url.insertFields_sent, hmoved, Moved.connect.injEq]
  constructor
  · rintro ⟨-, hconnect⟩
    exact ⟨dest.context_of_doConnect rfl hconnect, dest.simple_of_doConnect rfl hconnect⟩
  · rintro ⟨hcontext, hsimple⟩
    exact ⟨rfl, dest.doConnect_of_simple rfl hcontext hsimple⟩

theorem onMove_elsewhere_localhost :
    onMove false true (home.request true getReq ⟨home.text, [], none⟩) (some 301)
        Url.localhost.text = .connect (defaultHeader true) (.ok (Url.localhost.request true getReq
          ⟨Url.localhost.text, [], some (writeFields (defaultHeader true))⟩)) ↔
      (Url.localhost.scheme = .https → false = true) ∧ Url.localhost.Simple :=
  home.onMove_elsewhere_iff false true _
    (home.doConnect_of_simple rfl (fun hs => by cases hs) home.simple) (some 301) Url.localhost

end PlainUrl

/-- A response that leads to a place on the same host. -/
structure Redirect extends Head where
  location : List UInt8
  located : toHead.lookup "Location" = some location
  relative : location.head? = some (chr '/')
  chars : ∀ ch ∈ location, ¬ isspace ch
  values : ∀ f ∈ toHead.allFields, f.value ≠ []

namespace Redirect

variable (hop : Redirect)

theorem location_ne_nil : hop.location ≠ [] :=
  List.ne_nil_of_mem (List.mem_of_mem_head? hop.relative)

theorem readResponse_redirect {result : ClientResult} (hneutral : result.header.Neutral)
    {tail : List UInt8} {reads : List (List UInt8)} (h : reads.flatten = hop.toHead.text ++ tail) :
    ∃ rest, readResponse result reads = some (.onMove hop.location { result with
      statusCode := some hop.statusCode
      header := result.header.insertFields (hop.allFields.map HeaderField.elem)
      buffer := rest }) := by
  obtain ⟨rest, reads', -, hread⟩ := hop.readResponse_text result h
  have hlocation : (result.header.insertFields (hop.allFields.map HeaderField.elem)).find
      "Location" = some hop.location := by
    rw [Header.find_insertFields hneutral.sorted, hneutral.absent _ (by simp), hop.located]
    rfl
  refine ⟨rest, ?_⟩
  rw [hread, hop.onReadHeader_values hop.values]
  simp only [hlocation]

theorem version_lt : 1 < 2 ^ 31 := by decide

/-- A redirect to `/b`. -/
def found : Redirect where
  major := 1
  minor := 1
  statusCode := 302
  reason := octets "Found"
  first :=
    { name := octets "Location"
      value := octets "/b"
      name_ne_nil := by decide
      name_chars := by decide +kernel
      value_clean := by
        rw [Clean]
        decide +kernel
      value_head := by
        intro ch hch
        rw [← Option.some.inj hch]
        decide }
  fields := []
  major_lt := version_lt
  minor_lt := version_lt
  statusCode_lt := by decide
  reason_clean := by
    rw [Clean]
    decide +kernel
  location := octets "/b"
  located := by decide
  relative := by decide
  chars := by decide +kernel
  values := by decide +kernel

end Redirect

/-- Each connection but the last one has a redirect to read. -/
def Hops (hops : List Redirect) (connections : List (List (List UInt8))) : Prop :=
  List.Forall₂ (fun hop reads => ∃ tail, List.flatten reads = hop.toHead.text ++ tail)
    hops connections

namespace PlainUrl

variable (url : PlainUrl) {context keepAlive : Bool}

/-- The request that follows a redirect. -/
def follow (keepAlive : Bool) (hop : Redirect) : Request :=
  url.requestOf (url.next keepAlive hop.location hop.location_ne_nil hop.chars)

theorem neutral_default (keepAlive : Bool) : Header.Neutral (defaultHeader keepAlive) := by
  constructor
  · rw [defaultHeader, ← sorted_elems]
    exact Header.sorted_insertFields _
  · cases keepAlive <;> decide +kernel

theorem insertFields_next {loc : List UInt8} (hne : loc ≠ []) (hchars : ∀ ch ∈ loc, ¬ isspace ch) :
    Header.insertFields [] (url.next keepAlive loc hne hchars).elems = defaultHeader keepAlive := by
  have hsorted : Header.insertFields []
      ([accept, acceptEncoding, connection keepAlive].map HeaderField.elem) =
        defaultHeader keepAlive := by
    cases keepAlive <;> decide +kernel
  exact hsorted

theorem exchange_hops (hport : url.port = none) (hcontext : url.scheme = .https → context = true)
    {hops : List Redirect} {connections : List (List (List UInt8))} (hhops : Hops hops connections)
    (r : Response) (hvalues : ∀ f ∈ r.allFields, f.value ≠ []) {tail : List UInt8}
    {reads : List (List UInt8)} (h : reads.flatten = r.text ++ tail) {s : Sent}
    (hhost : s.host = url.hostHeader) (hmethod : s.method = .get)
    (helems : Header.insertFields [] s.elems = defaultHeader keepAlive) {result : ClientResult}
    (hneutral : result.header.Neutral) (hbuffer : result.buffer = []) :
    exchange context keepAlive (url.requestOf s) result (connections ++ [reads]) =
      (url.requestOf s :: hops.map (url.follow keepAlive),
        some (.response (r.received (if hops = [] then result.header
          else defaultHeader keepAlive)))) := by
  induction hhops generalizing s result with
  | nil =>
    have hread := (r.readResponse_received hneutral hbuffer h).mpr hvalues
    rw [List.nil_append, exchange, hread, if_pos rfl, List.map_nil, Response.received]
    cases r.framing <;> rfl
  | @cons hop reads' hops connections hhop hhops ih =>
    obtain ⟨tail', htail⟩ := hhop
    obtain ⟨rest, hread⟩ := hop.readResponse_redirect hneutral htail
    rw [List.cons_append, exchange, hread]
    simp only [url.onMove_next hport hcontext hhost hmethod helems (some (hop.statusCode : Int))
      hop.relative hop.location_ne_nil hop.chars]
    have hnext :
        exchange context keepAlive (url.follow keepAlive hop)
            ⟨some hop.statusCode, defaultHeader keepAlive, [], result.isKeepAlive⟩
            (connections ++ [reads]) =
          (url.follow keepAlive hop :: hops.map (url.follow keepAlive),
            some (.response (r.received (if hops = [] then defaultHeader keepAlive
              else defaultHeader keepAlive)))) :=
      ih rfl rfl (insertFields_next url hop.location_ne_nil hop.chars)
        (neutral_default keepAlive) rfl
    rw [ite_self, follow] at hnext
    rw [hnext, if_neg (List.cons_ne_nil _ _)]
    rfl

/-- Any number of redirects within a host without a port is followed, in pieces of whatever size
they come: each request goes where the last response pointed to, with the fields of the first one,
which stay in the header of the result. -/
theorem exchange_redirects (hport : url.port = none) (context keepAlive : Bool) (sent : Request)
    (hsent : doConnect context keepAlive getReq ⟨url.text, [], none⟩ = .ok sent)
    (hops : List Redirect) (connections : List (List (List UInt8))) (hhops : Hops hops connections)
    (r : Response) (hvalues : ∀ f ∈ r.allFields, f.value ≠ []) (tail : List UInt8)
    (reads : List (List UInt8)) (h : reads.flatten = r.text ++ tail) :
    exchange context keepAlive sent .new (connections ++ [reads]) =
      (sent :: hops.map (url.follow keepAlive),
        some (.response (r.received (if hops = [] then [] else defaultHeader keepAlive)))) := by
  obtain ⟨hcontext, rfl⟩ := url.sent_of_doConnect hsent
  exact url.exchange_hops hport hcontext hhops r hvalues h rfl rfl (url.insertFields_sent keepAlive)
    Response.neutral_nil rfl

theorem exchange_found :
    exchange false true (home.request true getReq ⟨home.text, [], none⟩) .new
        ([[octets "HTTP/1.1 302 Found\r\nLoca", octets "tion: /b\r\n\r\n"]] ++
          [[octets "HTTP/1.1 200 OK\r\nContent-Length: 5\r\n\r\nhello"]]) =
      (home.request true getReq ⟨home.text, [], none⟩ :: [Redirect.found].map (home.follow true),
        some (.response (Response.hello.received (if [Redirect.found] = [] then [] else
          defaultHeader true)))) :=
  home.exchange_redirects rfl false true _
    (home.doConnect_of_simple rfl (fun hs => by cases hs) home.simple) [Redirect.found]
    [[octets "HTTP/1.1 302 Found\r\nLoca", octets "tion: /b\r\n\r\n"]]
    (.cons ⟨[], by decide +kernel⟩ .nil) Response.hello (by decide +kernel) [] _ (by decide +kernel)

end PlainUrl

end Webclient

end Acqua
