import Acqua.Ctype
import Acqua.Webclient.HttpClient

/-! `do_connect` of `http_client.hpp`: what it takes from an address and what it writes to the
socket. -/

namespace Acqua

namespace Webclient

/-- What `write_query` writes, nothing for a `boost::blank`, and what `uri.header` writes, if
there is one. -/
structure Uri where
  text : List UInt8
  query : List UInt8
  header : Option (List UInt8)

/-- What `req.method` and `req.content` write. -/
structure Req where
  method : List UInt8
  content : List UInt8

namespace Scheme

def text : Scheme → List UInt8
  | http => octets "http://"
  | https => octets "https://"

def service : Scheme → List UInt8
  | http => octets "80"
  | https => octets "443"

/-- `sym`. -/
def parse (s : List UInt8) : Option (Scheme × List UInt8) :=
  if http.text.isPrefixOf s then some (http, s.drop http.text.length)
  else if https.text.isPrefixOf s then some (https, s.drop https.text.length)
  else none

end Scheme

/-- `qi::char_ - ':' - '/'`. -/
def isHostChar (ch : UInt8) : Bool := ch ≠ chr ':' ∧ ch ≠ chr '/'

/-- `-(':' >> qi::char_('0','9'))`: `serv`, and where `it` stands behind it. -/
def parseServ : List UInt8 → List UInt8 × List UInt8
  | colon :: digit :: it =>
    if colon = chr ':' ∧ isdigit digit then ([digit], it) else ([], colon :: digit :: it)
  | it => ([], it)

structure Parsed where
  scheme : Scheme
  host : List UInt8
  serv : List UInt8
  it : List UInt8

def parseUri (uri : List UInt8) : Option Parsed :=
  (Scheme.parse uri).map fun (scheme, it) =>
    let serv := parseServ (it.dropWhile isHostChar)
    ⟨scheme, it.takeWhile isHostChar, serv.1, serv.2⟩

/-- What the resolver is asked for and what is written to the socket. -/
structure Request where
  scheme : Scheme
  host : List UInt8
  serv : List UInt8
  written : List UInt8
  deriving DecidableEq

/-- `write_header`. -/
def writeHeader (keepAlive : Bool) : Option (List UInt8) → List UInt8
  | some header => header
  | none =>
    octets "Connection: " ++ (if keepAlive then octets "Keep-Alive" else octets "Close") ++
      octets "\r\nAccept: */*\r\nAccept-Encoding: compress, gzip\r\n"

/-- All from the method on. -/
def writeRequest (keepAlive : Bool) (req : Req) (uri : Uri) (target host : List UInt8) :
    List UInt8 :=
  req.method ++ octets " " ++ target ++ uri.query ++ octets " HTTP/1.1\r\nHost: " ++ host ++
    octets "\r\n" ++ writeHeader keepAlive uri.header ++ req.content

/-- `do_connect` without its bookkeeping. -/
def doConnect (context keepAlive : Bool) (req : Req) (uri : Uri) : Except Connected Request :=
  match parseUri uri.text with
  | none => .error .invalidArgument
  | some p =>
    if p.scheme = .https ∧ context = false then .error .unsupportedHttps
    else
      let serv := if p.serv = [] then p.scheme.service else p.serv
      let host := if p.serv = [] then p.host else p.host ++ octets ":" ++ p.serv
      let target := if p.it.head? = some (chr '/') then p.it else octets "/" ++ p.it
      .ok ⟨p.scheme, p.host, serv, writeRequest keepAlive req uri target host⟩

/-- `scheme://host[:port][/path][?query]`. -/
structure Url where
  scheme : Scheme
  host : List UInt8
  port : Option (List UInt8)
  path : Option (List UInt8)
  query : Option (List UInt8)
  host_clean : ∀ ch ∈ host, ch ≠ chr ':' ∧ ch ≠ chr '/' ∧ ch ≠ chr '?'
  port_decimal : ∀ p ∈ port, p ≠ [] ∧ ∀ ch ∈ p, isdigit ch = true
  path_clean : ∀ p ∈ path, chr '?' ∉ p

namespace Url

/-- A part behind the character that starts it. -/
def part (start : Char) (s : Option (List UInt8)) : List UInt8 := s.elim [] (chr start :: ·)

def text (url : Url) : List UInt8 :=
  url.scheme.text ++ url.host ++ part ':' url.port ++ part '/' url.path ++ part '?' url.query

def service (url : Url) : List UInt8 := url.port.getD url.scheme.service

def hostHeader (url : Url) : List UInt8 := url.host ++ part ':' url.port

def target (url : Url) : List UInt8 :=
  chr '/' :: url.path.getD [] ++ part '?' url.query

/-- What the address stands for. -/
def request (url : Url) (keepAlive : Bool) (req : Req) (uri : Uri) : Request :=
  ⟨url.scheme, url.host, url.service, writeRequest keepAlive req uri url.target url.hostHeader⟩

/-- What the grammar can take apart: a port of one digit, and a query that something comes
before. -/
def Simple (url : Url) : Prop :=
  (∀ p ∈ url.port, p.length = 1) ∧
    (url.query.isSome = true → url.port.isSome = true ∨ url.path.isSome = true)

end Url

theorem Scheme.parse_text (scheme : Scheme) (s : List UInt8) :
    Scheme.parse (scheme.text ++ s) = some (scheme, s) := by
  cases scheme with
  | http => simp [parse, text, octets]
  | https =>
    have hno : http.text.isPrefixOf (https.text ++ s) = false := rfl
    rw [parse, if_neg (by rw [hno]; decide), if_pos (by simp), List.drop_left]

theorem parseServ_of_ne {ch : UInt8} (h : ch ≠ chr ':') (s : List UInt8) :
    parseServ (ch :: s) = ([], ch :: s) := by
  cases s with
  | nil => rfl
  | cons digit s => exact if_neg fun hand => h hand.1

namespace Url

variable (url : Url)

theorem takeWhile_host (tail : List UInt8) :
    (url.host ++ tail).takeWhile isHostChar = url.host ++ tail.takeWhile isHostChar := by
  refine List.takeWhile_append_of_pos fun ch hch => ?_
  obtain ⟨hcolon, hslash, -⟩ := url.host_clean ch hch
  exact decide_eq_true ⟨hcolon, hslash⟩

theorem dropWhile_host (tail : List UInt8) :
    (url.host ++ tail).dropWhile isHostChar = tail.dropWhile isHostChar := by
  refine List.dropWhile_append_of_pos fun ch hch => ?_
  obtain ⟨hcolon, hslash, -⟩ := url.host_clean ch hch
  exact decide_eq_true ⟨hcolon, hslash⟩

theorem parseUri_text (tail : List UInt8)
    (htail : part ':' url.port ++ part '/' url.path ++ part '?' url.query = tail) :
    parseUri url.text = some ⟨url.scheme, url.host ++ tail.takeWhile isHostChar,
      (parseServ (tail.dropWhile isHostChar)).1, (parseServ (tail.dropWhile isHostChar)).2⟩ := by
  have htext : url.text = url.scheme.text ++ (url.host ++ tail) := by
    rw [← htail, text]
    simp only [List.append_assoc]
  rw [parseUri, htext, Scheme.parse_text, Option.map_some]
  simp only [takeWhile_host, dropWhile_host]

/-- Only the first digit of a port is taken. -/
theorem parseUri_of_port {digit : UInt8} {digits : List UInt8}
    (h : url.port = some (digit :: digits)) :
    parseUri url.text = some ⟨url.scheme, url.host, [digit],
      digits ++ part '/' url.path ++ part '?' url.query⟩ := by
  have hdigit : isdigit digit = true := (url.port_decimal _ h).2 digit List.mem_cons_self
  have hcolon : isHostChar (chr ':') = false := by decide
  rw [url.parseUri_text (chr ':' :: digit :: (digits ++ part '/' url.path ++ part '?' url.query))
    (by rw [h]; rfl), List.takeWhile_cons_of_neg (by rw [hcolon]; decide),
    List.dropWhile_cons_of_neg (by rw [hcolon]; decide), parseServ, if_pos ⟨rfl, hdigit⟩,
    List.append_nil]

theorem parseUri_of_no_port (hport : url.port = none)
    (h : url.query.isSome = true → url.path.isSome = true) :
    parseUri url.text = some ⟨url.scheme, url.host, [],
      part '/' url.path ++ part '?' url.query⟩ := by
  rw [url.parseUri_text (part '/' url.path ++ part '?' url.query) (by rw [hport]; rfl)]
  rcases hpath : url.path with _ | path
  · have hquery : url.query = none := by simpa [hpath] using h
    simp [hquery, part, parseServ]
  · have hslash : isHostChar (chr '/') = false := by decide
    have hne : chr '/' ≠ chr ':' := by decide
    simp [part, hslash, parseServ_of_ne hne]

/-- A query that nothing comes before is taken for a part of the host. -/
theorem parseUri_of_query {query : List UInt8} (hport : url.port = none) (hpath : url.path = none)
    (hquery : url.query = some query) : ∃ p ∈ parseUri url.text, p.host ≠ url.host := by
  have hmark : isHostChar (chr '?') = true := by decide
  refine ⟨_, url.parseUri_text (chr '?' :: query) (by rw [hport, hpath, hquery]; rfl), fun he => ?_⟩
  have hlen := congrArg List.length he
  rw [List.takeWhile_cons_of_pos hmark, List.length_append] at hlen
  simp at hlen

/-- The slash that is put before what does not begin with one. -/
theorem target_eq :
    (if (part '/' url.path ++ part '?' url.query).head? = some (chr '/')
      then part '/' url.path ++ part '?' url.query
      else octets "/" ++ (part '/' url.path ++ part '?' url.query)) = url.target := by
  rcases hpath : url.path with _ | path
  · rcases hquery : url.query with _ | query
    · simp [target, hpath, hquery, part, octets]
    · have hmark : chr '?' ≠ chr '/' := by decide
      simp [target, hpath, hquery, part, octets, hmark]
  · simp [target, hpath, part]

theorem parseUri_scheme : ∃ p ∈ parseUri url.text, p.scheme = url.scheme :=
  ⟨_, url.parseUri_text _ rfl, rfl⟩

variable {context keepAlive : Bool} {req : Req} {uri : Uri}

theorem doConnect_of_parsed {p : Parsed} (hparse : parseUri uri.text = some p)
    (hcontext : p.scheme = .https → context = true) :
    doConnect context keepAlive req uri = .ok
      ⟨p.scheme, p.host, if p.serv = [] then p.scheme.service else p.serv,
        writeRequest keepAlive req uri
          (if p.it.head? = some (chr '/') then p.it else octets "/" ++ p.it)
          (if p.serv = [] then p.host else p.host ++ octets ":" ++ p.serv)⟩ := by
  have hno : ¬ (p.scheme = .https ∧ context = false) := by
    rintro ⟨hs, hc⟩
    rw [hcontext hs] at hc
    cases hc
  simp only [doConnect, hparse, if_neg hno]

theorem doConnect_of_simple (huri : uri.text = url.text)
    (hcontext : url.scheme = .https → context = true) (h : url.Simple) :
    doConnect context keepAlive req uri = .ok (url.request keepAlive req uri) := by
  obtain ⟨hone, hquery⟩ := h
  rcases hport : url.port with _ | port
  · have hparse := url.parseUri_of_no_port hport fun hq => by simpa [hport] using hquery hq
    have hserv : url.service = url.scheme.service := by rw [service, hport, Option.getD_none]
    have hhost : url.hostHeader = url.host := by simp [hostHeader, hport, part]
    rw [← huri] at hparse
    rw [doConnect_of_parsed hparse hcontext, request, hserv, hhost, ← url.target_eq]
    rfl
  · obtain ⟨digit, rfl⟩ := List.length_eq_one_iff.mp (hone port hport)
    have hparse := url.parseUri_of_port hport
    have hserv : url.service = [digit] := by rw [service, hport, Option.getD_some]
    have hhost : url.hostHeader = url.host ++ octets ":" ++ [digit] := by
      simp [hostHeader, hport, part, octets]
    rw [← huri, List.nil_append] at hparse
    rw [doConnect_of_parsed hparse hcontext, request, hserv, hhost, ← url.target_eq]
    rfl

theorem context_of_doConnect {r : Request} (huri : uri.text = url.text)
    (h : doConnect context keepAlive req uri = .ok r) : url.scheme = .https → context = true := by
  intro hs
  obtain ⟨p, hparse, hp⟩ := url.parseUri_scheme
  by_contra hc
  have hthrow : p.scheme = .https ∧ context = false := ⟨hp.trans hs, Bool.eq_false_iff.mpr hc⟩
  rw [doConnect, huri, Option.mem_def.mp hparse] at h
  simp only [if_pos hthrow] at h
  cases h

theorem simple_of_doConnect (huri : uri.text = url.text)
    (h : doConnect context keepAlive req uri = .ok (url.request keepAlive req uri)) :
    url.Simple := by
  have hcontext := url.context_of_doConnect huri h
  constructor
  · intro port hport
    obtain ⟨digit, digits, rfl⟩ := List.exists_cons_of_ne_nil (url.port_decimal port hport).1
    have hparse := url.parseUri_of_port hport
    rw [← huri] at hparse
    rw [doConnect_of_parsed hparse hcontext] at h
    have hserv : [digit] = url.service := congrArg Request.serv (Except.ok.inj h)
    rw [service, Option.mem_def.mp hport, Option.getD_some] at hserv
    rw [← hserv]
    rfl
  · intro hquery
    obtain ⟨query, hquery⟩ := Option.isSome_iff_exists.mp hquery
    by_contra hno
    rw [not_or, Option.not_isSome_iff_eq_none, Option.not_isSome_iff_eq_none] at hno
    obtain ⟨p, hparse, hhost⟩ := url.parseUri_of_query hno.1 hno.2 hquery
    obtain ⟨p', hparse', hscheme⟩ := url.parseUri_scheme
    obtain rfl : p' = p := Option.mem_unique hparse' hparse
    rw [← huri] at hparse
    rw [doConnect_of_parsed hparse fun hs => hcontext (hscheme ▸ hs)] at h
    exact hhost (congrArg Request.host (Except.ok.inj h))

variable (context keepAlive req) (query : List UInt8) (header : Option (List UInt8))

/-- An address is used as it is meant exactly when there is a context for its scheme and the
grammar can take it apart. -/
theorem doConnect_text_iff :
    doConnect context keepAlive req ⟨url.text, query, header⟩ =
        .ok (url.request keepAlive req ⟨url.text, query, header⟩) ↔
      (url.scheme = .https → context = true) ∧ url.Simple :=
  ⟨fun h => ⟨url.context_of_doConnect rfl h, url.simple_of_doConnect rfl h⟩,
    fun ⟨hcontext, h⟩ => url.doConnect_of_simple rfl hcontext h⟩

/-- `http://localhost:8080/index.html?key=val`. -/
def localhost : Url where
  scheme := .http
  host := octets "localhost"
  port := some (octets "8080")
  path := some (octets "index.html")
  query := some (octets "key=val")
  host_clean := by decide +kernel
  port_decimal := by
    rintro p ⟨⟩
    exact ⟨by decide, by decide +kernel⟩
  path_clean := by
    rintro p ⟨⟩
    decide +kernel

theorem doConnect_localhost :
    doConnect false true ⟨octets "GET", octets "\r\n"⟩ ⟨localhost.text, [], none⟩ ≠
      .ok (localhost.request true ⟨octets "GET", octets "\r\n"⟩ ⟨localhost.text, [], none⟩) := by
  intro h
  have hone := (localhost.simple_of_doConnect rfl h).1 (octets "8080") rfl
  exact absurd hone (by decide)

end Url

end Webclient

end Acqua
