import Acqua.Asio.ReadUntil
import Acqua.Iostreams.Base64
import Acqua.Library.Scanning

/-! `fcopy_server.cpp` and what `fcopy_client.cpp` sends to it. -/

namespace Acqua

namespace Fcopy

open Asio

inductive CompressType
  | none
  | zlib
  | gzip
  | bzip2

inductive ChecksumType
  | none
  | md5
  | sha256

/-- The filters of `out_` that are not ours: all that is decompressed of what was written, how much
of it has come through before `out_` is reset, and what is stored in `verify_`. -/
structure Filters where
  decompress : CompressType → List UInt8 → List UInt8
  passed : CompressType → List UInt8 → Nat
  digest : ChecksumType → List UInt8 → List UInt8

structure Fileinfo where
  filename : List UInt8
  filesize : Nat
  permission : Int
  compress : CompressType
  checksum : ChecksumType

section Parse

/-- `qi::symbols`, where no name begins with another. -/
def symbol {α : Type} (names : List (String × α)) (text : List UInt8) : Option (α × List UInt8) :=
  names.findSome? fun (name, value) => (literal name text).map fun rest => (value, rest)

def compress : List (String × CompressType) :=
  [("none", .none), ("zlib", .zlib), ("gzip", .gzip), ("bzip2", .bzip2)]

def checksum : List (String × ChecksumType) := [("none", .none), ("md5", .md5), ("sha256", .sha256)]

def parseFileinfo (text : List UInt8) : Option Fileinfo := do
  let text ← literal "FILE=" text
  let encodedFile := text.takeWhile (· ≠ chr ' ')
  let text ← literal " SIZE=" (text.dropWhile (· ≠ chr ' '))
  let (filesize, text) ← parseUint text
  let text ← literal " PERM=" text
  let (permission, text) ← parseInt text
  let text ← literal " COMPRESS=" text
  let (compress, text) ← symbol compress text
  let text ← literal " CHECKSUM=" text
  let (checksum, text) ← symbol checksum text
  let _ ← literal "\r\n" text
  some ⟨Base64Decoder.decode base64UrlTraits encodedFile, filesize, permission, compress, checksum⟩

end Parse

/-- A transfer whose first line was read; `out` is all that was written to `out_`. -/
structure Transfer where
  info : Fileinfo
  out : List UInt8
  chunkedSize : Nat
  total : Nat

/-- The handler that the next completion goes to. -/
inductive Handler
  | onStep1
  | onStep2 (s : Transfer)
  | onStep3 (s : Transfer)
  | onStep4 (s : Transfer)

/-- How a connection ends: the place that is printed, or what the file was stored as. There is no
more to read in either case. -/
inductive Outcome
  | disconnect (location : String)
  | verified (info : Fileinfo) (stored : List UInt8) (total : Nat) (verify : Bool)

/-- `verify_check` of the line without its end. The cases fall through to the last one. -/
def verifyCheck (checksum : ChecksumType) (s verify : List UInt8) : Bool :=
  let sha256 := s.length = 32 ∧ s = verify.take 32
  match checksum with
  | .md5 => if s.length = 16 ∧ s = verify.take 16 then true else if sha256 then true else true
  | .sha256 => if sha256 then true else true
  | .none => true

section Server

variable (F : Filters)

/-- The completion of the read that a handler waits for, where `behind` stands in memory behind the
octets in the buffer. -/
def step (behind : List UInt8) (handler : Handler) (buffer : List UInt8)
    (reads : List (List UInt8)) : Outcome ⊕ (Handler × List UInt8 × List (List UInt8)) :=
  match handler with
  | .onStep1 =>
    match readUntil buffer reads with
    | none => .inl (.disconnect "on_step1")
    | some (size, buffer, reads) =>
      -- from behind the end of a line of one character or none the parser does not meet that end
      let text := if size < 4 then buffer ++ behind else buffer.take size
      match parseFileinfo (text.drop 4) with
      | none => .inl (.disconnect "parse_fileinfo")
      | some info => .inr (.onStep2 ⟨info, [], 0, 0⟩, buffer.drop size, reads)
  | .onStep2 s =>
    match readUntil buffer reads with
    | none => .inl (.disconnect "on_step2")
    | some (size, buffer, reads) =>
      -- `atol` knows no end either: it skips that of an empty line
      let chunkedSize := (atol (buffer ++ behind) % 2 ^ 64).toNat
      let s := { s with chunkedSize := chunkedSize, total := s.total + size }
      if chunkedSize > s.info.filesize then .inl (.disconnect "chunksize too long")
      else if chunkedSize = 0 then .inr (.onStep4 s, buffer.drop size, reads)
      else .inr (.onStep3 s, buffer.drop size, reads)
  | .onStep3 s =>
    match readUntilSize (min 65536 s.chunkedSize) 0 buffer reads with
    | none => .inl (.disconnect "on_step3")
    | some (size, buffer, reads) =>
      let s := { s with
        out := s.out ++ buffer.take size
        chunkedSize := s.chunkedSize - size
        total := s.total + size }
      if F.passed s.info.compress s.out > s.info.filesize then
        .inl (.disconnect "decompressed-size too long")
      else if s.chunkedSize = 0 then .inr (.onStep2 s, buffer.drop size, reads)
      else .inr (.onStep3 s, buffer.drop size, reads)
  | .onStep4 s =>
    match readUntil buffer reads with
    | none => .inl (.disconnect "on_step3")
    | some (size, buffer, _) =>
      let stored := F.decompress s.info.compress s.out
      if stored.length > s.info.filesize then .inl (.disconnect "decompressed-size too long")
      else
        .inl (.verified s.info stored (s.total + size)
          (verifyCheck s.info.checksum (buffer.take (size - 2)) (F.digest s.info.checksum stored)))

variable (behind : Nat → List UInt8)

/-- The completions up to the end of a connection, which `fuel` of them reach. What stands behind
the buffer may be something else at each of them. -/
def run : Nat → Handler → List UInt8 → List (List UInt8) → Option Outcome
  | 0, _, _, _ => none
  | fuel + 1, handler, buffer, reads =>
    match step F (behind fuel) handler buffer reads with
    | .inl outcome => some outcome
    | .inr (handler, buffer, reads) => run fuel handler buffer reads

/-- A connection on which `reads` are received before its end. -/
def serve (reads : List (List UInt8)) : Option Outcome :=
  run F behind (reads.flatten.length + 1) .onStep1 [] reads

end Server

section Client

def base64Encode (str : List UInt8) : List UInt8 :=
  Base64Encoder.encode base64UrlTraits (.make .none (2 ^ 64 - 1) 0) str

def generateFileinfo (file : List UInt8) (fileSize : Nat) : List UInt8 :=
  octets "PUT" ++ octets " FILE=" ++ base64Encode file ++ octets " SIZE=" ++
    octets (Nat.repr fileSize) ++ octets " PERM=000" ++ octets " COMPRESS=none" ++
    octets " CHECKSUM=sha256" ++ octets "\r\n"

/-- The reads of `in` until one returns nothing. -/
def blocks (content : List UInt8) : List (List UInt8) :=
  if content = [] then [] else content.take 4096 :: blocks (content.drop 4096)
termination_by content.length
decreasing_by
  have hpos := List.length_pos_of_ne_nil ‹_›
  rw [List.length_drop]
  omega

def chunk (buf : List UInt8) : List UInt8 := octets (Nat.repr buf.length) ++ octets "\r\n" ++ buf

/-- All that the client writes for a file with this name and content, and this checksum. -/
def client (file content sum : List UInt8) : List UInt8 :=
  generateFileinfo file content.length ++ (blocks content).flatMap chunk ++ octets "0\r\n" ++ sum ++
    octets "\r\n"

end Client

end Fcopy

end Acqua
