import Acqua.Ctype
import Acqua.Library.UniversalNewlines

/-! `basic_email_parser::impl` of `email_parser.ipp`, over any `parser_impl` that takes lines. -/

namespace Acqua

namespace Email

/-- A `parser_impl`. There is no result when `parse_line` does not return. -/
structure LineParser (σ : Type*) where
  parseLine : List UInt8 → σ → Option σ
  inProgress : σ → Bool

structure EmailParser (σ : Type*) where
  parser : σ
  line : List UInt8
  last : UInt8

section Write

variable {σ : Type*} (P : LineParser σ)

/-- The calls of `parse_line` for some lines, up to the line that completes the message, and the
state after them. -/
def LineParser.parseLines : List (List UInt8) → σ → List (List UInt8) × Option σ
  | [], parser => ([], some parser)
  | line :: lines, parser =>
    if P.inProgress parser then
      match P.parseLine line parser with
      | none => ([line], none)
      | some parser =>
        let r := LineParser.parseLines lines parser
        (line :: r.1, r.2)
    else ([], some parser)

namespace EmailParser

def isSep (ch : UInt8) : Bool := ch = chr '\r' ∨ ch = chr '\n'

theorem isSep_iff (ch : UInt8) : isSep ch = true ↔ ch = chr '\r' ∨ ch = chr '\n' := by
  simp [isSep]

/-- The loop of `write`: the lines it hands to `parse_line`, the state it returns in, and the
octets it leaves. -/
def loop (beg : List UInt8) (s : EmailParser σ) :
    List (List UInt8) × Option (EmailParser σ × Nat) :=
  match _hit : beg.dropWhile fun ch => !isSep ch with
  | [] => ([], some ({ s with line := s.line ++ beg }, 0))
  | c :: it =>
    let line := s.line ++ beg.takeWhile fun ch => !isSep ch
    match P.parseLine line s.parser with
    | none => ([line], none)
    | some parser =>
      let s := { s with parser := parser, line := [] }
      let beg := skipOne (chr '\n') (skipOne (chr '\r') (c :: it))
      if beg = [] then ([line], some (s, 0))
      else if P.inProgress parser then
        let r := loop beg s
        (line :: r.1, r.2)
      else ([line], some (s, beg.length))
termination_by beg.length
decreasing_by exact length_skipOne_lt_of_dropWhile isSep_iff _hit

/-- `write` for the octets from `beg` on. It returns how many of them it took, or `EOF`. -/
def write (beg : List UInt8) (s : EmailParser σ) :
    List (List UInt8) × Option (EmailParser σ × Int) :=
  if P.inProgress s.parser then
    match beg.getLast? with
    | none => ([], some (s, 0))
    | some last =>
      let beg' := if s.last = chr '\r' then skipOne (chr '\n') beg else beg
      let r := loop P beg' { s with last := last }
      (r.1, r.2.map fun (s, left) => (s, beg.length - left))
  else ([], some (s, -1))

/-- Successive calls of `write`, up to one that does not return. -/
def writes : List (List UInt8) → EmailParser σ → List (List UInt8) × Option (EmailParser σ)
  | [], s => ([], some s)
  | beg :: chunks, s =>
    match write P beg s with
    | (calls, none) => (calls, none)
    | (calls, some (s, _)) =>
      let r := writes chunks s
      (calls ++ r.1, r.2)

end EmailParser

end Write

end Email

end Acqua
