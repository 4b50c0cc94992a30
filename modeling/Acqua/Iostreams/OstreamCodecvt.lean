import Acqua.Ctype
import Acqua.Library.UniversalNewlines

/-! `basic_ostream_locale_codecvt` of `ostream_codecvt.hpp`. -/

namespace Acqua

structure OstreamLocaleCodecvt where
  line : List UInt8
  last : UInt8

namespace OstreamLocaleCodecvt

def init : OstreamLocaleCodecvt := ⟨[], 0⟩

def isSep (ch : UInt8) : Bool := ch = chr '\r' ∨ ch = chr '\n'

theorem isSep_iff (ch : UInt8) : isSep ch = true ↔ ch = chr '\r' ∨ ch = chr '\n' := by
  simp [isSep]

-- `toUtf` has no result when the conversion throws.
variable (toUtf : List UInt8 → Option (List UInt8))

/-- The loop of `write`: what is written to `os_`, and the state unless a conversion throws. -/
def loop (beg : List UInt8) (s : OstreamLocaleCodecvt) :
    List UInt8 × Option OstreamLocaleCodecvt :=
  match _hit : beg.dropWhile fun ch => !isSep ch with
  | [] => ([], some { s with line := s.line ++ beg })
  | c :: it =>
    match toUtf (s.line ++ beg.takeWhile fun ch => !isSep ch) with
    | none => ([], none)
    | some str =>
      let r := loop (skipOne (chr '\n') (skipOne (chr '\r') (c :: it))) { s with line := [] }
      (str ++ [chr '\n'] ++ r.1, r.2)
termination_by beg.length
decreasing_by exact length_skipOne_lt_of_dropWhile isSep_iff _hit

def write (beg : List UInt8) (s : OstreamLocaleCodecvt) :
    List UInt8 × Option OstreamLocaleCodecvt :=
  match beg.getLast? with
  | none => ([], some s)
  | some last =>
    loop toUtf (if s.last = chr '\r' then skipOne (chr '\n') beg else beg) { s with last := last }

def close (s : OstreamLocaleCodecvt) : Option (List UInt8) :=
  if s.line = [] then some [] else toUtf s.line

/-- Everything written for a text that is then closed. An exception ends it. -/
def content (text : List UInt8) : List UInt8 :=
  let r := write toUtf text init
  r.1 ++ ((r.2.bind (close toUtf)).getD [])

/-- Successive calls of `write`, up to one in which a conversion throws. -/
def writes : List (List UInt8) → OstreamLocaleCodecvt → List UInt8 × Option OstreamLocaleCodecvt
  | [], s => ([], some s)
  | beg :: chunks, s =>
    match write toUtf beg s with
    | (out, none) => (out, none)
    | (out, some s) =>
      let r := writes chunks s
      (out ++ r.1, r.2)

/-- Everything written by calls of `write` and one of `close`. -/
def written (chunks : List (List UInt8)) : List UInt8 :=
  let r := writes toUtf chunks init
  r.1 ++ ((r.2.bind (close toUtf)).getD [])

/-- Lines converted one by one, each followed by LF, and whether no conversion throws. -/
def convertLines : List (List UInt8) → List UInt8 × Bool
  | [] => ([], true)
  | line :: lines =>
    match toUtf line with
    | none => ([], false)
    | some str =>
      let r := convertLines lines
      (str ++ [chr '\n'] ++ r.1, r.2)

variable {toUtf}

theorem convertLines_append (lines lines' : List (List UInt8)) :
    convertLines toUtf (lines ++ lines') =
      let r := convertLines toUtf lines
      if r.2 then (r.1 ++ (convertLines toUtf lines').1, (convertLines toUtf lines').2) else r := by
  induction lines with
  | nil => rfl
  | cons line lines ih =>
    rw [List.cons_append, convertLines, convertLines]
    cases toUtf line with
    | none => rfl
    | some str =>
      dsimp only
      rw [ih]
      obtain ⟨out, _ | _⟩ := convertLines toUtf lines
      · rfl
      · simp

theorem loop_eq (beg : List UInt8) (s : OstreamLocaleCodecvt) :
    loop toUtf beg s =
      let r := linesFrom (chr '\r') (chr '\n') s.line beg
      ((convertLines toUtf r.1).1,
        if (convertLines toUtf r.1).2 then some { s with line := r.2 } else none) := by
  induction hn : beg.length using Nat.strong_induction_on generalizing beg s with
  | _ n ih =>
    subst hn
    rw [loop]
    split
    next hit => rw [linesFrom_of_dropWhile_nil isSep_iff hit]; rfl
    next c it hit =>
      have hlt := length_skipOne_lt_of_dropWhile isSep_iff hit
      rw [linesFrom_of_dropWhile_cons isSep_iff (by decide) hit]
      dsimp only
      rw [convertLines]
      cases toUtf (s.line ++ beg.takeWhile fun ch => !isSep ch) with
      | none => rfl
      | some str =>
        dsimp only
        rw [ih _ hlt _ { s with line := [] } rfl]

theorem write_eq {beg : List UInt8} (hbeg : beg ≠ []) (s : OstreamLocaleCodecvt) :
    write toUtf beg s =
      let r := linesAfter (chr '\r') (chr '\n') s.line s.last beg
      ((convertLines toUtf r.1).1,
        if (convertLines toUtf r.1).2 then some ⟨r.2, beg.getLast hbeg⟩ else none) := by
  rw [write, List.getLast?_eq_some_getLast hbeg]
  exact loop_eq _ _

theorem writes_eq (chunks : List (List UInt8)) (s : OstreamLocaleCodecvt) :
    let r := linesAfter (chr '\r') (chr '\n') s.line s.last chunks.flatten
    (writes toUtf chunks s).1 = (convertLines toUtf r.1).1 ∧
      (writes toUtf chunks s).2.map (·.line) =
        if (convertLines toUtf r.1).2 then some r.2 else none := by
  induction chunks generalizing s with
  | nil =>
    have hnil : linesAfter (chr '\r') (chr '\n') s.line s.last [] = ([], s.line) := by
      simp [linesAfter, linesFrom]
    rw [List.flatten_nil, hnil]
    exact ⟨rfl, rfl⟩
  | cons beg chunks ih =>
    by_cases hbeg : beg = []
    · subst hbeg
      have hwrites : writes toUtf ([] :: chunks) s = writes toUtf chunks s := rfl
      rw [List.flatten_cons, List.nil_append, hwrites]
      exact ih s
    · rw [List.flatten_cons, linesAfter_append (by decide) _ _ hbeg, writes, write_eq hbeg]
      obtain ⟨hout, hline⟩ :=
        ih ⟨(linesAfter (chr '\r') (chr '\n') s.line s.last beg).2, beg.getLast hbeg⟩
      dsimp only at hout hline ⊢
      rw [convertLines_append]
      obtain ⟨out, _ | _⟩ :=
        convertLines toUtf (linesAfter (chr '\r') (chr '\n') s.line s.last beg).1
      · exact ⟨rfl, rfl⟩
      · exact ⟨congrArg (out ++ ·) hout, hline⟩

theorem convertLines_of_total (convert : List UInt8 → List UInt8) (lines : List (List UInt8)) :
    convertLines (fun line => some (convert line)) lines =
      (lines.flatMap fun line => convert line ++ [chr '\n'], true) := by
  induction lines with
  | nil => rfl
  | cons line lines ih => simp [convertLines, ih]

/-- However a text is cut into calls of `write`, each of its lines is converted as a whole, and
what is left after the last line end without one. -/
theorem written_eq_lines (convert : List UInt8 → List UInt8) (chunks : List (List UInt8)) :
    written (fun line => some (convert line)) chunks =
      let r := linesFrom (chr '\r') (chr '\n') [] chunks.flatten
      (r.1.flatMap fun line => convert line ++ [chr '\n']) ++
        if r.2 = [] then [] else convert r.2 := by
  have hlines : linesAfter (chr '\r') (chr '\n') init.line init.last chunks.flatten =
      linesFrom (chr '\r') (chr '\n') [] chunks.flatten := rfl
  obtain ⟨hout, hline⟩ := @writes_eq (fun line => some (convert line)) chunks init
  rw [hlines, convertLines_of_total] at hout hline
  obtain ⟨s, hs, hrest⟩ := Option.map_eq_some_iff.mp hline
  simp only [written, hout, hs, Option.bind_some, close, hrest]
  split <;> rfl

theorem content_line {text out : List UInt8} (htext : ∀ ch ∈ text, ¬ isSep ch)
    (hout : toUtf text = some out) (hne : text ≠ []) : content toUtf text = out := by
  have hdrop : text.dropWhile (fun ch => !isSep ch) = [] :=
    List.dropWhile_eq_nil_iff.mpr (by simpa using htext)
  have hloop : ∀ last, loop toUtf text ⟨[], last⟩ = ([], some ⟨text, last⟩) := by
    intro last
    rw [loop]
    split
    next => rfl
    next c it hit => exact absurd (hdrop.symm.trans hit) (List.cons_ne_nil _ _).symm
  cases hlast : text.getLast? with
  | none => exact absurd (List.getLast?_eq_none_iff.mp hlast) hne
  | some last =>
    have hinit : init.last ≠ chr '\r' := by decide
    have hwrite : write toUtf text init = ([], some ⟨text, last⟩) := by
      rw [write, hlast]
      dsimp only
      rw [if_neg hinit]
      exact hloop last
    rw [content, hwrite]
    simp [close, hne, hout]

end OstreamLocaleCodecvt

end Acqua
