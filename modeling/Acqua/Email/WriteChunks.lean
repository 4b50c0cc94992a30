import Acqua.Email.EmailParser

/-! How a message is cut into calls of `write` makes no difference to the lines it is parsed by. -/

namespace Acqua

namespace Email

variable {σ : Type*} {P : LineParser σ}

namespace LineParser

theorem parseLines_of_complete {parser : σ} (h : ¬ P.inProgress parser)
    (lines : List (List UInt8)) : P.parseLines lines parser = ([], some parser) := by
  cases lines with
  | nil => rfl
  | cons line lines => rw [parseLines, if_neg h]

theorem parseLines_cons_none {parser : σ} (h : P.inProgress parser) {line : List UInt8}
    (hline : P.parseLine line parser = none) (lines : List (List UInt8)) :
    P.parseLines (line :: lines) parser = ([line], none) := by
  rw [parseLines, if_pos h, hline]

theorem parseLines_cons_some {parser parser' : σ} (h : P.inProgress parser) {line : List UInt8}
    (hline : P.parseLine line parser = some parser') (lines : List (List UInt8)) :
    P.parseLines (line :: lines) parser =
      (line :: (P.parseLines lines parser').1, (P.parseLines lines parser').2) := by
  rw [parseLines, if_pos h, hline]

theorem parseLines_append_none {lines : List (List UInt8)} {parser : σ}
    (h : (P.parseLines lines parser).2 = none) (lines' : List (List UInt8)) :
    P.parseLines (lines ++ lines') parser = P.parseLines lines parser := by
  induction lines generalizing parser with
  | nil => exact absurd h (Option.some_ne_none _)
  | cons line lines ih =>
    by_cases hparser : P.inProgress parser
    · cases hline : P.parseLine line parser with
      | none =>
        rw [List.cons_append, parseLines_cons_none hparser hline,
          parseLines_cons_none hparser hline]
      | some parser' =>
        rw [parseLines_cons_some hparser hline] at h
        rw [List.cons_append, parseLines_cons_some hparser hline,
          parseLines_cons_some hparser hline, ih h]
    · rw [parseLines_of_complete hparser, parseLines_of_complete hparser]

theorem parseLines_append_some {lines : List (List UInt8)} {parser parser' : σ}
    (h : (P.parseLines lines parser).2 = some parser') (lines' : List (List UInt8)) :
    P.parseLines (lines ++ lines') parser =
      ((P.parseLines lines parser).1 ++ (P.parseLines lines' parser').1,
        (P.parseLines lines' parser').2) := by
  induction lines generalizing parser with
  | nil =>
    obtain rfl := Option.some.inj h
    rfl
  | cons line lines ih =>
    by_cases hparser : P.inProgress parser
    · cases hline : P.parseLine line parser with
      | none =>
        rw [parseLines_cons_none hparser hline] at h
        exact absurd h (Option.some_ne_none _).symm
      | some next =>
        rw [parseLines_cons_some hparser hline] at h
        rw [List.cons_append, parseLines_cons_some hparser hline,
          parseLines_cons_some hparser hline, ih h]
        rfl
    · rw [parseLines_of_complete hparser] at h
      obtain rfl := Option.some.inj h
      rw [parseLines_of_complete hparser, parseLines_of_complete hparser,
        parseLines_of_complete hparser]
      rfl

end LineParser

open LineParser

namespace EmailParser

/-- What a parser has done with some lines, and what is left in it. -/
structure Parsed (P : LineParser σ) (lines : List (List UInt8) × List UInt8) (parser : σ)
    (r : List (List UInt8) × Option (EmailParser σ)) : Prop where
  calls : r.1 = (P.parseLines lines.1 parser).1
  parser : r.2.map (·.parser) = (P.parseLines lines.1 parser).2
  line : ∀ s ∈ r.2, P.inProgress s.parser → s.line = lines.2

namespace Parsed

variable {lines lines' : List (List UInt8) × List UInt8} {parser parser' : σ}
  {r r' : List (List UInt8) × Option (EmailParser σ)}

theorem nil (s : EmailParser σ) : Parsed P ([], s.line) s.parser ([], some s) := by
  refine ⟨rfl, rfl, ?_⟩
  intro s' hs' _
  rw [Option.mem_some_iff.mp hs']

theorem complete {s : EmailParser σ} (hs : ¬ P.inProgress s.parser)
    (lines : List (List UInt8) × List UInt8) : Parsed P lines s.parser ([], some s) := by
  refine ⟨?_, ?_, ?_⟩
  · rw [parseLines_of_complete hs]
  · rw [parseLines_of_complete hs]
    rfl
  · intro s' hs' hparser
    rw [← Option.mem_some_iff.mp hs'] at hparser
    exact absurd hparser hs

theorem cons_none (h : P.inProgress parser) {line : List UInt8}
    (hline : P.parseLine line parser = none) (lines : List (List UInt8) × List UInt8) :
    Parsed P (line :: lines.1, lines.2) parser ([line], none) := by
  refine ⟨?_, ?_, fun s hs => absurd hs (by simp)⟩
  · rw [parseLines_cons_none h hline]
  · rw [parseLines_cons_none h hline]
    rfl

theorem cons_some (h : P.inProgress parser) {line : List UInt8}
    (hline : P.parseLine line parser = some parser') (hr : Parsed P lines parser' r) :
    Parsed P (line :: lines.1, lines.2) parser (line :: r.1, r.2) := by
  refine ⟨?_, ?_, hr.line⟩
  · rw [parseLines_cons_some h hline, hr.calls]
  · rw [parseLines_cons_some h hline, hr.parser]

theorem append_none (hr : Parsed P lines parser r) (hnone : r.2 = none)
    (lines' : List (List UInt8) × List UInt8) :
    Parsed P (lines.1 ++ lines'.1, lines'.2) parser (r.1, none) := by
  have hend : (P.parseLines lines.1 parser).2 = none := by rw [← hr.parser, hnone]; rfl
  refine ⟨?_, ?_, fun s hs => absurd hs (by simp)⟩
  · rw [parseLines_append_none hend, hr.calls]
  · rw [parseLines_append_none hend, hend]
    rfl

theorem append_some (hr : Parsed P lines parser r) {s : EmailParser σ} (hs : r.2 = some s)
    (hr' : Parsed P lines' s.parser r') :
    Parsed P (lines.1 ++ lines'.1, lines'.2) parser (r.1 ++ r'.1, r'.2) := by
  have hend : (P.parseLines lines.1 parser).2 = some s.parser := by rw [← hr.parser, hs]; rfl
  refine ⟨?_, ?_, hr'.line⟩
  · rw [parseLines_append_some hend, hr.calls, hr'.calls]
  · rw [parseLines_append_some hend, hr'.parser]

end Parsed

section Loop

variable {beg it : List UInt8} {c : UInt8} {s : EmailParser σ}

theorem loop_of_no_newline (hit : beg.dropWhile (fun ch => !isSep ch) = []) :
    loop P beg s = ([], some ({ s with line := s.line ++ beg }, 0)) := by
  rw [loop]
  split
  next => rfl
  next heq => exact absurd (hit.symm.trans heq) (List.cons_ne_nil _ _).symm

theorem loop_of_none (hit : beg.dropWhile (fun ch => !isSep ch) = c :: it)
    (hline : P.parseLine (s.line ++ beg.takeWhile fun ch => !isSep ch) s.parser = none) :
    loop P beg s = ([s.line ++ beg.takeWhile fun ch => !isSep ch], none) := by
  rw [loop]
  split
  next heq => exact absurd (hit.symm.trans heq) (List.cons_ne_nil _ _)
  next => simp only [hline]

theorem loop_of_some (hit : beg.dropWhile (fun ch => !isSep ch) = c :: it) {parser : σ}
    (hline : P.parseLine (s.line ++ beg.takeWhile fun ch => !isSep ch) s.parser = some parser) :
    loop P beg s =
      let line := s.line ++ beg.takeWhile fun ch => !isSep ch
      let s := { s with parser := parser, line := [] }
      let beg := skipOne (chr '\n') (skipOne (chr '\r') (c :: it))
      if beg = [] then ([line], some (s, 0))
      else if P.inProgress parser then (line :: (loop P beg s).1, (loop P beg s).2)
      else ([line], some (s, beg.length)) := by
  rw [loop]
  split
  next heq => exact absurd (hit.symm.trans heq) (List.cons_ne_nil _ _)
  next heq =>
    obtain ⟨rfl, rfl⟩ := List.cons.inj (hit.symm.trans heq)
    simp only [hline]

end Loop

theorem loop_parsed (beg : List UInt8) {s : EmailParser σ} (hs : P.inProgress s.parser) :
    Parsed P (linesFrom (chr '\r') (chr '\n') s.line beg) s.parser
        ((loop P beg s).1, (loop P beg s).2.map Prod.fst) ∧
      ∀ r ∈ (loop P beg s).2, r.1.last = s.last := by
  induction hn : beg.length using Nat.strong_induction_on generalizing beg s with
  | _ n ih =>
    subst hn
    cases hit : beg.dropWhile fun ch => !isSep ch with
    | nil =>
      rw [linesFrom_of_dropWhile_nil isSep_iff hit, loop_of_no_newline hit]
      exact ⟨Parsed.nil { s with line := s.line ++ beg }, by simp⟩
    | cons c it =>
      rw [linesFrom_of_dropWhile_cons isSep_iff (by decide) hit]
      have hlt := length_skipOne_lt_of_dropWhile isSep_iff hit
      cases hline : P.parseLine (s.line ++ beg.takeWhile fun ch => !isSep ch) s.parser with
      | none =>
        rw [loop_of_none hit hline]
        exact ⟨Parsed.cons_none hs hline _, by simp⟩
      | some parser =>
        rw [loop_of_some hit hline]
        generalize skipOne (chr '\n') (skipOne (chr '\r') (c :: it)) = rest at hlt ⊢
        dsimp only
        by_cases hrest : rest = []
        · rw [if_pos hrest, hrest]
          exact ⟨Parsed.cons_some hs hline (Parsed.nil { s with parser := parser, line := [] }),
            by simp⟩
        · by_cases hparser : P.inProgress parser
          · rw [if_neg hrest, if_pos hparser]
            obtain ⟨hloop, hlast⟩ :=
              ih rest.length hlt rest (s := { s with parser := parser, line := [] }) hparser rfl
            exact ⟨Parsed.cons_some hs hline hloop, hlast⟩
          · rw [if_neg hrest, if_neg hparser]
            exact ⟨Parsed.cons_some hs hline
              (Parsed.complete (s := { s with parser := parser, line := [] }) hparser _), by simp⟩

/-- The lines of a text and the rest of it, when `s` has read what is before it. -/
def textLines (s : EmailParser σ) (text : List UInt8) : List (List UInt8) × List UInt8 :=
  linesFrom (chr '\r') (chr '\n') s.line
    (if s.last = chr '\r' then skipOne (chr '\n') text else text)

theorem write_of_ne_nil {beg : List UInt8} (hbeg : beg ≠ []) {s : EmailParser σ}
    (hs : P.inProgress s.parser) :
    write P beg s =
      let r := loop P (if s.last = chr '\r' then skipOne (chr '\n') beg else beg)
        { s with last := beg.getLast hbeg }
      (r.1, r.2.map fun r => (r.1, (beg.length : Int) - r.2)) := by
  rw [write, if_pos hs, List.getLast?_eq_some_getLast hbeg]

theorem write_parsed {beg : List UInt8} (hbeg : beg ≠ []) {s : EmailParser σ}
    (hs : P.inProgress s.parser) :
    Parsed P (textLines s beg) s.parser ((write P beg s).1, (write P beg s).2.map Prod.fst) ∧
      ∀ r ∈ (write P beg s).2, r.1.last = beg.getLast hbeg := by
  obtain ⟨hloop, hlast⟩ :=
    loop_parsed (if s.last = chr '\r' then skipOne (chr '\n') beg else beg)
      (s := { s with last := beg.getLast hbeg }) hs
  rw [write_of_ne_nil hbeg hs]
  dsimp only
  constructor
  · rw [Option.map_map]
    exact hloop
  · intro r hr
    obtain ⟨r', hr', rfl⟩ := Option.mem_map.mp hr
    exact hlast r' hr'

theorem textLines_append {s s' : EmailParser σ} {beg : List UInt8} (hbeg : beg ≠ [])
    (hline : s'.line = (textLines s beg).2) (hlast : s'.last = beg.getLast hbeg)
    (text : List UInt8) :
    textLines s (beg ++ text) =
      ((textLines s beg).1 ++ (textLines s' text).1, (textLines s' text).2) := by
  have hrest : textLines s' text =
      linesAfter (chr '\r') (chr '\n') (textLines s beg).2 (beg.getLast hbeg) text := by
    rw [← hline, ← hlast]
    rfl
  rw [hrest]
  exact linesAfter_append (by decide) s.line s.last hbeg text

theorem writes_of_complete {s : EmailParser σ} (hs : ¬ P.inProgress s.parser)
    (chunks : List (List UInt8)) : writes P chunks s = ([], some s) := by
  induction chunks with
  | nil => rfl
  | cons beg chunks ih =>
    rw [writes, write, if_neg hs]
    simp only [ih, List.nil_append]

/-- The calls of `parse_line`, and what is left, depend on the whole text alone. -/
theorem writes_parsed {chunks : List (List UInt8)} (hchunks : ∀ beg ∈ chunks, beg ≠ [])
    (s : EmailParser σ) : Parsed P (textLines s chunks.flatten) s.parser (writes P chunks s) := by
  induction chunks generalizing s with
  | nil =>
    have hnil : textLines s [] = ([], s.line) := by simp [textLines, linesFrom]
    rw [List.flatten_nil, hnil]
    exact Parsed.nil s
  | cons beg chunks ih =>
    by_cases hs : P.inProgress s.parser
    · have hbeg := hchunks beg (by simp)
      obtain ⟨hwrite, hlast⟩ := write_parsed hbeg hs
      have ih := ih fun beg' hbeg' => hchunks beg' (by simp [hbeg'])
      let read : EmailParser σ :=
        { s with line := (textLines s beg).2, last := beg.getLast hbeg }
      have hread : read.line = (textLines s beg).2 := rfl
      rw [List.flatten_cons, writes, textLines_append hbeg hread rfl]
      generalize write P beg s = r at hwrite hlast ⊢
      obtain ⟨calls, ret⟩ := r
      cases ret with
      | none => exact hwrite.append_none rfl _
      | some r =>
        obtain ⟨s₁, size⟩ := r
        refine hwrite.append_some rfl ?_
        by_cases hs₁ : P.inProgress s₁.parser
        · have hline : s₁.line = (textLines s beg).2 := hwrite.line s₁ rfl hs₁
          have hlast₁ : s₁.last = beg.getLast hbeg := hlast _ rfl
          have htext : textLines read chunks.flatten = textLines s₁ chunks.flatten := by
            rw [textLines, textLines, hline, hlast₁]
          rw [htext]
          exact ih s₁
        · dsimp only
          rw [writes_of_complete hs₁]
          exact Parsed.complete hs₁ _
    · rw [writes_of_complete hs]
      exact Parsed.complete hs _

/-- The universal-newline split of a text. -/
def universalLines (text : List UInt8) : List (List UInt8) × List UInt8 :=
  linesFrom (chr '\r') (chr '\n') [] text

/-- A parser before its first octet. -/
def init (parser : σ) : EmailParser σ := ⟨parser, [], chr (Char.ofNat 0)⟩

/-- Two ways to cut a text into calls of `write` lead to the same calls of `parse_line`, for the
lines of the text up to the one that completes the message, and leave the same rest. -/
theorem writes_partition (P : LineParser σ) (parser : σ) {chunks chunks' : List (List UInt8)}
    (hchunks : ∀ beg ∈ chunks, beg ≠ []) (hchunks' : ∀ beg ∈ chunks', beg ≠ [])
    (htext : chunks.flatten = chunks'.flatten) :
    let lines := universalLines chunks.flatten
    let r := writes P chunks (init parser)
    let r' := writes P chunks' (init parser)
    r.1 = (P.parseLines lines.1 parser).1 ∧ r'.1 = r.1 ∧
      r.2.map (·.parser) = (P.parseLines lines.1 parser).2 ∧
      r'.2.map (·.parser) = r.2.map (·.parser) ∧
      ∀ s ∈ r.2, ∀ s' ∈ r'.2, P.inProgress s.parser → s.line = lines.2 ∧ s'.line = s.line := by
  have hparsed := writes_parsed (P := P) hchunks (init parser)
  have hparsed' := writes_parsed (P := P) hchunks' (init parser)
  have hlines : textLines (init parser) chunks.flatten = universalLines chunks.flatten := rfl
  rw [← htext] at hparsed'
  rw [hlines] at hparsed hparsed'
  have hparser := hparsed'.parser.trans hparsed.parser.symm
  refine ⟨hparsed.calls, hparsed'.calls.trans hparsed.calls.symm, hparsed.parser, hparser, ?_⟩
  intro s hs s' hs' hprogress
  rw [Option.mem_def.mp hs, Option.mem_def.mp hs'] at hparser
  have heq : s'.parser = s.parser := Option.some.inj hparser
  have hline := hparsed.line s hs hprogress
  exact ⟨hline, (hparsed'.line s' hs' (by rwa [heq])).trans hline.symm⟩

/-- A parser that keeps the lines it is given, up to a line that is a period. -/
def untilPeriod : LineParser (List (List UInt8)) where
  parseLine line lines := some (lines ++ [line])
  inProgress lines := lines.getLast? != some [chr '.']

theorem writes_partition_of_split_newline :
    let text := octets "a\r\nb\n.\r\nc"
    let lines := universalLines text
    let r := writes untilPeriod [octets "a\r", octets "\nb", octets "\n.\r\nc"] (init [])
    let r' := writes untilPeriod [text] (init [])
    r.1 = (untilPeriod.parseLines lines.1 []).1 ∧ r'.1 = r.1 ∧
      r.2.map (·.parser) = (untilPeriod.parseLines lines.1 []).2 ∧
      r'.2.map (·.parser) = r.2.map (·.parser) ∧
      ∀ s ∈ r.2, ∀ s' ∈ r'.2, untilPeriod.inProgress s.parser →
        s.line = lines.2 ∧ s'.line = s.line := by
  have hchunks : ∀ beg ∈ [octets "a\r", octets "\nb", octets "\n.\r\nc"], beg ≠ [] := by decide
  have hchunk : ∀ beg ∈ [octets "a\r\nb\n.\r\nc"], beg ≠ [] := by decide
  exact writes_partition untilPeriod [] hchunks hchunk (by decide)

end EmailParser

end Email

end Acqua
