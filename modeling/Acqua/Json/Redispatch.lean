import Acqua.Json.Dispatch

/-! How often `parse_1` runs for one character, and where a literal is read, in every state that
calls of `parse_1` lead to, also calls that throw. -/

namespace Acqua

namespace Json

/-- The literal that the next character is compared with, at whatever depth. -/
def ParserImpl.scanned : ParserImpl → Option LiteralParser
  | .lit p => some p
  | .arr (some data) _ => data.scanned
  | .obj _ (some val) _ => val.scanned
  | _ => none

/-- What a call that throws leaves behind: a literal has moved on, and an array has its child. -/
def thrown : ParserImpl → Record → UInt8 → ParserImpl × Record
  | .lit p, r, _ => (.lit { p with lit := p.lit + 1 }, r)
  | .arr none index, r, _ => (.arr (some (.any true)) (index + 1), r.addChild (.index index))
  | .arr (some data) index, r, ch =>
    if data.inProgress then
      let s := thrown data r.last ch
      (.arr (some s.1) index, r.setLast s.2)
    else (.arr (some data) index, r)
  | .obj key (some val) first, r, ch =>
    if val.inProgress then
      let s := thrown val r.last ch
      (.obj key (some s.1) first, r.setLast s.2)
    else (.obj key (some val) first, r)
  | p, r, _ => (p, r)

/-- `*++lit_` is a character of the keyword, or its terminating NUL. -/
def ReadsInside (p : ParserImpl) : Prop :=
  ∀ l, p.scanned = some l → l.lit + 1 ≤ (LiteralParser.cStr l.l).length

theorem readsInside_of_none {p : ParserImpl} (h : p.scanned = none) : ReadsInside p :=
  fun l hl => absurd (h.symm.trans hl) (Option.some_ne_none l).symm

theorem readsInside_literal (l : Literal) : ReadsInside (.lit ⟨l, 0⟩) := by
  intro l' hl
  obtain rfl := Option.some.inj hl
  cases l
  · decide
  · decide
  · decide

theorem readsInside_anyParser {ch : UInt8} {p : ParserImpl} (h : anyParser ch = .ok p) :
    ReadsInside p := by
  unfold anyParser at h
  split_ifs at h
  all_goals injection h with h
  all_goals subst h
  · exact readsInside_of_none rfl
  · exact readsInside_literal .lNull
  · exact readsInside_literal .lTrue
  · exact readsInside_literal .lFalse
  all_goals exact readsInside_of_none rfl

theorem lit_lt_of_following {p : LiteralParser} (h : p.following ≠ 0) :
    p.lit + 1 < (LiteralParser.cStr p.l).length := by
  by_contra hle
  exact h (List.getD_eq_default _ _ (Nat.le_of_not_lt hle))

section Redispatch

variable (utf : Nat → List UInt8)

theorem readsInside_ok {q p' : ParserImpl} {b b' : Bool} {r r' : Record} (hq : ReadsInside q)
    (h : (.ok (b', q, r) : Outcome) = .ok (b, p', r')) : ReadsInside p' := by
  injection h with h
  obtain rfl : q = p' := congrArg (fun t => t.2.1) h
  exact hq

theorem readsInside_skip {q p' : ParserImpl} {b : Bool} {r r' : Record} {ch : UInt8}
    (hq : ReadsInside q) (h : skip q r ch = .ok (b, p', r')) : ReadsInside p' := by
  obtain ⟨-, -, rfl, -⟩ := skip_eq h
  exact hq

theorem readsInside_scan {σ : Type} {wrap : σ → ParserImpl} {next : Option σ}
    {result : Option Scalar} {r r' : Record} {b : Bool} {p' : ParserImpl}
    (hwrap : ∀ q, next = some q → ReadsInside (wrap q))
    (h : scan wrap next result r = .ok (b, p', r')) : ReadsInside p' := by
  rcases scan_cases h with ⟨-, q, hq, rfl, -⟩ | ⟨-, rfl, -⟩
  · exact hwrap q hq
  · exact readsInside_of_none rfl

theorem readsInside_literal_next {p q : LiteralParser} {ch : UInt8} (h : p.next ch = some q) :
    ReadsInside (.lit q) := by
  unfold LiteralParser.next at h
  split_ifs at h with hend hch
  obtain rfl := Option.some.inj h
  intro l hl
  obtain rfl := Option.some.inj hl
  exact lit_lt_of_following hend

theorem readsInside_parse1 (p : ParserImpl) (hp : ReadsInside p) {r r' : Record} {b : Bool}
    {p' : ParserImpl} {ch : UInt8} (h : parse1 utf p r ch = .ok (b, p', r')) :
    ReadsInside p' := by
  match p with
  | .any _ =>
    obtain ⟨q, hq, heq⟩ := map_eq_ok h
    obtain rfl : q = p' := congrArg (fun t => t.2.1) heq
    exact readsInside_anyParser hq
  | .lit p => exact readsInside_scan (fun q => readsInside_literal_next) h
  | .num p => exact readsInside_scan (fun q _ => readsInside_of_none rfl) h
  | .str p =>
    rw [parse1] at h
    split_ifs at h
    · exact readsInside_ok (readsInside_of_none rfl) h
    · exact readsInside_scan (fun q _ => readsInside_of_none rfl) h
  | .arr none index =>
    rw [parse1] at h
    split_ifs at h
    · exact readsInside_ok (readsInside_of_none rfl) h
    · obtain ⟨q, hq, heq⟩ := map_eq_ok h
      obtain rfl : .arr (some q) (index + 1) = p' := congrArg (fun t => t.2.1) heq
      have hchild := readsInside_anyParser hq
      exact hchild
  | .arr (some data) index =>
    rw [parse1] at h
    split_ifs at h
    · obtain ⟨s, hs, heq⟩ := map_eq_ok h
      obtain rfl : .arr (some s.2.1) index = p' := congrArg (fun t => t.2.1) heq
      have hchild := readsInside_parse1 data hp hs
      exact hchild
    · exact readsInside_ok (readsInside_of_none rfl) h
    · exact readsInside_ok (readsInside_of_none rfl) h
    · exact readsInside_skip hp h
  | .obj none none first =>
    rw [parse1] at h
    split_ifs at h
    · exact readsInside_ok (readsInside_of_none rfl) h
    · exact readsInside_ok (readsInside_of_none rfl) h
    · exact readsInside_skip hp h
  | .obj (some key) none first =>
    rw [parse1] at h
    split_ifs at h
    · exact readsInside_ok (readsInside_of_none rfl) h
    · exact readsInside_scan (fun q _ => readsInside_of_none rfl) h
    · exact readsInside_ok (readsInside_of_none rfl) h
    · exact readsInside_skip hp h
  | .obj key (some val) first =>
    rw [parse1] at h
    split_ifs at h
    · obtain ⟨s, hs, heq⟩ := map_eq_ok h
      obtain rfl : .obj key (some s.2.1) first = p' := congrArg (fun t => t.2.1) heq
      have hchild := readsInside_parse1 val hp hs
      exact hchild
    · exact readsInside_ok (readsInside_of_none rfl) h
    · exact readsInside_ok (readsInside_of_none rfl) h
    · exact readsInside_skip hp h
termination_by p

/-- A literal that throws has been compared with a character that is not the NUL. -/
theorem readsInside_thrown (p : ParserImpl) (hp : ReadsInside p) {r : Record} {ch : UInt8}
    {e : Fault} (h : parse1 utf p r ch = .error e) : ReadsInside (thrown p r ch).1 := by
  match p with
  | .any _ => exact hp
  | .lit p =>
    have hend : p.following ≠ 0 := by
      intro hend
      rw [parse1, LiteralParser.next, LiteralParser.result, if_pos hend, if_pos hend] at h
      simp [scan, completeWith] at h
    intro l hl
    obtain rfl := Option.some.inj hl
    exact lit_lt_of_following hend
  | .num _ => exact hp
  | .str _ => exact hp
  | .arr none index => exact readsInside_of_none rfl
  | .arr (some data) index =>
    rw [parse1] at h
    rw [thrown]
    split_ifs at h ⊢
    · have hchild := readsInside_thrown data hp (map_eq_error h)
      exact hchild
    · exact hp
  | .obj none none first => exact hp
  | .obj (some key) none first => exact hp
  | .obj key (some val) first =>
    rw [parse1] at h
    rw [thrown]
    split_ifs at h ⊢
    · have hchild := readsInside_thrown val hp (map_eq_error h)
      exact hchild
    · exact hp
termination_by p

/-- The states that calls of `parse_1` lead to while the parser is in progress. -/
inductive Reachable : ParserImpl → Record → Prop
  | start (r : Record) : Reachable (.any true) r
  | returned {p p' : ParserImpl} {r r' : Record} {b : Bool} {ch : UInt8} (h : Reachable p r)
      (hp : p.inProgress) (hstep : parse1 utf p r ch = .ok (b, p', r')) : Reachable p' r'
  | threw {p : ParserImpl} {r : Record} {ch : UInt8} {e : Fault} (h : Reachable p r)
      (hp : p.inProgress) (hstep : parse1 utf p r ch = .error e) :
      Reachable (thrown p r ch).1 (thrown p r ch).2

theorem Reachable.readsInside {p : ParserImpl} {r : Record} (h : Reachable utf p r) :
    ReadsInside p := by
  induction h with
  | start r => exact readsInside_of_none rfl
  | returned _ _ hstep ih => exact readsInside_parse1 utf _ ih hstep
  | threw _ _ hstep ih => exact readsInside_thrown utf _ ih hstep

/-- How often `while (in_progress && !parse_1(ch));` calls `parse_1`, in at most `fuel` rounds. -/
def calls : Nat → ParserImpl → Record → UInt8 → Nat
  | 0, _, _, _ => 0
  | fuel + 1, p, r, ch =>
    if p.inProgress then
      match parse1 utf p r ch with
      | .error _ => 1
      | .ok (b, p, r) => if b then 1 else 1 + calls fuel p r ch
    else 0

theorem calls_le_one {p : ParserImpl} (hp : p.scanning = false) (fuel : Nat) (r : Record)
    (ch : UInt8) : calls utf fuel p r ch ≤ 1 := by
  cases fuel with
  | zero => exact Nat.zero_le 1
  | succ fuel =>
    rw [calls]
    split_ifs
    · cases hstep : parse1 utf p r ch with
      | error e => exact Nat.le_refl 1
      | ok result =>
        obtain ⟨b, p', r'⟩ := result
        have hb := (parse1_returns utf p hstep).1 hp
        simp only [hb, if_true, Nat.le_refl]
    · exact Nat.zero_le 1

theorem calls_le_two (fuel : Nat) (p : ParserImpl) (r : Record) (ch : UInt8) :
    calls utf fuel p r ch ≤ 2 := by
  cases fuel with
  | zero => exact Nat.zero_le 2
  | succ fuel =>
    rw [calls]
    split_ifs
    · cases hstep : parse1 utf p r ch with
      | error e => exact Nat.le_succ 1
      | ok result =>
        obtain ⟨b, p', r'⟩ := result
        cases b with
        | true => exact Nat.le_succ 1
        | false =>
          have hagain := calls_le_one utf ((parse1_returns utf p hstep).2 rfl) fuel r' ch
          simp only [Bool.false_eq_true, if_false]
          omega
    · exact Nat.zero_le 2

/-- A character is parsed at most twice, more rounds of the loop change nothing, and none of the
calls reads behind the NUL of a literal. -/
theorem redispatch_terminates {p : ParserImpl} {r : Record} (h : Reachable utf p r) (ch : UInt8) :
    (∀ fuel, calls utf fuel p r ch ≤ 2) ∧
      (∀ fuel, feed utf (fuel + 2) p r ch = feed utf 2 p r ch) ∧
      feed utf 2 p r ch ≠ .error .diverges ∧
      ∀ l, p.scanned = some l → l.lit + 1 ≤ (LiteralParser.cStr l.l).length := by
  refine ⟨fun fuel => calls_le_two utf fuel p r ch, fun fuel => ?_, fun hfault => ?_,
    h.readsInside⟩
  · rw [feed_two, feed_add_two]
  · exact absurd (feed_error utf hfault) (by simp)

end Redispatch

/-- Before the third character of `[null`. -/
theorem redispatch_terminates_of_null :
    (∀ fuel, calls (fun _ => []) fuel (.arr (some (.lit ⟨.lNull, 1⟩)) 1)
        (Record.empty.addChild (.index 0)) (chr 'l') ≤ 2) ∧
      1 + 1 ≤ (LiteralParser.cStr .lNull).length := by
  have hopen : parse1 (fun _ => []) (.any true) .empty (chr '[') =
      .ok (true, .arr none 0, .empty) := rfl
  have hfirst : parse1 (fun _ => []) (.arr none 0) .empty (chr 'n') =
      .ok (true, .arr (some (.lit ⟨.lNull, 0⟩)) 1, Record.empty.addChild (.index 0)) := rfl
  have hsecond : parse1 (fun _ => []) (.arr (some (.lit ⟨.lNull, 0⟩)) 1)
        (Record.empty.addChild (.index 0)) (chr 'u') =
      .ok (true, .arr (some (.lit ⟨.lNull, 1⟩)) 1, Record.empty.addChild (.index 0)) := rfl
  have hreachable := ((Reachable.start .empty).returned rfl hopen).returned rfl hfirst
    |>.returned rfl hsecond
  obtain ⟨hcalls, -, -, hinside⟩ := redispatch_terminates (fun _ => []) hreachable (chr 'l')
  exact ⟨hcalls, hinside ⟨.lNull, 1⟩ rfl⟩

end Json

end Acqua
