import Acqua.Json.Dispatch
import Acqua.Json.Rendering

/-! What the parser makes of a rendering. Only an empty array that is written with blanks in
it is refused, and only a literal or a number at the top has to be followed by something. -/

namespace Acqua

namespace Json

section Runs

variable (utf : Nat → List UInt8)

/-- The parser takes the whole text. -/
def Eats : ParserImpl → Record → List UInt8 → ParserImpl → Record → Prop
  | p, r, [], p', r' => p' = p ∧ r' = r
  | p, r, ch :: txt, p', r' => p.inProgress ∧
      ∃ p₁ r₁, feed utf 2 p r ch = .ok (true, p₁, r₁) ∧ Eats p₁ r₁ txt p' r'

/-- The parser throws within the text. -/
def Fails (p : ParserImpl) (r : Record) (txt : List UInt8) : Prop :=
  ∃ pre ch post p' r', txt = pre ++ ch :: post ∧ Eats utf p r pre p' r' ∧ p'.inProgress ∧
    feed utf 2 p' r' ch = .error .syntaxError

/-- The parser takes the text and leaves a state in `Q` behind if `cond` holds, and throws
otherwise. -/
def Runs (p : ParserImpl) (r : Record) (txt : List UInt8) (cond : Prop)
    (Q : ParserImpl → Record → Prop) : Prop :=
  (cond → ∃ p' r', Eats utf p r txt p' r' ∧ Q p' r') ∧ (¬ cond → Fails utf p r txt)

variable {utf}

theorem Eats.append {p p₁ p₂ : ParserImpl} {r r₁ r₂ : Record} {s t : List UInt8}
    (h₁ : Eats utf p r s p₁ r₁) (h₂ : Eats utf p₁ r₁ t p₂ r₂) : Eats utf p r (s ++ t) p₂ r₂ := by
  induction s generalizing p r with
  | nil =>
    obtain ⟨rfl, rfl⟩ := h₁
    exact h₂
  | cons ch s ih =>
    obtain ⟨hp, q, s', hfeed, hrest⟩ := h₁
    exact ⟨hp, q, s', hfeed, ih hrest⟩

theorem Eats.one {p p' : ParserImpl} {r r' : Record} {ch : UInt8} (hp : p.inProgress)
    (h : feed utf 2 p r ch = .ok (true, p', r')) : Eats utf p r [ch] p' r' :=
  ⟨hp, p', r', h, rfl, rfl⟩

theorem Fails.append {p : ParserImpl} {r : Record} {s : List UInt8} (h : Fails utf p r s)
    (t : List UInt8) : Fails utf p r (s ++ t) := by
  obtain ⟨pre, ch, post, p', r', rfl, heats, hp', hfeed⟩ := h
  exact ⟨pre, ch, post ++ t, p', r', by simp, heats, hp', hfeed⟩

theorem Eats.fails {p p₁ : ParserImpl} {r r₁ : Record} {s t : List UInt8}
    (h₁ : Eats utf p r s p₁ r₁) (h₂ : Fails utf p₁ r₁ t) : Fails utf p r (s ++ t) := by
  obtain ⟨pre, ch, post, p', r', rfl, heats, hp', hfeed⟩ := h₂
  exact ⟨s ++ pre, ch, post, p', r', by simp, h₁.append heats, hp', hfeed⟩

theorem Eats.runs {p q : ParserImpl} {r u : Record} {txt : List UInt8}
    {Q : ParserImpl → Record → Prop} (h : Eats utf p r txt q u) (hQ : Q q u) :
    Runs utf p r txt True Q :=
  ⟨fun _ => ⟨q, u, h, hQ⟩, fun hcond => absurd trivial hcond⟩

theorem Runs.append {p : ParserImpl} {r : Record} {s t : List UInt8} {c d : Prop}
    {Q R : ParserImpl → Record → Prop} (h : Runs utf p r s c Q)
    (h' : ∀ p' r', Q p' r' → Runs utf p' r' t d R) :
    Runs utf p r (s ++ t) (c ∧ d) R := by
  by_cases hcond : c
  · obtain ⟨p₁, r₁, heats, hQ⟩ := h.1 hcond
    have hrest := h' p₁ r₁ hQ
    constructor
    · intro hboth
      obtain ⟨p₂, r₂, heats', hQ'⟩ := hrest.1 hboth.2
      exact ⟨p₂, r₂, heats.append heats', hQ'⟩
    · intro hnot
      exact heats.fails (hrest.2 fun hcond' => hnot ⟨hcond, hcond'⟩)
  · exact ⟨fun hboth => absurd hboth.1 hcond, fun _ => (h.2 hcond).append t⟩

theorem Runs.imp {p : ParserImpl} {r : Record} {txt : List UInt8} {cond cond' : Prop}
    {Q Q' : ParserImpl → Record → Prop} (h : Runs utf p r txt cond Q) (hcond : cond' ↔ cond)
    (hQ : ∀ p' r', Q p' r' → Q' p' r') : Runs utf p r txt cond' Q' := by
  constructor
  · intro hc
    obtain ⟨p', r', heats, hq⟩ := h.1 (hcond.mp hc)
    exact ⟨p', r', heats, hQ p' r' hq⟩
  · intro hc
    exact h.2 fun hc' => hc (hcond.mpr hc')

/-- A parser that is not at a literal or a number takes a character at the first call. -/
theorem feed_eq_parse1 {p : ParserImpl} (hp : p.scanning = false) (r : Record) (ch : UInt8) :
    feed utf 2 p r ch = parse1 utf p r ch := by
  rw [feed_two]
  cases hstep : parse1 utf p r ch with
  | error e => rfl
  | ok result =>
    obtain ⟨b, p', r'⟩ := result
    have hb := (parse1_returns utf p hstep).1 hp
    simp [hb]

theorem not_close_of_isSpace {ch : UInt8} (h : isSpace ch) :
    ch ≠ chr ']' ∧ ch ≠ chr '}' ∧ ch ≠ chr ',' ∧ ch ≠ chr '"' ∧ ch ≠ chr ':' :=
  octet_forall (P := fun ch => isSpace ch →
    ch ≠ chr ']' ∧ ch ≠ chr '}' ∧ ch ≠ chr ',' ∧ ch ≠ chr '"' ∧ ch ≠ chr ':')
    (by decide +kernel) ch h

theorem skip_of_isSpace {p : ParserImpl} {r : Record} {ch : UInt8} (h : isSpace ch) :
    skip p r ch = .ok (true, p, r) := by
  rw [skip, if_pos h]

/-- A parser around another one: it hands the characters down, and it skips blanks when the
other one is done. -/
structure Frame (utf : Nat → List UInt8) (wrap : ParserImpl → ParserImpl) : Prop where
  inProgress : ∀ p, (wrap p).inProgress
  scanning : ∀ p, (wrap p).scanning = p.scanning
  parse1 : ∀ p r ch, p.inProgress → parse1 utf (wrap p) r ch =
    (Json.parse1 utf p r.last ch).map fun (b, q, child) => (b, wrap q, r.setLast child)
  skip : ∀ r ch, isSpace ch → Json.parse1 utf (wrap (.any false)) r ch =
    .ok (true, wrap (.any false), r)

theorem frame_arr (index : Nat) : Frame utf (fun p => .arr (some p) index) where
  inProgress _ := rfl
  scanning _ := rfl
  parse1 p r ch hp := by rw [Json.parse1, if_pos hp]
  skip r ch hch := by
    obtain ⟨hclose, -, hcomma, -⟩ := not_close_of_isSpace hch
    rw [Json.parse1, if_neg (by simp [ParserImpl.inProgress]), if_neg hclose, if_neg hcomma,
      skip_of_isSpace hch]

theorem frame_obj (key : Option StringImpl) (first : Bool) :
    Frame utf (fun p => .obj key (some p) first) where
  inProgress _ := rfl
  scanning _ := rfl
  parse1 p r ch hp := by rw [Json.parse1, if_pos hp]
  skip r ch hch := by
    obtain ⟨-, hclose, hcomma, -⟩ := not_close_of_isSpace hch
    rw [Json.parse1, if_neg (by simp [ParserImpl.inProgress]), if_neg hclose, if_neg hcomma,
      skip_of_isSpace hch]

namespace Frame

variable {wrap : ParserImpl → ParserImpl} (hwrap : Frame utf wrap)

include hwrap

/-- How a parser that is framed goes on, for a child that is the newest one of its parent. -/
theorem feed {p : ParserImpl} (hp : p.inProgress) (data : List Scalar)
    (cs : List (Key × Record)) (k : Key) (child : Record) (ch : UInt8) :
    Json.feed utf 2 (wrap p) (.mk data (cs ++ [(k, child)])) ch =
      match Json.feed utf 2 p child ch with
      | .error e => .error e
      | .ok (true, q, child') => .ok (true, wrap q, .mk data (cs ++ [(k, child')]))
      | .ok (false, q, child') => Json.parse1 utf (wrap q) (.mk data (cs ++ [(k, child')])) ch := by
  rw [feed_two, feed_two, hwrap.parse1 _ _ _ hp, Record.last_mk]
  cases hstep : Json.parse1 utf p child ch with
  | error e => rfl
  | ok result =>
    obtain ⟨b, q, child'⟩ := result
    cases b with
    | true => simp [Except.map]
    | false =>
      by_cases hq : q.inProgress
      · simp only [Except.map, Record.setLast_mk, hwrap.inProgress, hq]
        simp only [Bool.false_eq_true, not_true_eq_false, or_self, if_false]
        rw [hwrap.parse1 _ _ _ hq, Record.last_mk]
        cases hagain : Json.parse1 utf q child' ch with
        | error e => rfl
        | ok result' =>
          obtain ⟨b', q', child''⟩ := result'
          have hscanning := (parse1_returns utf p hstep).2 rfl
          obtain rfl := (parse1_returns utf q hagain).1 hscanning
          simp [Except.map]
      · simp [Except.map, hwrap.inProgress, hq]

theorem eats {p p' : ParserImpl} {child child' : Record} {txt : List UInt8}
    (h : Eats utf p child txt p' child') (data : List Scalar) (cs : List (Key × Record))
    (k : Key) :
    Eats utf (wrap p) (.mk data (cs ++ [(k, child)])) txt (wrap p')
      (.mk data (cs ++ [(k, child')])) := by
  induction txt generalizing p child with
  | nil =>
    obtain ⟨rfl, rfl⟩ := h
    exact ⟨rfl, rfl⟩
  | cons ch txt ih =>
    obtain ⟨hp, q, c, hfeed, hrest⟩ := h
    refine ⟨hwrap.inProgress p, wrap q, .mk data (cs ++ [(k, c)]), ?_, ih hrest⟩
    rw [hwrap.feed hp, hfeed]

theorem fails {p : ParserImpl} {child : Record} {txt : List UInt8} (h : Fails utf p child txt)
    (data : List Scalar) (cs : List (Key × Record)) (k : Key) :
    Fails utf (wrap p) (.mk data (cs ++ [(k, child)])) txt := by
  obtain ⟨pre, ch, post, p', c', rfl, heats, hp', hfeed⟩ := h
  refine ⟨pre, ch, post, wrap p', .mk data (cs ++ [(k, c')]), rfl, hwrap.eats heats data cs k,
    hwrap.inProgress p', ?_⟩
  rw [hwrap.feed hp', hfeed]

theorem runs {p : ParserImpl} {child : Record} {txt : List UInt8} {cond : Prop}
    {Q : ParserImpl → Record → Prop} (h : Runs utf p child txt cond Q) (data : List Scalar)
    (cs : List (Key × Record)) (k : Key) :
    Runs utf (wrap p) (.mk data (cs ++ [(k, child)])) txt cond fun p' r' =>
      ∃ q child', p' = wrap q ∧ r' = .mk data (cs ++ [(k, child')]) ∧ Q q child' := by
  constructor
  · intro hcond
    obtain ⟨q, child', heats, hQ⟩ := h.1 hcond
    exact ⟨_, _, hwrap.eats heats data cs k, q, child', rfl, rfl, hQ⟩
  · intro hcond
    exact hwrap.fails (h.2 hcond) data cs k

end Frame

/-- The characters that can follow a value. -/
def Delimiter (ch : UInt8) : Prop := isSpace ch ∨ ch = chr ',' ∨ ch = chr ']' ∨ ch = chr '}'

/-- The value is told, or will be when a delimiter follows. -/
def Ready (utf : Nat → List UInt8) (q : ParserImpl) (child value : Record) : Prop :=
  (q = .any false ∧ child = value) ∨ (q.inProgress ∧
    ∀ ch, Delimiter ch → feed utf 2 q child ch = .ok (false, .any false, value))

theorem Frame.feed_ready {wrap : ParserImpl → ParserImpl} (hwrap : Frame utf wrap)
    {q : ParserImpl} {child value : Record} (hq : Ready utf q child value) {ch : UInt8}
    (hch : Delimiter ch) (data : List Scalar) (cs : List (Key × Record)) (k : Key) :
    Json.feed utf 2 (wrap q) (.mk data (cs ++ [(k, child)])) ch =
      Json.parse1 utf (wrap (.any false)) (.mk data (cs ++ [(k, value)])) ch := by
  obtain ⟨rfl, rfl⟩ | ⟨hprogress, hend⟩ := hq
  · exact feed_eq_parse1 (by rw [hwrap.scanning]; rfl) _ _
  · rw [hwrap.feed hprogress, hend ch hch]

theorem Frame.eats_gap {wrap : ParserImpl → ParserImpl} (hwrap : Frame utf wrap)
    {q : ParserImpl} {child value : Record} (hq : Ready utf q child value) (data : List Scalar)
    (cs : List (Key × Record)) (k : Key) (gap : Gap) :
    ∃ q' child', Ready utf q' child' value ∧
      Eats utf (wrap q) (.mk data (cs ++ [(k, child)])) gap.val (wrap q')
        (.mk data (cs ++ [(k, child')])) := by
  obtain ⟨txt, htxt⟩ := gap
  induction txt generalizing q child with
  | nil => exact ⟨q, child, hq, rfl, rfl⟩
  | cons ch txt ih =>
    have hch : isSpace ch := htxt ch (by simp)
    have hready : Ready utf (.any false) value value := Or.inl ⟨rfl, rfl⟩
    obtain ⟨q', child', hq', heats⟩ := ih hready fun c hc => htxt c (by simp [hc])
    refine ⟨q', child', hq', hwrap.inProgress q, _, _, ?_, heats⟩
    rw [hwrap.feed_ready hq (Or.inl hch), hwrap.skip _ _ hch]

theorem feed_of_parse1 {p p' : ParserImpl} {r r' : Record} {ch : UInt8}
    (h : parse1 utf p r ch = .ok (true, p', r')) : feed utf 2 p r ch = .ok (true, p', r') := by
  rw [feed_two, h]
  simp

theorem eats_scan {σ : Type} {w : σ → ParserImpl} {f : σ → UInt8 → Option σ} {r : Record}
    (hprogress : ∀ p, (w p).inProgress)
    (hstep : ∀ p ch p', f p ch = some p' → parse1 utf (w p) r ch = .ok (true, w p', r))
    {txt : List UInt8} {p p' : σ} (h : txt.foldlM f p = some p') :
    Eats utf (w p) r txt (w p') r := by
  induction txt generalizing p with
  | nil =>
    obtain rfl : p = p' := by simpa using h
    exact ⟨rfl, rfl⟩
  | cons ch txt ih =>
    cases hnext : f p ch with
    | none => simp [hnext] at h
    | some q =>
      have hrest : txt.foldlM f q = some p' := by simpa [hnext] using h
      exact ⟨hprogress p, w q, r, feed_of_parse1 (hstep p ch q hnext), ih hrest⟩

theorem not_closes_of_next {p p' : StringParser} {ch : UInt8} (h : p.next utf ch = some p') :
    p.closes ch = false := by
  cases hescape : p.escape with
  | true => simp [StringParser.closes, hescape]
  | false =>
    by_cases hquote : ch = chr '"'
    · simp [StringParser.next, hescape, hquote] at h
    · simp [StringParser.closes, hquote]

theorem eats_str {p p' : StringParser} {r : Record} {body : List UInt8}
    (h : body.foldlM (StringParser.next utf) p = some p') :
    Eats utf (.str p) r body (.str p') r := by
  refine eats_scan (w := ParserImpl.str) (fun _ => rfl) ?_ h
  intro q ch q' hnext
  rw [parse1, not_closes_of_next hnext, hnext]
  rfl

theorem eats_key {p p' : StringParser} {r : Record} {body : List UInt8} {first : Bool}
    (h : body.foldlM (StringParser.next utf) p = some p') :
    Eats utf (.obj (some ⟨p, true⟩) none first) r body (.obj (some ⟨p', true⟩) none first) r := by
  refine eats_scan (w := fun p => ParserImpl.obj (some ⟨p, true⟩) none first) (fun _ => rfl) ?_ h
  intro q ch q' hnext
  rw [parse1, if_pos rfl, not_closes_of_next hnext, hnext]
  rfl

section Strings

theorem next_backslash (hex str : List UInt8) :
    StringParser.next utf ⟨false, hex, str⟩ (chr '\\') = some ⟨true, [], str⟩ := by
  have hne : chr '\\' ≠ chr '"' := by decide
  simp [StringParser.next, hne]

theorem scan_plain {ch : UInt8} (hprint : isprint ch) (hquote : ch ≠ chr '"')
    (hescape : ch ≠ chr '\\') (hex str : List UInt8) :
    [ch].foldlM (StringParser.next utf) ⟨false, hex, str⟩ = some ⟨false, hex, str ++ [ch]⟩ := by
  simp [StringParser.next, hquote, hescape, hprint]

theorem scan_short {c ch : UInt8} (hescaped : StringParser.escaped c = some ch)
    (hex str : List UInt8) :
    [chr '\\', c].foldlM (StringParser.next utf) ⟨false, hex, str⟩ =
      some ⟨false, [], str ++ [ch]⟩ := by
  have hu : ¬ (c = chr 'u' ∨ c = chr 'U') := by
    have hnone : StringParser.escaped (chr 'u') = none ∧ StringParser.escaped (chr 'U') = none := by
      decide
    rintro (rfl | rfl)
    · simp [hnone.1] at hescaped
    · simp [hnone.2] at hescaped
  rw [List.foldlM_cons, next_backslash]
  simp [StringParser.next, hu, hescaped]

theorem scan_unit {u : UInt8} {ds : List UInt8} (hu : u = chr 'u' ∨ u = chr 'U')
    (hlen : ds.length = 4) (hds : ∀ d ∈ ds, isxdigit d) (hex str : List UInt8) :
    (chr '\\' :: u :: ds).foldlM (StringParser.next utf) ⟨false, hex, str⟩ =
      some ⟨false, u :: ds, str ++ utf (strtol ds)⟩ := by
  match ds, hlen with
  | [d₁, d₂, d₃, d₄], _ =>
    have hd : ∀ d ∈ [d₁, d₂, d₃, d₄], isxdigit d = true := hds
    rw [List.foldlM_cons, next_backslash]
    simp [StringParser.next, hu, hd]

variable (hutf : ∀ n, n < 128 → utf n = [UInt8.ofNat n])

include hutf

theorem scan_char {ch : UInt8} {txt : List UInt8} (h : CharText ch txt) (hex str : List UInt8) :
    ∃ hex', txt.foldlM (StringParser.next utf) ⟨false, hex, str⟩ =
      some ⟨false, hex', str ++ [ch]⟩ := by
  cases h with
  | plain hprint hquote hescape => exact ⟨hex, scan_plain hprint hquote hescape hex str⟩
  | short hescaped => exact ⟨[], scan_short hescaped hex str⟩
  | @unicode u ds hu hlen hds hascii =>
    refine ⟨u :: ds, ?_⟩
    rw [scan_unit hu hlen hds, hutf _ hascii]

theorem scan_body (s : StringLayout) (hex str : List UInt8) :
    ∃ hex', (StringLayout.body s).foldlM (StringParser.next utf) ⟨false, hex, str⟩ =
      some ⟨false, hex', str ++ StringLayout.value s⟩ := by
  induction s generalizing hex str with
  | nil => exact ⟨hex, by simp [StringLayout.body, StringLayout.value]⟩
  | cons c s ih =>
    obtain ⟨hex', hchar⟩ := scan_char hutf c.isText hex str
    obtain ⟨hex'', hbody⟩ := ih hex' (str ++ [c.ch])
    refine ⟨hex'', ?_⟩
    simp only [StringLayout.body, StringLayout.value] at hbody ⊢
    rw [List.flatMap_cons, List.foldlM_append, hchar]
    simpa using hbody

end Strings

theorem digit_range {ch : UInt8} (h : isdigit ch) : 0 ≤ digit ch ∧ digit ch < 10 :=
  octet_forall (P := fun ch => isdigit ch → 0 ≤ digit ch ∧ digit ch < 10) (by decide +kernel) ch h

theorem long_step (n d : Int) : long (long n * 10 + d) = long (n * 10 + d) := by
  simp only [long]
  rw [← Int.bmod_add_bmod, Int.bmod_mul_bmod, Int.bmod_add_bmod]

theorem long_eq {n : Int} (h : -2 ^ 63 ≤ n) (h' : n < 2 ^ 63) : long n = n := by
  rw [long, Int.bmod_eq_of_le]
  · simpa using h
  · simpa using h'

theorem scan_digits {ds : List UInt8} (hds : ∀ d ∈ ds, isdigit d) (n : Int) (sign : Sign) :
    ds.foldlM NumberParser.next ⟨.decimal, long n, 1, 0, sign⟩ =
      some ⟨.decimal, long (ds.foldl (fun n ch => n * 10 + digit ch) n), 1, 0, sign⟩ := by
  induction ds generalizing n with
  | nil => rfl
  | cons d ds ih =>
    have hd : isdigit d := hds d (by simp)
    have hnot : d ≠ chr 'e' ∧ d ≠ chr 'E' ∧ d ≠ chr '.' :=
      octet_forall (P := fun d => isdigit d → d ≠ chr 'e' ∧ d ≠ chr 'E' ∧ d ≠ chr '.')
        (by decide +kernel) d hd
    have hnext : NumberParser.next ⟨.decimal, long n, 1, 0, sign⟩ d =
        some ⟨.decimal, long (n * 10 + digit d), 1, 0, sign⟩ := by
      simp [NumberParser.next, hnot, hd, long_step]
    rw [List.foldlM_cons, hnext]
    exact ih (fun d' hd' => hds d' (by simp [hd'])) _

theorem anyParser_digit {ch : UInt8} (h : isdigit ch) :
    anyParser ch = .ok (.num (.make (digit ch) .plus)) := by
  have hne : ∀ c, isdigit c = false → ch ≠ c := by
    intro c hc heq
    rw [heq, hc] at h
    exact Bool.false_ne_true h
  have hspace : isSpace ch = false := by
    simp [isSpace, hne (chr ' ') (by decide), hne (chr '\t') (by decide),
      hne (chr '\r') (by decide), hne (chr '\n') (by decide)]
  simp [anyParser, h, hspace, hne 0 (by decide), hne (chr 'n') (by decide),
    hne (chr 'N') (by decide), hne (chr 't') (by decide), hne (chr 'T') (by decide),
    hne (chr 'f') (by decide), hne (chr 'F') (by decide), hne (chr '"') (by decide),
    hne (chr '[') (by decide), hne (chr '{') (by decide), hne (chr '-') (by decide),
    hne (chr '+') (by decide)]

theorem eats_any {ch : UInt8} {p : ParserImpl} (h : anyParser ch = .ok p) (r : Record) :
    Eats utf (.any true) r [ch] p r := by
  refine Eats.one rfl (feed_of_parse1 ?_)
  rw [parse1, h]
  rfl

theorem eats_gap {p : ParserImpl} {r : Record} (hp : p.inProgress)
    (hskip : ∀ ch, isSpace ch → parse1 utf p r ch = .ok (true, p, r)) (gap : Gap) :
    Eats utf p r gap.val p r := by
  obtain ⟨txt, htxt⟩ := gap
  induction txt with
  | nil => exact ⟨rfl, rfl⟩
  | cons ch txt ih =>
    exact ⟨hp, p, r, feed_of_parse1 (hskip ch (htxt ch (by simp))),
      ih fun c hc => htxt c (by simp [hc])⟩

theorem eats_skipped (gap : Gap) (r : Record) :
    Eats utf (.any true) r gap.val (.any true) r := by
  refine eats_gap rfl (fun ch hch => ?_) gap
  rw [parse1, anyParser, if_pos (Or.inr hch)]
  rfl

theorem eats_literal (l : Literal) : ∃ p : LiteralParser,
    Eats utf (.any true) .empty (LiteralParser.cStr l) (.lit p) .empty ∧
      p.result = some (LiteralParser.scalar l) ∧ ∀ ch, p.next ch = none := by
  have hrun : ∀ (ch : UInt8) (txt : List UInt8), LiteralParser.cStr l = ch :: txt →
      anyParser ch = .ok (.lit ⟨l, 0⟩) → ∀ p, txt.foldlM LiteralParser.next ⟨l, 0⟩ = some p →
      Eats utf (.any true) .empty (LiteralParser.cStr l) (.lit p) .empty := by
    intro ch txt heq hany p hp
    rw [heq]
    refine (eats_any hany .empty).append (eats_scan (w := ParserImpl.lit) (fun _ => rfl) ?_ hp)
    intro q c q' hnext
    rw [parse1, hnext]
    rfl
  cases l with
  | lNull => exact ⟨⟨.lNull, 3⟩, hrun (chr 'n') (octets "ull") rfl rfl _ rfl, rfl, fun _ => rfl⟩
  | lTrue => exact ⟨⟨.lTrue, 3⟩, hrun (chr 't') (octets "rue") rfl rfl _ rfl, rfl, fun _ => rfl⟩
  | lFalse => exact ⟨⟨.lFalse, 4⟩, hrun (chr 'f') (octets "alse") rfl rfl _ rfl, rfl, fun _ => rfl⟩

theorem eats_integer (i : IntLayout) : ∃ p : NumberParser, p.n = .decimal ∧
    Eats utf (.any true) .empty i.text (.num p) .empty ∧ p.result = some (.long i.value) := by
  obtain ⟨negative, first, rest, hdigits, hfits⟩ := i
  have hfirst := hdigits first (by simp)
  have heats : ∀ {txt : List UInt8} {p p' : NumberParser},
      txt.foldlM NumberParser.next p = some p' → Eats utf (.num p) .empty txt (.num p') .empty := by
    intro txt p p' h
    refine eats_scan (w := ParserImpl.num) (fun _ => rfl) ?_ h
    intro q c q' hnext
    rw [parse1, hnext]
    rfl
  cases negative with
  | true =>
    have hscan : (first :: rest).foldlM NumberParser.next (.make 0 .minus) =
        some ⟨.decimal, long (ofDigits (first :: rest)), 1, 0, .minus⟩ :=
      scan_digits hdigits 0 .minus
    refine ⟨_, rfl, (eats_any rfl .empty).append (heats hscan), ?_⟩
    have hvalue : long (long (ofDigits (first :: rest)) * -1) = -ofDigits (first :: rest) := by
      rw [long, long, Int.bmod_mul_bmod, Int.mul_neg_one]
      exact long_eq hfits.1 hfits.2
    simp only [NumberParser.result, NumberParser.signed, IntLayout.value, hvalue, if_true]
  | false =>
    obtain ⟨hpos, hlt⟩ := digit_range hfirst
    have hdigit : long (digit first) = digit first := long_eq (by omega) (by omega)
    have hscan : rest.foldlM NumberParser.next (.make (digit first) .plus) =
        some ⟨.decimal, long (ofDigits (first :: rest)), 1, 0, .plus⟩ := by
      have hrestDigits : ∀ d ∈ rest, isdigit d := fun d hd => hdigits d (by simp [hd])
      have hrest := scan_digits hrestDigits (digit first) .plus
      rw [hdigit] at hrest
      simpa [NumberParser.make, ofDigits] using hrest
    refine ⟨_, rfl, (eats_any (anyParser_digit hfirst) .empty).append (heats hscan), ?_⟩
    have hvalue : long (ofDigits (first :: rest)) = ofDigits (first :: rest) :=
      long_eq hfits.1 hfits.2
    simp [NumberParser.result, NumberParser.signed, IntLayout.value, hvalue]

/-- What is left when a value was read. -/
def Told (utf : Nat → List UInt8) (v : Layout) (q : ParserImpl) (child : Record) : Prop :=
  if v.bare then q.inProgress ∧
    ∀ ch, Delimiter ch → feed utf 2 q child ch = .ok (false, .any false, v.value.record)
  else q = .any false ∧ child = v.value.record

theorem Told.ready {v : Layout} {q : ParserImpl} {child : Record} (h : Told utf v q child) :
    Ready utf q child v.value.record := by
  by_cases hbare : v.bare
  · rw [Told, if_pos hbare] at h
    exact Or.inr h
  · rw [Told, if_neg hbare] at h
    exact Or.inl h

theorem Frame.runs_value {wrap : ParserImpl → ParserImpl} (hwrap : Frame utf wrap) {v : Layout}
    (hv : Runs utf (.any true) .empty v.text v.tight (Told utf v)) (pre post : Gap)
    (data : List Scalar) (cs : List (Key × Record)) (k : Key) :
    Runs utf (wrap (.any true)) (.mk data (cs ++ [(k, .empty)])) (pre.val ++ v.text ++ post.val)
      v.tight fun p' r' => ∃ q child, p' = wrap q ∧ r' = .mk data (cs ++ [(k, child)]) ∧
        Ready utf q child v.value.record := by
  have hpre := (hwrap.eats (eats_skipped pre .empty) data cs k).runs
    (Q := fun p' r' => p' = wrap (.any true) ∧ r' = .mk data (cs ++ [(k, .empty)])) ⟨rfl, rfl⟩
  have hval := hpre.append fun p' r' hQ => by
    obtain ⟨rfl, rfl⟩ := hQ
    exact hwrap.runs hv data cs k
  have hall := hval.append (t := post.val) (d := True)
    (R := fun p' r' => ∃ q child, p' = wrap q ∧ r' = .mk data (cs ++ [(k, child)]) ∧
        Ready utf q child v.value.record) fun p' r' hQ => by
    obtain ⟨q, child, rfl, rfl, htold⟩ := hQ
    obtain ⟨q', child', hready, heats⟩ := hwrap.eats_gap htold.ready data cs k post
    exact heats.runs ⟨q', child', rfl, rfl, hready⟩
  exact hall.imp (by simp) fun _ _ h => h

theorem Runs.congr_head {p q : ParserImpl} {r s : Record} {ch : UInt8} {txt : List UInt8}
    {cond : Prop} {Q : ParserImpl → Record → Prop} (hp : p.inProgress) (hq : q.inProgress)
    (hfeed : feed utf 2 p r ch = feed utf 2 q s ch) (h : Runs utf q s (ch :: txt) cond Q) :
    Runs utf p r (ch :: txt) cond Q := by
  constructor
  · intro hcond
    obtain ⟨p', r', ⟨-, p₁, r₁, hstep, hrest⟩, hQ⟩ := h.1 hcond
    exact ⟨p', r', ⟨hp, p₁, r₁, hfeed.trans hstep, hrest⟩, hQ⟩
  · intro hcond
    obtain ⟨pre, c, post, p', r', heq, heats, hp', hstep⟩ := h.2 hcond
    cases pre with
    | nil =>
      obtain ⟨rfl, rfl⟩ := heats
      simp only [List.nil_append, List.cons.injEq] at heq
      obtain ⟨rfl, rfl⟩ := heq
      exact ⟨[], ch, txt, p, r, rfl, ⟨rfl, rfl⟩, hp, hfeed.trans hstep⟩
    | cons c' pre =>
      simp only [List.cons_append, List.cons.injEq] at heq
      obtain ⟨rfl, rfl⟩ := heq
      obtain ⟨-, p₁, r₁, hhead, hrest⟩ := heats
      exact ⟨ch :: pre, c, post, p', r', rfl, ⟨hp, p₁, r₁, hfeed.trans hhead, hrest⟩, hp', hstep⟩

/-- A new array treats a character that does not close it like one with a new child. -/
theorem feed_arr_none {ch : UInt8} (hch : ch ≠ chr ']') :
    feed utf 2 (.arr none 0) .empty ch =
      feed utf 2 (.arr (some (.any true)) 1) (.mk [] [(.index 0, .empty)]) ch := by
  have hprogress : (ParserImpl.any true).inProgress := rfl
  rw [feed_eq_parse1 rfl, feed_eq_parse1 rfl, parse1, if_neg hch, parse1, if_pos hprogress, parse1]
  cases hany : anyParser ch with
  | error e => rfl
  | ok p => rfl

theorem ne_close_of_isdigit {ch : UInt8} (h : isdigit ch) : ch ≠ chr ']' := by
  rintro rfl
  exact absurd h (by decide)

theorem Layout.text_head (v : Layout) : ∃ ch txt, v.text = ch :: txt ∧ ch ≠ chr ']' := by
  cases v with
  | literal l => cases l <;> exact ⟨_, _, rfl, by decide⟩
  | integer i =>
    cases hneg : i.negative with
    | true => exact ⟨chr '-', i.first :: i.rest, by simp [Layout.text, IntLayout.text, hneg],
        by decide⟩
    | false => exact ⟨i.first, i.rest, by simp [Layout.text, IntLayout.text, hneg],
        ne_close_of_isdigit (i.areDigits i.first (by simp))⟩
  | string s => exact ⟨chr '"', _, by simp [Layout.text, StringLayout.text]; rfl, by decide⟩
  | emptyArray gap => exact ⟨chr '[', _, by rw [Layout.text], by decide⟩
  | array items => exact ⟨chr '[', _, by rw [Layout.text], by decide⟩
  | emptyObject gap => exact ⟨chr '{', _, by rw [Layout.text], by decide⟩
  | object members => exact ⟨chr '{', _, by rw [Layout.text], by decide⟩

theorem gap_text_head (gap : Gap) (v : Layout) :
    ∃ ch txt, gap.val ++ v.text = ch :: txt ∧ ch ≠ chr ']' := by
  obtain ⟨txt, htxt⟩ := gap
  cases txt with
  | nil => exact v.text_head
  | cons ch txt => exact ⟨ch, txt ++ v.text, rfl, (not_close_of_isSpace (htxt ch (by simp))).1⟩

theorem elementRecords_snoc (vs : List JsonValue) (v : JsonValue) (i : Nat) :
    elementRecords i (vs ++ [v]) = elementRecords i vs ++ [(.index (i + vs.length), v.record)] := by
  induction vs generalizing i with
  | nil => simp [elementRecords]
  | cons w vs ih =>
    simp only [List.cons_append, elementRecords, ih, List.length_cons, List.cons.injEq, true_and]
    rw [Nat.add_right_comm, Nat.add_assoc]

theorem memberRecords_snoc (ms : List (List UInt8 × JsonValue)) (k : List UInt8) (v : JsonValue) :
    memberRecords (ms ++ [(k, v)]) = memberRecords ms ++ [(.name k, v.record)] := by
  induction ms with
  | nil => simp [memberRecords]
  | cons m ms ih =>
    obtain ⟨k', v'⟩ := m
    simp only [List.cons_append, memberRecords, ih]

/-- What is left when some elements were read. -/
def ItemsTold (utf : Nat → List UInt8) (items : Items) (p : ParserImpl) (r : Record) : Prop :=
  ∃ q cs k child value, p = .arr (some q) items.values.length ∧ r = .mk [] (cs ++ [(k, child)]) ∧
    Ready utf q child value ∧ elementRecords 0 items.values = cs ++ [(k, value)]

def MembersTold (utf : Nat → List UInt8) (members : MemberItems) (p : ParserImpl) (r : Record) :
    Prop :=
  ∃ key q cs k child value, p = .obj (some key) (some q) false ∧
    r = .mk [] (cs ++ [(k, child)]) ∧ Ready utf q child value ∧
    memberRecords members.values = cs ++ [(k, value)]

theorem told_scan {σ : Type} {w : σ → ParserImpl} {p : σ} {v : Layout} {s : Scalar}
    {f : σ → UInt8 → Option σ} {result : Option Scalar}
    (hparse : ∀ r ch, parse1 utf (w p) r ch = scan w (f p ch) result r)
    (hprogress : (w p).inProgress) (hbare : v.bare) (hvalue : v.value.record = .mk [s] [])
    (hresult : result = some s) (hnext : ∀ ch, Delimiter ch → f p ch = none) :
    Told utf v (w p) .empty := by
  rw [Told, if_pos hbare]
  refine ⟨hprogress, fun ch hch => ?_⟩
  rw [feed_two, hparse, hnext ch hch, hresult, hvalue]
  simp [scan, completeWith, ParserImpl.inProgress]

theorem number_next_delimiter {p : NumberParser} (hp : p.n = .decimal) {ch : UInt8}
    (hch : Delimiter ch) : p.next ch = none := by
  have hne : ch ≠ chr 'e' ∧ ch ≠ chr 'E' ∧ ch ≠ chr '.' ∧ isdigit ch = false := by
    obtain h | rfl | rfl | rfl := hch
    · exact octet_forall (P := fun ch => isSpace ch →
        ch ≠ chr 'e' ∧ ch ≠ chr 'E' ∧ ch ≠ chr '.' ∧ isdigit ch = false) (by decide +kernel) ch h
    all_goals decide
  simp [NumberParser.next, hp, hne]

theorem literal_runs (l : Literal) :
    Runs utf (.any true) .empty (Layout.literal l).text (Layout.literal l).tight
      (Told utf (.literal l)) := by
  obtain ⟨p, heats, hresult, hnext⟩ := @eats_literal utf l
  have hvalue : (Layout.literal l).value.record = .mk [LiteralParser.scalar l] [] := by
    cases l <;> rfl
  have htold : Told utf (.literal l) (.lit p) .empty :=
    told_scan (w := ParserImpl.lit) (f := LiteralParser.next) (fun _ _ => by rw [parse1]) rfl
      rfl hvalue hresult fun ch _ => hnext ch
  exact (heats.runs htold).imp (by simp [Layout.tight]) fun _ _ h => h

theorem integer_runs (i : IntLayout) :
    Runs utf (.any true) .empty (Layout.integer i).text (Layout.integer i).tight
      (Told utf (.integer i)) := by
  obtain ⟨p, hp, heats, hresult⟩ := @eats_integer utf i
  have htold : Told utf (.integer i) (.num p) .empty :=
    told_scan (w := ParserImpl.num) (f := NumberParser.next) (fun _ _ => by rw [parse1]) rfl
      rfl rfl hresult fun ch hch => number_next_delimiter hp hch
  exact (heats.runs htold).imp (by simp [Layout.tight]) fun _ _ h => h

theorem emptyArray_runs (gap : Gap) :
    Runs utf (.any true) .empty (Layout.emptyArray gap).text (Layout.emptyArray gap).tight
      (Told utf (.emptyArray gap)) := by
  have hopen : Eats utf (.any true) .empty [chr '['] (.arr none 0) .empty := eats_any rfl .empty
  obtain ⟨txt, htxt⟩ := gap
  cases txt with
  | nil =>
    have hclose : Eats utf (.arr none 0) .empty [chr ']'] (.any false) .empty :=
      Eats.one rfl (feed_of_parse1 rfl)
    have htold : Told utf (.emptyArray ⟨[], htxt⟩) (.any false) .empty := ⟨rfl, rfl⟩
    exact ((hopen.append hclose).runs htold).imp (by simp [Layout.tight]) fun _ _ h => h
  | cons ch txt =>
    have hskip := (@frame_arr utf 1).eats (eats_skipped ⟨ch :: txt, htxt⟩ .empty) [] []
      (.index 0)
    have hfails : Fails utf (.arr (some (.any true)) 1) (.mk [] [(.index 0, .empty)])
        (ch :: (txt ++ [chr ']'])) :=
      ⟨ch :: txt, chr ']', [], _, _, rfl, hskip, rfl, rfl⟩
    have hruns : Runs utf (.arr (some (.any true)) 1) (.mk [] [(.index 0, .empty)])
        (ch :: (txt ++ [chr ']'])) False (Told utf (.emptyArray ⟨ch :: txt, htxt⟩)) :=
      ⟨False.elim, fun _ => hfails⟩
    have hfirst := hruns.congr_head (p := .arr none 0) rfl rfl
      (feed_arr_none (not_close_of_isSpace (htxt ch (by simp))).1)
    have hall := (hopen.runs (Q := fun p' r' => p' = .arr none 0 ∧ r' = .empty) ⟨rfl, rfl⟩).append
      fun p' r' hQ => by
        obtain ⟨rfl, rfl⟩ := hQ
        exact hfirst
    exact hall.imp (by simp [Layout.tight]) fun _ _ h => h

theorem skip_new_object (r : Record) (first : Bool) {ch : UInt8} (hch : isSpace ch) :
    parse1 utf (.obj none none first) r ch = .ok (true, .obj none none first, r) := by
  obtain ⟨-, hclose, -, hquote, -⟩ := not_close_of_isSpace hch
  rw [parse1, if_neg (by simp [hclose]), if_neg hquote, skip_of_isSpace hch]

theorem skip_after_key (p : StringParser) (r : Record) (first : Bool) {ch : UInt8}
    (hch : isSpace ch) :
    parse1 utf (.obj (some ⟨p, false⟩) none first) r ch =
      .ok (true, .obj (some ⟨p, false⟩) none first, r) := by
  obtain ⟨-, -, -, -, hcolon⟩ := not_close_of_isSpace hch
  rw [parse1, if_neg Bool.false_ne_true, if_neg hcolon, skip_of_isSpace hch]

theorem emptyObject_runs (gap : Gap) :
    Runs utf (.any true) .empty (Layout.emptyObject gap).text (Layout.emptyObject gap).tight
      (Told utf (.emptyObject gap)) := by
  have hopen : Eats utf (.any true) .empty [chr '{'] (.obj none none true) .empty :=
    eats_any rfl .empty
  have hgap : Eats utf (.obj none none true) .empty gap.val (.obj none none true) .empty :=
    eats_gap rfl (fun ch hch => skip_new_object .empty true hch) gap
  have hclose : Eats utf (.obj none none true) .empty [chr '}'] (.any false) .empty :=
    Eats.one rfl (feed_of_parse1 rfl)
  have htold : Told utf (.emptyObject gap) (.any false) .empty := ⟨rfl, rfl⟩
  exact ((hopen.append (hgap.append hclose)).runs htold).imp (by simp [Layout.tight])
    fun _ _ h => h

section Values

variable (hutf : ∀ n, n < 128 → utf n = [UInt8.ofNat n])

include hutf

theorem string_runs (s : StringLayout) :
    Runs utf (.any true) .empty (Layout.string s).text (Layout.string s).tight
      (Told utf (.string s)) := by
  obtain ⟨hex, hbody⟩ := scan_body hutf s [] []
  have hopen : Eats utf (.any true) .empty [chr '"'] (.str .init) .empty := eats_any rfl .empty
  have hclose : Eats utf (.str ⟨false, hex, s.value⟩) .empty [chr '"'] (.any false)
      (.mk [.str s.value] []) := Eats.one rfl (feed_of_parse1 rfl)
  have hall := hopen.append ((eats_str hbody).append hclose)
  exact (hall.runs (Q := Told utf (.string s)) ⟨rfl, rfl⟩).imp (by simp [Layout.tight])
    fun _ _ h => h

theorem member_runs {v : Layout}
    (hv : Runs utf (.any true) .empty v.text v.tight (Told utf v)) (pre : Gap)
    (key : StringLayout) (mid pre' post : Gap) (first : Bool) (cs : List (Key × Record)) :
    Runs utf (.obj none none first) (.mk [] cs)
      (pre.val ++ key.text ++ mid.val ++ chr ':' :: (pre'.val ++ v.text ++ post.val)) v.tight
      fun p' r' => ∃ key' q child, p' = .obj (some key') (some q) false ∧
        r' = .mk [] (cs ++ [(.name key.value, child)]) ∧ Ready utf q child v.value.record := by
  obtain ⟨hex, hbody⟩ := scan_body hutf key [] []
  let parser : StringParser := ⟨false, hex, key.value⟩
  have hpre : Eats utf (.obj none none first) (.mk [] cs) pre.val (.obj none none first)
      (.mk [] cs) := eats_gap rfl (fun ch hch => skip_new_object _ first hch) pre
  have hopen : Eats utf (.obj none none first) (.mk [] cs) [chr '"']
      (.obj (some ⟨.init, true⟩) none false) (.mk [] cs) := by
    refine Eats.one rfl (feed_of_parse1 ?_)
    rw [parse1, if_neg (by simp [show chr '"' ≠ chr '}' by decide]), if_pos rfl]
  have hkey : Eats utf (.obj (some ⟨.init, true⟩) none false) (.mk [] cs) key.body
      (.obj (some ⟨parser, true⟩) none false) (.mk [] cs) := eats_key hbody
  have hclose : Eats utf (.obj (some ⟨parser, true⟩) none false) (.mk [] cs) [chr '"']
      (.obj (some ⟨parser, false⟩) none false) (.mk [] cs) := Eats.one rfl (feed_of_parse1 rfl)
  have hmid : Eats utf (.obj (some ⟨parser, false⟩) none false) (.mk [] cs) mid.val
      (.obj (some ⟨parser, false⟩) none false) (.mk [] cs) :=
    eats_gap rfl (fun ch hch => skip_after_key _ _ _ hch) mid
  have hcolon : Eats utf (.obj (some ⟨parser, false⟩) none false) (.mk [] cs) [chr ':']
      (.obj (some ⟨parser, false⟩) (some (.any true)) false)
      (.mk [] (cs ++ [(.name key.value, .empty)])) := Eats.one rfl (feed_of_parse1 rfl)
  have hbefore := (hpre.append (hopen.append (hkey.append (hclose.append
    (hmid.append hcolon))))).runs
      (Q := fun p' r' => p' = .obj (some ⟨parser, false⟩) (some (.any true)) false ∧
        r' = .mk [] (cs ++ [(.name key.value, .empty)])) ⟨rfl, rfl⟩
  have hall := hbefore.append fun p' r' hQ => by
    obtain ⟨rfl, rfl⟩ := hQ
    exact (frame_obj (some ⟨parser, false⟩) false).runs_value hv pre' post [] cs _
  have htext : pre.val ++ key.text ++ mid.val ++ chr ':' :: (pre'.val ++ v.text ++ post.val) =
      pre.val ++ ([chr '"'] ++ (key.body ++ ([chr '"'] ++ (mid.val ++ [chr ':'])))) ++
        (pre'.val ++ v.text ++ post.val) := by
    simp [StringLayout.text]
  rw [htext]
  refine hall.imp (by simp) fun p' r' h => ?_
  obtain ⟨q, child, rfl, rfl, hready⟩ := h
  exact ⟨_, q, child, rfl, rfl, hready⟩

end Values

mutual

theorem layout_runs (hutf : ∀ n, n < 128 → utf n = [UInt8.ofNat n]) (v : Layout) :
    Runs utf (.any true) .empty v.text v.tight (Told utf v) := by
  match v with
  | .literal l => exact literal_runs l
  | .integer i => exact integer_runs i
  | .string s => exact string_runs hutf s
  | .emptyArray gap => exact emptyArray_runs gap
  | .emptyObject gap => exact emptyObject_runs gap
  | .array items =>
    have hopen : Eats utf (.any true) .empty [chr '['] (.arr none 0) .empty := eats_any rfl .empty
    have hitems := (hopen.runs (Q := fun p' r' => p' = .arr none 0 ∧ r' = .empty)
      ⟨rfl, rfl⟩).append fun p' r' hQ => by
        obtain ⟨rfl, rfl⟩ := hQ
        exact items_runs hutf items
    have hall := hitems.append (t := [chr ']']) (d := True)
      (R := Told utf (.array items)) fun p' r' hQ => by
        obtain ⟨q, cs, k, child, value, rfl, rfl, hready, hrecords⟩ := hQ
        refine (Eats.one rfl ?_).runs (q := .any false) (u := .mk [] (cs ++ [(k, value)]))
          ⟨rfl, ?_⟩
        · rw [(frame_arr _).feed_ready hready (Or.inr (Or.inr (Or.inl rfl)))]
          rfl
        · rw [← hrecords]
          rfl
    have htext : (Layout.array items).text = [chr '['] ++ items.text ++ [chr ']'] := by
      simp [Layout.text]
    rw [htext]
    exact hall.imp (by simp [Layout.tight]) fun _ _ h => h
  | .object members =>
    have hopen : Eats utf (.any true) .empty [chr '{'] (.obj none none true) .empty :=
      eats_any rfl .empty
    have hmembers := (hopen.runs (Q := fun p' r' => p' = .obj none none true ∧ r' = .empty)
      ⟨rfl, rfl⟩).append fun p' r' hQ => by
        obtain ⟨rfl, rfl⟩ := hQ
        exact members_runs hutf members
    have hall := hmembers.append (t := [chr '}']) (d := True)
      (R := Told utf (.object members)) fun p' r' hQ => by
        obtain ⟨key, q, cs, k, child, value, rfl, rfl, hready, hrecords⟩ := hQ
        refine (Eats.one rfl ?_).runs (q := .any false) (u := .mk [] (cs ++ [(k, value)]))
          ⟨rfl, ?_⟩
        · rw [(frame_obj _ _).feed_ready hready (Or.inr (Or.inr (Or.inr rfl)))]
          rfl
        · rw [← hrecords]
          rfl
    have htext : (Layout.object members).text = [chr '{'] ++ members.text ++ [chr '}'] := by
      simp [Layout.text]
    rw [htext]
    exact hall.imp (by simp [Layout.tight]) fun _ _ h => h

theorem items_runs (hutf : ∀ n, n < 128 → utf n = [UInt8.ofNat n]) (items : Items) :
    Runs utf (.arr none 0) .empty items.text items.tight (ItemsTold utf items) := by
  match items with
  | .one pre v post =>
    have hframe := (frame_arr 1).runs_value (layout_runs hutf v) pre post [] [] (.index 0)
    obtain ⟨ch, txt, htxt, hch⟩ := gap_text_head pre v
    rw [htxt, List.cons_append] at hframe
    have hfirst := hframe.congr_head (p := .arr none 0) rfl rfl (feed_arr_none hch)
    have htext : (Items.one pre v post).text = ch :: (txt ++ post.val) := by
      rw [Items.text, htxt, List.cons_append]
    rw [htext]
    refine hfirst.imp (by simp [Items.tight]) fun p' r' h => ?_
    obtain ⟨q, child, rfl, rfl, hready⟩ := h
    exact ⟨q, [], .index 0, child, v.value.record, rfl, rfl, hready, rfl⟩
  | .snoc init pre v post =>
    have hinit := items_runs hutf init
    have hcomma := hinit.append (t := [chr ',']) (d := True)
      (R := fun p' r' => p' = .arr (some (.any true)) (init.values.length + 1) ∧
        r' = .mk [] (elementRecords 0 init.values ++ [(.index init.values.length, .empty)]))
      fun p' r' hQ => by
        obtain ⟨q, cs, k, child, value, rfl, rfl, hready, hrecords⟩ := hQ
        refine (Eats.one rfl ?_).runs ⟨rfl, rfl⟩
        rw [(frame_arr _).feed_ready hready (Or.inr (Or.inl rfl)), hrecords]
        rfl
    have hall := hcomma.append fun p' r' hQ => by
      obtain ⟨rfl, rfl⟩ := hQ
      exact (frame_arr (init.values.length + 1)).runs_value (layout_runs hutf v) pre post [] _ _
    have htext : (Items.snoc init pre v post).text =
        init.text ++ [chr ','] ++ (pre.val ++ v.text ++ post.val) := by
      simp [Items.text]
    rw [htext]
    refine hall.imp (by simp [Items.tight]) fun p' r' h => ?_
    obtain ⟨q, child, rfl, rfl, hready⟩ := h
    refine ⟨q, _, _, child, v.value.record, by simp [Items.values], rfl, hready, ?_⟩
    rw [Items.values, elementRecords_snoc, Nat.zero_add]

theorem members_runs (hutf : ∀ n, n < 128 → utf n = [UInt8.ofNat n])
    (members : MemberItems) :
    Runs utf (.obj none none true) .empty members.text members.tight (MembersTold utf members) := by
  match members with
  | .one pre key mid pre' v post =>
    have hmember := member_runs hutf (layout_runs hutf v) pre key mid pre' post true []
    have htext : (MemberItems.one pre key mid pre' v post).text =
        pre.val ++ key.text ++ mid.val ++ chr ':' :: (pre'.val ++ v.text ++ post.val) := by
      rw [MemberItems.text]
    rw [htext]
    refine hmember.imp (by simp [MemberItems.tight]) fun p' r' h => ?_
    obtain ⟨key', q, child, rfl, rfl, hready⟩ := h
    exact ⟨key', q, [], _, child, v.value.record, rfl, rfl, hready, rfl⟩
  | .snoc init pre key mid pre' v post =>
    have hinit := members_runs hutf init
    have hcomma := hinit.append (t := [chr ',']) (d := True)
      (R := fun p' r' => p' = .obj none none false ∧
        r' = .mk [] (memberRecords init.values)) fun p' r' hQ => by
        obtain ⟨key', q, cs, k, child, value, rfl, rfl, hready, hrecords⟩ := hQ
        refine (Eats.one rfl ?_).runs ⟨rfl, rfl⟩
        rw [(frame_obj _ _).feed_ready hready (Or.inr (Or.inl rfl)), hrecords]
        rfl
    have hall := hcomma.append fun p' r' hQ => by
      obtain ⟨rfl, rfl⟩ := hQ
      exact member_runs hutf (layout_runs hutf v) pre key mid pre' post false _
    have htext : (MemberItems.snoc init pre key mid pre' v post).text = init.text ++ [chr ','] ++
        (pre.val ++ key.text ++ mid.val ++ chr ':' :: (pre'.val ++ v.text ++ post.val)) := by
      simp [MemberItems.text]
    rw [htext]
    refine hall.imp (by simp [MemberItems.tight]) fun p' r' h => ?_
    obtain ⟨key', q, child, rfl, rfl, hready⟩ := h
    refine ⟨key', q, _, _, child, v.value.record, rfl, rfl, hready, ?_⟩
    rw [MemberItems.values, memberRecords_snoc]

end

theorem writeLoop_eats {p p' : ParserImpl} {r r' : Record} {s : List UInt8}
    (h : Eats utf p r s p' r') (t : List UInt8) :
    writeLoop utf p r (s ++ t) =
      (writeLoop utf p' r' t).map fun (q, r, n) => (q, r, n + s.length) := by
  induction s generalizing p r with
  | nil =>
    obtain ⟨rfl, rfl⟩ := h
    cases hloop : writeLoop utf p' r' t <;> simp [hloop, Except.map]
  | cons ch s ih =>
    obtain ⟨hp, q, r₁, hfeed, hrest⟩ := h
    rw [List.cons_append, writeLoop, if_pos hp, hfeed]
    simp only [ih hrest]
    cases hloop : writeLoop utf p' r' t with
    | error e => rfl
    | ok result => simp [Except.map, Nat.add_assoc]

theorem writeLoop_fails {p : ParserImpl} {r : Record} {s : List UInt8} (h : Fails utf p r s)
    (t : List UInt8) : writeLoop utf p r (s ++ t) = .error .syntaxError := by
  obtain ⟨pre, ch, post, p', r', rfl, heats, hp', hfeed⟩ := h
  rw [List.append_assoc, writeLoop_eats heats, List.cons_append, writeLoop, if_pos hp', hfeed]
  rfl

theorem writeLoop_done (r : Record) (s : List UInt8) :
    writeLoop utf (.any false) r s = .ok (.any false, r, 0) := by
  cases s with
  | nil => rfl
  | cons ch s => rw [writeLoop, if_neg (by simp [ParserImpl.inProgress])]

theorem write_any (s : List UInt8) (r : Record) :
    write utf (.any true) r s =
      (writeLoop utf (.any true) r s).map fun (p, r, i) => (p, r, (i : Int)) := by
  have hprogress : (ParserImpl.any true).inProgress := rfl
  rw [write, if_pos hprogress]

end Runs

/-- A rendering is accepted, with what the adapter should be told, exactly when no empty array
in it has blanks between its brackets and something follows a literal or a number at the top. -/
theorem json_parser_complete_iff (utf : Nat → List UInt8)
    (hutf : ∀ n, n < 128 → utf n = [UInt8.ofNat n]) (d : Document) :
    (∃ n, write utf (.any true) .empty d.text = .ok (.any false, d.value.record, n)) ↔
      d.root.tight ∧ (d.root.bare → d.post.val ≠ []) := by
  have hroot := ((eats_skipped d.pre .empty).runs
    (Q := fun p' r' => p' = .any true ∧ r' = .empty) ⟨rfl, rfl⟩).append fun p' r' hQ => by
      obtain ⟨rfl, rfl⟩ := hQ
      exact layout_runs hutf d.root
  rw [write_any, Document.text]
  by_cases htight : d.root.tight
  · obtain ⟨q, child, heats, htold⟩ := hroot.1 ⟨trivial, htight⟩
    rw [writeLoop_eats heats]
    by_cases hbare : d.root.bare
    · rw [Told, if_pos hbare] at htold
      obtain ⟨hprogress, hend⟩ := htold
      have hpost := d.post.property
      cases hpostVal : d.post.val with
      | nil =>
        have hq : q ≠ .any false := by
          rintro rfl
          simp [ParserImpl.inProgress] at hprogress
        simp [writeLoop, Except.map, hbare, hq]
      | cons ch txt =>
        rw [writeLoop, if_pos hprogress, hend ch (Or.inl (hpost ch (by simp [hpostVal])))]
        simp [writeLoop_done, Except.map, htight, Document.value]
    · rw [Told, if_neg hbare] at htold
      obtain ⟨rfl, rfl⟩ := htold
      rw [writeLoop_done]
      simp [Except.map, htight, hbare, Document.value]
  · have hfails := hroot.2 fun h => htight h.2
    rw [writeLoop_fails hfails]
    simp [Except.map, htight]

/-- The decoding of a single `char16_t` and its encoding in UTF-8. -/
def utf8 (n : Nat) : List UInt8 :=
  if n < 0x80 then [UInt8.ofNat n]
  else if n < 0x800 then [UInt8.ofNat (0xC0 + n / 0x40), UInt8.ofNat (0x80 + n % 0x40)]
  else if 0xD800 ≤ n ∧ n < 0xE000 then []
  else [UInt8.ofNat (0xE0 + n / 0x1000), UInt8.ofNat (0x80 + n / 0x40 % 0x40),
    UInt8.ofNat (0x80 + n % 0x40)]

/-- The number 7, after a blank and before a line feed. -/
def sevenDocument : Document where
  pre := ⟨octets " ", by simp [Blanks, octets]; decide⟩
  root := .integer ⟨false, chr '7', [], by simp; decide, by decide⟩
  post := ⟨octets "\n", by simp [Blanks, octets]; decide⟩

theorem json_parser_complete_iff_of_number :
    ∃ n, write utf8 (.any true) .empty (octets " 7\n") =
      .ok (.any false, .mk [.long 7] [], n) :=
  (json_parser_complete_iff utf8 (fun n hn => by rw [utf8, if_pos hn]) sevenDocument).mpr
    ⟨trivial, by simp [sevenDocument, octets]⟩

/-- An empty array with a blank in it. -/
def blankArray : Document where
  pre := ⟨[], by simp [Blanks]⟩
  root := .emptyArray ⟨octets " ", by simp [Blanks, octets]; decide⟩
  post := ⟨[], by simp [Blanks]⟩

theorem blankArray_refused : blankArray.text = octets "[ ]" ∧
    ¬ ∃ n, write utf8 (.any true) .empty blankArray.text =
      .ok (.any false, blankArray.value.record, n) := by
  refine ⟨rfl, ?_⟩
  have hwrite : write utf8 (.any true) .empty blankArray.text = .error .syntaxError := rfl
  rw [hwrite]
  simp

end Json

end Acqua
