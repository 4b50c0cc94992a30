import Acqua.Json.Dispatch
import Acqua.Json.Grammar

/-! Accepted arrays and objects are derived by the grammar. What a parser has read is an
invariant of it that follows the nesting of the parsers. -/

namespace Acqua

namespace Json

section Soundness

variable (utf : Nat → List UInt8)

/-- What stands before an element of an array. -/
def OpenArray (pre : List UInt8) (cs : List (Key × Record)) : Prop :=
  ∃ ws, Skipped ws ∧ ((pre = ws ++ [chr '['] ∧ cs = []) ∨
    ∃ txt w, Elements utf txt cs ∧ Blanks w ∧ pre = ws ++ chr '[' :: (txt ++ w ++ [chr ',']))

/-- What stands before the first member of an object. -/
def FreshObject (pre : List UInt8) (cs : List (Key × Record)) : Prop :=
  ∃ ws w, Skipped ws ∧ Blanks w ∧ pre = ws ++ chr '{' :: w ∧ cs = []

/-- What stands before a member of an object. -/
def OpenObject (pre : List UInt8) (cs : List (Key × Record)) : Prop :=
  FreshObject pre cs ∨
    ∃ ws w txt w' w'', Skipped ws ∧ Blanks w ∧ Members utf txt cs ∧ Blanks w' ∧ Blanks w'' ∧
      pre = ws ++ chr '{' :: (w ++ txt ++ w' ++ chr ',' :: w'')

/-- What a parser has taken since it was made, and what its adapter was told. -/
def Reads : ParserImpl → Record → List UInt8 → Prop
  | .any true, r, txt => r = .empty ∧ Skipped txt
  | .any false, r, txt => Value utf txt r
  | .lit p, r, txt => r = .empty ∧ ∃ ws tok, Skipped ws ∧ txt = ws ++ tok ∧
      tok.map tolower = (LiteralParser.cStr p.l).take (p.lit + 1)
  | .num p, r, txt => r = .empty ∧ ∃ ws ch rest start, Skipped ws ∧ txt = ws ++ ch :: rest ∧
      anyParser ch = .ok (.num start) ∧ rest.foldlM NumberParser.next start = some p
  | .str p, r, txt => r = .empty ∧ ∃ ws body, Skipped ws ∧ txt = ws ++ chr '"' :: body ∧
      body.foldlM (StringParser.next utf) .init = some p
  | .arr none index, r, txt => r = .empty ∧ index = 0 ∧ ∃ ws, Skipped ws ∧ txt = ws ++ [chr '[']
  | .arr (some data) index, r, txt => ∃ pre cs val w child, OpenArray utf pre cs ∧
      index = cs.length + 1 ∧ r = .mk [] (cs ++ [(.index cs.length, child)]) ∧
      Reads data child val ∧ Blanks w ∧ (data.inProgress → w = []) ∧ txt = pre ++ val ++ w
  | .obj none none first, r, txt => ∃ cs, r = .mk [] cs ∧ OpenObject utf txt cs ∧
      (first → FreshObject txt cs)
  | .obj none (some _) _, _, _ => False
  | .obj (some key) none first, r, txt => first = false ∧ ∃ pre cs, r = .mk [] cs ∧
      OpenObject utf pre cs ∧ if key.inProgress then
        ∃ body, body.foldlM (StringParser.next utf) .init = some key.parser ∧
          txt = pre ++ chr '"' :: body
      else ∃ tok w, StringText utf tok key.parser.str ∧ Blanks w ∧ txt = pre ++ tok ++ w
  | .obj (some _) (some val) first, r, txt => first = false ∧ ∃ pre cs name tok w v w' child,
      OpenObject utf pre cs ∧ r = .mk [] (cs ++ [(.name name, child)]) ∧
      StringText utf tok name ∧ Blanks w ∧ Reads val child v ∧ Blanks w' ∧
      (val.inProgress → w' = []) ∧ txt = pre ++ tok ++ w ++ chr ':' :: v ++ w'

theorem reads_done {r : Record} {txt : List UInt8} :
    Reads utf (.any false) r txt ↔ Value utf txt r := Iff.rfl

theorem Blanks.snoc {txt : List UInt8} {ch : UInt8} (h : Blanks txt) (hch : isSpace ch) :
    Blanks (txt ++ [ch]) := by
  intro c hc
  rcases List.mem_append.mp hc with hc | hc
  · exact h c hc
  · simpa [List.mem_singleton.mp hc] using hch

theorem Skipped.snoc {txt : List UInt8} {ch : UInt8} (h : Skipped txt)
    (hch : ch = 0 ∨ isSpace ch) : Skipped (txt ++ [ch]) := by
  intro c hc
  rcases List.mem_append.mp hc with hc | hc
  · exact h c hc
  · simpa [List.mem_singleton.mp hc] using hch

theorem anyParser_cases {ch : UInt8} {p : ParserImpl} (h : anyParser ch = .ok p) :
    (p = .any true ∧ (ch = 0 ∨ isSpace ch)) ∨
    (∃ l, p = .lit ⟨l, 0⟩ ∧ [ch].map tolower = (LiteralParser.cStr l).take 1) ∨
    (p = .str .init ∧ ch = chr '"') ∨
    (p = .arr none 0 ∧ ch = chr '[') ∨
    (p = .obj none none true ∧ ch = chr '{') ∨
    ∃ start, p = .num start := by
  have hlower : ∀ (c : UInt8) (l : Literal),
      (ch = c ∨ ch = c - 32) → [c].map tolower = (LiteralParser.cStr l).take 1 →
      [c - 32].map tolower = (LiteralParser.cStr l).take 1 →
      [ch].map tolower = (LiteralParser.cStr l).take 1 := by
    rintro c l (rfl | rfl) h₁ h₂
    · exact h₁
    · exact h₂
  unfold anyParser at h
  split_ifs at h with hskip hn ht hf hstr harr hobj hminus hplus hdigit
  all_goals (injection h with h; subst h)
  · exact Or.inl ⟨rfl, hskip⟩
  · exact Or.inr (Or.inl ⟨.lNull, rfl, hlower (chr 'n') .lNull hn (by decide) (by decide)⟩)
  · exact Or.inr (Or.inl ⟨.lTrue, rfl, hlower (chr 't') .lTrue ht (by decide) (by decide)⟩)
  · exact Or.inr (Or.inl ⟨.lFalse, rfl, hlower (chr 'f') .lFalse hf (by decide) (by decide)⟩)
  · exact Or.inr (Or.inr (Or.inl ⟨rfl, hstr⟩))
  · exact Or.inr (Or.inr (Or.inr (Or.inl ⟨rfl, harr⟩)))
  · exact Or.inr (Or.inr (Or.inr (Or.inr (Or.inl ⟨rfl, hobj⟩))))
  · exact Or.inr (Or.inr (Or.inr (Or.inr (Or.inr ⟨_, rfl⟩))))
  · exact Or.inr (Or.inr (Or.inr (Or.inr (Or.inr ⟨_, rfl⟩))))
  · exact Or.inr (Or.inr (Or.inr (Or.inr (Or.inr ⟨_, rfl⟩))))

theorem anyParser_reads {txt : List UInt8} {ch : UInt8} {p : ParserImpl} (htxt : Skipped txt)
    (h : anyParser ch = .ok p) : Reads utf p .empty (txt ++ [ch]) := by
  obtain ⟨rfl, hch⟩ | ⟨l, rfl, hl⟩ | ⟨rfl, rfl⟩ | ⟨rfl, rfl⟩ | ⟨rfl, rfl⟩ | ⟨start, rfl⟩ :=
    anyParser_cases h
  · exact ⟨rfl, htxt.snoc hch⟩
  · exact ⟨rfl, txt, [ch], htxt, rfl, hl⟩
  · exact ⟨rfl, txt, [], htxt, rfl, rfl⟩
  · exact ⟨rfl, rfl, txt, htxt, rfl⟩
  · have hfresh : FreshObject (txt ++ [chr '{']) [] := ⟨txt, [], htxt, by simp [Blanks], rfl, rfl⟩
    exact ⟨[], rfl, Or.inl hfresh, fun _ => hfresh⟩
  · exact ⟨rfl, txt, ch, [], start, htxt, rfl, h, rfl⟩

/-- The text read after a call that returned `b`. -/
def readAfter (b : Bool) (txt : List UInt8) (ch : UInt8) : List UInt8 :=
  if b then txt ++ [ch] else txt

theorem scan_reads {σ : Type} {wrap : σ → ParserImpl} {next : Option σ} {result : Option Scalar}
    {r r' : Record} {b : Bool} {p' : ParserImpl} {txt : List UInt8} {ch : UInt8}
    (hnext : ∀ p, next = some p → Reads utf (wrap p) r (txt ++ [ch]))
    (hresult : ∀ s, result = some s → Value utf txt (r.addData s))
    (h : scan wrap next result r = .ok (b, p', r')) : Reads utf p' r' (readAfter b txt ch) := by
  cases next with
  | some p =>
    injection h with h
    obtain ⟨rfl, rfl, rfl⟩ := by simpa using h
    exact hnext p rfl
  | none =>
    cases result with
    | some s =>
      injection h with h
      obtain ⟨rfl, rfl, rfl⟩ := by simpa using h
      exact hresult s rfl
    | none => simp [scan] at h

theorem LiteralParser.next_eq {p p' : LiteralParser} {ch : UInt8} (h : p.next ch = some p') :
    p' = { p with lit := p.lit + 1 } ∧
      [tolower ch] = ((LiteralParser.cStr p.l).drop (p.lit + 1)).take 1 := by
  unfold LiteralParser.next at h
  split_ifs at h with hend hch
  injection h with h
  refine ⟨h.symm, ?_⟩
  have hlt : p.lit + 1 < (LiteralParser.cStr p.l).length := by
    by_contra hle
    exact hend (by rw [LiteralParser.following, List.getD_eq_default _ _ (by omega)])
  rw [hch, LiteralParser.following, List.getD_eq_getElem _ _ hlt, List.drop_eq_getElem_cons hlt]
  rfl

theorem LiteralParser.result_eq {p : LiteralParser} {s : Scalar} (h : p.result = some s) :
    s = LiteralParser.scalar p.l ∧
      (LiteralParser.cStr p.l).take (p.lit + 1) = LiteralParser.cStr p.l := by
  unfold LiteralParser.result at h
  split_ifs at h with hend
  injection h with h
  refine ⟨h.symm, List.take_of_length_le ?_⟩
  by_contra hlt
  have hmem : p.following ∈ LiteralParser.cStr p.l := by
    rw [LiteralParser.following, List.getD_eq_getElem _ _ (by omega)]
    exact List.getElem_mem _
  rw [hend] at hmem
  revert hmem
  cases p.l <;> decide

theorem lit_reads {p : LiteralParser} {r r' : Record} {b : Bool} {p' : ParserImpl}
    {txt : List UInt8} {ch : UInt8} (hreads : Reads utf (.lit p) r txt)
    (h : parse1 utf (.lit p) r ch = .ok (b, p', r')) : Reads utf p' r' (readAfter b txt ch) := by
  obtain ⟨rfl, ws, tok, hws, rfl, htok⟩ := hreads
  refine scan_reads utf ?_ ?_ h
  · intro q hq
    obtain ⟨rfl, hch⟩ := LiteralParser.next_eq hq
    refine ⟨rfl, ws, tok ++ [ch], hws, by simp, ?_⟩
    rw [List.map_append, htok, List.map_singleton, hch, ← List.take_add]
  · intro s hs
    obtain ⟨rfl, hend⟩ := LiteralParser.result_eq hs
    exact .scalar hws (.literal p.l (by rw [LiteralText, htok, hend]))

theorem num_reads {p : NumberParser} {r r' : Record} {b : Bool} {p' : ParserImpl}
    {txt : List UInt8} {ch : UInt8} (hreads : Reads utf (.num p) r txt)
    (h : parse1 utf (.num p) r ch = .ok (b, p', r')) : Reads utf p' r' (readAfter b txt ch) := by
  obtain ⟨rfl, ws, c, rest, start, hws, rfl, hstart, hrest⟩ := hreads
  refine scan_reads utf ?_ ?_ h
  · intro q hq
    refine ⟨rfl, ws, c, rest ++ [ch], start, hws, by simp, hstart, ?_⟩
    simp [hrest, hq]
  · intro s hs
    exact .scalar hws (.number ⟨c, rest, start, p, rfl, hstart, hrest, hs⟩)

theorem str_reads {p : StringParser} {r r' : Record} {b : Bool} {p' : ParserImpl}
    {txt : List UInt8} {ch : UInt8} (hreads : Reads utf (.str p) r txt)
    (h : parse1 utf (.str p) r ch = .ok (b, p', r')) : Reads utf p' r' (readAfter b txt ch) := by
  obtain ⟨rfl, ws, body, hws, rfl, hbody⟩ := hreads
  by_cases hcloses : p.closes ch
  · simp only [parse1, hcloses, if_true, completeWith] at h
    injection h with h
    obtain ⟨rfl, rfl, rfl⟩ := by simpa using h
    simp only [StringParser.closes, Bool.and_eq_true, Bool.not_eq_true', decide_eq_true_eq]
      at hcloses
    obtain ⟨hescape, rfl⟩ := hcloses
    have htok : StringText utf (chr '"' :: body ++ [chr '"']) p.str :=
      ⟨body, p, rfl, hbody, hescape, rfl⟩
    have hval := Value.scalar hws (ScalarText.string htok)
    simpa [readAfter, reads_done] using hval
  · simp only [parse1, hcloses] at h
    refine scan_reads utf ?_ (by simp) h
    intro q hq
    refine ⟨rfl, ws, body ++ [ch], hws, by simp, ?_⟩
    simp [hbody, hq]

theorem value_of_openArray {pre val w : List UInt8} {cs : List (Key × Record)} {child : Record}
    (hpre : OpenArray utf pre cs) (hval : Value utf val child) (hw : Blanks w) :
    Value utf (pre ++ val ++ w ++ [chr ']']) (.mk [] (cs ++ [(.index cs.length, child)])) := by
  obtain ⟨ws, hws, ⟨rfl, rfl⟩ | ⟨txt, w', htxt, hw', rfl⟩⟩ := hpre
  · simpa using Value.array hws (.one hval) hw
  · simpa using Value.array hws (.snoc htxt hw' hval) hw

theorem openArray_of_openArray {pre val w : List UInt8} {cs : List (Key × Record)}
    {child : Record} (hpre : OpenArray utf pre cs) (hval : Value utf val child) (hw : Blanks w) :
    OpenArray utf (pre ++ val ++ w ++ [chr ',']) (cs ++ [(.index cs.length, child)]) := by
  obtain ⟨ws, hws, ⟨rfl, rfl⟩ | ⟨txt, w', htxt, hw', rfl⟩⟩ := hpre
  · exact ⟨ws, hws, Or.inr ⟨val, w, .one hval, hw, by simp⟩⟩
  · exact ⟨ws, hws, Or.inr ⟨_, w, .snoc htxt hw' hval, hw, by simp⟩⟩

theorem members_of_openObject {pre mem key : List UInt8} {cs : List (Key × Record)}
    {child : Record} (hpre : OpenObject utf pre cs) (hmem : Member utf mem key child) :
    ∃ ws w txt, Skipped ws ∧ Blanks w ∧ Members utf txt (cs ++ [(.name key, child)]) ∧
      pre ++ mem = ws ++ chr '{' :: (w ++ txt) := by
  obtain ⟨ws, w, hws, hw, rfl, rfl⟩ | ⟨ws, w, txt, w', w'', hws, hw, htxt, hw', hw'', rfl⟩ := hpre
  · exact ⟨ws, w, mem, hws, hw, .one hmem, by simp⟩
  · exact ⟨ws, w, _, hws, hw, .snoc htxt hw' hw'' hmem, by simp⟩

section Step

variable {r r' : Record} {b : Bool} {p' : ParserImpl} {txt : List UInt8} {ch : UInt8}

theorem arr_new_reads {index : Nat} (hreads : Reads utf (.arr none index) r txt)
    (h : parse1 utf (.arr none index) r ch = .ok (b, p', r')) :
    Reads utf p' r' (readAfter b txt ch) := by
  obtain ⟨rfl, rfl, ws, hws, rfl⟩ := hreads
  by_cases hclose : ch = chr ']'
  · simp only [parse1, hclose, if_true, Except.ok.injEq, Prod.mk.injEq] at h
    obtain ⟨rfl, rfl, rfl⟩ := h
    have hval : Value utf (ws ++ [chr '[', chr ']']) Record.empty := .emptyArray hws
    simpa [readAfter, hclose, reads_done] using hval
  · simp only [parse1, hclose, if_false] at h
    obtain ⟨q, hq, heq⟩ := map_eq_ok h
    simp only [Prod.mk.injEq] at heq
    obtain ⟨rfl, rfl, rfl⟩ := heq
    have hskipped : Skipped [] := by simp [Skipped]
    have hchild := anyParser_reads utf hskipped hq
    exact ⟨ws ++ [chr '['], [], [ch], [], .empty, ⟨ws, hws, Or.inl ⟨rfl, rfl⟩⟩, rfl, rfl,
      hchild, by simp [Blanks], fun _ => rfl, by simp [readAfter]⟩

theorem arr_done_reads {data : ParserImpl} {index : Nat} (hdata : ¬ data.inProgress)
    (hreads : Reads utf (.arr (some data) index) r txt)
    (h : parse1 utf (.arr (some data) index) r ch = .ok (b, p', r')) :
    Reads utf p' r' (readAfter b txt ch) := by
  obtain ⟨pre, cs, val, w, child, hpre, rfl, rfl, hval, hw, -, rfl⟩ := hreads
  obtain rfl := eq_any_of_not_inProgress hdata
  rw [reads_done] at hval
  rw [parse1, if_neg hdata] at h
  by_cases hclose : ch = chr ']'
  · rw [if_pos hclose] at h
    simp only [Except.ok.injEq, Prod.mk.injEq] at h
    obtain ⟨rfl, rfl, rfl⟩ := h
    simpa [readAfter, hclose, reads_done] using value_of_openArray utf hpre hval hw
  · rw [if_neg hclose] at h
    by_cases hcomma : ch = chr ','
    · rw [if_pos hcomma] at h
      simp only [Except.ok.injEq, Prod.mk.injEq, Record.addChild_mk] at h
      obtain ⟨rfl, rfl, rfl⟩ := h
      refine ⟨_, _, [], [], .empty, openArray_of_openArray utf hpre hval hw, by simp, by simp,
        ⟨rfl, by simp [Skipped]⟩, by simp [Blanks], fun _ => rfl, ?_⟩
      simp [readAfter, hcomma]
    · rw [if_neg hcomma] at h
      obtain ⟨hspace, rfl, rfl, rfl⟩ := skip_eq h
      exact ⟨pre, cs, val, w ++ [ch], child, hpre, rfl, rfl, hval, hw.snoc hspace,
        by simp [ParserImpl.inProgress], by simp [readAfter]⟩

theorem FreshObject.snoc {pre : List UInt8} {cs : List (Key × Record)}
    (h : FreshObject pre cs) (hch : isSpace ch) : FreshObject (pre ++ [ch]) cs := by
  obtain ⟨ws, w, hws, hw, rfl, rfl⟩ := h
  exact ⟨ws, w ++ [ch], hws, hw.snoc hch, by simp, rfl⟩

theorem OpenObject.snoc {pre : List UInt8} {cs : List (Key × Record)}
    (h : OpenObject utf pre cs) (hch : isSpace ch) : OpenObject utf (pre ++ [ch]) cs := by
  obtain hfresh | ⟨ws, w, mems, w', w'', hws, hw, hmems, hw', hw'', rfl⟩ := h
  · exact Or.inl (hfresh.snoc hch)
  · exact Or.inr ⟨ws, w, mems, w', w'' ++ [ch], hws, hw, hmems, hw', hw''.snoc hch, by simp⟩

theorem obj_new_reads {first : Bool} (hreads : Reads utf (.obj none none first) r txt)
    (h : parse1 utf (.obj none none first) r ch = .ok (b, p', r')) :
    Reads utf p' r' (readAfter b txt ch) := by
  obtain ⟨cs, rfl, hopen, hfirst⟩ := hreads
  rw [parse1] at h
  by_cases hclose : first ∧ ch = chr '}'
  · rw [if_pos hclose] at h
    simp only [Except.ok.injEq, Prod.mk.injEq] at h
    obtain ⟨rfl, rfl, rfl⟩ := h
    obtain ⟨ws, w, hws, hw, rfl, rfl⟩ := hfirst hclose.1
    have hval : Value utf _ (.mk [] []) := .emptyObject hws hw
    simpa [readAfter, hclose.2, reads_done] using hval
  · rw [if_neg hclose] at h
    by_cases hquote : ch = chr '"'
    · rw [if_pos hquote] at h
      simp only [Except.ok.injEq, Prod.mk.injEq] at h
      obtain ⟨rfl, rfl, rfl⟩ := h
      exact ⟨rfl, txt, cs, rfl, hopen, [], rfl, by simp [readAfter, hquote]⟩
    · rw [if_neg hquote] at h
      obtain ⟨hspace, rfl, rfl, rfl⟩ := skip_eq h
      exact ⟨cs, rfl, hopen.snoc utf hspace, fun hf => (hfirst hf).snoc hspace⟩

theorem obj_key_reads {key : StringImpl} {first : Bool}
    (hreads : Reads utf (.obj (some key) none first) r txt)
    (h : parse1 utf (.obj (some key) none first) r ch = .ok (b, p', r')) :
    Reads utf p' r' (readAfter b txt ch) := by
  obtain ⟨rfl, pre, cs, rfl, hopen, hkey⟩ := hreads
  rw [parse1] at h
  by_cases hprogress : key.inProgress
  · rw [if_pos hprogress] at h hkey
    obtain ⟨body, hbody, rfl⟩ := hkey
    by_cases hcloses : key.parser.closes ch
    · rw [if_pos hcloses] at h
      simp only [Except.ok.injEq, Prod.mk.injEq] at h
      obtain ⟨rfl, rfl, rfl⟩ := h
      simp only [StringParser.closes, Bool.and_eq_true, Bool.not_eq_true', decide_eq_true_eq]
        at hcloses
      have htok : StringText utf (chr '"' :: body ++ [chr '"']) key.parser.str :=
        ⟨body, key.parser, rfl, hbody, hcloses.1, rfl⟩
      refine ⟨rfl, pre, cs, rfl, hopen, _, [], htok, by simp [Blanks], ?_⟩
      simp [readAfter, hcloses.2]
    · rw [if_neg hcloses] at h
      refine scan_reads utf ?_ (by simp) h
      intro q hq
      refine ⟨rfl, pre, cs, rfl, hopen, body ++ [ch], ?_, by simp⟩
      simp [hbody, hq]
  · rw [if_neg hprogress] at h hkey
    obtain ⟨tok, w, htok, hw, rfl⟩ := hkey
    by_cases hcolon : ch = chr ':'
    · rw [if_pos hcolon] at h
      simp only [Except.ok.injEq, Prod.mk.injEq, Record.addChild_mk] at h
      obtain ⟨rfl, rfl, rfl⟩ := h
      refine ⟨rfl, pre, cs, _, tok, w, [], [], .empty, hopen, rfl, htok, hw, ⟨rfl, by simp [Skipped]⟩,
        by simp [Blanks], fun _ => rfl, ?_⟩
      simp [readAfter, hcolon]
    · rw [if_neg hcolon] at h
      obtain ⟨hspace, rfl, rfl, rfl⟩ := skip_eq h
      refine ⟨rfl, pre, cs, rfl, hopen, ?_⟩
      rw [if_neg hprogress]
      exact ⟨tok, w ++ [ch], htok, hw.snoc hspace, by simp [readAfter]⟩

theorem obj_done_reads {key : StringImpl} {val : ParserImpl} {first : Bool}
    (hval : ¬ val.inProgress) (hreads : Reads utf (.obj (some key) (some val) first) r txt)
    (h : parse1 utf (.obj (some key) (some val) first) r ch = .ok (b, p', r')) :
    Reads utf p' r' (readAfter b txt ch) := by
  obtain ⟨rfl, pre, cs, name, tok, w, v, w', child, hopen, rfl, htok, hw, hv, hw', -, rfl⟩ := hreads
  obtain rfl := eq_any_of_not_inProgress hval
  rw [reads_done] at hv
  obtain ⟨ws, w₀, mems, hws, hw₀, hmems, heq⟩ :=
    members_of_openObject utf hopen (.mk htok hw hv)
  have htxt : pre ++ tok ++ w ++ chr ':' :: v ++ w' = ws ++ chr '{' :: (w₀ ++ mems) ++ w' := by
    rw [← heq]
    simp
  rw [htxt]
  rw [parse1, if_neg hval] at h
  by_cases hclose : ch = chr '}'
  · rw [if_pos hclose] at h
    simp only [Except.ok.injEq, Prod.mk.injEq] at h
    obtain ⟨rfl, rfl, rfl⟩ := h
    simpa [readAfter, hclose, reads_done] using Value.object hws hw₀ hmems hw'
  · rw [if_neg hclose] at h
    by_cases hcomma : ch = chr ','
    · rw [if_pos hcomma] at h
      simp only [Except.ok.injEq, Prod.mk.injEq] at h
      obtain ⟨rfl, rfl, rfl⟩ := h
      refine ⟨_, rfl, Or.inr ⟨ws, w₀, mems, w', [], hws, hw₀, hmems, hw', by simp [Blanks], ?_⟩,
        by simp⟩
      simp [readAfter, hcomma]
    · rw [if_neg hcomma] at h
      obtain ⟨hspace, rfl, rfl, rfl⟩ := skip_eq h
      refine ⟨rfl, pre, cs, name, tok, w, v, w' ++ [ch], child, hopen, rfl, htok, hw, hv,
        hw'.snoc hspace, by simp [ParserImpl.inProgress], ?_⟩
      rw [← htxt]
      simp [readAfter]

end Step

theorem parse1_reads (p : ParserImpl) {r r' : Record} {b : Bool} {p' : ParserImpl}
    {txt : List UInt8} {ch : UInt8} (hprogress : p.inProgress) (hreads : Reads utf p r txt)
    (h : parse1 utf p r ch = .ok (b, p', r')) : Reads utf p' r' (readAfter b txt ch) := by
  match p with
  | .any false => simp [ParserImpl.inProgress] at hprogress
  | .any true =>
    obtain ⟨rfl, htxt⟩ := hreads
    obtain ⟨q, hq, heq⟩ := map_eq_ok h
    simp only [Prod.mk.injEq] at heq
    obtain ⟨rfl, rfl, rfl⟩ := heq
    exact anyParser_reads utf htxt hq
  | .lit p => exact lit_reads utf hreads h
  | .num p => exact num_reads utf hreads h
  | .str p => exact str_reads utf hreads h
  | .arr none index => exact arr_new_reads utf hreads h
  | .arr (some data) index =>
    by_cases hdata : data.inProgress
    · obtain ⟨pre, cs, val, w, child, hpre, rfl, rfl, hval, hw, hempty, rfl⟩ := hreads
      simp only [parse1, hdata, if_true, Record.last_mk] at h
      obtain ⟨⟨b', data', child'⟩, hstep, heq⟩ := map_eq_ok h
      simp only [Prod.mk.injEq, Record.setLast_mk] at heq
      obtain ⟨rfl, rfl, rfl⟩ := heq
      have hval' := parse1_reads data hdata hval hstep
      obtain rfl := hempty hdata
      refine ⟨pre, cs, _, [], child', hpre, rfl, rfl, hval', by simp [Blanks], fun _ => rfl, ?_⟩
      by_cases hb : b' <;> simp [readAfter, hb]
    · exact arr_done_reads utf hdata hreads h
  | .obj none none first => exact obj_new_reads utf hreads h
  | .obj (some key) none first => exact obj_key_reads utf hreads h
  | .obj none (some val) first => exact absurd hreads (by simp [Reads])
  | .obj (some key) (some val) first =>
    by_cases hval : val.inProgress
    · obtain ⟨hfirst, pre, cs, name, tok, w, v, w', child, hopen, rfl, htok, hw, hv, hw', hempty,
        rfl⟩ := hreads
      simp only [parse1, hval, if_true, Record.last_mk] at h
      obtain ⟨⟨b', val', child'⟩, hstep, heq⟩ := map_eq_ok h
      simp only [Prod.mk.injEq, Record.setLast_mk] at heq
      obtain ⟨rfl, rfl, rfl⟩ := heq
      have hv' := parse1_reads val hval hv hstep
      obtain rfl := hempty hval
      refine ⟨hfirst, pre, cs, name, tok, w, _, [], child', hopen, rfl, htok, hw, hv', by simp [Blanks],
        fun _ => rfl, ?_⟩
      by_cases hb : b' <;> simp [readAfter, hb]
    · exact obj_done_reads utf hval hreads h
termination_by p

theorem feed_reads {fuel : Nat} {p : ParserImpl} {r r' : Record} {b : Bool} {p' : ParserImpl}
    {txt : List UInt8} {ch : UInt8} (hprogress : p.inProgress) (hreads : Reads utf p r txt)
    (h : feed utf fuel p r ch = .ok (b, p', r')) : Reads utf p' r' (readAfter b txt ch) := by
  induction fuel generalizing p r with
  | zero => simp [feed] at h
  | succ fuel ih =>
    rw [feed] at h
    cases hstep : parse1 utf p r ch with
    | error e => simp [hstep] at h
    | ok result =>
      obtain ⟨b₁, p₁, r₁⟩ := result
      have hreads₁ := parse1_reads utf p hprogress hreads hstep
      simp only [hstep] at h
      by_cases hdone : b₁ ∨ ¬ p₁.inProgress
      · simp only [hdone, if_true, Except.ok.injEq, Prod.mk.injEq] at h
        obtain ⟨rfl, rfl, rfl⟩ := h
        exact hreads₁
      · simp only [hdone, if_false] at h
        obtain ⟨hb₁, hp₁⟩ := not_or.mp hdone
        simp only [hb₁, readAfter] at hreads₁
        exact ih (not_not.mp hp₁) hreads₁ h

/-- The first character that `any_parser` does not skip opens an array or an object. -/
def OpensContainer (s : List UInt8) : Prop :=
  ∃ ws ch rest, s = ws ++ ch :: rest ∧ Skipped ws ∧ (ch = chr '[' ∨ ch = chr '{')

/-- Where the parser of an array or an object can be before it reads `s`. -/
def Steady (p : ParserImpl) (s : List UInt8) : Prop :=
  (p = .any true ∧ OpensContainer s) ∨ p.container ∨ p = .any false

theorem feed_steady {p : ParserImpl} {r r' : Record} {b : Bool} {p' : ParserImpl} {ch : UInt8}
    {s : List UInt8} (hprogress : p.inProgress) (hp : Steady p (ch :: s))
    (h : feed utf 2 p r ch = .ok (b, p', r')) : b = true ∧ Steady p' s := by
  obtain ⟨rfl, ws, c, rest, heq, hws, hc⟩ | hcontainer | rfl := hp
  · have hany : ∀ q, anyParser ch = .ok q → q.container ∨ (q = .any true ∧ OpensContainer s) →
        b = true ∧ Steady p' s := by
      intro q hq hsteady
      rw [feed_two, parse1, hq] at h
      simp only [Except.map, true_or, if_true, Except.ok.injEq, Prod.mk.injEq] at h
      obtain ⟨rfl, rfl, -⟩ := h
      exact ⟨rfl, hsteady.elim (fun h => Or.inr (Or.inl h)) Or.inl⟩
    cases ws with
    | nil =>
      simp only [List.nil_append, List.cons.injEq] at heq
      obtain ⟨rfl, rfl⟩ := heq
      obtain rfl | rfl := hc
      · exact hany (.arr none 0) rfl (Or.inl rfl)
      · exact hany (.obj none none true) rfl (Or.inl rfl)
    | cons c' ws =>
      simp only [List.cons_append, List.cons.injEq] at heq
      obtain ⟨rfl, rfl⟩ := heq
      have hskip : anyParser ch = .ok (.any true) := by
        rw [anyParser, if_pos (hws ch (by simp))]
      exact hany _ hskip (Or.inr ⟨rfl, ws, c, rest, rfl, fun x hx => hws x (by simp [hx]), hc⟩)
  · obtain ⟨hb, hp'⟩ := feed_container utf hcontainer h
    exact ⟨hb, Or.inr hp'⟩
  · simp [ParserImpl.inProgress] at hprogress

theorem writeLoop_reads {s : List UInt8} {p : ParserImpl} {r r' : Record} {p' : ParserImpl}
    {n : Nat} {txt : List UInt8} (hp : Steady p s) (hreads : Reads utf p r txt)
    (h : writeLoop utf p r s = .ok (p', r', n)) : Reads utf p' r' (txt ++ s.take n) := by
  induction s generalizing p r txt n with
  | nil =>
    simp only [writeLoop, Except.ok.injEq, Prod.mk.injEq] at h
    obtain ⟨rfl, rfl, rfl⟩ := h
    simpa using hreads
  | cons ch s ih =>
    rw [writeLoop] at h
    by_cases hprogress : p.inProgress
    · rw [if_pos hprogress] at h
      cases hfeed : feed utf 2 p r ch with
      | error e => simp [hfeed] at h
      | ok result =>
        obtain ⟨b, p₁, r₁⟩ := result
        simp only [hfeed] at h
        obtain ⟨⟨p₂, r₂, n'⟩, hloop, heq⟩ := map_eq_ok h
        simp only [Prod.mk.injEq] at heq
        obtain ⟨rfl, rfl, rfl⟩ := heq
        have hreads₁ := feed_reads utf hprogress hreads hfeed
        obtain ⟨rfl, hp₁⟩ := feed_steady utf hprogress hp hfeed
        have hreads₂ := ih hp₁ hreads₁ hloop
        simpa [readAfter] using hreads₂
    · rw [if_neg hprogress] at h
      simp only [Except.ok.injEq, Prod.mk.injEq] at h
      obtain ⟨rfl, rfl, rfl⟩ := h
      simpa using hreads

end Soundness

/-- What the parser accepts as an array or an object is derived by the grammar, and the
adapter was told of it what the grammar says. -/
theorem json_parser_sound (utf : Nat → List UInt8) {s : List UInt8} {p : ParserImpl}
    {r : Record} {n : Int} (hopens : OpensContainer s)
    (hwrite : write utf (.any true) .empty s = .ok (p, r, n)) (hdone : ¬ p.inProgress) :
    Value utf (s.take n.toNat) r := by
  have hprogress : (ParserImpl.any true).inProgress := rfl
  rw [write, if_pos hprogress] at hwrite
  obtain ⟨⟨p', r', n'⟩, hloop, heq⟩ := map_eq_ok hwrite
  simp only [Prod.mk.injEq] at heq
  obtain ⟨rfl, rfl, rfl⟩ := heq
  have hstart : Reads utf (.any true) .empty [] := ⟨rfl, by simp [Skipped]⟩
  have hreads := writeLoop_reads utf (Or.inl ⟨rfl, hopens⟩) hstart hloop
  rw [eq_any_of_not_inProgress hdone, reads_done] at hreads
  simpa using hreads

/-- A text after an array is not read. -/
theorem json_parser_sound_of_array :
    Value (fun _ => []) (octets "[1, \x7b\"a\" :null\x7d]")
      (.mk [] [(.index 0, .mk [.long 1] []),
        (.index 1, .mk [] [(.name (octets "a"), .mk [.null] [])])]) :=
  json_parser_sound (fun _ => []) (s := octets "[1, \x7b\"a\" :null\x7d] 2")
    ⟨[], chr '[', octets "1, \x7b\"a\" :null\x7d] 2", rfl, by simp [Skipped], Or.inl rfl⟩
    (p := .any false) (n := 16) rfl (by simp [ParserImpl.inProgress])

end Json

end Acqua
