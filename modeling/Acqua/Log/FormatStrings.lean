import Acqua.Library.Splits
import Acqua.Log.Formatter

/-! Format strings that are put together from literal characters and directives, and what their
directives leave to those that follow. -/

namespace Acqua

namespace Log

/-- A literal character, or a directive with its flag, the digits of its width and its letter. -/
inductive Item
  | text (ch : UInt8) (hch : ch ≠ chr '%')
  | directive (left : Bool) (width : List UInt8) (ch : UInt8) (hwidth : ∀ d ∈ width, isdigit d)
      (hch : ¬ isdigit ch) (hflag : ch = chr '-' → left = true ∨ width ≠ [])

namespace Item

def chars : Item → List UInt8
  | text ch _ => [ch]
  | directive left width ch _ _ _ =>
    chr '%' :: (if left then [chr '-'] else []) ++ width ++ [ch]

/-- A directive that the `switch` has no case for. -/
def Unknown : Item → Prop
  | text _ _ => False
  | directive _ _ ch _ _ _ => Log.directive ch = none

theorem chars_ne_nil (item : Item) : item.chars ≠ [] := by
  cases item <;> simp [chars]

end Item

/-- A format string that ends behind a directive or a literal character. -/
def chars (items : List Item) : List UInt8 := items.flatMap Item.chars

/-- Nothing, or a `%` with what belongs to a directive and without its letter. -/
def Unfinished (fmt : List UInt8) : Prop :=
  fmt = [] ∨ ∃ (left : Bool) (width : List UInt8), (∀ d ∈ width, isdigit d) ∧
    fmt = chr '%' :: ((if left then [chr '-'] else []) ++ width)

theorem directive_or_unfinished (fmt : List UInt8) :
    (∃ (item : Item) (behind : List UInt8), chr '%' :: fmt = item.chars ++ behind) ∨
      Unfinished (chr '%' :: fmt) := by
  obtain ⟨left, letter, rfl, hleft⟩ : ∃ (left : Bool) (letter : List UInt8),
      fmt = (if left then [chr '-'] else []) ++ letter ∧
        (letter.head? = some (chr '-') → left = true) := by
    by_cases hflag : fmt.head? = some (chr '-')
    · obtain ⟨letter, rfl⟩ := List.head?_eq_some_iff.mp hflag
      exact ⟨true, letter, rfl, fun _ => rfl⟩
    · exact ⟨false, fmt, rfl, fun h => absurd h hflag⟩
  have hsplit := List.takeWhile_append_dropWhile (p := isdigit) (l := letter)
  have hwidth : ∀ d ∈ letter.takeWhile isdigit, isdigit d = true := fun d hd =>
    List.mem_takeWhile_imp hd
  cases hbehind : letter.dropWhile isdigit with
  | nil =>
    rw [hbehind, List.append_nil] at hsplit
    exact .inr (.inr ⟨left, letter, hsplit ▸ hwidth, rfl⟩)
  | cons ch behind =>
    rw [hbehind] at hsplit
    have hch : ¬ isdigit ch = true := by
      have hhead := List.head?_dropWhile_not isdigit letter
      rw [hbehind] at hhead
      simpa using hhead
    have hflag : ch = chr '-' → left = true ∨ letter.takeWhile isdigit ≠ [] := by
      rintro rfl
      by_cases hnil : letter.takeWhile isdigit = []
      · rw [hnil] at hsplit
        exact .inl (hleft (congrArg List.head? hsplit).symm)
      · exact .inr hnil
    refine .inl ⟨.directive left (letter.takeWhile isdigit) ch hwidth hch hflag, behind, ?_⟩
    simp only [Item.chars, List.cons_append, List.append_assoc, List.nil_append, hsplit]

/-- Every format string is put together from items. -/
theorem exists_items (fmt : List UInt8) :
    ∃ items rest, fmt = chars items ++ rest ∧ Unfinished rest := by
  induction hn : fmt.length using Nat.strong_induction_on generalizing fmt with
  | _ n ih =>
    have hcons : ∀ (item : Item) (behind : List UInt8), fmt = item.chars ++ behind →
        ∃ items rest, fmt = chars items ++ rest ∧ Unfinished rest := by
      intro item behind heq
      have hlength := congrArg List.length heq
      rw [List.length_append] at hlength
      have hpos := List.length_pos_iff.mpr item.chars_ne_nil
      obtain ⟨items, rest, hbehind, hrest⟩ := ih behind.length (by omega) behind rfl
      refine ⟨item :: items, rest, ?_, hrest⟩
      rw [heq, hbehind, chars, chars, List.flatMap_cons, List.append_assoc]
    cases fmt with
    | nil => exact ⟨[], [], rfl, .inl rfl⟩
    | cons ch fmt =>
      by_cases hch : ch = chr '%'
      · subst hch
        rcases directive_or_unfinished fmt with ⟨item, behind, heq⟩ | hunfinished
        · exact hcons item behind heq
        · exact ⟨[], _, rfl, hunfinished⟩
      · exact hcons (.text ch hch) fmt rfl

section Scan

variable (r : Buffer) (now : Moment)

/-- What one item does to the stream if `next` stands behind it. -/
def itemOps (item : Item) (next : UInt8) : List Op :=
  match item with
  | .text ch _ => [.write [ch]]
  | .directive left width ch _ _ _ =>
    .write [] :: (if left then [.left] else []) ++ widthOps width ++ letterOps r now ch next

def itemsOps : List Item → List UInt8 → List Op
  | [], _ => []
  | item :: items, rest =>
    itemOps r now item ((chars items ++ rest).headD 0) ++ itemsOps items rest

/-- What `format` does from `%` on. -/
def percentOps : List UInt8 → List Op
  | [] => []
  | _ :: rest =>
    let left := decide (rest.head? = some (chr '-'))
    let rest := if left then rest.tail else rest
    (if left then [.left] else []) ++ widthOps (rest.takeWhile isdigit) ++
      match rest.dropWhile isdigit with
      | [] => []
      | ch :: rest => letterOps r now ch (rest.headD 0) ++ scan r now rest

theorem scan_eq (fmt : List UInt8) : scan r now fmt =
    .write (fmt.takeWhile fun ch => ch ≠ chr '%') ::
      percentOps r now (fmt.dropWhile fun ch => ch ≠ chr '%') := by
  rw [scan]
  split
  next h => rw [h, percentOps]
  next percent rest h =>
    rw [h, percentOps]
    dsimp only
    generalize (if decide (rest.head? = some (chr '-')) then rest.tail else rest) = letter
    generalize List.dropWhile isdigit letter = behind
    cases behind with
    | nil => rfl
    | cons ch rest => rfl

theorem scan_nil : scan r now [] = [.write []] := by
  rw [scan_eq]
  rfl

theorem scan_text {ch : UInt8} (hch : ch ≠ chr '%') (rest : List UInt8) : ∃ text ops,
    scan r now rest = .write text :: ops ∧
      scan r now (ch :: rest) = .write (ch :: text) :: ops := by
  refine ⟨_, _, scan_eq r now rest, ?_⟩
  rw [scan_eq, List.takeWhile_cons_of_pos (by simpa using hch),
    List.dropWhile_cons_of_pos (by simpa using hch)]

theorem scan_percent (rest : List UInt8) :
    scan r now (chr '%' :: rest) = .write [] :: percentOps r now (chr '%' :: rest) := by
  rw [scan_eq, List.takeWhile_cons_of_neg (by simp), List.dropWhile_cons_of_neg (by simp)]

theorem percentOps_letter {left : Bool} {width : List UInt8} {ch : UInt8}
    (hwidth : ∀ d ∈ width, isdigit d) (hch : ¬ isdigit ch)
    (hflag : ch = chr '-' → left = true ∨ width ≠ []) (rest : List UInt8) :
    percentOps r now (chr '%' :: ((if left then [chr '-'] else []) ++ (width ++ ch :: rest))) =
      (if left then [.left] else []) ++ widthOps width ++
        (letterOps r now ch (rest.headD 0) ++ scan r now rest) := by
  have hhead : left = false → (width ++ ch :: rest).head? ≠ some (chr '-') := by
    intro hleft heq
    cases width with
    | nil =>
      rcases hflag (Option.some.inj heq) with htrue | hwidth'
      · exact absurd (hleft.symm.trans htrue) Bool.false_ne_true
      · exact hwidth' rfl
    | cons d width =>
      have hd := hwidth d List.mem_cons_self
      rw [Option.some.inj heq] at hd
      exact absurd hd (by decide)
  cases left with
  | true =>
    simp only [percentOps, if_true, List.singleton_append, List.head?_cons, decide_true,
      List.tail_cons, takeWhile_run hwidth hch, dropWhile_run hwidth hch]
  | false =>
    simp only [percentOps, Bool.false_eq_true, if_false, List.nil_append, hhead rfl, decide_false,
      takeWhile_run hwidth hch, dropWhile_run hwidth hch]

theorem scan_unfinished {fmt : List UInt8} (h : Unfinished fmt) :
    ∃ (left : Bool) (width : List UInt8),
      scan r now fmt = .write [] :: (if left then [.left] else []) ++ widthOps width := by
  rcases h with rfl | ⟨left, width, hwidth, rfl⟩
  · exact ⟨false, [], scan_nil r now⟩
  · refine ⟨left, width, ?_⟩
    have hhead : width.head? ≠ some (chr '-') := by
      intro heq
      exact absurd (hwidth _ (List.mem_of_mem_head? heq)) (by decide)
    have htake : width.takeWhile isdigit = width := List.takeWhile_eq_self_iff.mpr hwidth
    have hdrop : width.dropWhile isdigit = [] := List.dropWhile_eq_nil_iff.mpr hwidth
    rw [scan_percent]
    cases left with
    | true =>
      simp only [percentOps, if_true, List.head?_cons, decide_true, List.tail_cons,
        List.nil_append, htake, hdrop, List.append_nil, List.cons_append]
    | false =>
      simp only [percentOps, Bool.false_eq_true, if_false, List.nil_append, hhead, decide_false,
        htake, hdrop, List.append_nil, List.cons_append]

/-- Operations that write the same and leave the same settings. -/
def Same (ops ops' : List Op) : Prop :=
  ∀ s, output ops s = output ops' s ∧ after ops s = after ops' s

theorem Same.append_left {ops ops' : List Op} (h : Same ops ops') (first : List Op) :
    Same (first ++ ops) (first ++ ops') := by
  intro s
  obtain ⟨houtput, hafter⟩ := h (after first s)
  rw [output_append, output_append, after_append, after_append, houtput, hafter]
  exact ⟨rfl, rfl⟩

theorem same_write (text text' : List UInt8) (ops : List Op) :
    Same (.write (text ++ text') :: ops) ([.write text] ++ .write text' :: ops) := by
  intro s
  refine ⟨?_, rfl⟩
  rw [output_append, output_cons, output_cons, output_cons]
  cases hs : s.good <;> simp [StreamOp.emit, hs, output, texts, after]

/-- A directive at the beginning of a format string does its own, and the rest what it does
alone. -/
theorem scan_item (item : Item) (rest : List UInt8) :
    Same (scan r now (item.chars ++ rest))
      (itemOps r now item (rest.headD 0) ++ scan r now rest) := by
  cases item with
  | text ch hch =>
    obtain ⟨text, ops, hrest, hall⟩ := scan_text r now hch rest
    intro s
    change output (scan r now (ch :: rest)) s = _ ∧ after (scan r now (ch :: rest)) s = _
    rw [hall, hrest]
    exact same_write [ch] text ops s
  | directive left width ch hwidth hch hflag =>
    have hchars : (Item.directive left width ch hwidth hch hflag).chars ++ rest =
        chr '%' :: ((if left then [chr '-'] else []) ++ (width ++ ch :: rest)) := by
      simp only [Item.chars, List.cons_append, List.append_assoc, List.nil_append]
    intro s
    rw [hchars, scan_percent, percentOps_letter r now hwidth hch hflag]
    simp only [itemOps, List.cons_append, List.append_assoc, and_self]

theorem scan_items (items : List Item) (rest : List UInt8) :
    Same (scan r now (chars items ++ rest)) (itemsOps r now items rest ++ scan r now rest) := by
  induction items with
  | nil => exact fun s => ⟨rfl, rfl⟩
  | cons item items ih =>
    intro s
    obtain ⟨houtput, hafter⟩ := scan_item r now item (chars items ++ rest) s
    obtain ⟨houtput', hafter'⟩ :=
      ih.append_left (itemOps r now item ((chars items ++ rest).headD 0)) s
    rw [chars, List.flatMap_cons, List.append_assoc, itemsOps, List.append_assoc]
    exact ⟨houtput.trans houtput', hafter.trans hafter'⟩

theorem itemOps_of_known {item : Item} (h : ¬ item.Unknown) (next next' : UInt8) :
    itemOps r now item next = itemOps r now item next' := by
  cases item with
  | text ch hch => rfl
  | directive left width ch hwidth hch hflag =>
    obtain ⟨d, hd⟩ := Option.ne_none_iff_exists'.mp h
    simp only [itemOps, letterOps, hd]

theorem itemOps_of_unknown {item : Item} (h : item.Unknown) :
    ∃ ops, ∀ next, itemOps r now item next =
      ops ++ [StreamOp.insert [chr '%']] ++ [StreamOp.insert [next]] := by
  cases item with
  | text ch hch => exact absurd h id
  | directive left width ch hwidth hch hflag =>
    have hnone : directive ch = none := h
    refine ⟨.write [] :: (if left then [.left] else []) ++ widthOps width, fun next => ?_⟩
    simp only [itemOps, letterOps, hnone, List.append_assoc, List.cons_append, List.nil_append]

theorem itemsOps_append (init : List Item) (item : Item) (rest : List UInt8) :
    itemsOps r now (init ++ [item]) rest =
      itemsOps r now init item.chars ++ itemOps r now item (rest.headD 0) := by
  induction init with
  | nil => exact List.append_nil _
  | cons first init ih =>
    obtain ⟨ch, text, hchars⟩ := List.exists_cons_of_ne_nil item.chars_ne_nil
    have hhead : (chars (init ++ [item]) ++ rest).headD 0 =
        (chars init ++ item.chars).headD 0 := by
      rw [chars, List.flatMap_append, List.flatMap_singleton, hchars]
      cases hinit : chars init with
      | nil =>
        rw [chars] at hinit
        rw [hinit]
        rfl
      | cons ch' text' =>
        rw [chars] at hinit
        rw [hinit]
        rfl
    rw [List.cons_append, itemsOps, ih, itemsOps, hhead, List.append_assoc]

/-- The last directive is one that there is no case for. -/
def EndsUnknown (items : List Item) : Prop := ∃ init item, items = init ++ [item] ∧ item.Unknown

theorem itemsOps_of_known {items : List Item} (h : ¬ EndsUnknown items) (rest : List UInt8) :
    itemsOps r now items rest = itemsOps r now items [] := by
  rcases List.eq_nil_or_concat items with rfl | ⟨init, item, rfl⟩
  · rfl
  · have hitem : ¬ item.Unknown := fun hunknown =>
      h ⟨init, item, List.concat_eq_append, hunknown⟩
    rw [List.concat_eq_append, itemsOps_append, itemsOps_append,
      itemOps_of_known r now hitem (rest.headD 0)]

theorem itemsOps_of_unknown {items : List Item} (h : EndsUnknown items) : ∃ ops, ∀ rest,
    itemsOps r now items rest =
      ops ++ [StreamOp.insert [chr '%']] ++ [StreamOp.insert [rest.headD 0]] := by
  obtain ⟨init, item, rfl, hunknown⟩ := h
  obtain ⟨ops, hops⟩ := itemOps_of_unknown r now hunknown
  refine ⟨itemsOps r now init item.chars ++ ops, fun rest => ?_⟩
  rw [itemsOps_append, hops]
  simp only [List.append_assoc]

end Scan

section Compose

variable (r : Buffer) (now : Moment)

/-- What the stream is left with behind a format string. -/
def leftBy (fmt : List UInt8) : OutputState UInt8 := after (scan r now fmt) (fresh r)

theorem output_write_nil (s : OutputState UInt8) : output [.write []] s = [] := by
  simp [output, texts, StreamOp.emit]

/-- A character behind one that was inserted is not padded. -/
theorem insert_insert (ops : List Op) (ch next : UInt8) (s : OutputState UInt8) :
    output (ops ++ [StreamOp.insert [ch]] ++ [StreamOp.insert [next]]) s =
        output (ops ++ [StreamOp.insert [ch]]) s ++
          (if (after (ops ++ [StreamOp.insert [ch]]) s).good then [next] else []) ∧
      after (ops ++ [StreamOp.insert [ch]] ++ [StreamOp.insert [next]]) s =
        after (ops ++ [StreamOp.insert [ch]]) s := by
  have hwidth : (after (ops ++ [StreamOp.insert [ch]]) s).good = true →
      (after (ops ++ [StreamOp.insert [ch]]) s).width = 0 := by
    rw [after_append]
    exact width_after_insert [ch] (after ops s)
  generalize hstate : after (ops ++ [StreamOp.insert [ch]]) s = state at hwidth
  have hemit : (StreamOp.insert [next]).emit state =
      (if state.good then [next] else [], state) := by
    cases hgood : state.good with
    | false => simp [StreamOp.emit, hgood]
    | true => exact emit_insert_of_zero hgood (hwidth hgood) [next]
  refine ⟨?_, ?_⟩
  · rw [output_append _ [StreamOp.insert [next]], hstate, output_cons, hemit]
    exact congrArg _ (List.append_nil _)
  · rw [after_append _ [StreamOp.insert [next]], hstate]
    exact congrArg Prod.snd hemit

theorem format_chars (items : List Item) :
    format r now (chars items) = output (itemsOps r now items []) (fresh r) := by
  obtain ⟨halone, -⟩ := scan_items r now items [] (fresh r)
  rw [List.append_nil, scan_nil, output_append, output_write_nil, List.append_nil] at halone
  exact halone

theorem format_append_iff (items : List Item) (rest : List UInt8) :
    format r now (chars items ++ rest) = format r now (chars items) ++ format r now rest ↔
      (EndsUnknown items → (leftBy r now (chars items)).good = true → rest.headD 0 = 0) ∧
        output (scan r now rest) (leftBy r now (chars items)) =
          output (scan r now rest) (fresh r) := by
  obtain ⟨-, hleft⟩ := scan_items r now items [] (fresh r)
  rw [List.append_nil, scan_nil, after_append] at hleft
  change leftBy r now (chars items) = after (itemsOps r now items []) (fresh r) at hleft
  obtain ⟨hjoined, -⟩ := scan_items r now items rest (fresh r)
  rw [output_append] at hjoined
  rw [format_chars, format, format, hjoined]
  by_cases hunknown : EndsUnknown items
  · obtain ⟨ops, hops⟩ := itemsOps_of_unknown r now hunknown
    obtain ⟨houtput, hafter⟩ := insert_insert ops (chr '%') (rest.headD 0) (fresh r)
    obtain ⟨houtput', hafter'⟩ := insert_insert ops (chr '%') 0 (fresh r)
    rw [hops, List.headD_nil, hafter'] at hleft
    rw [hops, hops, List.headD_nil, houtput, houtput', hafter, ← hleft, List.append_assoc,
      List.append_assoc, List.append_cancel_left_eq]
    cases hgood : (leftBy r now (chars items)).good with
    | true => simp [hunknown]
    | false => simp
  · rw [itemsOps_of_known r now hunknown, ← hleft, List.append_cancel_left_eq]
    exact (and_iff_right fun h => absurd h hunknown).symm

theorem format_text {text : List UInt8} (htext : chr '%' ∉ text) : format r now text = text := by
  have hall : ∀ ch ∈ text, decide (ch ≠ chr '%') = true := by
    intro ch hch
    rw [decide_eq_true_iff]
    rintro rfl
    exact htext hch
  rw [format, scan_eq, List.takeWhile_eq_self_iff.mpr hall, List.dropWhile_eq_nil_iff.mpr hall]
  exact List.append_nil text

/-- The character behind the letter is written in its place, and then once more. -/
theorem format_unknown {ch : UInt8} (hnone : directive ch = none) (hdigit : ¬ isdigit ch)
    (hflag : ch ≠ chr '-') (behind : List UInt8) :
    format r now (chr '%' :: ch :: behind) =
      chr '%' :: behind.headD 0 :: format r now behind := by
  have hitem := scan_item r now
    (.directive false [] ch (by simp) hdigit fun h => absurd h hflag) behind (fresh r)
  have hchars : (Item.directive false [] ch (by simp) hdigit fun h => absurd h hflag).chars ++
      behind = chr '%' :: ch :: behind := rfl
  rw [hchars] at hitem
  rw [format, hitem.1, output_append]
  simp only [itemOps, letterOps, hnone]
  rfl

end Compose

end Log

end Acqua
