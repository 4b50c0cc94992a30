import Acqua.Log.FormatStrings

/-! What the flags, widths and directives of a format string leave to one that follows it, and when
the two write what each does alone. -/

namespace Acqua

namespace Log

namespace Item

/-- The flag `-`, which is never taken back. -/
def left : Item → Bool
  | text _ _ => false
  | directive left _ _ _ _ _ => left

/-- `%0n`, `%U` and `%u` set a fill character that is never taken back. -/
def zero : Item → Bool
  | text _ _ => false
  | directive _ width ch _ _ _ =>
    match Log.directive ch with
    | some .millisecond | some .microsecond => true
    | _ => decide (width.head? = some (chr '0'))

/-- `%v`. -/
def message : Item → Bool
  | text _ _ => false
  | directive _ _ ch _ _ _ =>
    match Log.directive ch with
    | some .loggerMessage => true
    | _ => false

/-- The width that a directive sets for its own text. -/
def width : Item → Option Nat
  | text _ _ => none
  | directive _ width ch _ _ _ =>
    match Log.directive ch with
    | some .millisecond => some 3
    | some .microsecond => some 6
    | _ => if width = [] then none else some (width.foldl nextWidth 0).toNat

end Item

def fillOf (items : List Item) : UInt8 := if items.any Item.zero then chr '0' else chr ' '

def messages (items : List Item) : Nat := items.countP Item.message

section Settings

variable (r : Buffer) (now : Moment)

/-- The text of a directive that is padded. None is where it writes nothing, or past the stream. -/
def Item.padded : Item → Option (List UInt8)
  | .text _ _ => none
  | .directive _ _ ch _ _ _ =>
    match Log.directive ch with
    | none => some [chr '%']
    | some d => (replace r now d).findSome? StreamOp.inserted

/-- The width that waits for the next text that is padded. -/
def widthLeft (items : List Item) : Nat :=
  items.foldl (fun w item => if (item.padded r now).isSome then 0 else item.width.getD w) 0

/-- The width of an item's text behind others. -/
def widthAt (before : List Item) (item : Item) : Nat := item.width.getD (widthLeft r now before)

/-- `%v` stands where there is no message, or none any more: the stream has failed. -/
def Failed (items : List Item) : Prop := (if r.buffer = [] then 0 else 1) < messages items

/-- What a stream has that items were written to. -/
structure LeftBy (items : List Item) (s : OutputState UInt8) : Prop where
  fill : s.fill = fillOf items
  left : s.left = items.any Item.left
  good : s.good = true ↔ ¬ Failed r items
  width : s.good = true → s.width = widthLeft r now items
  buffer : s.good = true → s.buffer = if messages items = 0 then r.buffer else []

/-- An item's text has the same width behind `before` and behind `alone`, and where that is more
than the text needs, the fill character and the side it is put on are the same. -/
def PadsAlike (before alone : List Item) (item : Item) (text : List UInt8) : Prop :=
  max text.length (widthAt r now before item) = max text.length (widthAt r now alone item) ∧
    (widthAt r now before item ≤ text.length ∨
      fillOf (before ++ [item]) = fillOf (alone ++ [item]) ∧
        ((before ++ [item]).any Item.left = (alone ++ [item]).any Item.left ∨
          ∀ ch ∈ text, ch = fillOf (before ++ [item])))

/-- All that an item writes goes past the stream. -/
def PastStream (alone : List Item) (item : Item) : Prop :=
  match item with
  | .text _ _ => False
  | .directive _ _ _ _ _ _ =>
    (∀ text, item.padded r now = some text → text = [] ∧ widthAt r now alone item = 0) ∧
      (item.message = true → r.buffer = [] ∨ messages alone ≠ 0)

/-- `item` writes the same behind `before`, which ends in `alone`, and behind `alone`. -/
def Alike (before alone : List Item) (item : Item) : Prop :=
  Failed r alone ∨
    Failed r before ∧ PastStream r now alone item ∨
    ¬ Failed r before ∧ (∀ text, item.padded r now = some text →
      PadsAlike r now before alone item text) ∧
      (item.message = true → (messages before = 0 ↔ messages alone = 0))

/-- No character of `rest` takes the place of one behind an unknown directive, and each directive
of `rest` writes the same behind `items` as without them. -/
def Composes (items : List Item) (rest : List UInt8) : Prop :=
  (EndsUnknown items → ¬ Failed r items → rest.headD 0 = 0) ∧
    ∀ init item behind, rest = chars init ++ (item.chars ++ behind) →
      Alike r now (items ++ init) init item

/-- Both have a message to insert, and a width that the first leaves may make up for it. -/
def MakesUp (items : List Item) (rest : List UInt8) : Prop :=
  ¬ Failed r items ∧ messages items ≠ 0 ∧ widthLeft r now items ≠ 0 ∧
    ∃ (init : List Item) (item : Item) (behind : List UInt8),
      rest = chars init ++ (item.chars ++ behind) ∧ item.message = true

/-- The settings that an item's text is padded with. -/
def Item.settings (item : Item) (s : OutputState UInt8) : OutputState UInt8 :=
  { s with
    fill := if item.zero then chr '0' else s.fill
    left := s.left || item.left
    width := item.width.getD s.width }

theorem getD_width (width : List UInt8) (n w : Nat) :
    (if width = [] then none else some n).getD w = if width = [] then w else n := by
  split_ifs <;> rfl

/-- The flag and the digits of a directive write nothing. -/
theorem after_flags (left : Bool) (width : List UInt8) (s : OutputState UInt8) :
    after (.write [] :: (if left then [.left] else []) ++ widthOps width) s =
      { s with
        fill := if width.head? = some (chr '0') then chr '0' else s.fill
        left := s.left || left
        width := if width = [] then s.width else (width.foldl nextWidth 0).toNat } := by
  cases left <;> cases width with
  | nil => simp [after, widthOps, StreamOp.emit]
  | cons d width =>
    by_cases hd : d = chr '0'
    · simp [after, widthOps, StreamOp.emit, hd]
    · simp [after, widthOps, StreamOp.emit, hd]

theorem texts_flags (left : Bool) (width : List UInt8) (s s' : OutputState UInt8) :
    texts (.write [] :: (if left then [.left] else []) ++ widthOps width) s =
      texts (.write [] :: (if left then [.left] else []) ++ widthOps width) s' := by
  cases left <;> cases width with
  | nil => simp [texts, widthOps, StreamOp.emit]
  | cons d width =>
    by_cases hd : d = chr '0'
    · simp [texts, widthOps, StreamOp.emit, hd]
    · simp [texts, widthOps, StreamOp.emit, hd]

/-- What an item leaves of any stream. -/
theorem after_itemOps (item : Item) (next : UInt8) (s : OutputState UInt8) :
    (after (itemOps r now item next) s).fill = (item.settings s).fill ∧
      (after (itemOps r now item next) s).left = (item.settings s).left ∧
      ((after (itemOps r now item next) s).good = true ↔
        s.good = true ∧ (item.message = true → s.buffer ≠ [])) ∧
      (s.good = true → (after (itemOps r now item next) s).width =
        if (item.padded r now).isSome then 0 else (item.settings s).width) ∧
      (s.good = true →
        (after (itemOps r now item next) s).buffer = if item.message then [] else s.buffer) := by
  cases item with
  | text ch hch => simp [itemOps, after, StreamOp.emit, Item.settings, Item.zero, Item.left,
      Item.message, Item.padded, Item.width]
  | directive left width ch hwidth hch hflag =>
    rw [itemOps, after_append, after_flags]
    cases hd : directive ch with
    | none =>
      cases hs : s.good <;>
        simp [letterOps, after, StreamOp.emit, Item.settings, Item.zero, Item.left, Item.message,
          Item.padded, hd]
    | some d =>
      cases hs : s.good <;> cases d <;>
        simp [letterOps, after, StreamOp.emit, Item.settings, Item.zero, Item.left, Item.message,
          Item.padded, Item.width, hd, getD_width, replace, StreamOp.inserted]

/-- On two streams that are good, an item writes the same if its text is padded to the same and
the message is the same. -/
theorem texts_itemOps_iff {s s' : OutputState UInt8} (hs : s.good = true) (hs' : s'.good = true)
    (item : Item) (next : UInt8) :
    texts (itemOps r now item next) s = texts (itemOps r now item next) s' ↔
      (∀ text, item.padded r now = some text →
        (item.settings s).pad text = (item.settings s').pad text) ∧
        (item.message = true → s.buffer = s'.buffer) := by
  cases item with
  | text ch hch => simp [itemOps, texts, StreamOp.emit, Item.message, Item.padded, hs, hs']
  | directive left width ch hwidth hch hflag =>
    rw [itemOps, texts_append_eq_iff, and_iff_right (texts_flags left width s s'), after_flags,
      after_flags]
    cases hd : directive ch with
    | none =>
      simp [letterOps, texts, StreamOp.emit, Item.settings, Item.zero, Item.left, Item.message,
        Item.padded, Item.width, hd, hs, hs', getD_width, pad_of_zero]
    | some d =>
      cases d <;>
        simp [letterOps, texts, StreamOp.emit, Item.settings, Item.zero, Item.left, Item.message,
          Item.padded, Item.width, hd, hs, hs', getD_width, replace, StreamOp.inserted,
          List.findSome?, pad_of_zero]

/-- Where the first of two streams has failed, an item writes the same if what it writes on the
other goes past the stream. -/
theorem texts_itemOps_failed_iff {s s' : OutputState UInt8} (hs : s.good = false)
    (hs' : s'.good = true) (item : Item) (next : UInt8) :
    texts (itemOps r now item next) s = texts (itemOps r now item next) s' ↔
      match item with
      | .text _ _ => False
      | .directive _ _ _ _ _ _ =>
        (∀ text, item.padded r now = some text → (item.settings s').pad text = []) ∧
          (item.message = true → s'.buffer = []) := by
  cases item with
  | text ch hch => simp [itemOps, texts, StreamOp.emit, hs, hs']
  | directive left width ch hwidth hch hflag =>
    rw [itemOps, texts_append_eq_iff, and_iff_right (texts_flags left width s s'), after_flags,
      after_flags]
    cases hd : directive ch with
    | none =>
      simp [letterOps, texts, StreamOp.emit, Item.settings, Item.zero, Item.left, Item.message,
        Item.padded, Item.width, hd, hs, hs', getD_width, pad_eq_nil_iff]
    | some d =>
      cases d <;>
        simp [letterOps, texts, StreamOp.emit, Item.settings, Item.zero, Item.left, Item.message,
          Item.padded, Item.width, hd, hs, hs', getD_width, replace, StreamOp.inserted,
          List.findSome?, pad_eq_nil_iff]

theorem messages_append (items items' : List Item) :
    messages (items ++ items') = messages items + messages items' := List.countP_append

theorem messages_singleton (item : Item) : messages [item] = if item.message then 1 else 0 :=
  List.countP_singleton

theorem LeftBy.item {before : List Item} {s : OutputState UInt8} (h : LeftBy r now before s)
    (item : Item) (next : UInt8) :
    LeftBy r now (before ++ [item]) (after (itemOps r now item next) s) := by
  obtain ⟨hfill, hleft, hgood, hwidth, hbuffer⟩ := after_itemOps r now item next s
  have hmessages : messages (before ++ [item]) =
      messages before + if item.message then 1 else 0 := by
    rw [messages_append, messages_singleton]
  refine ⟨?_, ?_, ?_, fun hs => ?_, fun hs => ?_⟩
  · rw [hfill, Item.settings, h.fill, fillOf, fillOf, List.any_append]
    cases hzero : item.zero <;> simp [hzero]
  · rw [hleft, Item.settings, h.left, List.any_append]
    simp
  · rw [hgood]
    cases hmessage : item.message with
    | false => simp [h.good, Failed, hmessages, hmessage]
    | true =>
      have hthis : s.good = true → (s.buffer ≠ [] ↔ ¬ Failed r (before ++ [item])) := by
        intro hs
        have hbefore := h.good.mp hs
        rw [Failed] at hbefore
        rw [h.buffer hs, Failed, hmessages, hmessage, if_pos rfl]
        by_cases hempty : r.buffer = []
        · simp [hempty]
        · by_cases hnone : messages before = 0
          · simp [hempty, hnone]
          · simp only [hempty, hnone, if_false] at hbefore ⊢
            simp
            omega
      constructor
      · rintro ⟨hs, hbuffer⟩
        exact (hthis hs).mp (hbuffer rfl)
      · intro hnot
        have hs : s.good = true := by
          refine h.good.mpr fun hfailed => hnot ?_
          rw [Failed] at hfailed ⊢
          omega
        exact ⟨hs, fun _ => (hthis hs).mpr hnot⟩
  · rw [hwidth (hgood.mp hs).1, Item.settings, h.width (hgood.mp hs).1, widthLeft, widthLeft,
      List.foldl_append]
    rfl
  · rw [hbuffer (hgood.mp hs).1, h.buffer (hgood.mp hs).1, hmessages]
    cases item.message <;> simp

theorem LeftBy.items {before : List Item} {s : OutputState UInt8} (h : LeftBy r now before s)
    (items : List Item) (rest : List UInt8) :
    LeftBy r now (before ++ items) (after (itemsOps r now items rest) s) := by
  induction items generalizing before s with
  | nil =>
    rw [List.append_nil]
    exact h
  | cons item items ih =>
    rw [itemsOps, after_append, List.append_cons]
    exact ih (h.item r now item _)

theorem leftBy_fresh : LeftBy r now [] (fresh r) where
  fill := rfl
  left := rfl
  good := iff_of_true rfl (Nat.not_lt_zero _)
  width _ := rfl
  buffer _ := rfl

theorem leftBy_chars (items : List Item) : LeftBy r now items (leftBy r now (chars items)) := by
  obtain ⟨-, hleft⟩ := scan_items r now items [] (fresh r)
  rw [List.append_nil, scan_nil, after_append] at hleft
  rw [leftBy, hleft]
  exact (leftBy_fresh r now).items r now items []

theorem Failed.append {items : List Item} (h : Failed r items) (items' : List Item) :
    Failed r (items ++ items') := by
  rw [Failed, messages_append]
  exact Nat.lt_add_right _ h

section Item

variable {before alone : List Item} {s s' : OutputState UInt8}

theorem padsAlike_iff (h : LeftBy r now before s) (h' : LeftBy r now alone s')
    (hs : s.good = true) (hs' : s'.good = true) (item : Item) (text : List UInt8) :
    (item.settings s).pad text = (item.settings s').pad text ↔
      PadsAlike r now before alone item text := by
  have hfill : ∀ {items : List Item} {s : OutputState UInt8}, LeftBy r now items s →
      (item.settings s).fill = fillOf (items ++ [item]) := by
    intro items s h
    rw [Item.settings, h.fill, fillOf, fillOf, List.any_append]
    cases hzero : item.zero <;> simp [hzero]
  have hleft : ∀ {items : List Item} {s : OutputState UInt8}, LeftBy r now items s →
      (item.settings s).left = (items ++ [item]).any Item.left := by
    intro items s h
    rw [Item.settings, h.left, List.any_append]
    simp
  have hwidth : ∀ {items : List Item} {s : OutputState UInt8}, LeftBy r now items s →
      s.good = true → (item.settings s).width = widthAt r now items item := by
    intro items s h hs
    rw [Item.settings, h.width hs]
    rfl
  rw [pad_eq_iff, hfill h, hfill h', hleft h, hleft h', hwidth h hs, hwidth h' hs']
  rfl

theorem alike_iff (h : LeftBy r now before s) (h' : LeftBy r now alone s')
    (hle : Failed r alone → Failed r before) (item : Item) (next : UInt8) :
    texts (itemOps r now item next) s = texts (itemOps r now item next) s' ↔
      Alike r now before alone item := by
  have hfailed : ∀ {items : List Item} {s : OutputState UInt8}, LeftBy r now items s →
      Failed r items → s.good = false := fun h hfailed =>
    Bool.eq_false_iff.mpr fun hgood => h.good.mp hgood hfailed
  rw [Alike]
  by_cases halone : Failed r alone
  · rw [texts_of_failed (hfailed h (hle halone)), texts_of_failed (hfailed h' halone)]
    exact iff_of_true rfl (.inl halone)
  · have hs' := h'.good.mpr halone
    rw [or_iff_right halone]
    by_cases hbefore : Failed r before
    · rw [texts_itemOps_failed_iff r now (hfailed h hbefore) hs' item next, and_iff_right hbefore,
        or_iff_left fun hnot => hnot.1 hbefore]
      cases item with
      | text ch hch => exact Iff.rfl
      | directive left width ch hwidth hch hflag =>
        refine and_congr (forall₂_congr fun text _ => ?_) (imp_congr_right fun _ => ?_)
        · rw [pad_eq_nil_iff, Item.settings, h'.width hs']
          rfl
        · rw [h'.buffer hs']
          by_cases hnone : messages alone = 0 <;> simp [hnone]
    · have hs := h.good.mpr hbefore
      rw [texts_itemOps_iff r now hs hs' item next, or_iff_right fun hnot => hbefore hnot.1,
        and_iff_right hbefore]
      refine and_congr (forall₂_congr fun text _ => padsAlike_iff r now h h' hs hs' item text)
        (imp_congr_right fun _ => ?_)
      rw [h.buffer hs, h'.buffer hs']
      rw [Failed] at hbefore halone
      by_cases hempty : r.buffer = []
      · rw [if_pos hempty, Nat.not_lt, Nat.le_zero] at hbefore halone
        simp [hbefore, halone]
      · split_ifs with hmessages hmessages' hmessages'
        all_goals simp [hempty, hmessages, hmessages', Ne.symm hempty]

end Item

/-- By induction on the second items, behind which both streams have what they leave. -/
theorem texts_items_iff {items alone : List Item} {s s' : OutputState UInt8}
    (h : LeftBy r now (items ++ alone) s) (h' : LeftBy r now alone s')
    (items' : List Item) (rest : List UInt8) :
    texts (itemsOps r now items' rest) s = texts (itemsOps r now items' rest) s' ↔
      ∀ init item behind, items' = init ++ item :: behind →
        Alike r now (items ++ (alone ++ init)) (alone ++ init) item := by
  induction items' generalizing alone s s' with
  | nil => exact iff_of_true rfl fun init item behind heq => by simp at heq
  | cons first items' ih =>
    have hle : Failed r alone → Failed r (items ++ alone) := by
      rw [Failed, Failed, messages_append]
      omega
    rw [itemsOps, texts_append_eq_iff, alike_iff r now h h' hle,
      ih (List.append_assoc items alone [first] ▸ h.item r now first _) (h'.item r now first _)]
    constructor
    · rintro ⟨hfirst, hrest⟩ init item behind heq
      cases init with
      | nil =>
        obtain ⟨rfl, -⟩ := List.cons.inj heq
        rw [List.append_nil]
        exact hfirst
      | cons other init =>
        obtain ⟨rfl, htail⟩ := List.cons.inj heq
        rw [List.append_cons]
        exact hrest init item behind htail
    · intro hall
      refine ⟨?_, fun init item behind heq => ?_⟩
      · have hfirst := hall [] first items' rfl
        rwa [List.append_nil] at hfirst
      · have hitem := hall (first :: init) item behind (by rw [heq]; rfl)
        rwa [List.append_cons] at hitem

theorem not_mem_drain_flags (left : Bool) (width : List UInt8) :
    .drain ∉ (.write [] :: (if left then [.left] else []) ++ widthOps width : List Op) := by
  cases left <;> cases width with
  | nil => simp [widthOps]
  | cons d width => by_cases hd : d = chr '0' <;> simp [widthOps, hd]

theorem not_mem_drain {items : List Item} (h : messages items = 0) (rest : List UInt8) :
    .drain ∉ itemsOps r now items rest := by
  induction items with
  | nil => exact List.not_mem_nil
  | cons item items ih =>
    rw [messages, List.countP_cons, ← messages] at h
    have hitem : ∀ next, .drain ∉ itemOps r now item next := by
      intro next
      have hmessage : ¬ item.message = true := fun hmessage => by simp [hmessage] at h
      cases item with
      | text ch hch => simp [itemOps]
      | directive left width ch hwidth hch hflag =>
        rw [itemOps, List.mem_append]
        refine not_or.mpr ⟨not_mem_drain_flags left width, ?_⟩
        cases hd : directive ch with
        | none => simp [letterOps, hd]
        | some d => cases d <;> simp_all [letterOps, replace, Item.message]
    rw [itemsOps, List.mem_append]
    exact not_or.mpr ⟨hitem _, ih (by omega)⟩

/-- What the two parts write on the two streams is compared item by item, where no width can make
up for a message. -/
theorem output_scan_iff {items : List Item} {s : OutputState UInt8} (h : LeftBy r now items s)
    {rest : List UInt8} (hmakes : ¬ MakesUp r now items rest) :
    output (scan r now rest) s = output (scan r now rest) (fresh r) ↔
      ∀ init item behind, rest = chars init ++ (item.chars ++ behind) →
        Alike r now (items ++ init) init item := by
  have hfresh := leftBy_fresh r now
  have hdecomposed : ∀ items' tail, rest = chars items' ++ tail → Unfinished tail →
      (output (scan r now rest) s = output (scan r now rest) (fresh r) ↔
        ∀ init item behind, items' = init ++ item :: behind →
          Alike r now (items ++ init) init item) := by
    rintro items' tail rfl htail
    obtain ⟨left, width, hscan⟩ := scan_unfinished r now htail
    have hsame := scan_items r now items' tail
    have hbuffer : s.good = true → s.buffer = (fresh r).buffer ∨ s.buffer = [] := by
      intro hs
      rw [h.buffer hs]
      split_ifs
      · exact .inl rfl
      · exact .inr rfl
    have hwidth : s.good = true → s.width = 0 ∨ s.buffer = (fresh r).buffer ∨
        .drain ∉ itemsOps r now items' tail ++ scan r now tail := by
      intro hs
      by_cases hzero : widthLeft r now items = 0
      · exact .inl ((h.width hs).trans hzero)
      · right
        by_cases hnone : messages items = 0
        · exact .inl ((h.buffer hs).trans (if_pos hnone))
        · right
          rw [hscan, List.mem_append]
          refine not_or.mpr ⟨not_mem_drain r now ?_ tail, not_mem_drain_flags left width⟩
          rw [messages, List.countP_eq_zero]
          intro item hitem hmessage
          obtain ⟨init, behind, rfl⟩ := List.append_of_mem hitem
          refine hmakes ⟨h.good.mp hs, hnone, hzero, init, item, chars behind ++ tail, ?_, hmessage⟩
          simp [chars]
    rw [(hsame s).1, (hsame (fresh r)).1, output_eq_iff rfl rfl hbuffer hwidth, hscan,
      texts_append_eq_iff, texts_items_iff r now (by rwa [List.append_nil]) hfresh,
      and_iff_left (texts_flags left width _ _)]
    rfl
  constructor
  · rintro heq init item behind rfl
    obtain ⟨items', tail, rfl, htail⟩ := exists_items behind
    refine (hdecomposed (init ++ item :: items') tail ?_ htail).mp heq init item items' rfl
    simp [chars]
  · intro hall
    obtain ⟨items', tail, hrest, htail⟩ := exists_items rest
    refine (hdecomposed items' tail hrest htail).mpr fun init item behind heq => ?_
    refine hall init item (chars behind ++ tail) ?_
    rw [hrest, heq]
    simp [chars]

/-- The first `%v` of the second part is not alike behind one that has used the message up. -/
theorem not_makesUp {items : List Item} {rest : List UInt8} (h : Composes r now items rest) :
    ¬ MakesUp r now items rest := by
  rintro ⟨hgood, hused, -, init, item, behind, hrest, hmessage⟩
  have hsome : ((init ++ [item]).find? Item.message).isSome := by
    rw [List.find?_isSome]
    exact ⟨item, List.mem_append_right init List.mem_cons_self, hmessage⟩
  obtain ⟨first, hfirst⟩ := Option.isSome_iff_exists.mp hsome
  obtain ⟨hmessage', before, after, heq, hnone⟩ := List.find?_eq_some_iff_append.mp hfirst
  have hzero : messages before = 0 := by
    rw [messages, List.countP_eq_zero]
    intro other hother
    simpa using hnone other hother
  have hchars : rest = chars before ++ (first.chars ++ (chars after ++ behind)) := by
    have hchars := congrArg chars heq
    simp only [chars, List.flatMap_append, List.flatMap_cons, List.flatMap_nil,
      List.append_nil] at hchars
    rw [hrest, ← List.append_assoc, chars, chars, chars, hchars]
    simp only [List.append_assoc]
  have hmessages : messages (items ++ before) = messages items := by
    rw [messages_append, hzero, Nat.add_zero]
  rcases h.2 before first (chars after ++ behind) hchars with
    halone | ⟨hbefore, -⟩ | ⟨-, -, hthis⟩
  · rw [Failed, hzero] at halone
    exact Nat.not_lt_zero _ halone
  · rw [Failed, hmessages] at hbefore
    exact hgood hbefore
  · exact hused (hmessages.symm.trans ((hthis hmessage').mpr hzero))

theorem good_leftBy (items : List Item) :
    (leftBy r now (chars items)).good = true ↔ ¬ Failed r items := (leftBy_chars r now items).good

/-- A format string and another write what they do alone if the flags, widths and directives of the
first leave nothing that a directive of the second is written otherwise with, and only then, unless
both insert the message and the first leaves a width. Literal text is copied, and an unknown
directive is when its letter stands behind it again. -/
theorem log_format_composes_iff (items : List Item) (rest : List UInt8) :
    (Composes r now items rest →
      format r now (chars items ++ rest) = format r now (chars items) ++ format r now rest) ∧
      (¬ MakesUp r now items rest →
        (format r now (chars items ++ rest) = format r now (chars items) ++ format r now rest ↔
          Composes r now items rest)) ∧
      (∀ text, chr '%' ∉ text → format r now text = text) ∧
      ∀ (ch : UInt8) (behind : List UInt8), directive ch = none → ¬ isdigit ch → ch ≠ chr '-' →
        (format r now (chr '%' :: ch :: behind) = chr '%' :: ch :: format r now behind ↔
          behind.headD 0 = ch) := by
  have hexact : ¬ MakesUp r now items rest →
      (format r now (chars items ++ rest) = format r now (chars items) ++ format r now rest ↔
        Composes r now items rest) := by
    intro hmakes
    rw [format_append_iff, good_leftBy,
      output_scan_iff r now (leftBy_chars r now items) hmakes, Composes]
  refine ⟨fun hcomposes => (hexact (not_makesUp r now hcomposes)).mpr hcomposes, hexact,
    fun text => format_text r now, fun ch behind hnone hdigit hflag => ?_⟩
  rw [format_unknown r now hnone hdigit hflag]
  simp only [List.cons.injEq, and_true, true_and]

end Settings

/-- The message `x` on the ninth of January 2017, a little after three. -/
def sampleBuffer : Buffer :=
  ⟨.info, octets "main", octets "main.cpp", 1, octets "1", [], octets "x"⟩

def sampleMoment : Moment where
  weekdayLong := octets "Monday"
  weekdayShort := octets "Mon"
  monthLong := octets "January"
  isoExtended := octets "2017-01-09"
  posixString := octets "JST+09"
  month := octets "Jan"
  dayOfWeek := octets "Mon"
  dateTime := octets "2017-Jan-09 03:00:01"
  year := 2017
  day := 9
  dayOfYear := 9
  weekNumber := 2
  hours := 3
  minutes := 0
  seconds := 1
  totalSeconds := 10801
  totalMilliseconds := 10801000
  totalMicroseconds := 10801000000
  baseUtcOffset := 32400

def paddedDay : Item :=
  .directive false [chr '0', chr '3'] (chr 'd')
    (List.forall_mem_cons.mpr ⟨by decide, List.forall_mem_singleton.mpr (by decide)⟩) (by decide)
    (by decide)

def wideDay : Item :=
  .directive false [chr '3'] (chr 'd') (List.forall_mem_singleton.mpr (by decide)) (by decide)
    (by decide)

/-- `%03d` leaves its fill character to `%3d`, and `%Q` is written without its letter. -/
theorem not_composes_of_fill :
    format sampleBuffer sampleMoment (octets "%03d") = octets "009" ∧
      format sampleBuffer sampleMoment (octets "%3d") = octets "  9" ∧
      format sampleBuffer sampleMoment (octets "%03d" ++ octets "%3d") = octets "009009" ∧
      format sampleBuffer sampleMoment (octets "%Q") = [chr '%', 0] ∧
      (¬ ∀ (r : Buffer) (now : Moment) (items : List Item) (rest : List UInt8),
        format r now (chars items ++ rest) = format r now (chars items) ++ format r now rest) ∧
      ¬ ∀ (r : Buffer) (now : Moment) (ch : UInt8), directive ch = none → ¬ isdigit ch →
        ch ≠ chr '-' → format r now [chr '%', ch] = [chr '%', ch] := by
  have hpadded : chars [paddedDay] = octets "%03d" := by decide
  have hwide : chars [wideDay] = octets "%3d" := by decide
  have hpair : chars [paddedDay, wideDay] = octets "%03d" ++ octets "%3d" := by decide
  have hfirst : format sampleBuffer sampleMoment (octets "%03d") = octets "009" := by
    rw [← hpadded, format_chars]
    decide
  have hsecond : format sampleBuffer sampleMoment (octets "%3d") = octets "  9" := by
    rw [← hwide, format_chars]
    decide
  have hboth : format sampleBuffer sampleMoment (octets "%03d" ++ octets "%3d") =
      octets "009009" := by
    rw [← hpair, format_chars]
    decide
  have hunknown : format sampleBuffer sampleMoment (octets "%Q") = [chr '%', 0] := by
    refine (format_unknown sampleBuffer sampleMoment (show directive (chr 'Q') = none by
      decide) (by decide) (by decide) []).trans ?_
    rw [format, scan_nil, output_write_nil]
    rfl
  refine ⟨hfirst, hsecond, hboth, hunknown, fun hall => ?_, fun hall => ?_⟩
  · have heq := hall sampleBuffer sampleMoment [paddedDay] (octets "%3d")
    rw [hpadded, hboth, hfirst, hsecond] at heq
    exact absurd heq (by decide)
  · have heq := hall sampleBuffer sampleMoment (chr 'Q') (by decide) (by decide) (by decide)
    change format sampleBuffer sampleMoment (octets "%Q") = _ at heq
    rw [hunknown] at heq
    exact absurd heq (by decide)

end Log

end Acqua
