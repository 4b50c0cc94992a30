import Acqua.Iostreams.IstreamCodecvt

/-! What a sequence of reads of `basic_istream_locale_codecvt` delivers. -/

namespace Acqua

theorem getline_of_ne_nil {text : List UInt8} (h : text ≠ []) :
    getline text =
      some (text.takeWhile (· ≠ chr '\n'), (text.dropWhile (· ≠ chr '\n')).tail) := if_neg h

theorem getline_eq_none {text : List UInt8} : getline text = none ↔ text = [] := by
  simp [getline]

def lines (text : List UInt8) : List (List UInt8) :=
  match _hline : getline text with
  | none => []
  | some (line, rest) => line :: lines rest
termination_by text.length
decreasing_by exact length_getline_lt _hline

@[simp]
theorem lines_nil : lines [] = [] := by
  rw [lines]
  split
  next => rfl
  next hline => exact absurd (getline_eq_none.mpr rfl) (hline ▸ Option.some_ne_none _)

theorem lines_of_getline {text line rest : List UInt8} (h : getline text = some (line, rest)) :
    lines text = line :: lines rest := by
  rw [lines]
  split
  next hnone => exact absurd (hnone.symm.trans h).symm (Option.some_ne_none _)
  next hsome =>
    obtain ⟨rfl, rfl⟩ := Prod.mk.inj (Option.some.inj (hsome.symm.trans h))
    rfl

theorem lines_eq_nil {text : List UInt8} : lines text = [] ↔ text = [] := by
  constructor
  · intro h
    by_contra hne
    rw [lines_of_getline (getline_of_ne_nil hne)] at h
    exact List.cons_ne_nil _ _ h
  · rintro rfl
    exact lines_nil

namespace IstreamLocaleCodecvt

section Delivered

variable (fromUtf : List UInt8 → Option (List UInt8))

/-- What successive calls of `read` deliver up to the first that finds the end, where `areas` is
what the buffer of each call holds before it. -/
def delivered (sizes : Nat → ℕ+) (areas : Nat → Nat → UInt8) (k : Nat) (s : IstreamLocaleCodecvt) :
    List UInt8 :=
  match _hread : read fromUtf (sizes k) (areas k) s with
  | none => []
  | some ([], _) => []
  | some (ch :: out, s) => ch :: out ++ delivered sizes areas (k + 1) s
termination_by (s.text.length, s.line.length)
decreasing_by
  rcases read_lt fromUtf _hread (List.cons_ne_nil _ _) with hlt | ⟨heq, hlt⟩
  · exact Prod.Lex.left _ _ hlt
  · rw [heq]
    exact Prod.Lex.right _ hlt

end Delivered

variable (convert : List UInt8 → List UInt8)

def convertLine (line : List UInt8) : List UInt8 :=
  if trimCrln line = [] then [] else convert (trimCrln line)

/-- The converted lines, joined by LF. -/
def joined (text : List UInt8) : List UInt8 :=
  [chr '\n'].intercalate ((lines text).map (convertLine convert))

/-- The reader of a text whose conversions do not throw. -/
def deliveredFrom (sizes : Nat → ℕ+) (areas : Nat → Nat → UInt8) (text : List UInt8) :
    List UInt8 :=
  delivered (fun line => some (convert line)) sizes areas 0 ⟨text, []⟩

variable {convert}

@[simp]
theorem joined_nil : joined convert [] = [] := by simp [joined]

variable (convert) in
theorem joined_of_getline {text line rest : List UInt8} (h : getline text = some (line, rest)) :
    joined convert text =
      convertLine convert line ++ if rest = [] then [] else chr '\n' :: joined convert rest := by
  rw [joined, lines_of_getline h]
  by_cases hrest : rest = []
  · simp [hrest]
  · obtain ⟨l, ls, hls⟩ := List.exists_cons_of_ne_nil (mt lines_eq_nil.mp hrest)
    rw [if_neg hrest, joined, hls]
    simp [List.intercalate]

/-- The last line is not empty once it is trimmed. -/
def LastLine (text : List UInt8) : Prop := ∀ line ∈ (lines text).getLast?, trimCrln line ≠ []

theorem lastLine_of_getline {text line rest : List UInt8} (h : getline text = some (line, rest)) :
    LastLine text ↔ if rest = [] then trimCrln line ≠ [] else LastLine rest := by
  rw [LastLine, lines_of_getline h]
  by_cases hrest : rest = []
  · simp [hrest]
  · obtain ⟨l, ls, hls⟩ := List.exists_cons_of_ne_nil (mt lines_eq_nil.mp hrest)
    rw [if_neg hrest, LastLine, hls, List.getLast?_cons_cons]

theorem copy_of_getline {text line l rest : List UInt8} {i : Nat} (hi : i ≠ 0)
    (h : getline text = some (l, rest)) :
    copy (fun line => some (convert line)) text line i =
      let out := if trimCrln l = [] then [] else (line ++ convertLine convert l).take i
      let left := if trimCrln l = [] then line else (line ++ convertLine convert l).drop i
      (copy (fun line => some (convert line)) rest
        (if 0 < i - out.length then left ++ [chr '\n'] else left) (i - out.length)).map
        fun r => (out ++ r.1, r.2) := by
  rw [copy, if_neg hi]
  split
  next hnone => exact absurd (hnone.symm.trans h).symm (Option.some_ne_none _)
  next l' rest' hsome =>
    obtain ⟨rfl, rfl⟩ := Prod.mk.inj (Option.some.inj (hsome.symm.trans h))
    by_cases htrim : trimCrln l' = []
    · simp [htrim]
    · simp [htrim, convertLine]

@[simp]
theorem copy_zero (fromUtf : List UInt8 → Option (List UInt8)) (text line : List UInt8) :
    copy fromUtf text line 0 = some ([], ⟨text, line⟩) := by
  rw [copy, if_pos rfl]

@[simp]
theorem copy_nil (fromUtf : List UInt8 → Option (List UInt8)) (line : List UInt8) (i : Nat) :
    copy fromUtf [] line i = some ([], ⟨[], line⟩) := by
  rw [copy]
  split_ifs
  · rfl
  · split
    next => rfl
    next hsome => exact absurd (getline_eq_none.mpr rfl) (hsome ▸ Option.some_ne_none _)

/-- How the loop of `read` ends: the buffer is full and lines are left, it is full after the last
line, or the text ends before it is full. -/
inductive Copied (convert : List UInt8 → List UInt8) (text line : List UInt8) (i : Nat) :
    List UInt8 → IstreamLocaleCodecvt → Prop
  | full {out rest left : List UInt8} (hrest : rest ≠ []) (hout : out.length = i)
      (heq : out ++ left ++ chr '\n' :: joined convert rest = line ++ joined convert text) :
      Copied convert text line i out ⟨rest, left⟩
  | last {out left : List UInt8} (hlast : LastLine text) (hout : out.length = i)
      (heq : out ++ left = line ++ joined convert text) : Copied convert text line i out ⟨[], left⟩
  | all {out left : List UInt8} (hout : out.length < i)
      (heq : out ++ left = line ++ joined convert text)
      (hleft : left = [] ↔ LastLine text ∨ line = [] ∧ (lines text).length = 1) :
      Copied convert text line i out ⟨[], left ++ [chr '\n']⟩

theorem Copied.step {text rest line left out out' : List UInt8} {i : Nat}
    {s : IstreamLocaleCodecvt} (hlines : (lines text).length ≠ 1)
    (hrest : LastLine text ↔ LastLine rest)
    (heq : out ++ (left ++ [chr '\n']) ++ joined convert rest = line ++ joined convert text)
    (hout : out.length < i)
    (h : Copied convert rest (left ++ [chr '\n']) (i - out.length) out' s) :
    Copied convert text line i (out ++ out') s := by
  cases h with
  | full hne hout' heq' =>
    refine Copied.full hne ?_ ?_
    · rw [List.length_append]
      omega
    · rw [← heq, List.append_assoc, List.append_assoc, List.append_assoc out, ← heq']
      simp
  | last hlast hout' heq' =>
    refine Copied.last (hrest.mpr hlast) ?_ ?_
    · rw [List.length_append]
      omega
    · rw [← heq, List.append_assoc, List.append_assoc out, heq']
  | all hout' heq' hleft =>
    refine Copied.all ?_ ?_ ?_
    · rw [List.length_append]
      omega
    · rw [← heq, List.append_assoc, List.append_assoc out, heq']
    · rw [hleft, hrest]
      simp [hlines]

variable (convert) in
theorem copy_spec {text : List UInt8} (htext : text ≠ []) (line : List UInt8) {i : Nat}
    (hi : 0 < i) : ∃ out s, copy (fun line => some (convert line)) text line i = some (out, s) ∧
      Copied convert text line i out s := by
  induction hn : text.length using Nat.strong_induction_on generalizing text line i with
  | _ n ih =>
    subst hn
    obtain ⟨l, rest, hline⟩ : ∃ l rest, getline text = some (l, rest) :=
      ⟨_, _, getline_of_ne_nil htext⟩
    rw [copy_of_getline hi.ne' hline]
    set out := if trimCrln l = [] then [] else (line ++ convertLine convert l).take i with hout
    set left := if trimCrln l = [] then line else (line ++ convertLine convert l).drop i with hleft
    have heq : out ++ left = line ++ convertLine convert l := by
      by_cases htrim : trimCrln l = []
      · simp [hout, hleft, htrim, convertLine]
      · simp [hout, hleft, htrim]
    have hle : out.length ≤ i := by
      rw [hout]
      split_ifs
      · exact Nat.zero_le i
      · exact List.length_take_le _ _
    have hjoined := joined_of_getline convert hline
    have hlast := lastLine_of_getline hline
    dsimp only
    by_cases hrest : rest = []
    · subst hrest
      rw [if_pos rfl] at hlast
      rw [if_pos rfl, List.append_nil] at hjoined
      by_cases hlt : out.length < i
      · rw [if_pos (by omega), copy_nil]
        refine ⟨_, _, rfl, ?_⟩
        rw [List.append_nil]
        refine Copied.all hlt (by rw [heq, hjoined]) ?_
        by_cases htrim : trimCrln l = []
        · have hone : (lines text).length = 1 := by simp [lines_of_getline hline]
          simp [hleft, htrim, hlast, hone]
        · have hdrop : (line ++ convertLine convert l).length ≤ i := by
            rw [hout, if_neg htrim, List.length_take] at hlt
            omega
          simp only [hlast, hleft, if_neg htrim, List.drop_eq_nil_of_le hdrop]
          simp [htrim]
      · have htrim : trimCrln l ≠ [] := by
          intro htrim
          rw [hout, if_pos htrim] at hlt
          exact hlt hi
        rw [if_neg (by omega), copy_nil]
        refine ⟨_, _, rfl, ?_⟩
        rw [List.append_nil]
        exact Copied.last (hlast.mpr htrim) (by omega) (by rw [heq, hjoined])
    · rw [if_neg hrest] at hlast hjoined
      by_cases hlt : out.length < i
      · obtain ⟨out', s, hcopy, hcopied⟩ := ih rest.length (length_getline_lt hline) hrest
          (left ++ [chr '\n']) (Nat.sub_pos_of_lt hlt) rfl
        rw [if_pos (by omega), hcopy]
        refine ⟨_, _, rfl, Copied.step ?_ hlast ?_ hlt hcopied⟩
        · simp [lines_of_getline hline, lines_eq_nil, hrest]
        · rw [hjoined, ← List.append_assoc line, ← heq]
          simp
      · have hzero : i - out.length = 0 := by omega
        rw [hzero, copy_zero, if_neg (lt_irrefl 0)]
        refine ⟨_, _, rfl, ?_⟩
        rw [List.append_nil]
        refine Copied.full hrest (by omega) ?_
        rw [hjoined, ← List.append_assoc line, ← heq]

theorem copy_eq_some (convert : List UInt8 → List UInt8) (text line : List UInt8) (i : Nat) :
    ∃ r, copy (fun line => some (convert line)) text line i = some r := by
  by_cases htext : text = []
  · rw [htext, copy_nil]
    exact ⟨_, rfl⟩
  · rcases Nat.eq_zero_or_pos i with rfl | hi
    · rw [copy_zero]
      exact ⟨_, rfl⟩
    · obtain ⟨out, s, hcopy, -⟩ := copy_spec convert htext line hi
      exact ⟨_, hcopy⟩

theorem read_of_short {fromUtf : List UInt8 → Option (List UInt8)} {s : IstreamLocaleCodecvt}
    (h : ¬ 1 < s.line.length) (n : Nat) (area : Nat → UInt8) :
    read fromUtf n area s = copy fromUtf s.text s.line n := if_neg h

variable (convert) in
/-- What is left of a line is not copied: the buffer starts with what it held before. -/
theorem read_of_long {s : IstreamLocaleCodecvt} (h : 1 < s.line.length) {n : Nat} (hn : 0 < n)
    (area : Nat → UInt8) :
    ∃ out s', read (fun line => some (convert line)) n area s = some (area 0 :: out, s') := by
  rw [read, if_pos h]
  obtain ⟨r, hr⟩ := copy_eq_some convert s.text
    (if 0 < n - min s.line.length n then s.line.drop (min s.line.length n) ++ [chr '\n']
      else s.line.drop (min s.line.length n)) (n - min s.line.length n)
  obtain ⟨w, hw⟩ : ∃ w, min s.line.length n = w + 1 :=
    ⟨min s.line.length n - 1, by omega⟩
  simp only [hr, Option.map_some]
  rw [hw, List.range_succ_eq_map]
  exact ⟨_, _, rfl⟩

section Reads

variable {fromUtf : List UInt8 → Option (List UInt8)} (sizes : Nat → ℕ+)
  (areas : Nat → Nat → UInt8) (k : Nat) {s s' : IstreamLocaleCodecvt} {out : List UInt8}

theorem delivered_of_read (h : read fromUtf (sizes k) (areas k) s = some (out, s'))
    (hout : out ≠ []) :
    delivered fromUtf sizes areas k s = out ++ delivered fromUtf sizes areas (k + 1) s' := by
  rw [delivered]
  split
  next hnone => exact absurd (hnone.symm.trans h).symm (Option.some_ne_none _)
  next hnil => exact absurd (Prod.mk.inj (Option.some.inj (hnil.symm.trans h))).1.symm hout
  next hsome =>
    obtain ⟨rfl, rfl⟩ := Prod.mk.inj (Option.some.inj (hsome.symm.trans h))
    rfl

theorem delivered_of_read_nil (h : read fromUtf (sizes k) (areas k) s = some ([], s')) :
    delivered fromUtf sizes areas k s = [] := by
  rw [delivered]
  split
  next => rfl
  next => rfl
  next hsome =>
    exact absurd (Prod.mk.inj (Option.some.inj (hsome.symm.trans h))).1 (List.cons_ne_nil _ _)

theorem delivered_of_text_nil {line : List UInt8} (h : ¬ 1 < line.length) :
    delivered fromUtf sizes areas k ⟨[], line⟩ = [] := by
  have hread : read fromUtf (sizes k) (areas k) ⟨[], line⟩ = some ([], ⟨[], line⟩) := by
    rw [read_of_short h, copy_nil]
  exact delivered_of_read_nil sizes areas k hread

end Reads

/-- How much can still be delivered when nothing that the buffer held before is. -/
def pending (convert : List UInt8 → List UInt8) (s : IstreamLocaleCodecvt) : Nat :=
  if s.text = [] then 0 else s.line.length + (joined convert s.text).length

theorem Copied.pending_le {text line out : List UInt8} {i : Nat} {s : IstreamLocaleCodecvt}
    (h : Copied convert text line i out s) :
    out.length + pending convert s ≤ line.length + (joined convert text).length := by
  cases h with
  | full hrest _ heq =>
    have hlength := congrArg List.length heq
    simp only [List.length_append, List.length_cons] at hlength
    rw [pending, if_neg hrest]
    dsimp only
    omega
  | last _ _ heq =>
    have hlength := congrArg List.length heq
    simp only [List.length_append] at hlength
    rw [pending, if_pos rfl]
    omega
  | all _ heq _ =>
    have hlength := congrArg List.length heq
    simp only [List.length_append] at hlength
    rw [pending, if_pos rfl]
    omega

theorem length_delivered_le {sizes : Nat → ℕ+} {k : Nat} {s : IstreamLocaleCodecvt}
    (h : delivered (fun line => some (convert line)) sizes (fun _ _ => 0) k s =
      delivered (fun line => some (convert line)) sizes (fun _ _ => 1) k s) :
    (delivered (fun line => some (convert line)) sizes (fun _ _ => 0) k s).length ≤
      pending convert s := by
  induction k, s using
    delivered.induct (fun line => some (convert line)) sizes (fun _ _ => 0) with
  | case1 k s hnone =>
    rw [delivered]
    split <;> simp_all
  | case2 k s s' hnil =>
    rw [delivered_of_read_nil _ _ _ hnil]
    exact Nat.zero_le _
  | case3 k s ch out s' hread ih =>
    by_cases hline : 1 < s.line.length
    · obtain ⟨out₀, s₀, hread₀⟩ :=
        read_of_long convert hline (sizes k).pos fun _ => 0
      obtain ⟨out₁, s₁, hread₁⟩ :=
        read_of_long convert hline (sizes k).pos fun _ => 1
      have hzero := delivered_of_read sizes (fun _ _ => 0) k hread₀ (List.cons_ne_nil _ _)
      have hone := delivered_of_read sizes (fun _ _ => 1) k hread₁ (List.cons_ne_nil _ _)
      rw [hzero, hone] at h
      exact absurd (List.cons.inj h).1 (by decide)
    · have hread₁ : read (fun line => some (convert line)) (sizes k) (fun _ => 1) s =
          some (ch :: out, s') := by
        rw [read_of_short hline, ← hread, read_of_short hline]
      have hzero := delivered_of_read sizes (fun _ _ => 0) k hread (List.cons_ne_nil _ _)
      have hone := delivered_of_read sizes (fun _ _ => 1) k hread₁ (List.cons_ne_nil _ _)
      rw [hzero, hone] at h
      have hle := ih (List.append_cancel_left h)
      rw [hzero, List.length_append]
      rw [read_of_short hline] at hread
      by_cases htext : s.text = []
      · rw [htext, copy_nil] at hread
        exact absurd (Prod.mk.inj (Option.some.inj hread)).1.symm (List.cons_ne_nil _ _)
      · obtain ⟨out', s'', hcopy, hcopied⟩ :=
          copy_spec convert htext s.line (sizes k).pos
        obtain ⟨rfl, rfl⟩ := Prod.mk.inj (Option.some.inj (hread.symm.trans hcopy))
        have hpending := hcopied.pending_le
        rw [pending, if_neg htext]
        omega

theorem of_deliveredFrom_eq {text : List UInt8} {sizes : Nat → ℕ+}
    (h : ∀ areas, deliveredFrom convert sizes areas text = joined convert text) :
    (joined convert text).length ≤ sizes 0 ∧ ((lines text).length ≤ 1 ∨ LastLine text) := by
  by_cases htext : text = []
  · simp [htext]
  · obtain ⟨out, s, hcopy, hcopied⟩ :=
      copy_spec convert htext [] (sizes 0).pos
    have hread : ∀ area, read (fun line => some (convert line)) (sizes 0) area ⟨text, []⟩ =
        some (out, s) := fun area => (read_of_short (by simp) _ area).trans hcopy
    have hout : out.length ≤ (joined convert text).length ∧
        (joined convert text).length ≤ out.length + pending convert s := by
      by_cases hnil : out = []
      · subst hnil
        have hzero := h fun _ _ => 0
        rw [deliveredFrom, delivered_of_read_nil _ _ _ (hread _)] at hzero
        rw [← hzero]
        exact ⟨le_rfl, Nat.zero_le _⟩
      · have hzero := h fun _ _ => 0
        have hone := h fun _ _ => 1
        rw [deliveredFrom, delivered_of_read _ _ _ (hread _) hnil] at hzero hone
        have hle := length_delivered_le (List.append_cancel_left (hzero.trans hone.symm))
        rw [← hzero, List.length_append]
        omega
    cases hcopied with
    | full hrest hlength heq =>
      have hjoined := congrArg List.length heq
      simp only [List.length_append, List.length_cons, List.length_nil] at hjoined
      rw [pending, if_neg hrest] at hout
      dsimp only at hout
      omega
    | last hlast hlength heq =>
      rw [pending, if_pos rfl] at hout
      exact ⟨by omega, Or.inr hlast⟩
    | all hlength heq hleft =>
      have hjoined := congrArg List.length heq
      simp only [List.length_append, List.length_nil] at hjoined
      rw [pending, if_pos rfl] at hout
      refine ⟨by omega, ?_⟩
      rcases hleft.mp (List.length_eq_zero_iff.mp (by omega)) with hlast | ⟨-, hone⟩
      · exact Or.inr hlast
      · exact Or.inl hone.le

/-- The reader delivers the converted lines, whatever the buffers held before, exactly when the
first read takes them all and no empty line ends the text. -/
theorem deliveredFrom_eq_iff (convert : List UInt8 → List UInt8) (text : List UInt8)
    (sizes : Nat → ℕ+) :
    (∀ areas, deliveredFrom convert sizes areas text = joined convert text) ↔
      (joined convert text).length ≤ sizes 0 ∧ ((lines text).length ≤ 1 ∨ LastLine text) := by
  refine ⟨of_deliveredFrom_eq, fun ⟨hsize, hlines⟩ areas => ?_⟩
  by_cases htext : text = []
  · rw [htext, joined_nil]
    exact delivered_of_text_nil _ _ _ (by simp)
  · obtain ⟨out, s, hcopy, hcopied⟩ :=
      copy_spec convert htext [] (sizes 0).pos
    have hread : read (fun line => some (convert line)) (sizes 0) (areas 0) ⟨text, []⟩ =
        some (out, s) := (read_of_short (by simp) _ _).trans hcopy
    have hrest : ¬ 1 < s.line.length ∧ s.text = [] ∧ out = joined convert text := by
      cases hcopied with
      | full hrest hlength heq =>
        have hjoined := congrArg List.length heq
        simp only [List.length_append, List.length_cons, List.length_nil] at hjoined
        omega
      | @last left _ hlength heq =>
        have hjoined := congrArg List.length heq
        simp only [List.length_append, List.length_nil] at hjoined
        have hnil : left = [] := List.length_eq_zero_iff.mp (by omega)
        subst hnil
        exact ⟨by simp, rfl, by simpa using heq⟩
      | @all left _ heq hleft =>
        have hnil : left = [] := by
          rw [hleft]
          rcases hlines with hle | hlast
          · have hpos := List.length_pos_of_ne_nil (mt lines_eq_nil.mp htext)
            exact Or.inr ⟨rfl, by omega⟩
          · exact Or.inl hlast
        subst hnil
        exact ⟨by simp, rfl, by simpa using heq⟩
    obtain ⟨hline, htext', hout⟩ := hrest
    rw [← hout, deliveredFrom]
    by_cases hnil : out = []
    · subst hnil
      exact delivered_of_read_nil _ _ _ hread
    · rw [delivered_of_read _ _ _ hread hnil]
      obtain ⟨text', line⟩ := s
      dsimp only at hline htext'
      rw [htext', delivered_of_text_nil _ _ _ hline, List.append_nil]

theorem not_deliveredFrom_of_small_reads :
    ¬ ∀ (convert : List UInt8 → List UInt8) (text : List UInt8) (sizes : Nat → ℕ+)
      (areas : Nat → Nat → UInt8),
      deliveredFrom convert sizes areas text = joined convert text := by
  intro h
  have hsize := (of_deliveredFrom_eq (h id [97, 98, 99, 100] fun _ => 2)).1
  have hline : getline [97, 98, 99, 100] = some ([97, 98, 99, 100], []) := by decide
  rw [joined_of_getline id hline] at hsize
  exact absurd hsize (by decide)

end IstreamLocaleCodecvt

end Acqua
