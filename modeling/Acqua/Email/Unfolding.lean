import Acqua.Email.HeaderRoundTrip

/-! Text that is broken into lines before blanks, and what comes of it when it is unfolded. -/

namespace Acqua

namespace Email

/-- `text` is broken into lines, and `out` is `text` with `f gap` for each line break and the
blanks after it. -/
inductive Unfolds (f : List UInt8 → List UInt8) : List UInt8 → List UInt8 → Prop
  | nil : Unfolds f [] []
  | clean {s text out : List UInt8} (hs : Clean s) (htext : Unfolds f text out) :
    Unfolds f (s ++ text) (s ++ out)
  | fold {gap text out : List UInt8} (hgap : gap ≠ [])
    (hblank : ∀ ch ∈ gap, ch = chr ' ' ∨ ch = chr '\t') (hnext : ∀ ch ∈ text.head?, ¬ isspace ch)
    (htext : Unfolds f text out) : Unfolds f (crlf ++ (gap ++ text)) (f gap ++ out)

/-- A line break before a blank is removed. -/
def unfoldText : List UInt8 → List UInt8
  | [] => []
  | [a] => [a]
  | [a, b] => [a, b]
  | a :: b :: c :: text =>
    if a = chr '\r' ∧ b = chr '\n' ∧ (c = chr ' ' ∨ c = chr '\t') then unfoldText (c :: text)
    else a :: unfoldText (b :: c :: text)

section Unfolds

variable {f : List UInt8 → List UInt8} {text text' out out' : List UInt8}

theorem Unfolds.of_clean (h : Clean text) : Unfolds f text text := by
  simpa using Unfolds.clean h Unfolds.nil

theorem Unfolds.append (h : Unfolds f text out) (h' : Unfolds f text' out')
    (hnext : ∀ ch ∈ text'.head?, ¬ isspace ch) : Unfolds f (text ++ text') (out ++ out') := by
  induction h with
  | nil => exact h'
  | clean hs _ ih =>
    rw [List.append_assoc, List.append_assoc]
    exact .clean hs ih
  | @fold gap text out hgap hblank htext _ ih =>
    rw [List.append_assoc, List.append_assoc, List.append_assoc]
    refine .fold hgap hblank ?_ ih
    cases text with
    | nil => exact hnext
    | cons ch text => exact htext

theorem unfoldText_cons {ch : UInt8} (hch : ch ≠ chr '\r') (text : List UInt8) :
    unfoldText (ch :: text) = ch :: unfoldText text := by
  match text with
  | [] => rfl
  | [b] => rfl
  | b :: c :: text => rw [unfoldText, if_neg fun h => hch h.1]

theorem unfoldText_clean {s : List UInt8} (hs : Clean s) (text : List UInt8) :
    unfoldText (s ++ text) = s ++ unfoldText text := by
  induction s with
  | nil => rfl
  | cons ch s ih =>
    rw [List.cons_append, unfoldText_cons (hs ch (by simp)).1, ih fun c hc => hs c (by simp [hc])]
    rfl

theorem clean_of_blank {gap : List UInt8} (h : ∀ ch ∈ gap, ch = chr ' ' ∨ ch = chr '\t') :
    Clean gap := by
  intro ch hch
  rcases h ch hch with rfl | rfl
  · decide
  · decide

theorem unfoldText_fold {gap : List UInt8} (hgap : gap ≠ [])
    (hblank : ∀ ch ∈ gap, ch = chr ' ' ∨ ch = chr '\t') (text : List UInt8) :
    unfoldText (crlf ++ (gap ++ text)) = gap ++ unfoldText text := by
  cases gap with
  | nil => exact absurd rfl hgap
  | cons ch gap =>
    have hfirst := hblank ch (by simp)
    have hclean := unfoldText_clean (clean_of_blank hblank) text
    have hcrlf : crlf ++ (ch :: gap ++ text) = chr '\r' :: chr '\n' :: ch :: (gap ++ text) := rfl
    rw [hcrlf, unfoldText, if_pos ⟨rfl, rfl, hfirst⟩]
    exact hclean

theorem Unfolds.unfoldText_eq (h : Unfolds id text out) : unfoldText text = out := by
  induction h with
  | nil => rfl
  | clean hs _ ih => rw [unfoldText_clean hs, ih]
  | fold hgap hblank _ _ ih => rw [unfoldText_fold hgap hblank, ih, id_eq]

end Unfolds

theorem space_of_isprint {ch : UInt8} (hprint : isprint ch) (hspace : isspace ch) :
    ch = chr ' ' := by
  have h : ∀ ch : UInt8, isprint ch → isspace ch → ch = chr ' ' :=
    octet_forall (P := fun ch => isprint ch → isspace ch → ch = chr ' ') (by decide +kernel)
  exact h ch hprint hspace

theorem plainLoop_head {word : List UInt8} (hword : word ≠ []) (cnt : Int)
    (segs : List (List UInt8 × List UInt8)) :
    (plainLoop cnt word segs).2.head? = word.head? := by
  fun_cases plainLoop cnt word segs with
  | case1 => rfl
  | case2 => rw [List.head?_append_of_ne_nil _ hword]
  | case3 => rw [List.append_assoc, List.head?_append_of_ne_nil _ hword]
  | case4 => rw [List.append_assoc, List.append_assoc, List.head?_append_of_ne_nil _ hword]

theorem plainLoop_unfolds {f : List UInt8 → List UInt8} {segs : List (List UInt8 × List UInt8)}
    (hsegs : Segmented segs) {word : List UInt8}
    (hprint : ∀ ch ∈ joined word segs, isprint ch) (cnt : Int)
    (hf : ∀ gap ∈ foldedGaps cnt word segs, f gap = gap) :
    Unfolds f (plainLoop cnt word segs).2 (joined word segs) := by
  fun_induction plainLoop cnt word segs with
  | case1 cnt word =>
    rw [joined, List.flatMap_nil, List.append_nil] at hprint ⊢
    exact .of_clean (clean_of_isprint hprint)
  | case2 cnt word gap rest =>
    obtain rfl := hsegs.2.2.2.1 rfl
    have hjoin : joined word [(gap, [])] = word ++ gap := by simp [joined]
    rw [hjoin] at hprint ⊢
    exact .of_clean (clean_of_isprint hprint)
  | case3 cnt word gap next rest hnext hfits r ih =>
    have hrest := hsegs.2.2.2.2
    rw [joined_cons] at hprint ⊢
    rw [foldedGaps, if_pos hfits] at hf
    · have htext := ih hrest (fun ch hch => hprint ch (by simp [hch])) hf
      rw [← List.append_assoc]
      exact .clean (clean_of_isprint fun ch hch => hprint ch (by
        rw [← List.append_assoc]
        exact List.mem_append_left _ hch)) htext
    · exact hnext
  | case4 cnt word gap next rest hnext hfits r ih =>
    obtain ⟨hgap, hspace, hword, -, hrest⟩ := hsegs
    rw [joined_cons] at hprint ⊢
    rw [foldedGaps, if_neg hfits] at hf
    · have htext := ih hrest (fun ch hch => hprint ch (by simp [hch]))
        fun gap' hgap' => hf gap' (List.mem_cons_of_mem _ hgap')
      have hblank : ∀ ch ∈ gap, ch = chr ' ' ∨ ch = chr '\t' := fun ch hch =>
        Or.inl (space_of_isprint (hprint ch (by simp [hch])) (hspace ch hch))
      have hhead : ∀ ch ∈ r.2.head?, ¬ isspace ch := by
        intro ch hch
        rw [plainLoop_head hnext] at hch
        exact hword ch (List.mem_of_mem_head? hch)
      have hfold := Unfolds.fold hgap hblank hhead htext
      rw [hf gap List.mem_cons_self] at hfold
      have hout : word ++ crlf ++ gap ++ r.2 = word ++ (crlf ++ (gap ++ r.2)) := by
        simp only [List.append_assoc]
      dsimp only
      rw [hout]
      exact .clean (clean_of_isprint fun ch hch => hprint ch (by simp [hch])) hfold
    · exact hnext

theorem plainEncode_unfolds {f : List UInt8 → List UInt8} {val : List UInt8} (hval : isAscii val)
    {cnt : Int} (hf : ∀ gap ∈ foldedGaps cnt (segments val).1 (segments val).2, f gap = gap) :
    Unfolds f (plainEncode cnt val).2 val := by
  obtain ⟨hjoin, -, hsegs⟩ := segments_spec val
  have hprint : ∀ ch ∈ joined (segments val).1 (segments val).2, isprint ch := by
    rw [hjoin]
    exact List.all_eq_true.mp hval
  have htext := plainLoop_unfolds hsegs hprint cnt hf
  rwa [hjoin] at htext

end Email

end Acqua
