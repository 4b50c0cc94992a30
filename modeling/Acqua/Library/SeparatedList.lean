import Mathlib

/-! Elements that are read one after the other with a separator between them, for as long as a
separator and an element are there. An error of the element's parser is passed on. -/

namespace Acqua

variable {α β ε : Type*}

/-- What a parser gives for an element: the element and the text behind it, or nothing. -/
abbrev ElementParser (ε α β : Type*) := List α → Except ε (Option (β × List α))

/-- An element, and what `more` reads behind it. -/
def elementThen (p : ElementParser ε α β) (more : List α → Except ε (List β)) (text : List α) :
    Except ε (List β) :=
  match p text with
  | .error e => .error e
  | .ok none => .ok []
  | .ok (some (b, rest)) => (more rest).map (b :: ·)

section Loop

variable [DecidableEq α] (p : ElementParser ε α β) (sep : α)

/-- The elements behind the first one. A round takes a separator off. -/
def separatedRest : Nat → List α → Except ε (List β)
  | 0, _ => .ok []
  | _ + 1, [] => .ok []
  | fuel + 1, ch :: text =>
    if ch = sep then elementThen p (separatedRest fuel) text else .ok []

def separatedList (text : List α) : Except ε (List β) :=
  elementThen p (fun rest => separatedRest p sep rest.length rest) text

end Loop

/-- `p` reads `b` from the text and leaves `rest` where `good` holds, and never reads `b` from it
where `good` fails. -/
structure ReadsBack (p : ElementParser ε α β) (good : Prop) (text : List α) (b : β) (rest : List α) : Prop where
  reads : good → p text = .ok (some (b, rest))
  differs : ¬ good → ∀ x left, p text = .ok (some (x, left)) → x ≠ b

/-- The end of the text, or a separator. -/
def AtSeparator (sep : α) (rest : List α) : Prop := ∀ ch ∈ rest.head?, ch = sep

variable {p : ElementParser ε α β} {sep : α} {good : Prop} {text rest : List α} {b : β} {bs : List β}

theorem map_cons_eq_ok_iff {x : β} {result : Except ε (List β)} :
    result.map (x :: ·) = .ok (b :: bs) ↔ x = b ∧ result = .ok bs := by
  cases result <;> simp [Except.map]

theorem elementThen_eq_cons_iff (h : ReadsBack p good text b rest)
    (more : List α → Except ε (List β)) :
    elementThen p more text = .ok (b :: bs) ↔ good ∧ more rest = .ok bs := by
  rw [elementThen]
  by_cases hgood : good
  · rw [h.reads hgood]
    simp only [map_cons_eq_ok_iff, hgood, true_and]
  · refine iff_of_false ?_ fun heq => hgood heq.1
    rcases hread : p text with e | ⟨_ | ⟨x, left⟩⟩
    · intro heq
      cases heq
    · exact fun heq => List.cons_ne_nil b bs (Except.ok.inj heq).symm
    · exact fun heq => h.differs hgood x left hread (map_cons_eq_ok_iff.mp heq).1

variable [DecidableEq α]

/-- Elements that are written with a separator in front of each of them are read exactly where
each of them is. -/
theorem separatedRest_iff {Good : β → Prop} {render : β → List α}
    (hbs : ∀ b ∈ bs, ∀ rest, AtSeparator sep rest →
      ReadsBack p (Good b) (render b ++ rest) b rest) {fuel : Nat} (hfuel : bs.length ≤ fuel) :
    separatedRest p sep fuel (bs.flatMap fun b => sep :: render b) = .ok bs ↔
      ∀ b ∈ bs, Good b := by
  induction bs generalizing fuel with
  | nil => cases fuel <;> simp [separatedRest]
  | cons b bs ih =>
    obtain ⟨fuel, rfl⟩ : ∃ k, fuel = k + 1 :=
      ⟨fuel - 1, by rw [List.length_cons] at hfuel; omega⟩
    have hrest : AtSeparator sep (bs.flatMap fun b => sep :: render b) := by
      cases bs with
      | nil => simp [AtSeparator]
      | cons b' bs => simp [AtSeparator]
    rw [List.flatMap_cons, List.cons_append, separatedRest, if_pos rfl,
      elementThen_eq_cons_iff (hbs b List.mem_cons_self _ hrest),
      ih (fun b' hb' => hbs b' (List.mem_cons_of_mem _ hb')) (Nat.le_of_succ_le_succ hfuel),
      List.forall_mem_cons]

/-- The same of a whole list, whose first element may stand in another text. -/
theorem separatedList_iff {Good : β → Prop} {render : β → List α}
    (hb : ReadsBack p good text b (bs.flatMap fun b => sep :: render b))
    (hbs : ∀ b ∈ bs, ∀ rest, AtSeparator sep rest →
      ReadsBack p (Good b) (render b ++ rest) b rest) :
    separatedList p sep text = .ok (b :: bs) ↔ good ∧ ∀ b ∈ bs, Good b := by
  have hlen : bs.length ≤ (bs.flatMap fun b => sep :: render b).length := by
    rw [List.length_flatMap]
    exact (@List.length_map _ _ bs _).ge.trans
      (List.length_le_sum_of_one_le _ fun n hn => by
        obtain ⟨b', -, rfl⟩ := List.mem_map.mp hn
        exact Nat.succ_le_succ (Nat.zero_le _))
  rw [separatedList, elementThen_eq_cons_iff hb, separatedRest_iff hbs hlen]

end Acqua
