import Mathlib

/-! A multimap that is a sorted sequence. Elements with an equal key stand in the order in which
they were inserted. -/

namespace Acqua

namespace FlatMultimap

section

variable {κ ν : Type*} (lt : κ → κ → Prop) [DecidableRel lt]

/-- The element stands before the first one with a greater key. -/
def insert (elem : κ × ν) : List (κ × ν) → List (κ × ν)
  | [] => [elem]
  | head :: map => if lt elem.1 head.1 then elem :: head :: map else head :: insert elem map

def insertAll (map elems : List (κ × ν)) : List (κ × ν) :=
  elems.foldl (fun map elem => insert lt elem map) map

/-- No key is less than one before it. -/
def Sorted (map : List (κ × ν)) : Prop := map.Pairwise fun a b => ¬ lt b.1 a.1

variable {lt} {elem : κ × ν} {map elems : List (κ × ν)}

theorem perm_insert : (insert lt elem map).Perm (elem :: map) := by
  induction map with
  | nil => exact .refl _
  | cons head map ih =>
    rw [insert]
    split_ifs
    · exact .refl _
    · exact (ih.cons head).trans (.swap elem head map)

theorem perm_insertAll (map elems : List (κ × ν)) :
    (insertAll lt map elems).Perm (elems ++ map) := by
  induction elems generalizing map with
  | nil => exact .refl _
  | cons elem elems ih =>
    exact (ih _).trans ((perm_insert.append_left elems).trans List.perm_middle)

variable [Std.Asymm lt]

/-- Among the elements with its key, the new one is the last. -/
theorem filter_insert [DecidableEq κ] (h : Sorted lt map) (key : κ) :
    (insert lt elem map).filter (fun e => e.1 = key) =
      map.filter (fun e => e.1 = key) ++ [elem].filter (fun e => e.1 = key) := by
  induction map with
  | nil => rfl
  | cons head map ih =>
    obtain ⟨hhead, hmap⟩ := List.pairwise_cons.mp h
    rw [insert]
    split_ifs with hlt
    · by_cases hkey : elem.1 = key
      · have hrest : (head :: map).filter (fun e => e.1 = key) = [] := by
          refine List.filter_eq_nil_iff.mpr fun e he heq => ?_
          have hekey : e.1 = elem.1 := (of_decide_eq_true heq).trans hkey.symm
          rcases List.mem_cons.mp he with rfl | he
          · rw [hekey] at hlt
            exact Std.Asymm.asymm _ _ hlt hlt
          · exact hhead e he (hekey ▸ hlt)
        rw [List.filter_cons_of_pos (by simpa using hkey), hrest,
          List.filter_cons_of_pos (by simpa using hkey), List.filter_nil, List.nil_append]
      · have hnil : [elem].filter (fun e => e.1 = key) = [] :=
          List.filter_cons_of_neg (by simpa using hkey)
        rw [hnil, List.append_nil, List.filter_cons_of_neg (by simpa using hkey)]
    · rw [List.filter_cons, List.filter_cons, ih hmap]
      split_ifs <;> rfl

variable [IsTrans κ lt]

theorem Sorted.insert (h : Sorted lt map) : Sorted lt (insert lt elem map) := by
  induction map with
  | nil => exact List.pairwise_singleton _ _
  | cons head map ih =>
    obtain ⟨hhead, hmap⟩ := List.pairwise_cons.mp h
    rw [FlatMultimap.insert]
    split_ifs with hlt
    · refine List.pairwise_cons.mpr ⟨fun b hb hless => ?_, h⟩
      rcases List.mem_cons.mp hb with rfl | hb
      · exact Std.Asymm.asymm _ _ hlt hless
      · exact hhead b hb (IsTrans.trans _ _ _ hless hlt)
    · refine List.pairwise_cons.mpr ⟨fun b hb => ?_, ih hmap⟩
      rcases List.mem_cons.mp (perm_insert.mem_iff.mp hb) with rfl | hb
      · exact hlt
      · exact hhead b hb

theorem Sorted.insertAll (h : Sorted lt map) (elems : List (κ × ν)) :
    Sorted lt (insertAll lt map elems) := by
  induction elems generalizing map with
  | nil => exact h
  | cons elem elems ih => exact ih h.insert

/-- The elements with a key, in the order in which they were inserted. -/
theorem filter_insertAll [DecidableEq κ] (h : Sorted lt map) (elems : List (κ × ν)) (key : κ) :
    (insertAll lt map elems).filter (fun e => e.1 = key) =
      map.filter (fun e => e.1 = key) ++ elems.filter (fun e => e.1 = key) := by
  induction elems generalizing map with
  | nil => exact (List.append_nil _).symm
  | cons elem elems ih =>
    have hstep : insertAll lt map (elem :: elems) = insertAll lt (insert lt elem map) elems := rfl
    rw [hstep, ih h.insert, filter_insert h, List.append_assoc, ← List.filter_append]
    rfl

/-- `find` gives the element with the key that was inserted first. -/
theorem find?_insertAll [DecidableEq κ] (h : Sorted lt map) (elems : List (κ × ν)) (key : κ) :
    (insertAll lt map elems).find? (fun e => e.1 = key) =
      (map.find? fun e => e.1 = key).or (elems.find? fun e => e.1 = key) := by
  rw [← List.head?_filter, filter_insertAll h, List.head?_append, List.head?_filter,
    List.head?_filter]

end

end FlatMultimap

end Acqua
