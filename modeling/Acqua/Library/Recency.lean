import Mathlib

/-! Bounded recency lists: the abstract side of a least-recently-used cache. The list is
ordered by recency of the last push, newest first, and keeps one entry for each key. The
second half relates a list to the history of operations that produced it. -/

namespace Acqua

section Recency

variable {κ α : Type*} (key : α → κ) (pred : κ → κ → Bool)

structure RecencyList (α : Type*) where
  entries : List α
  bound : Nat

inductive RecencyOp (κ α : Type*)
  | push (v : α)
  | eraseAt (i : Nat)
  | eraseRange (i n : Nat)
  | eraseKey (k : κ)
  | clear
  | shrink
  | setBound (n : Nat)

/-- An entry of the key is replaced, else the oldest entry makes room when the list is
already longer than its bound. -/
def RecencyList.push (l : RecencyList α) (v : α) : RecencyList α :=
  if l.entries.any (fun x => pred (key v) (key x)) then
    { l with entries := v :: l.entries.filter (fun x => !pred (key v) (key x)) }
  else if l.bound < l.entries.length then { l with entries := v :: l.entries.dropLast }
  else { l with entries := v :: l.entries }

def RecencyList.step (l : RecencyList α) : RecencyOp κ α → RecencyList α
  | .push v => l.push key pred v
  | .eraseAt i => { l with entries := l.entries.eraseIdx i }
  | .eraseRange i n => { l with entries := l.entries.take i ++ l.entries.drop (i + n) }
  | .eraseKey k => { l with entries := l.entries.filter (fun x => !pred k (key x)) }
  | .clear => { l with entries := [] }
  | .shrink => { l with entries := l.entries.take l.bound }
  | .setBound n => ⟨l.entries.take n, n⟩

def RecencyOp.pushed : RecencyOp κ α → Option α
  | .push v => some v
  | _ => none

/-- The operations performed so far, newest first, each with the entries it left. -/
abbrev History (α : Type*) := List (Option α × List α)

def History.current : History α → List α
  | [] => []
  | (_, l) :: _ => l

/-- When the key class `p` was pushed last, and with which value. -/
def History.lastPush (p : α → Bool) : History α → Option (Nat × α)
  | [] => none
  | (some v, _) :: h => if p v then some (h.length, v) else History.lastPush p h
  | (none, _) :: h => History.lastPush p h

/-- Some operation since the last push of the key class `p` took its entry away. -/
def History.removedSince (p : α → Bool) : History α → Bool
  | [] => false
  | (o, l) :: h =>
    !o.any p && ((History.current h).any p && !l.any p || History.removedSince p h)

/-- A history of recency lists: a push puts its value in front of what it keeps, and
every other operation only drops entries. -/
inductive History.Valid : History α → Prop
  | nil : Valid []
  | drop {h l} : Valid h → l.Sublist (History.current h) → Valid ((none, l) :: h)
  | push {h v l} : Valid h → l.Sublist (History.current h) →
      (∀ x ∈ l, pred (key v) (key x) = false) → Valid ((some v, v :: l) :: h)

variable {key pred}

theorem RecencyOp.eq_push_of_pushed {o : RecencyOp κ α} {v : α} (h : o.pushed = some v) :
    o = .push v := by
  cases o with
  | push w => exact congrArg RecencyOp.push (Option.some.inj h)
  | _ => cases h

theorem RecencyList.push_of_mem {l : RecencyList α} {v : α}
    (h : l.entries.any (fun x => pred (key v) (key x)) = true) :
    l.push key pred v =
      ⟨v :: l.entries.filter (fun x => !pred (key v) (key x)), l.bound⟩ :=
  if_pos h

theorem RecencyList.push_of_full {l : RecencyList α} {v : α}
    (h : l.entries.any (fun x => pred (key v) (key x)) = false)
    (hb : l.bound < l.entries.length) :
    l.push key pred v = ⟨v :: l.entries.dropLast, l.bound⟩ := by
  unfold RecencyList.push
  rw [if_neg (by simp [h]), if_pos hb]

theorem RecencyList.push_of_room {l : RecencyList α} {v : α}
    (h : l.entries.any (fun x => pred (key v) (key x)) = false)
    (hb : ¬ l.bound < l.entries.length) :
    l.push key pred v = ⟨v :: l.entries, l.bound⟩ := by
  unfold RecencyList.push
  rw [if_neg (by simp [h]), if_neg hb]

theorem RecencyList.push_entries (l : RecencyList α) (v : α) :
    ∃ rest, (l.push key pred v).entries = v :: rest ∧ rest.Sublist l.entries ∧
      ∀ x ∈ rest, pred (key v) (key x) = false := by
  cases ha : l.entries.any (fun x => pred (key v) (key x)) with
  | true =>
    rw [push_of_mem ha]
    refine ⟨_, rfl, List.filter_sublist, ?_⟩
    intro x hx
    simpa using (List.mem_filter.mp hx).2
  | false =>
    have hno : ∀ x ∈ l.entries, pred (key v) (key x) = false := by simpa using ha
    by_cases hb : l.bound < l.entries.length
    · rw [push_of_full ha hb]
      exact ⟨_, rfl, List.dropLast_sublist _, fun x hx => hno x (List.mem_of_mem_dropLast hx)⟩
    · rw [push_of_room ha hb]
      exact ⟨_, rfl, .refl _, hno⟩

/-- The bound does not come into the operation. -/
def RecencyOp.Fits (key : α → κ) (pred : κ → κ → Bool) (l : RecencyList α) : RecencyOp κ α → Prop
  | .push v =>
    l.entries.any (fun x => pred (key v) (key x)) = true ∨ l.entries.length ≤ l.bound
  | .shrink => l.entries.length ≤ l.bound
  | .setBound n => l.entries.length ≤ n
  | .eraseAt _ | .eraseRange _ _ | .eraseKey _ | .clear => True

/-- What the operation does to a list that may grow as it likes. -/
def RecencyOp.unbounded (key : α → κ) (pred : κ → κ → Bool) (entries : List α) :
    RecencyOp κ α → List α
  | .push v => v :: entries.filter (fun x => !pred (key v) (key x))
  | .eraseAt i => entries.eraseIdx i
  | .eraseRange i n => entries.take i ++ entries.drop (i + n)
  | .eraseKey k => entries.filter (fun x => !pred k (key x))
  | .clear => []
  | .shrink | .setBound _ => entries

theorem filter_not_eq_self_of_any {p : α → Bool} {l : List α} (h : l.any p = false) :
    l.filter (fun x => !p x) = l := by
  rw [List.filter_eq_self]
  intro x hx
  simpa using List.any_eq_false.mp h x hx

theorem RecencyList.step_eq_unbounded {l : RecencyList α} {op : RecencyOp κ α}
    (h : op.Fits key pred l) :
    (l.step key pred op).entries = op.unbounded key pred l.entries := by
  cases op with
  | push v =>
    cases hany : l.entries.any (fun x => pred (key v) (key x)) with
    | true => exact congrArg RecencyList.entries (push_of_mem hany)
    | false =>
      have hroom : ¬ l.bound < l.entries.length := by
        rcases h with h | h
        · simp [hany] at h
        · exact not_lt.mpr h
      have hself := filter_not_eq_self_of_any (p := fun x => pred (key v) (key x)) hany
      exact (congrArg RecencyList.entries (push_of_room hany hroom)).trans
        (congrArg (v :: ·) hself.symm)
  | shrink => exact List.take_of_length_le h
  | setBound n => exact List.take_of_length_le h
  | eraseAt _ | eraseRange _ _ | eraseKey _ | clear => rfl

theorem RecencyList.length_step_lt {l : RecencyList α} {op : RecencyOp κ α}
    (h : ¬ op.Fits key pred l) :
    (l.step key pred op).entries.length < (op.unbounded key pred l.entries).length := by
  cases op with
  | push v =>
    simp only [RecencyOp.Fits, not_or, Bool.not_eq_true, not_le] at h
    have hself := filter_not_eq_self_of_any (p := fun x => pred (key v) (key x)) h.1
    change (l.push key pred v).entries.length < (v :: List.filter _ _).length
    rw [push_of_full h.1 h.2, hself, List.length_cons, List.length_cons, List.length_dropLast]
    omega
  | shrink =>
    simp only [RecencyOp.Fits, not_le] at h
    change (l.entries.take l.bound).length < l.entries.length
    rw [List.length_take]
    omega
  | setBound n =>
    simp only [RecencyOp.Fits, not_le] at h
    change (l.entries.take n).length < l.entries.length
    rw [List.length_take]
    omega
  | eraseAt _ | eraseRange _ _ | eraseKey _ | clear => exact absurd trivial h

/-- Entries of different keys pushed into an empty list stand in it the other way round, as
far as they fit. -/
theorem RecencyList.foldl_push_of_distinct (hsymm : ∀ k k', pred k k' = pred k' k) {l : List α}
    (hl : l.Pairwise fun x y => pred (key x) (key y) = false) (bound : Nat) :
    l.foldl (push key pred) ⟨[], bound⟩ = ⟨l.reverse.take (bound + 1), bound⟩ := by
  induction l using List.reverseRecOn with
  | nil => rfl
  | append_singleton l v ih =>
    obtain ⟨hpre, -, hlast⟩ := List.pairwise_append.mp hl
    have hno : (l.reverse.take (bound + 1)).any (fun x => pred (key v) (key x)) = false := by
      rw [List.any_eq_false]
      intro x hx
      have hxl : x ∈ l := List.mem_reverse.mp (List.mem_of_mem_take hx)
      rw [hsymm, hlast x hxl v (by simp)]
      exact Bool.false_ne_true
    rw [List.foldl_append, List.foldl_cons, List.foldl_nil, ih hpre, List.reverse_append,
      List.reverse_singleton, List.singleton_append, List.take_succ_cons]
    by_cases hfull : bound < (l.reverse.take (bound + 1)).length
    · have hlen : (l.reverse.take (bound + 1)).length = bound + 1 :=
        Nat.le_antisymm (List.length_take_le _ _) hfull
      rw [push_of_full hno hfull, List.dropLast_eq_take, hlen, List.take_take,
        Nat.min_eq_left (by omega), Nat.add_sub_cancel]
    · rw [push_of_room hno hfull]
      have hshort : l.reverse.length ≤ bound := by
        rw [List.length_take] at hfull
        omega
      rw [List.take_of_length_le (by omega), List.take_of_length_le hshort]

/-- A list within its bound stays within it exactly when no new key is pushed into a list
that is full. -/
theorem RecencyList.step_bounded_iff (key : α → κ) (pred : κ → κ → Bool) {l : RecencyList α}
    (hl : l.entries.length ≤ l.bound) (op : RecencyOp κ α) :
    (l.step key pred op).entries.length ≤ (l.step key pred op).bound ↔
      ∀ v, op.pushed = some v →
        l.entries.any (fun x => pred (key v) (key x)) = true ∨ l.entries.length < l.bound := by
  cases op with
  | push v =>
    simp only [RecencyOp.pushed, Option.some.injEq, forall_eq', RecencyList.step]
    cases ha : l.entries.any (fun x => pred (key v) (key x)) with
    | true =>
      obtain ⟨x, hx, hp⟩ := List.any_eq_true.mp ha
      have hlt : (l.entries.filter (fun x => !pred (key v) (key x))).length < l.entries.length :=
        List.length_filter_lt_length_iff_exists.mpr ⟨x, hx, by simp [hp]⟩
      rw [push_of_mem ha]
      simp only [List.length_cons, true_or, iff_true]
      omega
    | false =>
      rw [push_of_room ha (not_lt.mpr hl)]
      simp only [List.length_cons, Bool.false_eq_true, false_or]
      omega
  | eraseAt i =>
    have hle := (List.eraseIdx_sublist l.entries i).length_le
    simpa [RecencyOp.pushed, RecencyList.step] using hle.trans hl
  | eraseRange i n =>
    simp only [RecencyOp.pushed, RecencyList.step, List.length_append, List.length_take,
      List.length_drop, reduceCtorEq, false_imp_iff, implies_true, iff_true]
    omega
  | eraseKey k =>
    have hle := List.length_filter_le (fun x => !pred k (key x)) l.entries
    simpa [RecencyOp.pushed, RecencyList.step] using hle.trans hl
  | clear => simp [RecencyOp.pushed, RecencyList.step]
  | shrink => simp [RecencyOp.pushed, RecencyList.step]
  | setBound n => simp [RecencyOp.pushed, RecencyList.step]

/-- A push into a list with room left takes out nothing but the old entry of its key. -/
theorem RecencyList.mem_push_of_room {l : RecencyList α} {v x : α}
    (hroom : l.entries.length < l.bound) (hx : x ∈ l.entries)
    (hne : pred (key v) (key x) = false) : x ∈ (l.push key pred v).entries := by
  cases ha : l.entries.any (fun x => pred (key v) (key x)) with
  | true =>
    rw [push_of_mem ha]
    exact List.mem_cons_of_mem _ (List.mem_filter.mpr ⟨hx, by simp [hne]⟩)
  | false =>
    rw [push_of_room ha (not_lt.mpr hroom.le)]
    exact List.mem_cons_of_mem _ hx

theorem RecencyList.step_valid {l : RecencyList α} {h : History α}
    (hv : History.Valid key pred h) (hc : h.current = l.entries) (op : RecencyOp κ α) :
    History.Valid key pred ((op.pushed, (l.step key pred op).entries) :: h) := by
  cases op with
  | push v =>
    obtain ⟨rest, he, hsub, hno⟩ : ∃ rest, (l.push key pred v).entries = v :: rest ∧
        rest.Sublist l.entries ∧ ∀ x ∈ rest, pred (key v) (key x) = false := l.push_entries v
    change History.Valid key pred ((some v, (l.push key pred v).entries) :: h)
    rw [he]
    exact .push hv (hc ▸ hsub) hno
  | eraseAt i => exact .drop hv (hc ▸ List.eraseIdx_sublist _ _)
  | eraseRange i n =>
    refine .drop hv ?_
    rw [hc]
    have hsub : (l.entries.take i ++ l.entries.drop (i + n)).Sublist
        (l.entries.take i ++ l.entries.drop i) := by
      rw [← List.drop_drop]
      exact (List.drop_sublist n _).append_left _
    rwa [List.take_append_drop] at hsub
  | eraseKey k => exact .drop hv (hc ▸ List.filter_sublist)
  | clear => exact .drop hv (List.nil_sublist _)
  | shrink => exact .drop hv (hc ▸ List.take_sublist _ _)
  | setBound n => exact .drop hv (hc ▸ List.take_sublist _ _)

theorem History.Valid.pairwise {h : History α} (hv : History.Valid key pred h) :
    h.current.Pairwise (fun x y => pred (key x) (key y) = false) := by
  induction hv with
  | nil => exact .nil
  | drop _ hsub ih => exact ih.sublist hsub
  | push _ hsub hno ih => exact .cons hno (ih.sublist hsub)

theorem History.Valid.lastPush_eq (hrefl : ∀ k, pred k k = true)
    (hsymm : ∀ k k', pred k k' = pred k' k) {h : History α} (hv : History.Valid key pred h)
    {x : α} (hx : x ∈ h.current) :
    ∃ t, h.lastPush (fun y => pred (key x) (key y)) = some (t, x) := by
  induction hv with
  | nil => simp [History.current] at hx
  | drop _ hsub ih => exact ih (hsub.subset hx)
  | @push h v l _ hsub hno ih =>
    rcases List.mem_cons.mp hx with rfl | hx
    · exact ⟨h.length, by simp [History.lastPush, hrefl]⟩
    · obtain ⟨t, ht⟩ := ih (hsub.subset hx)
      have hne : pred (key x) (key v) = false := by rw [hsymm]; exact hno x hx
      exact ⟨t, by simpa [History.lastPush, hne] using ht⟩

theorem History.lastPush_lt {p : α → Bool} {h : History α} {t : Nat} {v : α}
    (ht : h.lastPush p = some (t, v)) : t < h.length := by
  induction h with
  | nil => simp [History.lastPush] at ht
  | cons e h ih =>
    obtain ⟨o, l⟩ := e
    cases o with
    | none => exact (ih ht).trans (by simp)
    | some w =>
      by_cases hp : p w = true
      · simp only [History.lastPush, hp, if_true, Option.some.injEq, Prod.mk.injEq] at ht
        simp [← ht.1]
      · simp only [History.lastPush, hp, Bool.false_eq_true, if_false] at ht
        exact (ih ht).trans (by simp)

theorem History.Valid.decreasing (hrefl : ∀ k, pred k k = true)
    (hsymm : ∀ k k', pred k k' = pred k' k) {h : History α} (hv : History.Valid key pred h) :
    h.current.Pairwise (fun x y => ∃ s t,
      h.lastPush (fun z => pred (key x) (key z)) = some (s, x) ∧
      h.lastPush (fun z => pred (key y) (key z)) = some (t, y) ∧ t < s) := by
  induction hv with
  | nil => exact .nil
  | drop _ hsub ih => exact ih.sublist hsub
  | @push h v l hv hsub hno ih =>
    have hold : ∀ x ∈ l, pred (key x) (key v) = false := fun x hx => by
      rw [hsymm]; exact hno x hx
    refine .cons ?_ ?_
    · intro y hy
      obtain ⟨t, ht⟩ := hv.lastPush_eq hrefl hsymm (hsub.subset hy)
      exact ⟨h.length, t, by simp [History.lastPush, hrefl],
        by simpa [History.lastPush, hold y hy] using ht, History.lastPush_lt ht⟩
    · refine (ih.sublist hsub).imp_of_mem ?_
      intro x y hx hy hxy
      simpa [History.lastPush, hold x hx, hold y hy] using hxy

theorem eq_of_pairwise_class {p : α → Bool}
    (hp : ∀ x y, p x = true → p y = true → pred (key x) (key y) = true) {l : List α}
    (hl : l.Pairwise (fun x y => pred (key x) (key y) = false)) {x y : α}
    (hx : x ∈ l) (hy : y ∈ l) (hpx : p x = true) (hpy : p y = true) : x = y := by
  induction l with
  | nil => simp at hx
  | cons z l ih =>
    obtain ⟨hz, hl⟩ := List.pairwise_cons.mp hl
    rcases List.mem_cons.mp hx with rfl | hx' <;> rcases List.mem_cons.mp hy with rfl | hy'
    · rfl
    · exact absurd (hp _ _ hpx hpy) (by simp [hz y hy'])
    · exact absurd (hp _ _ hpy hpx) (by simp [hz x hx'])
    · exact ih hl hx' hy'

theorem find?_eq_of_sublist {p : α → Bool}
    (hp : ∀ x y, p x = true → p y = true → pred (key x) (key y) = true) {l m : List α}
    (hm : m.Pairwise (fun x y => pred (key x) (key y) = false)) (hsub : l.Sublist m)
    (hany : l.any p = true) : l.find? p = m.find? p := by
  obtain ⟨x, hx, hpx⟩ := List.any_eq_true.mp hany
  cases hl : l.find? p with
  | none => exact absurd hpx (List.find?_eq_none.mp hl x hx)
  | some y =>
    cases hmf : m.find? p with
    | none => exact absurd hpx (List.find?_eq_none.mp hmf x (hsub.subset hx))
    | some z =>
      have he := eq_of_pairwise_class hp hm (hsub.subset (List.mem_of_find?_eq_some hl))
        (List.mem_of_find?_eq_some hmf) (List.find?_some hl) (List.find?_some hmf)
      rw [he]

/-- Looking a key up gives the value of its last push, unless an operation since then
has removed it. -/
theorem History.Valid.find?_eq {p : α → Bool}
    (hp : ∀ x y, p x = true → p y = true → pred (key x) (key y) = true)
    {h : History α} (hv : History.Valid key pred h) :
    h.current.find? p =
      if h.removedSince p then none else (h.lastPush p).map Prod.snd := by
  have keep : ∀ {h : History α} {l : List α}, History.Valid key pred h →
      l.Sublist h.current →
      h.current.find? p = (if h.removedSince p then none else (h.lastPush p).map Prod.snd) →
      l.find? p = if h.current.any p && !l.any p || h.removedSince p then none
        else (h.lastPush p).map Prod.snd := by
    intro h l hv hsub ih
    by_cases hl : l.any p = true
    · rw [find?_eq_of_sublist hp hv.pairwise hsub hl, ih]
      simp [hl]
    · have hnone : l.find? p = none := by
        simpa [List.find?_eq_none] using hl
      rw [hnone]
      by_cases hc : h.current.any p = true
      · simp [hl, hc]
      · have hcn : h.current.find? p = none := by
          simpa [List.find?_eq_none] using hc
        have hca : h.current.any p = false := Bool.eq_false_iff.mpr hc
        rw [hca, Bool.false_and, Bool.false_or]
        exact hcn.symm.trans ih
  induction hv with
  | nil => rfl
  | @drop h l hv hsub ih =>
    have hk := keep hv hsub ih
    simpa [History.removedSince, History.lastPush, History.current] using hk
  | @push h v l hv hsub hno ih =>
    have hk := keep hv hsub ih
    by_cases hpv : p v = true
    · simp [History.current, History.removedSince, History.lastPush, hpv]
    · simpa [History.removedSince, History.lastPush, History.current, hpv] using hk

end Recency

end Acqua
