import Mathlib

/-! A timer with asynchronous waits: every wait ends in a completion, which is queued when the
time has come or the wait is aborted and runs at some later moment. Beside it, a sequence that
is kept in the order of a key. -/

namespace Acqua

section WaitTimer

inductive WaitResult
  | expired
  | aborted
  deriving DecidableEq

/-- The time the timer is set to, the number of waits on it, and the completions that are
queued. -/
structure WaitTimer (τ : Type*) where
  expiry : Option τ
  waiting : Nat
  queue : List WaitResult
  deriving DecidableEq

namespace WaitTimer

variable {τ : Type*}

def init : WaitTimer τ := ⟨none, 0, []⟩

def cancel (t : WaitTimer τ) : WaitTimer τ :=
  { t with waiting := 0, queue := t.queue ++ List.replicate t.waiting .aborted }

/-- Sets the timer anew, which aborts the waits on it. -/
def expiresAt (t : WaitTimer τ) (time : τ) : WaitTimer τ :=
  { t.cancel with expiry := some time }

def asyncWait (t : WaitTimer τ) : WaitTimer τ := { t with waiting := t.waiting + 1 }

def expire [LE τ] [DecidableLE τ] (t : WaitTimer τ) (now : τ) : WaitTimer τ :=
  if t.expiry.any (· ≤ now) then
    { t with waiting := 0, queue := t.queue ++ List.replicate t.waiting .expired }
  else t

/-- Takes the completion at `i`, as any of the queued ones may be the next to run. -/
def dequeue (t : WaitTimer τ) (i : Nat) : WaitTimer τ := { t with queue := t.queue.eraseIdx i }

/-- The completions of waits whose time has come that are queued. -/
def completions (t : WaitTimer τ) : Nat := t.queue.count .expired

@[simp]
theorem completions_cancel (t : WaitTimer τ) : t.cancel.completions = t.completions := by
  simp [completions, cancel, List.count_replicate]

@[simp]
theorem completions_expiresAt (t : WaitTimer τ) (time : τ) :
    (t.expiresAt time).completions = t.completions := t.completions_cancel

@[simp]
theorem completions_asyncWait (t : WaitTimer τ) : t.asyncWait.completions = t.completions := rfl

theorem completions_expire [LE τ] [DecidableLE τ] {t : WaitTimer τ} {now : τ}
    (h : t.expiry.any (· ≤ now) = true) :
    (t.expire now).completions = t.completions + t.waiting := by
  simp [completions, expire, h]

/-- The completion at `i` is one of those that are counted. -/
theorem completions_dequeue {t : WaitTimer τ} {i : Nat} {r : WaitResult}
    (hi : t.queue[i]? = some r) :
    t.completions = (t.dequeue i).completions + if r = .expired then 1 else 0 := by
  obtain ⟨hlt, rfl⟩ := List.getElem?_eq_some_iff.mp hi
  have hperm : (t.queue[i] :: t.queue.eraseIdx i).Perm t.queue :=
    List.getElem_cons_eraseIdx_perm hlt
  rw [completions, ← hperm.count_eq, List.count_cons, completions, dequeue]
  simp only [beq_iff_eq]

/-- A wait goes on, or one has come to its time and its completion is still to run. -/
def Pending (t : WaitTimer τ) : Prop := 0 < t.waiting ∨ .expired ∈ t.queue

instance (t : WaitTimer τ) : Decidable t.Pending := inferInstanceAs (Decidable (_ ∨ _))

theorem pending_asyncWait (t : WaitTimer τ) : t.asyncWait.Pending := .inl (Nat.succ_pos _)

theorem Pending.expire [LE τ] [DecidableLE τ] {t : WaitTimer τ} (h : t.Pending) (now : τ) :
    (t.expire now).Pending := by
  unfold WaitTimer.expire
  by_cases hnow : t.expiry.any (· ≤ now) = true
  · rw [if_pos hnow]
    right
    rcases h with h | h
    · exact List.mem_append_right _ (List.mem_replicate.mpr ⟨h.ne', rfl⟩)
    · exact List.mem_append_left _ h
  · rwa [if_neg hnow]

theorem mem_queue_expire [LE τ] [DecidableLE τ] {t : WaitTimer τ} {r : WaitResult}
    (h : r ∈ t.queue) (now : τ) : r ∈ (t.expire now).queue := by
  unfold expire
  by_cases hnow : t.expiry.any (· ≤ now) = true
  · rw [if_pos hnow]
    exact List.mem_append_left _ h
  · rwa [if_neg hnow]

theorem mem_queue_cancel {t : WaitTimer τ} (h : t.Pending) :
    .expired ∈ t.cancel.queue ∨ .aborted ∈ t.cancel.queue := by
  rcases h with h | h
  · exact .inr (List.mem_append_right _ (List.mem_replicate.mpr ⟨h.ne', rfl⟩))
  · exact .inl (List.mem_append_left _ h)

theorem mem_queue_dequeue {t : WaitTimer τ} {i : Nat} {r r' : WaitResult}
    (hi : t.queue[i]? = some r') (hne : r ≠ r') (h : r ∈ t.queue) : r ∈ (t.dequeue i).queue := by
  obtain ⟨j, hj, rfl⟩ := List.mem_iff_getElem.mp h
  have hij : j ≠ i := by
    rintro rfl
    exact hne (Option.some.inj ((List.getElem?_eq_getElem hj).symm.trans hi))
  exact List.mem_eraseIdx_iff_getElem.mpr ⟨j, hj, hij, rfl⟩

end WaitTimer

end WaitTimer

section Sorted

variable {α τ : Type*} [LT τ] [DecidableLT τ]

/-- Where a sorted sequence with a hint at its beginning takes a new element: in front of the
first one that is not less. -/
def lowerBound (key : α → τ) (l : List α) (time : τ) : Nat :=
  (l.takeWhile fun b => decide (key b < time)).length

def emplaceAt (l : List α) (n : Nat) (a : α) : List α := l.take n ++ a :: l.drop n

theorem emplaceAt_ne_nil (l : List α) (n : Nat) (a : α) : emplaceAt l n a ≠ [] := by
  simp [emplaceAt]

theorem emplaceAt_lowerBound (key : α → τ) (l : List α) (time : τ) (a : α) :
    emplaceAt l (lowerBound key l time) a =
      (l.takeWhile fun b => decide (key b < time)) ++ a ::
        l.dropWhile fun b => decide (key b < time) := by
  unfold emplaceAt lowerBound
  have hsplit := List.takeWhile_append_dropWhile (p := fun b => decide (key b < time)) (l := l)
  congr 2
  · exact (congrArg (List.take _) hsplit.symm).trans (List.take_left' rfl)
  · exact (congrArg (List.drop _) hsplit.symm).trans (List.drop_left' rfl)

end Sorted

end Acqua
