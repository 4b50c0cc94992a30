import Acqua.Library.Run
import Acqua.Library.WaitTimer

/-! `beat_timer.hpp`: waiters with a time each, served by one timer. -/

namespace Acqua

namespace Asio

variable {τ α : Type*}

/-- `map_` holds what the waiters are called back with; `ran` is what they were called back
with so far, the latest first. -/
structure BeatTimer (τ α : Type*) where
  timer : WaitTimer τ
  map : List (τ × α)
  cancelRequest : Bool
  ran : List (α × WaitResult)
  deriving DecidableEq

namespace BeatTimer

inductive Call (τ α : Type*)
  | asyncWait (time : τ) (args : α)
  | cancel

/-- `run i calls` executes the completion at `i` of the queue, where the waiters that it calls
back make the calls `calls`, one list for each of them. -/
inductive Event (τ α : Type*)
  | call (c : Call τ α)
  | expire (now : τ)
  | run (i : Nat) (calls : List (List (Call τ α)))

def init : BeatTimer τ α := ⟨.init, [], false, []⟩

def arm (b : BeatTimer τ α) : BeatTimer τ α :=
  match b.map with
  | [] => b
  | (time, _) :: _ => { b with timer := (b.timer.expiresAt time).asyncWait }

def cancel (b : BeatTimer τ α) : BeatTimer τ α :=
  { b with timer := b.timer.cancel, cancelRequest := true }

/-- Takes the first waiter out and calls it back. -/
def pop (b : BeatTimer τ α) (r : WaitResult) : BeatTimer τ α :=
  match b.map with
  | [] => b
  | (_, args) :: map => { b with map := map, ran := (args, r) :: b.ran }

section Calls

variable [LT τ] [DecidableLT τ]

def asyncWait (b : BeatTimer τ α) (time : τ) (args : α) : BeatTimer τ α :=
  let it := lowerBound Prod.fst b.map time
  let b := { b with map := emplaceAt b.map it (time, args) }
  if it = 0 ∧ b.cancelRequest = false then b.arm else b

def call (b : BeatTimer τ α) : Call τ α → BeatTimer τ α
  | .asyncWait time args => b.asyncWait time args
  | .cancel => b.cancel

/-- The loop of `on_wait` with an error. Waiters that `calls` says nothing of make no calls. -/
def onWaitLoop (b : BeatTimer τ α) : List (List (Call τ α)) → BeatTimer τ α
  | [] =>
    { b with map := [], ran := (b.map.map fun e => (e.2, WaitResult.aborted)).reverse ++ b.ran }
  | c :: calls => if b.map = [] then b else onWaitLoop (c.foldl call (b.pop .aborted)) calls

def onWait (b : BeatTimer τ α) (error : WaitResult) (calls : List (List (Call τ α))) :
    BeatTimer τ α :=
  match error with
  | .aborted =>
    if b.cancelRequest then { onWaitLoop b calls with cancelRequest := false } else b
  | .expired => if b.map = [] then b else ((calls.headD []).foldl call (b.pop .expired)).arm

end Calls

/-- Whoever waits has a wait going on, or a completion queued that calls a waiter back. -/
def Served (b : BeatTimer τ α) : Prop :=
  b.map ≠ [] → b.timer.Pending ∨ b.cancelRequest = true ∧ .aborted ∈ b.timer.queue

theorem arm_pending {b : BeatTimer τ α} (h : b.map ≠ []) : b.arm.timer.Pending := by
  unfold arm
  cases hmap : b.map with
  | nil => exact absurd hmap h
  | cons e map => exact WaitTimer.pending_asyncWait _

theorem served_arm (b : BeatTimer τ α) : b.arm.Served := by
  intro h
  by_cases hmap : b.map = []
  · rw [arm, hmap] at h
    exact absurd hmap h
  · exact .inl (arm_pending hmap)

theorem served_of_map_eq_nil {b : BeatTimer τ α} (h : b.map = []) : b.Served :=
  fun hne => absurd h hne

theorem Served.cancel {b : BeatTimer τ α} (h : b.Served) : b.cancel.Served := by
  intro hmap
  rcases h hmap with hp | ⟨-, hmem⟩
  · rcases WaitTimer.mem_queue_cancel hp with hexp | habt
    · exact .inl (.inr hexp)
    · exact .inr ⟨rfl, habt⟩
  · exact .inr ⟨rfl, List.mem_append_left _ hmem⟩

section Step

variable [LinearOrder τ]

def step (b : BeatTimer τ α) : Event τ α → BeatTimer τ α
  | .call c => b.call c
  | .expire now => { b with timer := b.timer.expire now }
  | .run i calls =>
    match b.timer.queue[i]? with
    | some error => { b with timer := b.timer.dequeue i }.onWait error calls
    | none => b

/-- The event is not a call of `async_wait` while a cancel request is on, no wait goes on and no
completion is queued. -/
def Answered (b : BeatTimer τ α) : Event τ α → Prop
  | .call (.asyncWait _ _) => b.cancelRequest = true → 0 < b.timer.waiting ∨ b.timer.queue ≠ []
  | .call .cancel | .expire _ | .run _ _ => True

theorem onWaitLoop_map (b : BeatTimer τ α) (calls : List (List (Call τ α))) :
    (b.onWaitLoop calls).map = [] := by
  induction calls generalizing b with
  | nil => rfl
  | cons c calls ih =>
    unfold onWaitLoop
    by_cases hmap : b.map = []
    · rwa [if_pos hmap]
    · rw [if_neg hmap]
      exact ih _

/-- With a cancel request on, the new waiter relies on what the timer has going on already. -/
theorem served_asyncWait_iff {b : BeatTimer τ α} (h : b.Served) (time : τ) (args : α) :
    (b.asyncWait time args).Served ↔
      (b.cancelRequest = true → 0 < b.timer.waiting ∨ b.timer.queue ≠ []) := by
  have hne := emplaceAt_ne_nil b.map (lowerBound Prod.fst b.map time) (time, args)
  unfold asyncWait
  by_cases harm : lowerBound Prod.fst b.map time = 0 ∧ b.cancelRequest = false
  · rw [if_pos harm]
    exact iff_of_true (served_arm _) fun hreq => by simp [harm.2] at hreq
  · rw [if_neg harm]
    cases hreq : b.cancelRequest with
    | true =>
      have hserved : (b.timer.Pending ∨ .aborted ∈ b.timer.queue) ↔
          (0 < b.timer.waiting ∨ b.timer.queue ≠ []) := by
        constructor
        · rintro ((hwait | hmem) | hmem)
          · exact .inl hwait
          · exact .inr (List.ne_nil_of_mem hmem)
          · exact .inr (List.ne_nil_of_mem hmem)
        · rintro (hwait | hqueue)
          · exact .inl (.inl hwait)
          · obtain ⟨r, hr⟩ := List.exists_mem_of_ne_nil _ hqueue
            cases r with
            | expired => exact .inl (.inr hr)
            | aborted => exact .inr hr
      constructor
      · intro hs _
        apply hserved.mp
        rcases hs hne with hp | ⟨-, hmem⟩
        · exact .inl hp
        · exact .inr hmem
      · intro hq _
        rcases hserved.mpr (hq rfl) with hp | hmem
        · exact .inl hp
        · exact .inr ⟨rfl, hmem⟩
    | false =>
      -- the new waiter is not the first one, and the first one is served
      refine iff_of_true (fun _ => ?_) (fun hf => absurd hf Bool.false_ne_true)
      have hmap : b.map ≠ [] := by
        intro hnil
        exact harm ⟨by simp [lowerBound, hnil], hreq⟩
      rcases h hmap with hp | ⟨hf, -⟩
      · exact .inl hp
      · simp [hreq] at hf

theorem Served.expire {b : BeatTimer τ α} (h : b.Served) (now : τ) :
    (b.step (.expire now)).Served := by
  intro hmap
  rcases h hmap with hp | ⟨hreq, hmem⟩
  · exact .inl (hp.expire now)
  · exact .inr ⟨hreq, WaitTimer.mem_queue_expire hmem now⟩

theorem Served.run {b : BeatTimer τ α} (h : b.Served) (i : Nat) (calls : List (List (Call τ α))) :
    (b.step (.run i calls)).Served := by
  cases hi : b.timer.queue[i]? with
  | none =>
    have hstep : b.step (.run i calls) = b := by simp only [step, hi]
    rwa [hstep]
  | some error =>
    have hstep : b.step (.run i calls) =
        { b with timer := b.timer.dequeue i }.onWait error calls := by simp only [step, hi]
    rw [hstep]
    cases error with
    | expired =>
      by_cases hmap : b.map = []
      · simp only [onWait, if_pos hmap]
        exact served_of_map_eq_nil hmap
      · simp only [onWait, if_neg hmap]
        exact served_arm _
    | aborted =>
      cases hreq : b.cancelRequest with
      | true =>
        simp only [onWait, if_true]
        exact served_of_map_eq_nil (onWaitLoop_map _ calls)
      | false =>
        simp only [onWait, Bool.false_eq_true, if_false]
        intro hmap
        rcases h hmap with (hwait | hmem) | ⟨htrue, -⟩
        · exact .inl (.inl hwait)
        · exact .inl (.inr (WaitTimer.mem_queue_dequeue hi (by decide) hmem))
        · simp [hreq] at htrue

theorem served_step_iff {b : BeatTimer τ α} (h : b.Served) (ev : Event τ α) :
    (b.step ev).Served ↔ Answered b ev := by
  match ev with
  | .call (.asyncWait time args) => exact served_asyncWait_iff h time args
  | .call .cancel => exact iff_of_true h.cancel trivial
  | .expire now => exact iff_of_true (h.expire now) trivial
  | .run i calls => exact iff_of_true (h.run i calls) trivial

/-- No waiter is stranded in any state of a run exactly when none of its events calls
`async_wait` under a cancel request that nothing is left to answer. -/
theorem beat_timer_served_iff (events : List (Event τ α)) :
    EveryStep step (fun b ev => (b.step ev).Served) init events ↔
      EveryStep step Answered init events :=
  everyStep_congr_of_invariant (fun _ ev h => served_step_iff h ev)
    (fun _ ev h hq => (served_step_iff h ev).mpr hq) (served_of_map_eq_nil rfl)

end Step

theorem not_served_of_cancel_when_idle :
    (([.call .cancel, .call (.asyncWait 1 ())] : List (Event Nat Unit)).foldl step init) =
        ⟨.init, [(1, ())], true, []⟩ ∧
      ¬ ∀ events : List (Event Nat Unit), (events.foldl step init).Served := by
  refine ⟨by decide, fun h => ?_⟩
  have hs := h [.call .cancel, .call (.asyncWait 1 ())] (by decide)
  exact absurd hs (by decide)

end BeatTimer

end Asio

end Acqua
