import Acqua.Asio.SimpleServer

/-! `cancel` of a `simple_server`: which later events start another accept. -/

namespace Acqua

namespace Asio

namespace SimpleServer

/-- The accepts that an action completes. -/
def Action.completed : Action → Nat
  | .accept | .fail => 1
  | _ => 0

/-- More accepts are pending than those that were and were not completed. -/
def Initiates (b : SimpleServerBase) (a : Action) (b' : SimpleServerBase) : Prop :=
  b.pending < b'.pending + a.completed

def LaterStep (b b' : SimpleServerBase) : Prop := ∃ a, a ≠ .start ∧ step b a = some b'

/-- No accept is initiated between a `cancel` in this state and the next `start`. -/
def StopsAccepting (b : SimpleServerBase) : Prop :=
  ∀ b₁ b₂ a, Relation.ReflTransGen LaterStep b.cancel b₁ → a ≠ .start → step b₁ a = some b₂ →
    ¬ Initiates b₁ a b₂

/-- A server that neither runs nor waits for a slot. -/
structure Quiet (b : SimpleServerBase) : Prop where
  notRunning : b.isRunning = false
  notWaiting : b.isWaiting = false

section Quiet

variable {b b' : SimpleServerBase}

theorem onDisconnect_of_not_waiting (h : b.isWaiting = false) :
    b.onDisconnect.isRunning = b.isRunning ∧ b.onDisconnect.isWaiting = false ∧
      b.onDisconnect.pending = b.pending := by
  by_cases hstopped : b.stopped
  · simp [SimpleServerBase.onDisconnect, SimpleServerBase.decl, hstopped, h]
  · rw [SimpleServerBase.onDisconnect_of_not_rearm hstopped (by simp [h])]
    exact ⟨rfl, h, rfl⟩

theorem onAccept_of_quiet (h : Quiet b) (error : Bool) :
    (b.onAccept error).isRunning = false ∧ (b.onAccept error).isWaiting = false ∧
      (b.onAccept error).pending = b.pending := by
  cases error with
  | true =>
    obtain ⟨hrunning, hwaiting, hpending⟩ :=
      onDisconnect_of_not_waiting (b := { b with isRunning := false, isWaiting := false }) rfl
    rw [SimpleServerBase.onAccept, if_pos rfl]
    exact ⟨hrunning, hwaiting, hpending⟩
  | false =>
    obtain ⟨hrunning, hwaiting, hpending⟩ := onDisconnect_of_not_waiting h.notWaiting
    have hdropped : b.onAccept false = b.onDisconnect := by
      simp [SimpleServerBase.onAccept, h.notRunning]
    rw [hdropped]
    exact ⟨hrunning.trans h.notRunning, hwaiting, hpending⟩

/-- What is completed or released while the server is quiet is not replaced. -/
theorem Quiet.step (h : Quiet b) {a : Action} (ha : a ≠ .start) (hstep : step b a = some b') :
    Quiet b' ∧ b'.pending + a.completed = b.pending := by
  have hcomplete (error : Bool) (hc : b.completeAccept error = some b') :
      Quiet b' ∧ b'.pending + 1 = b.pending := by
    unfold SimpleServerBase.completeAccept at hc
    split_ifs at hc with hpos
    obtain rfl := Option.some.inj hc
    obtain ⟨hrunning, hwaiting, hpending⟩ := onAccept_of_quiet
      (b := { b with pending := b.pending - 1 }) ⟨h.notRunning, h.notWaiting⟩ error
    refine ⟨⟨hrunning, hwaiting⟩, ?_⟩
    rw [hpending]
    exact Nat.sub_add_cancel hpos
  cases a with
  | start => exact absurd rfl ha
  | cancel =>
    obtain rfl := Option.some.inj hstep
    exact ⟨⟨rfl, h.notWaiting⟩, rfl⟩
  | close =>
    obtain rfl := Option.some.inj hstep
    exact ⟨⟨rfl, h.notWaiting⟩, rfl⟩
  | accept => exact hcomplete false hstep
  | fail => exact hcomplete true hstep
  | disconnect =>
    simp only [SimpleServer.step, SimpleServerBase.release] at hstep
    split_ifs at hstep with hlive
    obtain rfl := Option.some.inj hstep
    obtain ⟨hrunning, hwaiting, hpending⟩ :=
      onDisconnect_of_not_waiting (b := { b with live := b.live - 1 }) h.notWaiting
    exact ⟨⟨hrunning.trans h.notRunning, hwaiting⟩, hpending⟩

theorem Quiet.reachable (h : Quiet b) (hreach : Relation.ReflTransGen LaterStep b b') :
    Quiet b' := by
  induction hreach with
  | refl => exact h
  | tail _ hstep ih =>
    obtain ⟨a, ha, hstep⟩ := hstep
    exact (ih.step ha hstep).1

theorem stopsAccepting_of_not_waiting (h : b.isWaiting = false) : StopsAccepting b := by
  intro b₁ b₂ a hreach ha hstep hinit
  have hquiet : Quiet b₁ := Quiet.reachable (b := b.cancel) ⟨rfl, h⟩ hreach
  have hpending := (hquiet.step ha hstep).2
  rw [Initiates] at hinit
  omega

/-- The deleter of a connector does not look at `is_running_`. -/
theorem not_stopsAccepting_of_live (hstopped : ¬ b.stopped) (hroom : b.useCount - 1 < b.maxCount)
    (hwaiting : b.isWaiting) (hlive : 0 < b.live) : ¬ StopsAccepting b := by
  intro h
  refine h b.cancel _ .disconnect .refl (fun he => nomatch he) (if_pos hlive) ?_
  rw [SimpleServerBase.onDisconnect_rearm (b := { b.cancel with live := b.cancel.live - 1 })
    hstopped hroom hwaiting]
  exact Nat.lt_succ_self _

/-- Nor does it when the connector is that of an accept that is dropped. -/
theorem not_stopsAccepting_of_pending (hstopped : ¬ b.stopped)
    (hroom : b.useCount - 1 < b.maxCount) (hwaiting : b.isWaiting) (hpending : 0 < b.pending) :
    ¬ StopsAccepting b := by
  intro h
  refine h b.cancel _ .accept .refl (fun he => nomatch he) (if_pos hpending) ?_
  have hdropped : { b.cancel with pending := b.cancel.pending - 1 }.onAccept false =
      { b.cancel with pending := b.cancel.pending - 1 }.onDisconnect := by
    simp [SimpleServerBase.onAccept, SimpleServerBase.cancel]
  rw [hdropped, SimpleServerBase.onDisconnect_rearm
    (b := { b.cancel with pending := b.cancel.pending - 1 }) hstopped hroom hwaiting]
  change b.pending < b.pending - 1 + 1 + 1
  omega

end Quiet

/-- A `cancel` stops a server that is not at its limit, and no other. -/
theorem stopsAccepting_iff {m : Nat} (hm : 1 ≤ m) {b : SimpleServerBase}
    (h : Reachable (listening m) b) : StopsAccepting b ↔ b.useCount < m := by
  obtain ⟨hstopped, hlimit, hcounted, hbounded, hwaiting, -⟩ := admitted_reachable hm h
  constructor
  · intro hstops
    by_contra hfull
    have hfull : b.useCount = m := by omega
    have hroom : b.useCount - 1 < b.maxCount := by omega
    rcases Nat.eq_zero_or_pos b.live with hlive | hlive
    · exact not_stopsAccepting_of_pending hstopped hroom (hwaiting.mpr hfull) (by omega) hstops
    · exact not_stopsAccepting_of_live hstopped hroom (hwaiting.mpr hfull) hlive hstops
  · intro hroom
    refine stopsAccepting_of_not_waiting (Bool.eq_false_iff.mpr fun hw => ?_)
    have hfull := hwaiting.mp hw
    omega

theorem stopsAccepting_iff_of_two :
    let b : SimpleServerBase := ⟨⟨true, true, false, 1, 0⟩, 1, 2, false⟩
    StopsAccepting b ↔ b.useCount < 2 :=
  stopsAccepting_iff (by decide) (.single ⟨.start, rfl⟩)

theorem not_stopsAccepting_of_one :
    ∃ b, Reachable (listening 1) b ∧ b.live = 1 ∧ b.pending = 0 ∧ ¬ StopsAccepting b :=
  ⟨⟨⟨true, true, true, 0, 1⟩, 1, 1, false⟩, .tail (.single ⟨.start, rfl⟩) ⟨.accept, rfl⟩, rfl, rfl,
    not_stopsAccepting_of_live (by decide) (by decide) rfl (by decide)⟩

end SimpleServer

end Asio

end Acqua
