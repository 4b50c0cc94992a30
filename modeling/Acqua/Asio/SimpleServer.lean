import Acqua.Asio.SimpleServerBase

/-! The admission control of `simple_server`, for any order of calls and completions. -/

namespace Acqua

namespace Asio

namespace SimpleServer

inductive Action
  | start
  | cancel
  | close
  | accept
  | fail
  | disconnect

/-- An action is not possible when there is nothing that it could complete or release. -/
def step (b : SimpleServerBase) : Action → Option SimpleServerBase
  | .start => some b.start.2
  | .cancel => some b.cancel
  | .close => some b.close
  | .accept => b.completeAccept false
  | .fail => b.completeAccept true
  | .disconnect => b.release

def Step (b b' : SimpleServerBase) : Prop := ∃ a, step b a = some b'

abbrev Reachable := Relation.ReflTransGen Step

/-- A server that listens and was not started yet. -/
def listening (m : Nat) : SimpleServerBase := ⟨⟨true, false, false, 0, 0⟩, 0, m, false⟩

/-- The waiting flag is set exactly when every slot is taken, and a server that runs either has
an accept pending or waits for one of `m` connections. -/
structure Admitted (m : Nat) (b : SimpleServerBase) : Prop where
  notStopped : ¬ b.stopped
  limit : b.maxCount = m
  counted : b.useCount = b.pending + b.live
  bounded : b.useCount ≤ m
  waiting : b.isWaiting ↔ b.useCount = m
  armed : b.isRunning → b.pending = 0 → b.useCount = m

section Admitted

variable {m : Nat} {b : SimpleServerBase}

theorem Admitted.asyncAccept (hstopped : ¬ b.stopped) (hlimit : b.maxCount = m)
    (hcounted : b.useCount = b.pending + b.live) (hbounded : b.useCount ≤ m)
    (hwaiting : b.isWaiting ↔ b.useCount = m) : Admitted m b.asyncAccept := by
  by_cases h : b.isWaiting
  · rw [SimpleServerBase.asyncAccept_of_waiting h]
    exact ⟨hstopped, hlimit, hcounted, hbounded, hwaiting, fun _ _ => hwaiting.mp h⟩
  · have hroom : b.useCount ≠ m := fun hfull => h (hwaiting.mpr hfull)
    rw [SimpleServerBase.asyncAccept_of_not_waiting h]
    refine ⟨hstopped, hlimit, ?_, ?_, ?_, ?_⟩
    · change b.useCount + 1 = b.pending + 1 + b.live
      omega
    · change b.useCount + 1 ≤ m
      omega
    · simp only [hlimit, decide_eq_true_eq]
      omega
    · intro _ hpending
      exact absurd hpending (Nat.succ_ne_zero _)

theorem Admitted.onDisconnect (hm : 1 ≤ m) (hstopped : ¬ b.stopped) (hlimit : b.maxCount = m)
    (hcounted : b.useCount = b.pending + b.live + 1) (hbounded : b.useCount ≤ m)
    (hwaiting : b.isWaiting → b.useCount = m) (hfull : b.isRunning → b.useCount = m → b.isWaiting)
    (harmed : b.isRunning → b.pending = 0 → b.useCount = m) : Admitted m b.onDisconnect := by
  have hroom : b.useCount - 1 < b.maxCount := by omega
  by_cases h : b.isWaiting
  · have hcount : b.useCount - 1 + 1 = m := by
      have huse := hwaiting h
      omega
    rw [SimpleServerBase.onDisconnect_rearm hstopped hroom h, hcount]
    refine ⟨hstopped, hlimit, ?_, le_rfl, by simp [hlimit], fun _ _ => rfl⟩
    change m = b.pending + 1 + b.live
    omega
  · rw [SimpleServerBase.onDisconnect_of_not_rearm hstopped fun hboth => h hboth.2]
    refine ⟨hstopped, hlimit, ?_, ?_, ?_, ?_⟩
    · change b.useCount - 1 = b.pending + b.live
      omega
    · change b.useCount - 1 ≤ m
      omega
    · change b.isWaiting ↔ b.useCount - 1 = m
      have hne : b.useCount - 1 ≠ m := by omega
      simp [h, hne]
    · intro hrunning hpending
      exact absurd (hfull hrunning (harmed hrunning hpending)) h

theorem admitted_listening (hm : 1 ≤ m) : Admitted m (listening m) where
  notStopped := by simp [listening]
  limit := rfl
  counted := rfl
  bounded := Nat.zero_le m
  waiting := by
    simp only [listening, Bool.false_eq_true, false_iff]
    omega
  armed := by simp [listening]

theorem Admitted.step (hm : 1 ≤ m) (hb : Admitted m b) {a : Action} {b' : SimpleServerBase}
    (h : step b a = some b') : Admitted m b' := by
  obtain ⟨hstopped, hlimit, hcounted, hbounded, hwaiting, harmed⟩ := hb
  cases a with
  | start =>
    obtain rfl := Option.some.inj h
    unfold SimpleServerBase.start
    by_cases hopen : b.isOpen
    · by_cases hrunning : b.isRunning
      · simp only [hopen, hrunning, if_true]
        exact ⟨hstopped, hlimit, hcounted, hbounded, hwaiting, harmed⟩
      · simp only [hopen, hrunning, if_true]
        exact .asyncAccept hstopped hlimit hcounted hbounded hwaiting
    · simp only [hopen]
      exact ⟨hstopped, hlimit, hcounted, hbounded, hwaiting, harmed⟩
  | cancel =>
    obtain rfl := Option.some.inj h
    exact ⟨hstopped, hlimit, hcounted, hbounded, hwaiting,
      fun hrunning => absurd hrunning Bool.false_ne_true⟩
  | close =>
    obtain rfl := Option.some.inj h
    exact ⟨hstopped, hlimit, hcounted, hbounded, hwaiting,
      fun hrunning => absurd hrunning Bool.false_ne_true⟩
  | accept =>
    simp only [SimpleServer.step, SimpleServerBase.completeAccept] at h
    split_ifs at h with hpending
    obtain rfl := Option.some.inj h
    by_cases hrunning : b.isRunning
    · have hcompleted : { b with pending := b.pending - 1 }.isRunning := hrunning
      rw [SimpleServerBase.onAccept_running hcompleted]
      refine .asyncAccept hstopped hlimit ?_ hbounded hwaiting
      change b.useCount = b.pending - 1 + (b.live + 1)
      omega
    · have hdropped : { b with pending := b.pending - 1 }.onAccept false =
          { b with pending := b.pending - 1 }.onDisconnect := by
        simp [SimpleServerBase.onAccept, hrunning]
      rw [hdropped]
      refine .onDisconnect hm hstopped hlimit ?_ hbounded hwaiting.mp
        (fun h => absurd h hrunning) (fun h => absurd h hrunning)
      change b.useCount = b.pending - 1 + b.live + 1
      omega
  | fail =>
    simp only [SimpleServer.step, SimpleServerBase.completeAccept] at h
    split_ifs at h with hpending
    obtain rfl := Option.some.inj h
    rw [SimpleServerBase.onAccept, if_pos rfl]
    refine .onDisconnect hm hstopped hlimit ?_ hbounded (fun h => absurd h Bool.false_ne_true)
      (fun h => absurd h Bool.false_ne_true) (fun h => absurd h Bool.false_ne_true)
    change b.useCount = b.pending - 1 + b.live + 1
    omega
  | disconnect =>
    simp only [SimpleServer.step, SimpleServerBase.release] at h
    split_ifs at h with hlive
    obtain rfl := Option.some.inj h
    refine .onDisconnect hm hstopped hlimit ?_ hbounded hwaiting.mp (fun _ => hwaiting.mpr) harmed
    change b.useCount = b.pending + (b.live - 1) + 1
    omega

theorem admitted_reachable (hm : 1 ≤ m) (h : Reachable (listening m) b) : Admitted m b := by
  induction h with
  | refl => exact admitted_listening hm
  | tail _ hstep ih =>
    obtain ⟨a, ha⟩ := hstep
    exact ih.step hm ha

end Admitted

/-- In every state that is reached, the count is that of the accepts and the connections, and a
server that has no accept pending will have one after the next release. -/
theorem simple_server_admission {m : Nat} (hm : 1 ≤ m) {b : SimpleServerBase}
    (h : Reachable (listening m) b) :
    b.useCount = b.pending + b.live ∧ b.useCount ≤ m ∧
      (b.isRunning → b.pending = 0 → b.isWaiting ∧ b.live = m ∧
        ∃ b', step b .disconnect = some b' ∧ b'.pending = 1) := by
  obtain ⟨hstopped, hlimit, hcounted, hbounded, hwaiting, harmed⟩ := admitted_reachable hm h
  refine ⟨hcounted, hbounded, fun hrunning hpending => ?_⟩
  have hfull := harmed hrunning hpending
  have hwait := hwaiting.mpr hfull
  have hlive : b.live = m := by omega
  refine ⟨hwait, hlive, _, if_pos (by omega), ?_⟩
  have hroom : b.useCount - 1 < b.maxCount := by omega
  have hrearm := SimpleServerBase.onDisconnect_rearm (b := { b with live := b.live - 1 })
    hstopped hroom hwait
  rw [hrearm]
  exact congrArg (· + 1) hpending

theorem simple_server_admission_of_one :
    let b : SimpleServerBase := ⟨⟨true, true, true, 0, 1⟩, 1, 1, false⟩
    b.useCount = b.pending + b.live ∧ b.useCount ≤ 1 ∧
      (b.isRunning → b.pending = 0 → b.isWaiting ∧ b.live = 1 ∧
        ∃ b', step b .disconnect = some b' ∧ b'.pending = 1) :=
  simple_server_admission le_rfl
    (.tail (.single ⟨.start, rfl⟩) ⟨.accept, rfl⟩)

end SimpleServer

end Asio

end Acqua
