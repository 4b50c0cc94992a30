import Acqua.Webclient.ClientSocket

/-! When the request of an https socket is written, for any order of completions and calls. -/

namespace Acqua

namespace Webclient

namespace ClientSocket

/-- Nothing is written before the handshake was reported, and the request is written once on a
connection where it was. -/
def WritesOnce (s : ClientSocket) : Prop :=
  s.early = 0 ∧ s.writes ≤ 1 ∧ (s.established → s.published → s.writes = 1)

/-- A result is not published while the flag is set for a connection without a handshake. -/
def StartsInTime (s : ClientSocket) : Event → Prop
  | .start => s.published ∨ ¬ s.isReady ∨ s.established
  | .complete .. => True

/-- Where a socket is: at most one operation is pending, and it tells the rest. -/
inductive Phase (s : ClientSocket) : Prop
  | connecting (op : Op) (hop : op = .connect1 ∨ op = .connect2) (hpending : s.pending = [op])
    (hready : ¬ s.isReady) (hestablished : ¬ s.established) (hwrites : s.writes = 0)
  | handshaking (hpending : s.pending = [.handshake]) (hready : s.isReady)
    (hestablished : ¬ s.established) (hwrites : s.writes = 0)
  | exchanging (hpending : s.pending = [] ∨ ∃ op, s.pending = [op] ∧
      (op = .write ∨ op = .read1 ∨ op = .read))
    (hready : ¬ s.isReady) (hestablished : s.established) (hwrites : s.writes = 1)
  | idle (hpending : s.pending = []) (hready : s.isReady) (hpublished : ¬ s.published)
    (hwrites : s.writes = 0)

/-- Every state that is reached when results are published in time. -/
structure Ordered (s : ClientSocket) : Prop where
  secure : s.secure
  early : s.early = 0
  phase : Phase s

theorem Ordered.writesOnce {s : ClientSocket} (hs : Ordered s) : WritesOnce s := by
  obtain ⟨-, hearly, hphase⟩ := hs
  cases hphase with
  | connecting op _ _ _ hestablished hwrites =>
    exact ⟨hearly, by omega, fun h => absurd h hestablished⟩
  | handshaking _ _ hestablished hwrites =>
    exact ⟨hearly, by omega, fun h => absurd h hestablished⟩
  | exchanging _ _ _ hwrites => exact ⟨hearly, by omega, fun _ _ => hwrites⟩
  | idle _ _ hpublished hwrites => exact ⟨hearly, by omega, fun _ h => absurd h hpublished⟩

section Ordered

variable {s : ClientSocket}

theorem ordered_asyncConnect2 (hsecure : s.secure) (hearly : s.early = 0)
    (hpending : s.pending = []) (hready : ¬ s.isReady) (hestablished : ¬ s.established)
    (hwrites : s.writes = 0) (reuse : Bool) : Ordered (s.asyncConnect2 reuse) := by
  unfold asyncConnect2
  by_cases hend : s.endpoints = 0
  · rw [if_pos hend]
    exact ⟨hsecure, hearly, .idle hpending rfl Bool.false_ne_true hwrites⟩
  · rw [if_neg hend]
    refine ⟨hsecure, hearly, .connecting (if reuse then .connect1 else .connect2) ?_
      (congrArg _ hpending) hready hestablished hwrites⟩
    cases reuse with
    | true => exact Or.inl rfl
    | false => exact Or.inr rfl

theorem ordered_asyncHandshake (hsecure : s.secure) (hearly : s.early = 0)
    (hpending : s.pending = []) (hready : s.isReady) (hestablished : ¬ s.established)
    (hwrites : s.writes = 0) : Ordered s.asyncHandshake := by
  rw [asyncHandshake, if_pos hsecure]
  exact ⟨hsecure, hearly, .handshaking (congrArg _ hpending) hready hestablished hwrites⟩

theorem ordered_onConnect2 (hsecure : s.secure) (hearly : s.early = 0) (hpending : s.pending = [])
    (hready : ¬ s.isReady) (hestablished : ¬ s.established) (hwrites : s.writes = 0)
    (error closeError reuse : Bool) : Ordered (s.onConnect2 error closeError reuse) := by
  cases error with
  | true =>
    rw [onConnect2, if_pos rfl]
    -- whether `on_error` is called first makes no difference to the next attempt
    cases closeError with
    | true =>
      refine ordered_asyncConnect2 ?_ ?_ ?_ ?_ ?_ ?_ reuse
      exacts [hsecure, hearly, hpending, hready, Bool.false_ne_true, rfl]
    | false =>
      refine ordered_asyncConnect2 ?_ ?_ ?_ ?_ ?_ ?_ reuse
      exacts [hsecure, hearly, hpending, hready, Bool.false_ne_true, rfl]
  | false => exact ordered_asyncHandshake hsecure hearly hpending rfl hestablished hwrites

theorem ordered_asyncWrite (hsecure : s.secure) (hearly : s.early = 0) (hpending : s.pending = [])
    (hready : s.isReady) (hestablished : s.established) (hwrites : s.writes = 0) :
    Ordered s.asyncWrite := by
  unfold asyncWrite
  by_cases hpublished : s.published
  · rw [if_pos ⟨hpublished, hready⟩, if_pos hestablished]
    exact ⟨hsecure, hearly, .exchanging (Or.inr ⟨.write, congrArg _ hpending, Or.inl rfl⟩)
      Bool.false_ne_true hestablished (congrArg (· + 1) hwrites)⟩
  · rw [if_neg fun h => hpublished h.1]
    exact ⟨hsecure, hearly, .idle hpending hready hpublished hwrites⟩

theorem ordered_retryOrFail (hsecure : s.secure) (hearly : s.early = 0) (hpending : s.pending = [])
    (hready : ¬ s.isReady) (hestablished : s.established) (hwrites : s.writes = 1) :
    Ordered s.retryOrFail := by
  unfold retryOrFail
  split_ifs with hretry
  · exact ⟨hsecure, hearly, .connecting .connect1 (Or.inl rfl) (congrArg _ hpending) hready
      Bool.false_ne_true rfl⟩
  · exact ⟨hsecure, hearly, .exchanging (Or.inl hpending) hready hestablished hwrites⟩

end Ordered

theorem ordered_connecting (retry : Int) (endpoints : Nat) (reuse : Bool) :
    Ordered (connecting true retry endpoints reuse) :=
  ordered_asyncConnect2 rfl rfl rfl Bool.false_ne_true Bool.false_ne_true rfl reuse

theorem asyncWrite_of_not_ready {s : ClientSocket} (hready : ¬ s.isReady) : s.asyncWrite = s :=
  if_neg fun h => hready h.2

theorem Ordered.start {s : ClientSocket} (hs : Ordered s) (htime : StartsInTime s .start) :
    Ordered s.start := by
  obtain ⟨hsecure, hearly, hphase⟩ := hs
  unfold ClientSocket.start
  by_cases hpublished : s.published
  · rw [if_pos hpublished]
    exact ⟨hsecure, hearly, hphase⟩
  · rw [if_neg hpublished]
    cases hphase with
    | connecting op hop hpending hready hestablished hwrites =>
      rw [asyncWrite_of_not_ready (s := { s with published := true }) hready]
      exact ⟨hsecure, hearly, .connecting op hop hpending hready hestablished hwrites⟩
    | handshaking _ hready hestablished _ =>
      -- this is the call that would write to the stream during the handshake
      rcases htime with h | h | h
      · exact absurd h hpublished
      · exact absurd hready h
      · exact absurd h hestablished
    | exchanging hpending hready hestablished hwrites =>
      rw [asyncWrite_of_not_ready (s := { s with published := true }) hready]
      exact ⟨hsecure, hearly, .exchanging hpending hready hestablished hwrites⟩
    | idle hpending hready _ hwrites =>
      rcases htime with h | h | h
      · exact absurd h hpublished
      · exact absurd hready h
      · exact ordered_asyncWrite hsecure hearly hpending hready h hwrites

theorem Ordered.handle {s : ClientSocket} (hs : Ordered s) {op : Op} (hop : op ∈ s.pending)
    (error closeError reuse : Bool) :
    Ordered ({ s with pending := s.pending.erase op }.handle error closeError reuse op) := by
  obtain ⟨hsecure, hearly, hphase⟩ := hs
  cases hphase with
  | connecting op' hop' hpending hready hestablished hwrites =>
    obtain rfl : op = op' := by simpa [hpending] using hop
    have herase : s.pending.erase op = [] := by simp [hpending]
    rcases hop' with rfl | rfl
    · cases error with
      | true => exact ⟨hsecure, hearly, .idle herase rfl Bool.false_ne_true hwrites⟩
      | false => exact ordered_asyncHandshake hsecure hearly herase rfl hestablished hwrites
    · refine ordered_onConnect2 ?_ ?_ ?_ ?_ ?_ ?_ error closeError reuse
      exacts [hsecure, hearly, herase, hready, hestablished, hwrites]
  | handshaking hpending hready hestablished hwrites =>
    obtain rfl : op = .handshake := by simpa [hpending] using hop
    have herase : s.pending.erase .handshake = [] := by simp [hpending]
    cases error with
    | true => exact ⟨hsecure, hearly, .idle herase rfl Bool.false_ne_true hwrites⟩
    | false => exact ordered_asyncWrite hsecure hearly herase rfl rfl hwrites
  | exchanging hpending hready hestablished hwrites =>
    rcases hpending with hpending | ⟨op', hpending, hop'⟩
    · exact absurd hop (by simp [hpending])
    · obtain rfl : op = op' := by simpa [hpending] using hop
      have herase : s.pending.erase op = [] := by simp [hpending]
      rcases hop' with rfl | rfl | rfl
      · cases error with
        | true => exact ordered_retryOrFail hsecure hearly herase hready hestablished hwrites
        | false =>
          exact ⟨hsecure, hearly, .exchanging
            (Or.inr ⟨.read1, congrArg _ herase, Or.inr (Or.inl rfl)⟩) hready hestablished hwrites⟩
      · cases error with
        | true => exact ordered_retryOrFail hsecure hearly herase hready hestablished hwrites
        | false =>
          exact ⟨hsecure, hearly, .exchanging
            (Or.inr ⟨.read, congrArg _ herase, Or.inr (Or.inr rfl)⟩) hready hestablished hwrites⟩
      · exact ⟨hsecure, hearly, .exchanging (Or.inl herase) hready hestablished hwrites⟩
  | idle hpending _ _ _ => exact absurd hop (by simp [hpending])

theorem Ordered.step {s s' : ClientSocket} (hs : Ordered s)
    (hstep : StepWhere StartsInTime s s') : Ordered s' := by
  obtain ⟨e, htime, hstep⟩ := hstep
  cases e with
  | start =>
    obtain rfl := Option.some.inj hstep
    exact hs.start htime
  | complete op error closeError reuse =>
    rw [ClientSocket.step] at hstep
    split at hstep
    next hop =>
      obtain rfl := Option.some.inj hstep
      exact hs.handle hop error closeError reuse
    next => exact absurd hstep (Option.some_ne_none _).symm

theorem ordered_of_reachable {retry : Int} {endpoints : Nat} {reuse : Bool} {s : ClientSocket}
    (hs : ReachableWhere StartsInTime (connecting true retry endpoints reuse) s) : Ordered s := by
  induction hs with
  | refl => exact ordered_connecting retry endpoints reuse
  | tail _ hstep ih => exact ih.step hstep

/-- A result that is published too late or too soon is written to a stream without a handshake. -/
theorem early_of_not_startsInTime {s s' : ClientSocket} (hstep : s.step .start = some s')
    (htime : ¬ StartsInTime s .start) : s'.early ≠ 0 := by
  obtain ⟨hpublished, hready, hestablished⟩ : ¬ s.published ∧ s.isReady ∧ ¬ s.established := by
    simpa [StartsInTime, not_or] using htime
  obtain rfl := Option.some.inj hstep
  have hboth : { s with published := true }.published ∧ { s with published := true }.isReady :=
    ⟨rfl, hready⟩
  rw [start, if_neg hpublished, asyncWrite, if_pos hboth, if_neg hestablished]
  exact Nat.succ_ne_zero s.early

/-- Every run whose results are published in time keeps the order, and the first that is not
breaks it. -/
theorem writesOnce_of_startsInTime (retry : Int) (endpoints : Nat) (reuse : Bool) :
    (∀ s, ReachableWhere StartsInTime (connecting true retry endpoints reuse) s → WritesOnce s) ∧
      ∀ s s', Reachable (connecting true retry endpoints reuse) s → s.step .start = some s' →
        ¬ StartsInTime s .start → ¬ WritesOnce s' :=
  ⟨fun _ hs => (ordered_of_reachable hs).writesOnce,
    fun _ _ _ hstep htime hs' => early_of_not_startsInTime hstep htime hs'.1⟩

/-- `start` is called while the handshake is under way: the request is written to the stream at
once, and again after the handshake. -/
theorem not_writesOnce_of_start_in_handshake : ∃ s, Reachable (connecting true 3 1 false) s ∧
    s.early = 1 ∧ s.writes = 2 ∧ ¬ WritesOnce s := by
  let s₁ : ClientSocket := ⟨true, true, false, 3, 1, [.handshake], false, 0, 0⟩
  let s₂ : ClientSocket := ⟨true, false, true, 3, 1, [.write, .handshake], false, 1, 1⟩
  let s₃ : ClientSocket := ⟨true, false, true, 3, 1, [.write, .write], true, 2, 1⟩
  have hconnect : StepWhere (fun _ _ => True) (connecting true 3 1 false) s₁ :=
    ⟨.complete .connect2 false false false, trivial, by decide⟩
  have hstart : StepWhere (fun _ _ => True) s₁ s₂ := ⟨.start, trivial, by decide⟩
  have hhandshake : StepWhere (fun _ _ => True) s₂ s₃ :=
    ⟨.complete .handshake false false false, trivial, by decide⟩
  refine ⟨s₃, .tail (.tail (.single hconnect) hstart) hhandshake, rfl, rfl, ?_⟩
  exact fun h => absurd h.1 (by decide)

end ClientSocket

end Webclient

end Acqua
