import Acqua.Asio.SimpleServerBase

/-! `internet_server.hpp`: two acceptors that count with the same members. -/

namespace Acqua

namespace Asio

structure InternetServer where
  v4 : Acceptor
  v6 : Acceptor
  useCount : Nat
  maxCount : Nat
  stopped : Bool
  deriving DecidableEq

inductive Family
  | v4
  | v6
  deriving DecidableEq

namespace Family

def other : Family → Family
  | v4 => v6
  | v6 => v4

end Family

namespace InternetServer

def acceptor (s : InternetServer) : Family → Acceptor
  | .v4 => s.v4
  | .v6 => s.v6

/-- The base class of a family. -/
def base (s : InternetServer) (f : Family) : SimpleServerBase :=
  ⟨s.acceptor f, s.useCount, s.maxCount, s.stopped⟩

def withBase (s : InternetServer) (f : Family) (b : SimpleServerBase) : InternetServer :=
  match f with
  | .v4 => ⟨b.toAcceptor, s.v6, b.useCount, b.maxCount, b.stopped⟩
  | .v6 => ⟨s.v4, b.toAcceptor, b.useCount, b.maxCount, b.stopped⟩

def start (s : InternetServer) : Option StartError × InternetServer :=
  if ¬ s.v4.isOpen ∧ ¬ s.v6.isOpen then (some .notSocket, s)
  else
    let r₄ := if s.v4.isOpen then (s.base .v4).start else (none, s.base .v4)
    let s := s.withBase .v4 r₄.2
    if r₄.1.isNone ∧ s.v6.isOpen then
      let r₆ := (s.base .v6).start
      let s := s.withBase .v6 r₆.2
      if r₆.1.isSome then (r₆.1, s.withBase .v4 (s.base .v4).cancel) else (none, s)
    else (r₄.1, s)

inductive Event
  | accept (f : Family)
  | disconnect (f : Family)

/-- An event is not possible when there is nothing to complete or to release. -/
def step (s : InternetServer) : Event → Option InternetServer
  | .accept f => ((s.base f).completeAccept false).map (s.withBase f)
  | .disconnect f => (s.base f).release.map (s.withBase f)

/-- A server that listens for both families and was not started yet. -/
def listening (m : Nat) : InternetServer :=
  ⟨⟨true, false, false, 0, 0⟩, ⟨true, false, false, 0, 0⟩, 0, m, false⟩

def started (m : Nat) : InternetServer := (listening m).start.2

def live (s : InternetServer) : Nat := s.v4.live + s.v6.live

def pending (s : InternetServer) : Nat := s.v4.pending + s.v6.pending

@[simp]
theorem acceptor_withBase (s : InternetServer) (f : Family) (b : SimpleServerBase) :
    (s.withBase f b).acceptor f = b.toAcceptor := by cases f <;> rfl

@[simp]
theorem acceptor_withBase_other (s : InternetServer) {f g : Family} (hfg : g ≠ f)
    (b : SimpleServerBase) : (s.withBase f b).acceptor g = s.acceptor g := by
  cases f <;> cases g <;> first | rfl | exact absurd rfl hfg

@[simp]
theorem useCount_withBase (s : InternetServer) (f : Family) (b : SimpleServerBase) :
    (s.withBase f b).useCount = b.useCount := by cases f <;> rfl

@[simp]
theorem maxCount_withBase (s : InternetServer) (f : Family) (b : SimpleServerBase) :
    (s.withBase f b).maxCount = b.maxCount := by cases f <;> rfl

@[simp]
theorem stopped_withBase (s : InternetServer) (f : Family) (b : SimpleServerBase) :
    (s.withBase f b).stopped = b.stopped := by cases f <;> rfl

section Step

variable {s s' : InternetServer} {f : Family}

theorem accept_cases (hrunning : (s.acceptor f).isRunning) (h : step s (.accept f) = some s') :
    0 < (s.acceptor f).pending ∧
      ((s.acceptor f).isWaiting ∧ s' = s.withBase f { s.base f with
          pending := (s.acceptor f).pending - 1, live := (s.acceptor f).live + 1 } ∨
        ¬ (s.acceptor f).isWaiting ∧ s' = s.withBase f { s.base f with
          useCount := s.useCount + 1, live := (s.acceptor f).live + 1,
          isWaiting := decide (s.maxCount ≤ s.useCount + 1) }) := by
  obtain ⟨b, hb, rfl⟩ := Option.map_eq_some_iff.mp h
  unfold SimpleServerBase.completeAccept at hb
  split_ifs at hb with hpending
  obtain rfl := Option.some.inj hb
  have hpending : 0 < (s.acceptor f).pending := hpending
  have hcompleted : { s.base f with pending := (s.base f).pending - 1 }.isRunning := hrunning
  refine ⟨hpending, ?_⟩
  rw [SimpleServerBase.onAccept_running hcompleted]
  by_cases hwaiting : (s.acceptor f).isWaiting
  · exact Or.inl ⟨hwaiting, congrArg (s.withBase f) (SimpleServerBase.asyncAccept_of_waiting hwaiting)⟩
  · refine Or.inr ⟨hwaiting, congrArg (s.withBase f) ?_⟩
    have harmed := SimpleServerBase.asyncAccept_of_not_waiting (b := { s.base f with
      pending := (s.acceptor f).pending - 1, live := (s.acceptor f).live + 1 }) hwaiting
    have hkept : (s.acceptor f).pending - 1 + 1 = (s.acceptor f).pending := by omega
    simp only [hkept] at harmed
    exact harmed

theorem disconnect_cases (hstopped : ¬ s.stopped) (h : step s (.disconnect f) = some s') :
    0 < (s.acceptor f).live ∧
      ((s.useCount - 1 < s.maxCount ∧ (s.acceptor f).isWaiting) ∧ s' = s.withBase f { s.base f with
          useCount := s.useCount - 1 + 1, live := (s.acceptor f).live - 1,
          pending := (s.acceptor f).pending + 1,
          isWaiting := decide (s.maxCount ≤ s.useCount - 1 + 1) } ∨
        ¬ (s.useCount - 1 < s.maxCount ∧ (s.acceptor f).isWaiting) ∧
          s' = s.withBase f { s.base f with
            useCount := s.useCount - 1, live := (s.acceptor f).live - 1 }) := by
  obtain ⟨b, hb, rfl⟩ := Option.map_eq_some_iff.mp h
  unfold SimpleServerBase.release at hb
  split_ifs at hb with hlive
  obtain rfl := Option.some.inj hb
  refine ⟨hlive, ?_⟩
  by_cases hrearm : s.useCount - 1 < s.maxCount ∧ (s.acceptor f).isWaiting
  · exact Or.inl ⟨hrearm, congrArg (s.withBase f) (SimpleServerBase.onDisconnect_rearm
      (b := { s.base f with live := (s.acceptor f).live - 1 }) hstopped hrearm.1 hrearm.2)⟩
  · exact Or.inr ⟨hrearm, congrArg (s.withBase f) (SimpleServerBase.onDisconnect_of_not_rearm
      (b := { s.base f with live := (s.acceptor f).live - 1 }) hstopped hrearm)⟩

end Step

/-- What holds of a started server whatever happens: a family without an accept waits. -/
structure Serving (m : Nat) (s : InternetServer) : Prop where
  notStopped : ¬ s.stopped
  limit : s.maxCount = m
  counted : s.useCount = s.pending + s.live
  running : ∀ f, (s.acceptor f).isRunning
  waiting : ∀ f, (s.acceptor f).pending = 0 → (s.acceptor f).isWaiting

section Serving

variable {m : Nat} {s s' : InternetServer}

theorem Serving.withBase (hs : Serving m s) {f : Family} {b : SimpleServerBase}
    (hstopped : b.stopped = s.stopped) (hlimit : b.maxCount = s.maxCount) (hrunning : b.isRunning)
    (hwaiting : b.pending = 0 → b.isWaiting)
    (hcounted : b.useCount + (s.acceptor f).pending + (s.acceptor f).live =
      s.useCount + b.pending + b.live) : Serving m (s.withBase f b) where
  notStopped := by
    rw [stopped_withBase, hstopped]
    exact hs.notStopped
  limit := by rw [maxCount_withBase, hlimit, hs.limit]
  counted := by
    have htotal := hs.counted
    cases f <;> simp only [InternetServer.withBase, acceptor, pending, live] at * <;> omega
  running g := by
    by_cases hg : g = f
    · rw [hg, acceptor_withBase]
      exact hrunning
    · rw [acceptor_withBase_other s hg]
      exact hs.running g
  waiting g := by
    by_cases hg : g = f
    · rw [hg, acceptor_withBase]
      exact hwaiting
    · rw [acceptor_withBase_other s hg]
      exact hs.waiting g

theorem Serving.step (hs : Serving m s) {e : Event} (h : step s e = some s') : Serving m s' := by
  have hcounted := hs.counted
  cases e with
  | accept f =>
    obtain ⟨hpending, ⟨hwait, rfl⟩ | ⟨-, rfl⟩⟩ := accept_cases (hs.running f) h
    · refine hs.withBase rfl rfl (hs.running f) (fun _ => hwait) ?_
      simp only [base]
      omega
    · refine hs.withBase rfl rfl (hs.running f) (fun hzero => absurd hzero hpending.ne') ?_
      change s.useCount + 1 + (s.acceptor f).pending + (s.acceptor f).live =
        s.useCount + (s.acceptor f).pending + ((s.acceptor f).live + 1)
      omega
  | disconnect f =>
    have huse : 0 < (s.acceptor f).live → 0 < s.useCount := by
      cases f <;> simp only [acceptor, pending, live] at * <;> omega
    obtain ⟨hlive, ⟨-, rfl⟩ | ⟨-, rfl⟩⟩ := disconnect_cases hs.notStopped h
    · have huse := huse hlive
      refine hs.withBase rfl rfl (hs.running f) (fun hzero => absurd hzero (Nat.succ_ne_zero _)) ?_
      change s.useCount - 1 + 1 + (s.acceptor f).pending + (s.acceptor f).live =
        s.useCount + ((s.acceptor f).pending + 1) + ((s.acceptor f).live - 1)
      omega
    · have huse := huse hlive
      refine hs.withBase rfl rfl (hs.running f) (hs.waiting f) ?_
      change s.useCount - 1 + (s.acceptor f).pending + (s.acceptor f).live =
        s.useCount + (s.acceptor f).pending + ((s.acceptor f).live - 1)
      omega

theorem started_eq (hm : 2 ≤ m) : started m =
    ⟨⟨true, true, false, 1, 0⟩, ⟨true, true, decide (m ≤ 2), 1, 0⟩, 2, m, false⟩ := by
  have hone : ¬ m ≤ 1 := by omega
  by_cases htwo : m ≤ 2 <;> simp [started, listening, start, base, InternetServer.withBase,
    acceptor, SimpleServerBase.start, SimpleServerBase.asyncAccept, SimpleServerBase.incr, hone, htwo]

theorem serving_started (hm : 2 ≤ m) : Serving m (started m) := by
  rw [started_eq hm]
  refine ⟨by simp, rfl, rfl, fun f => ?_, fun f hpending => ?_⟩
  · cases f <;> rfl
  · cases f <;> exact absurd hpending Nat.one_ne_zero

end Serving

/-- The steps that are taken with `P`. -/
def StepWhere (P : InternetServer → Event → Prop) (s s' : InternetServer) : Prop :=
  ∃ e, P s e ∧ step s e = some s'

abbrev ReachableWhere (P : InternetServer → Event → Prop) := Relation.ReflTransGen (StepWhere P)

abbrev Reachable := ReachableWhere fun _ _ => True

section Limit

variable {m : Nat} {s s' : InternetServer}

theorem serving_reachable {P : InternetServer → Event → Prop} (hs : Serving m s)
    (h : ReachableWhere P s s') : Serving m s' := by
  induction h with
  | refl => exact hs
  | tail _ hstep ih =>
    obtain ⟨e, -, he⟩ := hstep
    exact ih.step he

/-- An acceptor is armed only below the limit. -/
def HasRoom (s : InternetServer) : Event → Prop
  | .accept f => (s.acceptor f).isWaiting ∨ s.useCount < s.maxCount
  | .disconnect _ => True

theorem Serving.useCount_pos (hs : Serving m s) {f : Family} (hlive : 0 < (s.acceptor f).live) :
    0 < s.useCount := by
  have hcounted := hs.counted
  cases f <;> simp only [acceptor, InternetServer.pending, InternetServer.live] at * <;> omega

theorem useCount_le_of_room (hm : 2 ≤ m) (h : ReachableWhere HasRoom (started m) s) :
    s.useCount ≤ m := by
  induction h with
  | refl =>
    rw [started_eq hm]
    exact hm
  | @tail s s' hreach hstep ih =>
    have hs := serving_reachable (serving_started hm) hreach
    obtain ⟨e, hroom, he⟩ := hstep
    cases e with
    | accept f =>
      obtain ⟨-, ⟨-, rfl⟩ | ⟨hwait, rfl⟩⟩ := accept_cases (hs.running f) he
      · rw [useCount_withBase]
        exact ih
      · rw [useCount_withBase]
        have hlimit := hs.limit
        exact hlimit ▸ hroom.resolve_left hwait
    | disconnect f =>
      obtain ⟨hlive, ⟨-, rfl⟩ | ⟨-, rfl⟩⟩ := disconnect_cases hs.notStopped he
      · have hpos := hs.useCount_pos hlive
        rw [useCount_withBase]
        change s.useCount - 1 + 1 ≤ m
        omega
      · rw [useCount_withBase]
        change s.useCount - 1 ≤ m
        omega

theorem exists_live_of_lt_useCount (hs : Serving m s) {n : Nat} (h : n < s.useCount) :
    ∃ t, Reachable s t ∧ n < t.live := by
  obtain ⟨d, hd⟩ : ∃ d, n + 1 = s.live + d ∨ n < s.live := by
    by_cases hlt : n < s.live
    · exact ⟨0, Or.inr hlt⟩
    · exact ⟨n + 1 - s.live, Or.inl (by omega)⟩
  induction d generalizing s with
  | zero => exact ⟨s, .refl, by omega⟩
  | succ d ih =>
    by_cases hlt : n < s.live
    · exact ⟨s, .refl, hlt⟩
    have hcounted := hs.counted
    obtain ⟨f, hf⟩ : ∃ f, 0 < (s.acceptor f).pending := by
      by_contra hnone
      push Not at hnone
      have h4 := hnone .v4
      have h6 := hnone .v6
      simp only [acceptor, InternetServer.pending] at h4 h6 hcounted
      omega
    obtain ⟨s', hs'⟩ : ∃ s', step s (.accept f) = some s' :=
      ⟨_, by rw [step, SimpleServerBase.completeAccept, if_pos (show 0 < (s.base f).pending from hf)]; rfl⟩
    have hnext : s'.live = s.live + 1 ∧ s.useCount ≤ s'.useCount := by
      obtain ⟨-, ⟨-, rfl⟩ | ⟨-, rfl⟩⟩ := accept_cases (hs.running f) hs' <;>
        cases f <;> simp only [InternetServer.withBase, base, acceptor, InternetServer.live] <;> omega
    obtain ⟨t, hreach, hlive⟩ := ih (hs.step hs') (by omega) (by omega)
    exact ⟨t, .head ⟨_, trivial, hs'⟩ hreach, hlive⟩

end Limit

/-- The connections of both families stay below the limit as long as acceptors are armed below
it, and an acceptor that is not can take them above it. -/
theorem internet_server_limit_of_room {m : Nat} (hm : 2 ≤ m) :
    (∀ s, ReachableWhere HasRoom (started m) s → s.live ≤ m) ∧
      ∀ s s' f, Reachable (started m) s → step s (.accept f) = some s' →
        ¬ HasRoom s (.accept f) → ∃ t, Reachable s' t ∧ m < t.live := by
  constructor
  · intro s h
    have hcounted := (serving_reachable (serving_started hm) h).counted
    have hle := useCount_le_of_room hm h
    omega
  · intro s s' f h hstep hroom
    have hs := serving_reachable (serving_started hm) h
    have hlimit := hs.limit
    rw [HasRoom, not_or] at hroom
    refine exists_live_of_lt_useCount (hs.step hstep) ?_
    obtain ⟨-, ⟨hwait, -⟩ | ⟨-, rfl⟩⟩ := accept_cases (hs.running f) hstep
    · exact absurd hwait hroom.1
    · rw [useCount_withBase]
      change m < s.useCount + 1
      omega

theorem internet_server_limit_of_room_two :
    (∀ s, ReachableWhere HasRoom (started 2) s → s.live ≤ 2) ∧
      ∀ s s' f, Reachable (started 2) s → step s (.accept f) = some s' →
        ¬ HasRoom s (.accept f) → ∃ t, Reachable s' t ∧ 2 < t.live :=
  internet_server_limit_of_room le_rfl

theorem three_connections_above_limit : ∃ s, Reachable (started 2) s ∧ s.live = 3 :=
  ⟨⟨⟨true, true, true, 0, 2⟩, ⟨true, true, true, 0, 1⟩, 3, 2, false⟩,
    .tail (.tail (.single ⟨.accept .v4, trivial, rfl⟩) ⟨.accept .v4, trivial, rfl⟩)
      ⟨.accept .v6, trivial, rfl⟩, rfl⟩

section Families

variable {m : Nat} {s s' : InternetServer}

/-- The last connection of a family without an accept is not released above the limit. -/
def KeepsFamily (s : InternetServer) : Event → Prop
  | .accept _ => True
  | .disconnect f => ¬ ((s.acceptor f).pending = 0 ∧ (s.acceptor f).live = 1 ∧
      s.maxCount < s.useCount)

theorem family_served (hm : 2 ≤ m) (h : ReachableWhere KeepsFamily (started m) s) :
    ∀ f, (s.acceptor f).live = 0 → 0 < (s.acceptor f).pending := by
  induction h with
  | refl =>
    rw [started_eq hm]
    intro f _
    cases f <;> exact Nat.one_pos
  | @tail s s' hreach hstep ih =>
    have hs := serving_reachable (serving_started hm) hreach
    obtain ⟨e, hkeeps, he⟩ := hstep
    intro g hlive
    cases e with
    | accept f =>
      by_cases hg : g = f
      · subst hg
        obtain ⟨-, ⟨-, rfl⟩ | ⟨-, rfl⟩⟩ := accept_cases (hs.running g) he
        · rw [acceptor_withBase] at hlive
          exact absurd hlive (Nat.succ_ne_zero _)
        · rw [acceptor_withBase] at hlive
          exact absurd hlive (Nat.succ_ne_zero _)
      · obtain ⟨-, ⟨-, rfl⟩ | ⟨-, rfl⟩⟩ := accept_cases (hs.running f) he
        · rw [acceptor_withBase_other s hg] at hlive ⊢
          exact ih g hlive
        · rw [acceptor_withBase_other s hg] at hlive ⊢
          exact ih g hlive
    | disconnect f =>
      by_cases hg : g = f
      · subst hg
        obtain ⟨hpos, ⟨-, rfl⟩ | ⟨hrearm, rfl⟩⟩ := disconnect_cases hs.notStopped he
        · rw [acceptor_withBase]
          exact Nat.succ_pos _
        · rw [acceptor_withBase] at hlive ⊢
          have hone : (s.acceptor g).live = 1 := by
            change (s.acceptor g).live - 1 = 0 at hlive
            omega
          -- without an accept the family waits, so it was the limit that kept it from re-arming
          by_contra hnone
          have hzero : (s.acceptor g).pending = 0 := Nat.eq_zero_of_not_pos hnone
          have hover : ¬ s.useCount - 1 < s.maxCount := fun hroom =>
            hrearm ⟨hroom, hs.waiting g hzero⟩
          have huse := hs.useCount_pos hpos
          exact hkeeps ⟨hzero, hone, by omega⟩
      · obtain ⟨-, ⟨-, rfl⟩ | ⟨-, rfl⟩⟩ := disconnect_cases hs.notStopped he
        · rw [acceptor_withBase_other s hg] at hlive ⊢
          exact ih g hlive
        · rw [acceptor_withBase_other s hg] at hlive ⊢
          exact ih g hlive

theorem live_eq (s : InternetServer) {f g : Family} (hfg : g ≠ f) :
    s.live = (s.acceptor f).live + (s.acceptor g).live := by
  cases f <;> cases g <;> simp only [live, acceptor] <;> first | omega | exact absurd rfl hfg

theorem exists_abandoned (hs : Serving m s) {f g : Family} (hfg : g ≠ f)
    (hpending : (s.acceptor f).pending = 0) (hlive : (s.acceptor f).live = 0) :
    ∃ t, Reachable s t ∧ t.live = 0 ∧ (t.acceptor f).pending = 0 := by
  induction hn : (s.acceptor g).live generalizing s with
  | zero => exact ⟨s, .refl, by rw [live_eq s hfg, hlive, hn], hpending⟩
  | succ n ih =>
    obtain ⟨s', hs'⟩ : ∃ s', step s (.disconnect g) = some s' := by
      have hpos : 0 < (s.base g).live := by
        change 0 < (s.acceptor g).live
        omega
      exact ⟨_, by rw [step, SimpleServerBase.release, if_pos hpos]; rfl⟩
    have hnext : s'.acceptor f = s.acceptor f ∧ (s'.acceptor g).live = n := by
      obtain ⟨-, ⟨-, rfl⟩ | ⟨-, rfl⟩⟩ := disconnect_cases hs.notStopped hs'
      · rw [acceptor_withBase, acceptor_withBase_other s hfg.symm]
        exact ⟨rfl, by rw [hn]; rfl⟩
      · rw [acceptor_withBase, acceptor_withBase_other s hfg.symm]
        exact ⟨rfl, by rw [hn]; rfl⟩
    obtain ⟨t, hreach, ht⟩ := ih (hs.step hs') (hnext.1 ▸ hpending) (hnext.1 ▸ hlive) hnext.2
    exact ⟨t, .head ⟨_, trivial, hs'⟩ hreach, ht⟩

end Families

/-- A family is never abandoned as long as its last connection is not released above the limit
while it waits, and one that is can be left without an accept when no connection is live. -/
theorem internet_server_serves_of_keeps {m : Nat} (hm : 2 ≤ m) :
    (∀ s, ReachableWhere KeepsFamily (started m) s → s.live = 0 →
        ∀ f, 0 < (s.acceptor f).pending) ∧
      ∀ s s' f, Reachable (started m) s → step s (.disconnect f) = some s' →
        ¬ KeepsFamily s (.disconnect f) →
        ∃ t, Reachable s' t ∧ t.live = 0 ∧ (t.acceptor f).pending = 0 := by
  constructor
  · intro s h hnone f
    refine family_served hm h f ?_
    cases f <;> simp only [live, acceptor] at * <;> omega
  · intro s s' f h hstep hkeeps
    have hs := serving_reachable (serving_started hm) h
    obtain ⟨hpending, hlive, hover⟩ := not_not.mp hkeeps
    have hnext : s'.acceptor f = { s.acceptor f with live := 0 } := by
      obtain ⟨-, ⟨hrearm, -⟩ | ⟨-, rfl⟩⟩ := disconnect_cases hs.notStopped hstep
      · have hroom := hrearm.1
        omega
      · rw [acceptor_withBase, hlive]
        rfl
    have hother : f.other ≠ f := by cases f <;> decide
    exact exists_abandoned (hs.step hstep) hother (by rw [hnext]; exact hpending) (by rw [hnext])

theorem internet_server_serves_of_keeps_two :
    (∀ s, ReachableWhere KeepsFamily (started 2) s → s.live = 0 →
        ∀ f, 0 < (s.acceptor f).pending) ∧
      ∀ s s' f, Reachable (started 2) s → step s (.disconnect f) = some s' →
        ¬ KeepsFamily s (.disconnect f) →
        ∃ t, Reachable s' t ∧ t.live = 0 ∧ (t.acceptor f).pending = 0 :=
  internet_server_serves_of_keeps le_rfl

theorem v6_abandoned :
    ∃ s, Reachable (started 2) s ∧ s.live = 0 ∧ (s.acceptor .v6).pending = 0 :=
  ⟨⟨⟨true, true, true, 2, 0⟩, ⟨true, true, true, 0, 0⟩, 2, 2, false⟩,
    .tail (.tail (.tail (.single ⟨.accept .v4, trivial, rfl⟩) ⟨.accept .v6, trivial, rfl⟩)
      ⟨.disconnect .v6, trivial, rfl⟩) ⟨.disconnect .v4, trivial, rfl⟩, rfl, rfl⟩

end InternetServer

end Asio

end Acqua
