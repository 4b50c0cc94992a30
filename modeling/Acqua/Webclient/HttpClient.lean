import Acqua.Library.Run

/-! `http_client.hpp`: which connections the client counts. A handler runs to its end before the
next one starts. -/

namespace Acqua

namespace Webclient

inductive Scheme
  | http
  | https
  deriving DecidableEq

/-- `ε` stands for an endpoint. A socket is its number with its `endpoint_`; `live` holds those
that someone has a `shared_ptr` to, and `keepSockets` is `keep_sockets_`. -/
structure HttpClient (ε : Type*) where
  context : Bool
  maxCount : Nat
  count : Nat
  keepSockets : List (Nat × Option ε)
  live : List (Nat × Option ε)
  fresh : Nat
  deriving DecidableEq

/-- What comes back from `do_connect`. -/
inductive Connected
  | waiting
  | invalidArgument
  | unsupportedHttps
  | notResolved
  | socket (id : Nat)
  deriving DecidableEq

namespace HttpClient

variable {ε : Type*} [DecidableEq ε]

/-- What is parsed from the address, nothing when it is not one, and what the resolver returns,
nothing when it throws. -/
structure Target (ε : Type*) where
  scheme : Option Scheme
  endpoints : Option (List ε)

/-- `advance` is about a live socket whose attempt to connect has failed, with the endpoints that
are left, and `close` about one that is kept and sees its peer close. -/
inductive Event (ε : Type*)
  | connect (t : Target ε)
  | redirect (t : Target ε)
  | advance (id : Nat) (endpoints : List ε)
  | release (id : Nat) (keepAlive : Bool)
  | close (id : Nat)

def init (context : Bool) (maxCount : Nat) : HttpClient ε := ⟨context, maxCount, 0, [], [], 0⟩

def useCount (c : HttpClient ε) : Nat := c.count

def keepCount (c : HttpClient ε) : Nat := c.keepSockets.length

/-- A kept socket with the endpoint leaves the set and gives its connection away. -/
def reuse (c : HttpClient ε) (ep : ε) : HttpClient ε :=
  { c with keepSockets := c.keepSockets.eraseP fun s => s.2 = some ep }

def asyncConnect (c : HttpClient ε) (id : Nat) (endpoints : List ε) : HttpClient ε :=
  match endpoints with
  | [] => c
  | ep :: _ =>
    let live := c.live.map fun s => if s.1 = id then (id, some ep) else s
    { c with live := live }.reuse ep

def makeSocket (c : HttpClient ε) (endpoints : List ε) : HttpClient ε × Connected :=
  ({ c with live := (c.fresh, none) :: c.live, fresh := c.fresh + 1 }.asyncConnect c.fresh endpoints,
    .socket c.fresh)

def doConnect (c : HttpClient ε) (t : Target ε) (useLock : Bool) : HttpClient ε × Connected :=
  match t.scheme with
  | none => (c, .invalidArgument)
  | some scheme =>
    if useLock ∧ ¬ c.count + c.keepSockets.length < c.maxCount then (c, .waiting)
    else
      let c := { c with count := c.count + 1 }
      if scheme = .https ∧ c.context = false then (c, .unsupportedHttps)
      else
        match t.endpoints with
        | none => (c, .notResolved)
        | some endpoints => c.makeSocket endpoints

/-- `socket_deleter`. -/
def release (c : HttpClient ε) (id : Nat) (keepAlive : Bool) : HttpClient ε :=
  match c.live.find? fun s => s.1 = id with
  | none => c
  | some s =>
    { c with
      live := c.live.erase s
      keepSockets := if keepAlive then s :: c.keepSockets else c.keepSockets
      count := c.count - 1 }

def step (c : HttpClient ε) : Event ε → HttpClient ε
  | .connect t => (c.doConnect t true).1
  | .redirect t => (c.doConnect t false).1
  | .advance id endpoints => if c.live.any fun s => s.1 = id then c.asyncConnect id endpoints else c
  | .release id keepAlive => c.release id keepAlive
  | .close id => { c with keepSockets := c.keepSockets.eraseP fun s => s.1 = id }

structure Balanced (c : HttpClient ε) : Prop where
  counted : c.useCount = c.live.length
  bounded : c.useCount + c.keepCount ≤ c.maxCount

/-- Nothing throws once the connection is counted. -/
def Made (c : HttpClient ε) (t : Target ε) : Prop :=
  (t.scheme = some .https → c.context = true) ∧ t.endpoints.isSome = true

/-- A connection to the first of the endpoints is kept. -/
def Kept (c : HttpClient ε) (endpoints : List ε) : Prop :=
  ∃ ep ∈ endpoints.head?, ∃ s ∈ c.keepSockets, s.2 = some ep

/-- There is room for one more connection, or one that is kept is taken over. -/
def HasRoom (c : HttpClient ε) (t : Target ε) : Prop :=
  c.useCount + c.keepCount < c.maxCount ∨ ∃ endpoints ∈ t.endpoints, c.Kept endpoints

/-- A connection that is counted is made, and a redirect, which does not wait, has room. -/
def Accounted (c : HttpClient ε) : Event ε → Prop
  | .connect t => t.scheme.isSome = true → c.useCount + c.keepCount < c.maxCount → Made c t
  | .redirect t => t.scheme.isSome = true → Made c t ∧ HasRoom c t
  | .advance _ _ | .release _ _ | .close _ => True

theorem asyncConnect_spec (c : HttpClient ε) (id : Nat) (endpoints : List ε) :
    let c' := c.asyncConnect id endpoints
    c'.count = c.count ∧ c'.maxCount = c.maxCount ∧ c'.live.length = c.live.length ∧
      (c.Kept endpoints ∧ c'.keepSockets.length + 1 = c.keepSockets.length ∨
        ¬ c.Kept endpoints ∧ c'.keepSockets.length = c.keepSockets.length) := by
  cases endpoints with
  | nil =>
    refine ⟨rfl, rfl, rfl, .inr ⟨?_, rfl⟩⟩
    rintro ⟨ep, hep, -⟩
    cases hep
  | cons ep endpoints =>
    refine ⟨rfl, rfl, List.length_map _, ?_⟩
    by_cases hkept : ∃ s ∈ c.keepSockets, s.2 = some ep
    · obtain ⟨s, hs, hep⟩ := hkept
      refine .inl ⟨⟨ep, rfl, s, hs, hep⟩, ?_⟩
      have hlen := List.length_eraseP_of_mem (p := fun s => decide (s.2 = some ep)) hs (by simpa)
      have hpos := List.length_pos_of_mem hs
      change (c.keepSockets.eraseP _).length + 1 = _
      omega
    · refine .inr ⟨fun ⟨ep', hep', hs⟩ => ?_, ?_⟩
      · obtain rfl : ep = ep' := Option.some.inj hep'
        exact hkept hs
      · change (c.keepSockets.eraseP _).length = _
        rw [List.eraseP_of_forall_not]
        intro s hs hep
        exact hkept ⟨s, hs, by simpa using hep⟩

theorem makeSocket_spec (c : HttpClient ε) (endpoints : List ε) :
    let c' := (c.makeSocket endpoints).1
    c'.count = c.count ∧ c'.maxCount = c.maxCount ∧ c'.live.length = c.live.length + 1 ∧
      (c.Kept endpoints ∧ c'.keepSockets.length + 1 = c.keepSockets.length ∨
        ¬ c.Kept endpoints ∧ c'.keepSockets.length = c.keepSockets.length) :=
  asyncConnect_spec { c with live := (c.fresh, none) :: c.live, fresh := c.fresh + 1 } c.fresh
    endpoints

/-- Once a connection is counted, the counts fit exactly when it is made and there is room. -/
theorem balanced_doConnect_iff {c : HttpClient ε} (h : c.Balanced) {t : Target ε}
    {useLock : Bool} (hscheme : t.scheme.isSome = true)
    (hlock : useLock = true → c.useCount + c.keepCount < c.maxCount) :
    (c.doConnect t useLock).1.Balanced ↔ Made c t ∧ HasRoom c t := by
  obtain ⟨hcounted, hbounded⟩ := h
  obtain ⟨scheme, hs⟩ := Option.isSome_iff_exists.mp hscheme
  have hwait : ¬ (useLock = true ∧ ¬ c.count + c.keepSockets.length < c.maxCount) :=
    fun hw => hw.2 (hlock hw.1)
  have hmade : Made c t ↔ ¬ (scheme = .https ∧ c.context = false) ∧ t.endpoints.isSome = true := by
    unfold Made
    rw [hs]
    cases scheme <;> cases c.context <;> simp
  change c.count = c.live.length at hcounted
  change c.count + c.keepSockets.length ≤ c.maxCount at hbounded
  -- a count without a socket
  have hleak (r : Connected) : ¬ (({ c with count := c.count + 1 } : HttpClient ε), r).1.Balanced :=
    fun hb => by
      have hone : c.count + 1 = c.live.length := hb.counted
      omega
  rw [hmade]
  unfold doConnect
  simp only [hs, if_neg hwait]
  by_cases hctx : scheme = .https ∧ c.context = false
  · rw [if_pos hctx]
    exact iff_of_false (hleak _) fun hand => hand.1.1 hctx
  · rw [if_neg hctx]
    cases hend : t.endpoints with
    | none => exact iff_of_false (hleak _) fun hand => by simp at hand
    | some endpoints =>
      obtain ⟨hcount, hmax, hlive, hkeep⟩ := makeSocket_spec { c with count := c.count + 1 } endpoints
      set c' := ({ c with count := c.count + 1 } : HttpClient ε).makeSocket endpoints
      change c'.1.count = c.count + 1 at hcount
      change c'.1.maxCount = c.maxCount at hmax
      change c'.1.live.length = c.live.length + 1 at hlive
      change _ ∧ c'.1.keepSockets.length + 1 = c.keepSockets.length ∨
        _ ∧ c'.1.keepSockets.length = c.keepSockets.length at hkeep
      have hroom : HasRoom c t ↔
          c.count + c.keepSockets.length < c.maxCount ∨ c.Kept endpoints := by
        unfold HasRoom
        rw [hend]
        simp [useCount, keepCount]
      rw [hroom, and_iff_right ⟨hctx, rfl⟩]
      constructor
      · intro hb
        have hsum : c'.1.count + c'.1.keepSockets.length ≤ c'.1.maxCount := hb.bounded
        rw [hcount, hmax] at hsum
        rcases hkeep with ⟨hkept, -⟩ | ⟨-, hlen⟩
        · exact .inr hkept
        · rw [hlen] at hsum
          exact .inl (by omega)
      · intro hr
        have hsum : c.count + 1 + c'.1.keepSockets.length ≤ c.maxCount := by
          rcases hkeep with ⟨-, hlen⟩ | ⟨hnot, hlen⟩
          · omega
          · rcases hr with hr | hr
            · omega
            · exact absurd hr hnot
        refine ⟨?_, ?_⟩
        · rw [useCount, hcount, hlive, hcounted]
        · rw [useCount, keepCount, hcount, hmax]
          exact hsum

theorem Balanced.release {c : HttpClient ε} (h : c.Balanced) (id : Nat) (keepAlive : Bool) :
    (c.release id keepAlive).Balanced := by
  obtain ⟨hcounted, hbounded⟩ := h
  change c.count = c.live.length at hcounted
  change c.count + c.keepSockets.length ≤ c.maxCount at hbounded
  unfold HttpClient.release
  cases hfind : c.live.find? fun s => s.1 = id with
  | none => exact ⟨hcounted, hbounded⟩
  | some s =>
    have hmem := List.mem_of_find?_eq_some hfind
    have hpos := List.length_pos_of_mem hmem
    refine ⟨?_, ?_⟩
    · change c.count - 1 = (c.live.erase s).length
      rw [List.length_erase_of_mem hmem, hcounted]
    · change c.count - 1 + (if keepAlive = true then s :: c.keepSockets else c.keepSockets).length ≤
        c.maxCount
      cases keepAlive with
      | true =>
        rw [if_pos rfl, List.length_cons]
        omega
      | false =>
        rw [if_neg Bool.false_ne_true]
        omega

theorem Balanced.asyncConnect {c : HttpClient ε} (h : c.Balanced) (id : Nat) (endpoints : List ε) :
    (c.asyncConnect id endpoints).Balanced := by
  obtain ⟨hcounted, hbounded⟩ := h
  obtain ⟨hcount, hmax, hlive, hkeep⟩ := asyncConnect_spec c id endpoints
  unfold useCount keepCount at *
  refine ⟨?_, ?_⟩
  · rw [useCount, hcount, hlive, hcounted]
  · rw [useCount, keepCount, hcount, hmax]
    rcases hkeep with ⟨-, hlen⟩ | ⟨-, hlen⟩ <;> omega

theorem balanced_step_iff {c : HttpClient ε} (h : c.Balanced) (ev : Event ε) :
    (c.step ev).Balanced ↔ Accounted c ev := by
  match ev with
  | .connect t =>
    by_cases hscheme : t.scheme.isSome = true
    · by_cases hroom : c.useCount + c.keepCount < c.maxCount
      · refine (balanced_doConnect_iff h hscheme fun _ => hroom).trans ?_
        exact ⟨fun hm _ _ => hm.1, fun hm => ⟨hm hscheme hroom, .inl hroom⟩⟩
      · have hstep : c.step (.connect t) = c := by
          obtain ⟨scheme, hs⟩ := Option.isSome_iff_exists.mp hscheme
          simp only [step, doConnect, hs]
          rw [if_pos ⟨trivial, hroom⟩]
        rw [hstep]
        exact iff_of_true h fun _ hr => absurd hr hroom
    · have hstep : c.step (.connect t) = c := by
        simp only [step, doConnect, Option.not_isSome_iff_eq_none.mp hscheme]
      rw [hstep]
      exact iff_of_true h fun hs => absurd hs hscheme
  | .redirect t =>
    by_cases hscheme : t.scheme.isSome = true
    · refine (balanced_doConnect_iff h hscheme fun hf => by cases hf).trans ?_
      exact ⟨fun hm _ => hm, fun hm => hm hscheme⟩
    · have hstep : c.step (.redirect t) = c := by
        simp only [step, doConnect, Option.not_isSome_iff_eq_none.mp hscheme]
      rw [hstep]
      exact iff_of_true h fun hs => absurd hs hscheme
  | .advance id endpoints =>
    refine iff_of_true ?_ trivial
    unfold step
    by_cases hlive : (c.live.any fun s => decide (s.1 = id)) = true
    · simp only [if_pos hlive]
      exact h.asyncConnect id endpoints
    · simp only [if_neg hlive]
      exact h
  | .release id keepAlive => exact iff_of_true (h.release id keepAlive) trivial
  | .close id =>
    refine iff_of_true ⟨h.counted, ?_⟩ trivial
    have hle := List.length_eraseP_le (l := c.keepSockets) (p := fun s => decide (s.1 = id))
    exact (Nat.add_le_add_left hle c.count).trans h.bounded

/-- After every operation of a run `use_count` is the number of sockets handed out and
`max_count` is kept to, exactly when nothing throws once a connection is counted and every
redirect has room. -/
theorem http_client_balanced_iff (context : Bool) (maxCount : Nat) (events : List (Event ε)) :
    EveryStep step (fun c ev => (c.step ev).Balanced) (init context maxCount) events ↔
      EveryStep step Accounted (init context maxCount) events :=
  everyStep_congr_of_invariant (fun _ ev h => balanced_step_iff h ev)
    (fun _ ev h hq => (balanced_step_iff h ev).mpr hq) ⟨rfl, Nat.zero_le _⟩

/-- An address with `https://` for a client without a context takes its place for good. -/
theorem not_balanced_of_unsupported_https :
    ((init false 1 : HttpClient Nat).doConnect ⟨some .https, some [1]⟩ true) =
        (⟨false, 1, 1, [], [], 0⟩, .unsupportedHttps) ∧
      ¬ ∀ events : List (Event Nat), (events.foldl step (init false 1)).Balanced := by
  refine ⟨by decide, fun h => ?_⟩
  exact absurd (h [.connect ⟨some .https, some [1]⟩]).counted (by decide)

end HttpClient

end Webclient

end Acqua
