import Acqua.Library.Run
import Acqua.Library.WaitTimer

/-! `basic_pinger.hpp`: requests with an expiry each, answered by echo replies or timed out by
one timer. -/

namespace Acqua

namespace Asio

/-- `ε` stands for an endpoint. -/
inductive Outcome (ε : Type*)
  | reply (remote : ε)
  | found (remotes : List ε)
  | timedOut
  | error
  deriving DecidableEq

/-- A call of the handler of a request. -/
structure Invocation (ε : Type*) where
  handler : Nat
  outcome : Outcome ε
  now : Int
  deriving DecidableEq

/-- `handler_` is the number of the request, and the replies so far when that is a search. -/
structure PingEntry (ε : Type*) where
  seq : Nat
  expire : Int
  handler : Nat
  replies : Option (List ε)
  deriving DecidableEq

/-- `clock` is what the steady clock shows. `requests` holds the expiry of every request made,
`log` the calls of their handlers, the latest first. -/
structure Pinger (ε : Type*) where
  clock : Int
  timer : WaitTimer Int
  entries : List (PingEntry ε)
  seq : Nat
  id : Nat
  requests : List Int
  log : List (Invocation ε)
  deriving DecidableEq

variable {ε : Type*}

def PingEntry.addReply (remote : ε) (e : PingEntry ε) : PingEntry ε :=
  { e with replies := e.replies.map (· ++ [remote]) }

def PingEntry.timeOut (e : PingEntry ε) : Outcome ε :=
  match e.replies with
  | none => .timedOut
  | some [] => .timedOut
  | some remotes => .found remotes

namespace Pinger

/-- What becomes of `send_ping`: the socket is closed, the packet does not fit, or `send_to`
succeeds or fails. -/
inductive Send
  | closed
  | noBuffer
  | sent
  | failed

/-- What the resolver has found, where an endpoint is one that `check` lets pass. -/
inductive Resolved
  | error
  | noEndpoint
  | endpoint (s : Send)

/-- Time passes, the timer is found to have expired, or a handler runs. -/
inductive Event (ε : Type*)
  | elapse (ticks : Nat)
  | expire
  | resolve (search : Bool) (expire : Int) (r : Resolved)
  | receive (error : Bool) (echo : Option (Nat × Nat)) (remote : ε)
  | wait (i : Nat)

def init (id : Nat) (clock : Int) : Pinger ε := ⟨clock, .init, [], 0, id, [], []⟩

def invoke (p : Pinger ε) (handler : Nat) (outcome : Outcome ε) : Pinger ε :=
  { p with log := ⟨handler, outcome, p.clock⟩ :: p.log }

def arm (p : Pinger ε) (expire : Int) : Pinger ε :=
  { p with timer := (p.timer.expiresAt expire).asyncWait }

def add (p : Pinger ε) (search : Bool) (expire : Int) (handler : Nat) : Pinger ε :=
  let it := lowerBound PingEntry.expire p.entries expire
  let e := ⟨p.seq, expire, handler, if search then some [] else none⟩
  let p := { p with seq := (p.seq + 1) % 2 ^ 16, entries := emplaceAt p.entries it e }
  if it = 0 then p.arm expire else p

def sendPing (p : Pinger ε) (search : Bool) (expire : Int) (handler : Nat) (s : Send) :
    Pinger ε :=
  match s with
  | .closed | .noBuffer => p.invoke handler .error
  | .sent => p.add search expire handler
  | .failed =>
    let q := p.add search expire handler
    match q.entries.findIdx? fun e => e.seq == p.seq with
    | some i => { q with entries := q.entries.eraseIdx i }.invoke handler .error
    | none => q

def onResolve (p : Pinger ε) (search : Bool) (expire : Int) (r : Resolved) : Pinger ε :=
  let handler := p.requests.length
  let p := { p with requests := p.requests ++ [expire] }
  match r with
  | .error => p.invoke handler .error
  | .noEndpoint => p
  | .endpoint s => p.sendPing search expire handler s

def armFirst (p : Pinger ε) : Pinger ε :=
  match p.entries with
  | [] => p
  | e :: _ => p.arm e.expire

def settle (p : Pinger ε) : Pinger ε :=
  if p.entries.isEmpty then { p with timer := p.timer.cancel } else p.armFirst

def onReply (p : Pinger ε) (seq : Nat) (remote : ε) : Pinger ε :=
  match p.entries.findIdx? fun e => e.seq == seq with
  | none => p
  | some i =>
    match p.entries[i]? with
    | none => p
    | some e =>
      if e.replies.isNone then
        ({ p with entries := p.entries.eraseIdx i }.invoke e.handler (.reply remote)).settle
      else { p with entries := p.entries.modify i (PingEntry.addReply remote) }.armFirst

/-- `echo` is the identifier and the sequence number of what `parse` finds. -/
def onReceive (p : Pinger ε) (error : Bool) (echo : Option (Nat × Nat)) (remote : ε) :
    Pinger ε :=
  if error then p
  else
    match echo with
    | none => p
    | some (id, seq) => if id ≠ p.id then p else p.onReply seq remote

def onWait (p : Pinger ε) (error : WaitResult) : Pinger ε :=
  match error, p.entries with
  | .aborted, _ => p
  | .expired, [] => p
  | .expired, e :: entries =>
    { p with entries := entries }.invoke e.handler e.timeOut |>.armFirst

def step (p : Pinger ε) : Event ε → Pinger ε
  | .elapse ticks => { p with clock := p.clock + ticks }
  | .expire => { p with timer := p.timer.expire p.clock }
  | .resolve search expire r => p.onResolve search expire r
  | .receive error echo remote => p.onReceive error echo remote
  | .wait i =>
    match p.timer.queue[i]? with
    | some error => { p with timer := p.timer.dequeue i }.onWait error
    | none => p

/-- All requests have expired. -/
def AllExpired (p : Pinger ε) : Prop := ∀ e ∈ p.entries, e.expire ≤ p.clock

/-- A request of this expiry is put in front of the others. -/
def ComesFirst (p : Pinger ε) (expire : Int) : Prop := ∀ e ∈ p.entries.head?, expire ≤ e.expire

/-- While the completion of a wait is queued, the timer is set again only where all requests have
expired: by the reply to one, which is done with it if it is a check, and by the sending of one
that comes first. While a second wait goes on or is complete, only expired requests are sent.
`send_to` fails only where no request of the same sequence number stands before the new one, and
for a request that comes first only where that leaves the timer set for no other one too early. -/
def InOrder (p : Pinger ε) : Event ε → Prop
  | .receive false (some (id, seq)) _ =>
      id = p.id → 0 < p.timer.completions →
        ∀ i ∈ p.entries.findIdx? fun e => e.seq == seq, ∀ j e, p.entries[j]? = some e →
          (j = i → e.replies.isSome) → e.expire ≤ p.clock
  | .resolve _ expire (.endpoint .sent) =>
      0 < p.timer.completions →
        p.ComesFirst expire ∨ 1 < p.timer.completions + p.timer.waiting →
          expire ≤ p.clock ∧ p.AllExpired
  | .resolve _ expire (.endpoint .failed) =>
      (∀ e ∈ p.entries, e.seq = p.seq → expire ≤ e.expire) ∧
        (p.ComesFirst expire → p.AllExpired ∨
          p.timer.completions = 0 ∧ ∀ e ∈ p.entries.head?, e.expire ≤ max p.clock expire)
  | _ => True

/-- The requests whose handler has been called or is still to be called. -/
def handlers (p : Pinger ε) : List Nat :=
  p.log.map Invocation.handler ++ p.entries.map PingEntry.handler

structure Ok (p : Pinger ε) : Prop where
  nodup : p.handlers.Nodup
  known : ∀ h ∈ p.handlers, h < p.requests.length
  own : ∀ e ∈ p.entries, p.requests[e.handler]? = some e.expire
  inTime : ∀ i ∈ p.log, i.outcome = .timedOut → ∃ t, p.requests[i.handler]? = some t ∧ t ≤ i.now

theorem ok_init (id : Nat) (clock : Int) : (init id clock : Pinger ε).Ok :=
  ⟨.nil, by simp [init, handlers], by simp [init], by simp [init]⟩

theorem Ok.withTimer {p : Pinger ε} (h : p.Ok) (t : WaitTimer Int) : { p with timer := t }.Ok :=
  ⟨h.nodup, h.known, h.own, h.inTime⟩

theorem Ok.armFirst {p : Pinger ε} (h : p.Ok) : p.armFirst.Ok := by
  unfold Pinger.armFirst
  cases p.entries with
  | nil => exact h
  | cons e entries => exact h.withTimer _

theorem Ok.settle {p : Pinger ε} (h : p.Ok) : p.settle.Ok := by
  unfold Pinger.settle
  by_cases hempty : p.entries.isEmpty = true
  · rw [if_pos hempty]
    exact h.withTimer _
  · rw [if_neg hempty]
    exact h.armFirst

theorem Ok.finish {p : Pinger ε} (h : p.Ok) {pre post : List (PingEntry ε)} {e : PingEntry ε}
    (hp : p.entries = pre ++ e :: post) {outcome : Outcome ε}
    (htime : outcome = .timedOut → e.expire ≤ p.clock) :
    ({ p with entries := pre ++ post }.invoke e.handler outcome).Ok := by
  have hperm : ({ p with entries := pre ++ post }.invoke e.handler outcome).handlers.Perm
      p.handlers := by
    simp only [handlers, invoke, hp, List.map_cons, List.map_append, ← List.append_assoc,
      List.cons_append]
    exact List.perm_middle.symm
  have hmem : ∀ x ∈ pre ++ post, x ∈ p.entries := by
    intro x hx
    rw [hp]
    simp only [List.mem_append, List.mem_cons] at hx ⊢
    tauto
  refine ⟨hperm.nodup_iff.mpr h.nodup, fun x hx => h.known x (hperm.subset hx),
    fun x hx => h.own x (hmem x hx), fun i hi htimed => ?_⟩
  rcases List.mem_cons.mp hi with rfl | hi
  · exact ⟨e.expire, h.own e (by simp [hp]), htime htimed⟩
  · exact h.inTime i hi htimed

/-- A request just made, whose handler has not been used for anything yet. -/
structure Unused (p : Pinger ε) (handler : Nat) (expire : Int) : Prop where
  ok : p.Ok
  unused : handler ∉ p.handlers
  own : p.requests[handler]? = some expire

theorem Ok.request {p : Pinger ε} (h : p.Ok) (expire : Int) :
    Unused { p with requests := p.requests ++ [expire] } p.requests.length expire := by
  have hkeep : ∀ {i : Nat} {t : Int}, p.requests[i]? = some t →
      (p.requests ++ [expire])[i]? = some t := fun hi => by
    rw [List.getElem?_append_left (List.getElem?_eq_some_iff.mp hi).1, hi]
  refine ⟨⟨h.nodup, fun x hx => ?_, fun e he => hkeep (h.own e he), fun i hi htimed => ?_⟩,
    fun hmem => lt_irrefl _ (h.known _ hmem), List.getElem?_concat_length⟩
  · exact (h.known x hx).trans (by simp)
  · obtain ⟨t, ht, hle⟩ := h.inTime i hi htimed
    exact ⟨t, hkeep ht, hle⟩

theorem Unused.invokeError {p : Pinger ε} {handler : Nat} {expire : Int}
    (h : Unused p handler expire) : (p.invoke handler .error).Ok := by
  refine ⟨List.nodup_cons.mpr ⟨h.unused, h.ok.nodup⟩, fun x hx => ?_, h.ok.own,
    fun i hi htimed => ?_⟩
  · rcases List.mem_cons.mp hx with rfl | hx
    · exact (List.getElem?_eq_some_iff.mp h.own).1
    · exact h.ok.known x hx
  · rcases List.mem_cons.mp hi with rfl | hi
    · cases htimed
    · exact h.ok.inTime i hi htimed

theorem add_entries (p : Pinger ε) (search : Bool) (expire : Int) (handler : Nat) :
    (p.add search expire handler).entries =
      (p.entries.takeWhile fun e => decide (e.expire < expire)) ++
        ⟨p.seq, expire, handler, if search then some [] else none⟩ ::
        p.entries.dropWhile fun e => decide (e.expire < expire) := by
  rw [← emplaceAt_lowerBound PingEntry.expire]
  unfold add
  by_cases hit : lowerBound PingEntry.expire p.entries expire = 0
  · simp only [if_pos hit]
    rfl
  · simp only [if_neg hit]

/-- Adding an entry changes nothing but the entries, the sequence number and the timer. -/
theorem add_eq (p : Pinger ε) (search : Bool) (expire : Int) (handler : Nat) :
    p.add search expire handler =
      { p with
        entries := (p.add search expire handler).entries
        seq := (p.add search expire handler).seq
        timer := (p.add search expire handler).timer } := by
  unfold add
  by_cases hit : lowerBound PingEntry.expire p.entries expire = 0
  · simp only [if_pos hit]
    rfl
  · simp only [if_neg hit]

theorem Unused.add {p : Pinger ε} {handler : Nat} {expire : Int} (h : Unused p handler expire)
    (search : Bool) : (p.add search expire handler).Ok := by
  have hentries := add_entries p search expire handler
  rw [add_eq]
  set q := p.add search expire handler
  have hmem : ∀ e ∈ q.entries, e ∈ p.entries ∨ e.handler = handler ∧ e.expire = expire := by
    intro e he
    rw [hentries] at he
    rcases List.mem_append.mp he with he | he
    · exact .inl ((List.takeWhile_sublist _).subset he)
    · rcases List.mem_cons.mp he with rfl | he
      · exact .inr ⟨rfl, rfl⟩
      · exact .inl ((List.dropWhile_sublist _).subset he)
  have hperm : (p.log.map Invocation.handler ++ q.entries.map PingEntry.handler).Perm
      (handler :: p.handlers) := by
    have hsplit : (p.entries.takeWhile fun e => decide (e.expire < expire)) ++
        (p.entries.dropWhile fun e => decide (e.expire < expire)) = p.entries :=
      List.takeWhile_append_dropWhile
    rw [hentries, List.map_append, List.map_cons, handlers, ← hsplit, List.map_append,
      ← List.append_assoc, ← List.append_assoc, hsplit]
    exact List.perm_middle
  refine ⟨hperm.nodup_iff.mpr (List.nodup_cons.mpr ⟨h.unused, h.ok.nodup⟩), fun x hx => ?_,
    fun e he => ?_, h.ok.inTime⟩
  · rcases List.mem_cons.mp (hperm.subset hx) with rfl | hx
    · exact (List.getElem?_eq_some_iff.mp h.own).1
    · exact h.ok.known x hx
  · rcases hmem e he with he | ⟨hhandler, hexpire⟩
    · exact h.ok.own e he
    · rw [hhandler, hexpire]
      exact h.own

/-- The new entry is the first one with its sequence number, and goes out again. -/
theorem sendPing_failed {p : Pinger ε} {expire : Int}
    (hseq : ∀ e ∈ p.entries, e.seq = p.seq → expire ≤ e.expire) (search : Bool) (handler : Nat) :
    p.sendPing search expire handler .failed =
      { p with
        seq := (p.add search expire handler).seq
        timer := (p.add search expire handler).timer }.invoke handler .error := by
  have hentries := add_entries p search expire handler
  set q := p.add search expire handler with hq
  have hfind : q.entries.findIdx? (fun e => e.seq == p.seq) =
      some (p.entries.takeWhile fun e => decide (e.expire < expire)).length := by
    have hbefore : (p.entries.takeWhile fun e => decide (e.expire < expire)).findIdx?
        (fun e => e.seq == p.seq) = none := by
      rw [List.findIdx?_eq_none_iff]
      intro e he
      have hlt : e.expire < expire := by simpa using List.mem_takeWhile_imp he
      have hne : e.seq ≠ p.seq := fun hs =>
        absurd (hseq e ((List.takeWhile_sublist _).subset he) hs) (not_le.mpr hlt)
      simpa using hne
    rw [hentries, List.findIdx?_append, hbefore, List.findIdx?_cons, if_pos (beq_self_eq_true _)]
    simp
  have herase : q.entries.eraseIdx
      (p.entries.takeWhile fun e => decide (e.expire < expire)).length = p.entries := by
    rw [hentries, List.eraseIdx_append_of_length_le (Nat.le_refl _), Nat.sub_self,
      List.eraseIdx_zero, List.tail_cons]
    exact List.takeWhile_append_dropWhile
  simp only [sendPing, ← hq, hfind, herase]
  rw [hq, add_eq]

theorem Unused.failed {p : Pinger ε} {handler : Nat} {expire : Int} (h : Unused p handler expire)
    (search : Bool) (hseq : ∀ e ∈ p.entries, e.seq = p.seq → expire ≤ e.expire) :
    (p.sendPing search expire handler .failed).Ok := by
  rw [sendPing_failed hseq]
  set q := p.add search expire handler
  have hsame : Unused { p with seq := q.seq, timer := q.timer } handler expire :=
    ⟨⟨h.ok.nodup, h.ok.known, h.ok.own, h.ok.inTime⟩, h.unused, h.own⟩
  exact hsame.invokeError

theorem Ok.resolve {p : Pinger ε} (h : p.Ok) (search : Bool) (expire : Int) (r : Resolved)
    (hev : InOrder p (.resolve search expire r)) : (p.onResolve search expire r).Ok := by
  have hnew := h.request expire
  match r with
  | .error => exact hnew.invokeError
  | .noEndpoint => exact hnew.ok
  | .endpoint .closed => exact hnew.invokeError
  | .endpoint .noBuffer => exact hnew.invokeError
  | .endpoint .sent => exact hnew.add search
  | .endpoint .failed => exact hnew.failed search hev.1

theorem Ok.addReply {p : Pinger ε} (h : p.Ok) {pre post : List (PingEntry ε)} {e : PingEntry ε}
    (hp : p.entries = pre ++ e :: post) (remote : ε) :
    { p with entries := pre ++ e.addReply remote :: post }.Ok := by
  have hsame : { p with entries := pre ++ e.addReply remote :: post }.handlers = p.handlers := by
    simp only [handlers, hp, List.map_append, List.map_cons, PingEntry.addReply]
  refine ⟨hsame ▸ h.nodup, fun x hx => h.known x (hsame ▸ hx), fun x hx => ?_, h.inTime⟩
  rcases List.mem_append.mp hx with hx | hx
  · exact h.own x (by simp [hp, hx])
  · rcases List.mem_cons.mp hx with rfl | hx
    · exact h.own e (by simp [hp])
    · exact h.own x (by simp [hp, hx])

theorem Ok.onReply {p : Pinger ε} (h : p.Ok) (seq : Nat) (remote : ε) :
    (p.onReply seq remote).Ok := by
  unfold Pinger.onReply
  cases hi : p.entries.findIdx? fun e => e.seq == seq with
  | none => exact h
  | some i =>
    have hlt : i < p.entries.length := (List.findIdx?_eq_some_iff_getElem.mp hi).1
    have hsplit : p.entries = p.entries.take i ++ p.entries[i] :: p.entries.drop (i + 1) := by
      rw [List.getElem_cons_drop, List.take_append_drop]
    simp only [List.getElem?_eq_getElem hlt]
    by_cases hcheck : p.entries[i].replies.isNone = true
    · rw [if_pos hcheck, List.eraseIdx_eq_take_drop_succ]
      exact (h.finish hsplit fun htimed => by cases htimed).settle
    · rw [if_neg hcheck, List.modify_eq_take_cons_drop hlt]
      exact (h.addReply hsplit remote).armFirst

theorem Ok.onReceive {p : Pinger ε} (h : p.Ok) (error : Bool) (echo : Option (Nat × Nat))
    (remote : ε) : (p.onReceive error echo remote).Ok := by
  unfold Pinger.onReceive
  by_cases herr : error = true
  · rwa [if_pos herr]
  · rw [if_neg herr]
    match echo with
    | none => exact h
    | some (id, seq) =>
      by_cases hid : id ≠ p.id
      · simpa only [if_pos hid] using h
      · simpa only [if_neg hid] using h.onReply seq remote

/-- What the queued completions and the wait that goes on will find: the first request expired,
and every request if there is more than one of them. -/
structure Timely (p : Pinger ε) : Prop where
  waiting_le : p.timer.waiting ≤ 1
  armed : p.timer.waiting = 1 → p.timer.completions = 0 →
    ∀ e ∈ p.entries.head?, ∃ t ∈ p.timer.expiry, e.expire ≤ max p.clock t
  due : 0 < p.timer.completions → ∀ e ∈ p.entries.head?, e.expire ≤ p.clock
  overdue : 1 < p.timer.completions + p.timer.waiting → p.AllExpired

theorem timely_init (id : Nat) (clock : Int) : (init id clock : Pinger ε).Timely :=
  ⟨Nat.zero_le _, by simp [init], by simp [init], by simp [init, AllExpired]⟩

theorem timely_of_entries_nil {p : Pinger ε} (h : p.entries = []) (hwaiting : p.timer.waiting ≤ 1) :
    p.Timely :=
  ⟨hwaiting, by simp [h], by simp [h], by simp [h, AllExpired]⟩

theorem Timely.invoke {p : Pinger ε} (h : p.Timely) (handler : Nat) (outcome : Outcome ε) :
    (p.invoke handler outcome).Timely :=
  ⟨h.waiting_le, h.armed, h.due, h.overdue⟩

/-- Setting the timer again is safe if nothing is queued, or if all requests have expired. -/
theorem timely_arm {p : Pinger ε} {expire : Int}
    (hhead : p.timer.completions = 0 → ∀ e ∈ p.entries.head?, e.expire ≤ max p.clock expire)
    (hall : 0 < p.timer.completions → p.AllExpired) : (p.arm expire).Timely := by
  have hcount : (p.arm expire).timer.completions = p.timer.completions := by simp [arm]
  have hwaiting : (p.arm expire).timer.waiting = 1 := rfl
  refine ⟨hwaiting.le, fun _ hnone e he => ⟨expire, rfl, hhead (hcount ▸ hnone) e he⟩,
    fun hsome e he => ?_, fun hmany => hall (by omega)⟩
  exact hall (hcount ▸ hsome) e (List.mem_of_mem_head? he)

theorem timely_armFirst {p : Pinger ε} (hwaiting : p.timer.waiting ≤ 1)
    (hall : 0 < p.timer.completions → p.AllExpired) : p.armFirst.Timely := by
  unfold armFirst
  cases hentries : p.entries with
  | nil => exact timely_of_entries_nil hentries hwaiting
  | cons e entries =>
    refine timely_arm (fun _ e' he' => ?_) hall
    rw [hentries] at he'
    obtain rfl : e = e' := Option.some.inj he'
    exact le_max_right _ _

theorem timely_settle {p : Pinger ε} (hwaiting : p.timer.waiting ≤ 1)
    (hall : 0 < p.timer.completions → p.AllExpired) : p.settle.Timely := by
  unfold settle
  by_cases hempty : p.entries.isEmpty = true
  · rw [if_pos hempty]
    exact timely_of_entries_nil (List.isEmpty_iff.mp hempty) (Nat.zero_le _)
  · rw [if_neg hempty]
    exact timely_armFirst hwaiting hall

theorem Timely.elapse {p : Pinger ε} (h : p.Timely) (ticks : Nat) :
    (p.step (.elapse ticks)).Timely := by
  have hle : p.clock ≤ p.clock + ticks := by omega
  refine ⟨h.waiting_le, fun hone hnone e he => ?_, fun hsome e he => (h.due hsome e he).trans hle,
    fun hmany e he => (h.overdue hmany e he).trans hle⟩
  obtain ⟨t, ht, hexpire⟩ := h.armed hone hnone e he
  exact ⟨t, ht, hexpire.trans (max_le_max_right t hle)⟩

theorem Timely.expire {p : Pinger ε} (h : p.Timely) : (p.step .expire).Timely := by
  by_cases hnow : p.timer.expiry.any (· ≤ p.clock) = true
  · have hcount : (p.step .expire).timer.completions = p.timer.completions + p.timer.waiting :=
      WaitTimer.completions_expire hnow
    have hwaiting : (p.step .expire).timer.waiting = 0 := by simp [Pinger.step, WaitTimer.expire, hnow]
    refine ⟨by omega, fun hone => by omega, fun hsome e he => ?_, fun hmany => ?_⟩
    · by_cases hnone : p.timer.completions = 0
      · have hone : p.timer.waiting = 1 := by
          have := h.waiting_le
          omega
        obtain ⟨t, ht, hexpire⟩ := h.armed hone hnone e he
        have hpast : t ≤ p.clock := by simpa [Option.mem_def.mp ht] using hnow
        exact hexpire.trans (max_le le_rfl hpast)
      · exact h.due (Nat.pos_of_ne_zero hnone) e he
    · exact h.overdue (by omega)
  · have hsame : p.step .expire = p := by simp [Pinger.step, WaitTimer.expire, hnow]
    rwa [hsame]

theorem comesFirst_iff (p : Pinger ε) (expire : Int) :
    p.ComesFirst expire ↔ lowerBound PingEntry.expire p.entries expire = 0 := by
  unfold ComesFirst lowerBound
  cases p.entries with
  | nil => simp
  | cons e entries => by_cases hlt : e.expire < expire <;> simp [hlt, not_lt.mp]

theorem add_of_comesFirst {p : Pinger ε} {expire : Int} (h : p.ComesFirst expire) (search : Bool)
    (handler : Nat) :
    p.add search expire handler =
      ({ p with
        entries := ⟨p.seq, expire, handler, if search then some [] else none⟩ :: p.entries
        seq := (p.seq + 1) % 2 ^ 16 } : Pinger ε).arm expire := by
  have hit := (comesFirst_iff p expire).mp h
  simp only [add, hit, if_pos]
  rfl

theorem add_timer_of_not_comesFirst {p : Pinger ε} {expire : Int} (h : ¬ p.ComesFirst expire)
    (search : Bool) (handler : Nat) : (p.add search expire handler).timer = p.timer := by
  simp only [add, if_neg (mt (comesFirst_iff p expire).mpr h)]

/-- Another request stays the first. -/
theorem add_head_of_not_comesFirst {p : Pinger ε} {expire : Int} (h : ¬ p.ComesFirst expire)
    (search : Bool) (handler : Nat) :
    (p.add search expire handler).entries.head? = p.entries.head? := by
  rw [add_entries]
  cases hentries : p.entries with
  | nil => exact absurd (by simp [ComesFirst, hentries]) h
  | cons e entries =>
    have hlt : e.expire < expire := by simpa [ComesFirst, hentries] using h
    rw [List.takeWhile_cons_of_pos (by simpa using hlt)]
    rfl

theorem Timely.add {p : Pinger ε} (h : p.Timely) {expire : Int}
    (hev : 0 < p.timer.completions →
      p.ComesFirst expire ∨ 1 < p.timer.completions + p.timer.waiting →
        expire ≤ p.clock ∧ p.AllExpired) (search : Bool) (handler : Nat) :
    (p.add search expire handler).Timely := by
  by_cases hfirst : p.ComesFirst expire
  · rw [add_of_comesFirst hfirst]
    refine timely_arm (fun _ e he => ?_) fun hsome => ?_
    · obtain rfl := Option.some.inj he
      exact le_max_right _ _
    · obtain ⟨hnew, hall⟩ := hev hsome (.inl hfirst)
      exact List.forall_mem_cons.mpr ⟨hnew, hall⟩
  · have htimer := add_timer_of_not_comesFirst hfirst search handler
    have hhead := add_head_of_not_comesFirst hfirst search handler
    have hentries := add_entries p search expire handler
    rw [add_eq]
    set q := p.add search expire handler
    rw [htimer]
    refine ⟨h.waiting_le, fun hone hnone e he => h.armed hone hnone e (hhead ▸ he),
      fun hsome e he => h.due hsome e (hhead ▸ he), fun hmany e he => ?_⟩
    have hsome : 0 < p.timer.completions := by
      have hle := h.waiting_le
      have hover : 1 < p.timer.completions + p.timer.waiting := hmany
      omega
    obtain ⟨hnew, hall⟩ := hev hsome (.inr hmany)
    have hmem : e ∈ q.entries := he
    rw [hentries] at hmem
    rcases List.mem_append.mp hmem with hmem | hmem
    · exact hall e ((List.takeWhile_sublist _).subset hmem)
    · rcases List.mem_cons.mp hmem with rfl | hmem
      · exact hnew
      · exact hall e ((List.dropWhile_sublist _).subset hmem)

theorem Timely.failed {p : Pinger ε} (h : p.Timely) {expire : Int}
    (hseq : ∀ e ∈ p.entries, e.seq = p.seq → expire ≤ e.expire)
    (hev : p.ComesFirst expire → p.AllExpired ∨
      p.timer.completions = 0 ∧ ∀ e ∈ p.entries.head?, e.expire ≤ max p.clock expire)
    (search : Bool) (handler : Nat) : (p.sendPing search expire handler .failed).Timely := by
  rw [sendPing_failed hseq]
  refine Timely.invoke ?_ handler .error
  by_cases hfirst : p.ComesFirst expire
  · rw [add_of_comesFirst hfirst]
    have harm : (p.arm expire).Timely := by
      rcases hev hfirst with hall | ⟨hnone, hhead⟩
      · exact timely_arm (fun _ e he => (hall e (List.mem_of_mem_head? he)).trans
          (le_max_left _ _)) fun _ => hall
      · exact timely_arm (fun _ => hhead) fun hsome => absurd hnone hsome.ne'
    exact ⟨harm.waiting_le, harm.armed, harm.due, harm.overdue⟩
  · rw [add_timer_of_not_comesFirst hfirst]
    exact ⟨h.waiting_le, h.armed, h.due, h.overdue⟩

theorem Timely.resolve {p : Pinger ε} (h : p.Timely) (search : Bool) (expire : Int) (r : Resolved)
    (hev : InOrder p (.resolve search expire r)) : (p.onResolve search expire r).Timely := by
  have hnew : ({ p with requests := p.requests ++ [expire] } : Pinger ε).Timely :=
    ⟨h.waiting_le, h.armed, h.due, h.overdue⟩
  match r with
  | .error => exact hnew.invoke _ _
  | .noEndpoint => exact hnew
  | .endpoint .closed => exact hnew.invoke _ _
  | .endpoint .noBuffer => exact hnew.invoke _ _
  | .endpoint .sent => exact hnew.add hev search _
  | .endpoint .failed => exact hnew.failed hev.1 hev.2 search _

theorem Timely.onReply {p : Pinger ε} (h : p.Timely) (seq : Nat) (remote : ε)
    (hev : 0 < p.timer.completions →
      ∀ i ∈ p.entries.findIdx? fun e => e.seq == seq, ∀ j e, p.entries[j]? = some e →
        (j = i → e.replies.isSome) → e.expire ≤ p.clock) : (p.onReply seq remote).Timely := by
  unfold Pinger.onReply
  cases hi : p.entries.findIdx? fun e => e.seq == seq with
  | none => exact h
  | some i =>
    have hlt : i < p.entries.length := (List.findIdx?_eq_some_iff_getElem.mp hi).1
    simp only [List.getElem?_eq_getElem hlt]
    by_cases hcheck : p.entries[i].replies.isNone = true
    · rw [if_pos hcheck]
      refine timely_settle h.waiting_le fun hsome e he => ?_
      obtain ⟨j, hj, hne, rfl⟩ := List.mem_eraseIdx_iff_getElem.mp he
      exact hev hsome i hi j _ (List.getElem?_eq_getElem hj) fun hij => absurd hij hne
    · rw [if_neg hcheck]
      refine timely_armFirst h.waiting_le fun hsome e he => ?_
      obtain ⟨j, hj, rfl⟩ := List.mem_iff_getElem.mp he
      have hj' : j < p.entries.length := by simpa using hj
      have hexpire := hev hsome i hi j _ (List.getElem?_eq_getElem hj') fun hij => by
        subst hij
        simpa [Option.isSome_iff_ne_none] using hcheck
      dsimp only
      rw [List.getElem_modify]
      split_ifs
      · exact hexpire
      · exact hexpire

theorem Timely.receive {p : Pinger ε} (h : p.Timely) (error : Bool) (echo : Option (Nat × Nat))
    (remote : ε) (hev : InOrder p (.receive error echo remote)) :
    (p.onReceive error echo remote).Timely := by
  unfold Pinger.onReceive
  match error, echo with
  | true, _ => exact h
  | false, none => exact h
  | false, some (id, seq) =>
    rw [if_neg Bool.false_ne_true]
    dsimp only
    by_cases hid : id = p.id
    · rw [if_neg (not_not.mpr hid)]
      exact h.onReply seq remote (hev hid)
    · rwa [if_pos hid]

/-- The completion that runs is one of those that were counted, and sets the timer again. -/
theorem Timely.wait {p : Pinger ε} (h : p.Timely) (i : Nat) : (p.step (.wait i)).Timely := by
  cases hi : p.timer.queue[i]? with
  | none =>
    have hstep : p.step (.wait i) = p := by simp only [step, hi]
    rwa [hstep]
  | some error =>
    have hstep : p.step (.wait i) = { p with timer := p.timer.dequeue i }.onWait error := by
      simp only [step, hi]
    have hcount := WaitTimer.completions_dequeue hi
    rw [hstep]
    cases error with
    | aborted =>
      have hsame : (p.timer.dequeue i).completions = p.timer.completions := hcount.symm
      refine ⟨h.waiting_le, fun hone hnone => h.armed hone (hsame ▸ hnone),
        fun hsome => h.due (hsame ▸ hsome), fun hmany => h.overdue (hsame ▸ hmany)⟩
    | expired =>
      rw [if_pos rfl] at hcount
      cases hentries : p.entries with
      | nil =>
        simp only [onWait]
        exact timely_of_entries_nil rfl h.waiting_le
      | cons e entries =>
        simp only [onWait]
        refine timely_armFirst h.waiting_le fun hsome x hx => ?_
        have hsome' : 0 < (p.timer.dequeue i).completions := hsome
        exact h.overdue (by omega) x (by rw [hentries]; exact List.mem_cons_of_mem e hx)

theorem Timely.step {p : Pinger ε} (h : p.Timely) (ev : Event ε) (hev : InOrder p ev) :
    (p.step ev).Timely := by
  cases ev with
  | elapse ticks => exact h.elapse ticks
  | expire => exact h.expire
  | resolve search expire r => exact h.resolve search expire r hev
  | receive error echo remote => exact h.receive error echo remote hev
  | wait i => exact h.wait i

/-- The request that a completion times out has expired. -/
theorem Ok.wait {p : Pinger ε} (h : p.Ok) (htimely : p.Timely) (i : Nat) :
    (p.step (.wait i)).Ok := by
  cases hi : p.timer.queue[i]? with
  | none =>
    have hstep : p.step (.wait i) = p := by simp only [step, hi]
    rwa [hstep]
  | some error =>
    have hstep : p.step (.wait i) = { p with timer := p.timer.dequeue i }.onWait error := by
      simp only [step, hi]
    rw [hstep]
    cases error with
    | aborted => exact h.withTimer _
    | expired =>
      have hcount := WaitTimer.completions_dequeue hi
      rw [if_pos rfl] at hcount
      cases hentries : p.entries with
      | nil =>
        simp only [onWait]
        exact hentries ▸ h.withTimer _
      | cons e entries =>
        have hfirst : e.expire ≤ p.clock := htimely.due (by omega) e (by simp [hentries])
        have htime : e.timeOut = .timedOut → e.expire ≤ p.clock := fun _ => hfirst
        have hdone := (h.withTimer (p.timer.dequeue i)).finish
          (show p.entries = [] ++ e :: entries from hentries) htime
        simp only [onWait]
        exact hdone.armFirst

theorem Ok.step {p : Pinger ε} (h : p.Ok) (htimely : p.Timely) (ev : Event ε)
    (hev : InOrder p ev) : (p.step ev).Ok := by
  cases ev with
  | elapse ticks => exact ⟨h.nodup, h.known, h.own, h.inTime⟩
  | expire => exact h.withTimer _
  | resolve search expire r => exact h.resolve search expire r hev
  | receive error echo remote => exact h.onReceive error echo remote
  | wait i => exact h.wait htimely i

/-- In a run whose events are in order every handler is called at most once, and with
`timed_out` only when its request has expired. -/
theorem pinger_in_time (id : Nat) (clock : Int) (events : List (Event ε))
    (h : EveryStep Pinger.step InOrder (init id clock) events) :
    let p := events.foldl Pinger.step (init id clock)
    (p.log.map Invocation.handler).Nodup ∧
      ∀ i ∈ p.log, i.outcome = .timedOut → ∃ t, p.requests[i.handler]? = some t ∧ t ≤ i.now := by
  intro p
  have hstep : ∀ (q : Pinger ε) ev, q.Ok ∧ q.Timely → InOrder q ev →
      (q.step ev).Ok ∧ (q.step ev).Timely :=
    fun q ev hq hev => ⟨hq.1.step hq.2 ev hev, hq.2.step ev hev⟩
  have hok : p.Ok ∧ p.Timely :=
    @EveryStep.invariant _ _ _ _ (fun q => q.Ok ∧ q.Timely) hstep _ _ h
      ⟨ok_init id clock, timely_init id clock⟩
  exact ⟨(List.nodup_append.mp hok.1.nodup).1, hok.1.inTime⟩

theorem pinger_in_time_of_one_request :
    let p : Pinger Unit :=
      [Event.resolve false 1 (.endpoint .sent), .elapse 1, .expire, .wait 0].foldl
        Pinger.step (init 7 0)
    p.log = [⟨0, .timedOut, 1⟩] ∧ (p.log.map Invocation.handler).Nodup := by
  refine ⟨by decide, (pinger_in_time 7 0 _ ?_).1⟩
  simp only [everyStep_cons, everyStep_nil, and_true]
  exact ⟨fun hsome => absurd hsome (by decide), trivial, trivial, trivial⟩

/-- A request that expires at 10 is timed out at 1, by the completion that was queued for the
request whose reply came in between. -/
theorem not_in_time_of_late_completion :
    ([Event.resolve false 1 (.endpoint .sent), .resolve false 10 (.endpoint .sent), .elapse 1,
        .expire, .receive false (some (7, 0)) (), .wait 0].foldl Pinger.step (init 7 0)).log =
        [⟨1, .timedOut, 1⟩, ⟨0, .reply (), 1⟩] ∧
      ¬ ∀ events : List (Event Unit), ∀ i ∈ (events.foldl Pinger.step (init 7 0)).log,
        i.outcome = .timedOut →
          ∃ t, (events.foldl Pinger.step (init 7 0)).requests[i.handler]? = some t ∧ t ≤ i.now := by
  refine ⟨by decide, fun h => ?_⟩
  obtain ⟨t, ht, hle⟩ := h [Event.resolve false 1 (.endpoint .sent),
    .resolve false 10 (.endpoint .sent), .elapse 1, .expire, .receive false (some (7, 0)) (),
    .wait 0] ⟨1, .timedOut, 1⟩ (by decide) rfl
  obtain rfl : 10 = t := Option.some.inj ht
  exact absurd hle (by decide)

end Pinger

end Asio

end Acqua
