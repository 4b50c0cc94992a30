import Acqua.Ctype
import Acqua.Library.BigEndian
import Acqua.Library.Splits

/-! `inotify_listener.hpp`. The buffer is the memory from its beginning on, so that it goes on
behind the bytes that were read. -/

namespace Acqua

/-- How the machine holds an integer of four bytes. -/
structure ByteOrder where
  store : BitVec 32 → List UInt8
  load : List UInt8 → BitVec 32
  length_store : ∀ x, (store x).length = 4
  load_store : ∀ x, load (store x) = x

def ByteOrder.little : ByteOrder where
  store x := [.ofNat x.toNat, .ofNat (x.toNat / 256), .ofNat (x.toNat / 256 / 256),
    .ofNat (x.toNat / 256 / 256 / 256)]
  load bytes := .ofNat 32 (littleValue bytes)
  length_store _ := rfl
  load_store x := by
    have hx := x.isLt
    refine BitVec.eq_of_toNat_eq ?_
    simp only [littleValue_cons, littleValue_nil, UInt8.toNat_ofNat', BitVec.toNat_ofNat]
    omega

namespace Inotify

/-- The handlers of the derived class but for `on_error`. -/
inductive Handler
  | onEvent
  | onAccess
  | onAttribute
  | onCloseWrite
  | onCloseNowrite
  | onClose
  | onModify
  | onOpen
  | onMove
  | onDelete
  | onMovedFrom
  | onMovedTo
  | onCreatePath
  | onRemovePath
  | onDisposed
  deriving DecidableEq

structure Call where
  handler : Handler
  args : List (List UInt8)
  deriving DecidableEq

abbrev Files := BitVec 32 → Option (List UInt8)

/-- What a call of `on_read` does: the watches left, the handlers called in each turn of the
loop, the error reported, and whether the next read was started. -/
structure Read where
  files : Files
  calls : List (List Call)
  error : Option Nat
  reading : Bool

def inAccess : BitVec 32 := 0x1
def inModify : BitVec 32 := 0x2
def inAttrib : BitVec 32 := 0x4
def inCloseWrite : BitVec 32 := 0x8
def inCloseNowrite : BitVec 32 := 0x10
def inClose : BitVec 32 := inCloseWrite ||| inCloseNowrite
def inOpen : BitVec 32 := 0x20
def inMovedFrom : BitVec 32 := 0x40
def inMovedTo : BitVec 32 := 0x80
def inCreate : BitVec 32 := 0x100
def inDelete : BitVec 32 := 0x200
def inDeleteSelf : BitVec 32 := 0x400
def inMoveSelf : BitVec 32 := 0x800
def inIgnored : BitVec 32 := 0x8000

section Source

variable (order : ByteOrder)

def strlen (s : List UInt8) : Option Nat :=
  if 0 ∈ s then some (s.takeWhile (· ≠ 0)).length else none

/-- `if (test) handler(args)`. -/
def fire (test : BitVec 32) (handler : Handler) (args : List (List UInt8)) : List Call :=
  if test ≠ 0 then [⟨handler, args⟩] else []

def dispatch (mask : BitVec 32) (name inName : List UInt8) : List Call :=
  [⟨.onEvent, [name]⟩] ++
  fire (mask &&& inAccess) .onAccess [name] ++
  fire (mask &&& inAttrib) .onAttribute [name] ++
  fire (mask &&& inCloseWrite) .onCloseWrite [name] ++
  fire (mask &&& inCloseNowrite) .onCloseNowrite [name] ++
  fire (mask &&& inClose) .onClose [name] ++
  fire (mask &&& inModify) .onModify [name] ++
  fire (mask &&& inOpen) .onOpen [name] ++
  fire (mask &&& inMoveSelf) .onMove [name] ++
  fire (mask * inDeleteSelf) .onDelete [name] ++
  fire (mask &&& inMovedFrom) .onMovedFrom [name, inName] ++
  fire (mask &&& inMovedTo) .onMovedTo [name, inName] ++
  fire (mask &&& inCreate) .onCreatePath [name, inName] ++
  fire (mask &&& inDelete) .onRemovePath [name, inName] ++
  fire (mask &&& inIgnored) .onDisposed [name]

/-- `do_notify`, nothing where `strlen` runs out of the memory. -/
def doNotify (files : Files) (iev : List UInt8) : Option (Files × List Call) :=
  let wd := order.load (iev.take 4)
  let mask := order.load ((iev.drop 4).take 4)
  match files wd with
  | none => some (files, [])
  | some name =>
    let files := if mask &&& inIgnored ≠ 0 then Function.update files wd none else files
    (strlen (iev.drop 16)).map fun n => (files, dispatch mask name ((iev.drop 16).take n))

/-- The loop of `on_read` where `left` bytes lie between `it` and `end`; each turn goes on by
some, so that there are no more turns than bytes. -/
def readLoop : Nat → Files → List UInt8 → Nat → Option (Files × List (List Call))
  | 0, files, _, _ => some (files, [])
  | turns + 1, files, it, left =>
    if 0 < left then
      let size := 16 + (order.load ((it.drop 12).take 4)).toNat
      (doNotify order files it).bind fun r =>
        (readLoop turns r.1 (it.drop size) (left - size)).map fun rest =>
          (rest.1, r.2 :: rest.2)
    else some (files, [])

def onRead (files : Files) (error : Option Nat) (buffer : List UInt8) (size : Nat) : Option Read :=
  match error with
  | some ec => some ⟨files, [], some ec, false⟩
  | none => (readLoop order size files buffer size).map fun r => ⟨r.1, r.2, none, true⟩

end Source

/-- An event as the kernel writes it: a name ends with a zero inside its field. -/
structure Event where
  wd : BitVec 32
  mask : BitVec 32
  cookie : BitVec 32
  field : List UInt8
  short : field.length < 2 ^ 32
  terminated : field ≠ [] → 0 ∈ field

namespace Event

def name (e : Event) : List UInt8 := e.field.takeWhile (· ≠ 0)

def bytes (e : Event) (order : ByteOrder) : List UInt8 :=
  order.store e.wd ++ order.store e.mask ++ order.store e.cookie ++
    order.store (.ofNat 32 e.field.length) ++ e.field

end Event

/-- The events that a handler is for. -/
def Handler.bits : Handler → BitVec 32
  | .onEvent => .allOnes 32
  | .onAccess => inAccess
  | .onAttribute => inAttrib
  | .onCloseWrite => inCloseWrite
  | .onCloseNowrite => inCloseNowrite
  | .onClose => inClose
  | .onModify => inModify
  | .onOpen => inOpen
  | .onMove => inMoveSelf
  | .onDelete => inDeleteSelf
  | .onMovedFrom => inMovedFrom
  | .onMovedTo => inMovedTo
  | .onCreatePath => inCreate
  | .onRemovePath => inDelete
  | .onDisposed => inIgnored

/-- The handlers for one kind of events each, in the order of the tests. -/
def handlers : List Handler :=
  [.onAccess, .onAttribute, .onCloseWrite, .onCloseNowrite, .onClose, .onModify, .onOpen, .onMove,
    .onDelete, .onMovedFrom, .onMovedTo, .onCreatePath, .onRemovePath, .onDisposed]

def Handler.takesName (handler : Handler) : Bool :=
  handler ∈ [.onMovedFrom, .onMovedTo, .onCreatePath, .onRemovePath]

def Handler.call (path name : List UInt8) (handler : Handler) : Call :=
  ⟨handler, if handler.takesName then [path, name] else [path]⟩

/-- The calls for an event: `on_event`, and the handlers that have a bit in the mask. -/
def expected (path : List UInt8) (e : Event) : List Call :=
  ⟨.onEvent, [path]⟩ :: (handlers.filter fun handler => e.mask &&& handler.bits ≠ 0).map
    (Handler.call path e.name)

def reported (files : Files) (e : Event) : List Call :=
  match files e.wd with
  | some path => expected path e
  | none => []

def forget (files : Files) (e : Event) : Files :=
  if e.mask &&& inIgnored ≠ 0 then Function.update files e.wd none else files

/-- Each event is reported once, with the watches that the ones before have left. -/
def dispatched : Files → List Event → Files × List (List Call)
  | files, [] => (files, [])
  | files, e :: events =>
    let rest := dispatched (forget files e) events
    (rest.1, reported files e :: rest.2)

def bytesOf (order : ByteOrder) (events : List Event) : List UInt8 :=
  events.flatMap fun e => e.bytes order

/-- What the walk over an event needs: the product with `IN_DELETE_SELF` is right, and where the
event has no name there is none in what follows it either. -/
structure Clean (e : Event) (behind : List UInt8) : Prop where
  product : e.mask.toNat % 2 ^ 22 = 0 ∨ e.mask &&& inDeleteSelf ≠ 0
  found : e.field = [] → 0 ∈ behind
  unnamed : e.field = [] →
    e.mask &&& (inMovedFrom ||| inMovedTo ||| inCreate ||| inDelete) ≠ 0 → behind.head? = some 0

section Dispatch

/-- The handlers that `do_notify` calls. -/
def tests (mask : BitVec 32) (handler : Handler) : Bool :=
  if handler = .onDelete then mask * inDeleteSelf ≠ 0 else mask &&& handler.bits ≠ 0

def callsOf (test : Handler → Bool) (path name : List UInt8) : List Call :=
  ⟨.onEvent, [path]⟩ :: (handlers.filter test).map (Handler.call path name)

theorem tests_of_ne {handler : Handler} (h : handler ≠ .onDelete) (mask : BitVec 32) :
    tests mask handler = decide (mask &&& handler.bits ≠ 0) := by
  rw [tests, if_neg h]

theorem tests_onDelete (mask : BitVec 32) :
    tests mask .onDelete = decide (mask * inDeleteSelf ≠ 0) := by
  rw [tests, if_pos rfl]

theorem fire_cons {mask : BitVec 32} {path name : List UInt8} (handler : Handler)
    (test : BitVec 32) (args : List (List UInt8)) (htest : tests mask handler = decide (test ≠ 0))
    (hargs : (handler.call path name).args = args) (rest : List Handler) :
    ((handler :: rest).filter (tests mask)).map (Handler.call path name) =
      fire test handler args ++ (rest.filter (tests mask)).map (Handler.call path name) := by
  unfold fire
  by_cases hfire : test ≠ 0
  · rw [decide_eq_true hfire] at htest
    rw [if_pos hfire, List.filter_cons_of_pos htest, ← hargs]
    rfl
  · rw [decide_eq_false hfire] at htest
    rw [if_neg hfire, List.filter_cons_of_neg (by simp [htest])]
    rfl

theorem dispatch_eq (mask : BitVec 32) (path name : List UInt8) :
    dispatch mask path name = callsOf (tests mask) path name := by
  rw [callsOf, handlers]
  rw [fire_cons .onAccess (mask &&& inAccess) [path] (tests_of_ne (by decide) mask) rfl,
    fire_cons .onAttribute (mask &&& inAttrib) [path] (tests_of_ne (by decide) mask) rfl,
    fire_cons .onCloseWrite (mask &&& inCloseWrite) [path] (tests_of_ne (by decide) mask) rfl,
    fire_cons .onCloseNowrite (mask &&& inCloseNowrite) [path] (tests_of_ne (by decide) mask) rfl,
    fire_cons .onClose (mask &&& inClose) [path] (tests_of_ne (by decide) mask) rfl,
    fire_cons .onModify (mask &&& inModify) [path] (tests_of_ne (by decide) mask) rfl,
    fire_cons .onOpen (mask &&& inOpen) [path] (tests_of_ne (by decide) mask) rfl,
    fire_cons .onMove (mask &&& inMoveSelf) [path] (tests_of_ne (by decide) mask) rfl,
    fire_cons .onDelete (mask * inDeleteSelf) [path] (tests_onDelete mask) rfl,
    fire_cons .onMovedFrom (mask &&& inMovedFrom) [path, name] (tests_of_ne (by decide) mask) rfl,
    fire_cons .onMovedTo (mask &&& inMovedTo) [path, name] (tests_of_ne (by decide) mask) rfl,
    fire_cons .onCreatePath (mask &&& inCreate) [path, name] (tests_of_ne (by decide) mask) rfl,
    fire_cons .onRemovePath (mask &&& inDelete) [path, name] (tests_of_ne (by decide) mask) rfl,
    fire_cons .onDisposed (mask &&& inIgnored) [path] (tests_of_ne (by decide) mask) rfl]
  simp only [dispatch, List.append_assoc, List.cons_append, List.nil_append, List.filter_nil,
    List.map_nil, List.append_nil]

theorem callsOf_eq_iff {test test' : Handler → Bool} {path name name' : List UInt8} :
    callsOf test path name = callsOf test' path name' ↔
      (∀ handler ∈ handlers, test handler = test' handler) ∧
        (name = name' ∨ ∀ handler ∈ handlers, handler.takesName = true → test handler = false) := by
  have hcall : ∀ handler : Handler, handler.call path name = handler.call path name' ↔
      (handler.takesName = true → name = name') := by
    intro handler
    unfold Handler.call
    cases handler.takesName <;> simp
  constructor
  · intro heq
    have hmap := (List.cons.inj heq).2
    have hfilter : handlers.filter test = handlers.filter test' := by
      have hhandlers := congrArg (List.map Call.handler) hmap
      simpa [List.map_map, Function.comp_def, Handler.call] using hhandlers
    refine ⟨fun handler hmem => ?_, ?_⟩
    · have hboth : handler ∈ handlers.filter test ↔ handler ∈ handlers.filter test' := by
        rw [hfilter]
      rw [List.mem_filter, List.mem_filter] at hboth
      exact Bool.eq_iff_iff.mpr
        ⟨fun h => (hboth.mp ⟨hmem, h⟩).2, fun h => (hboth.mpr ⟨hmem, h⟩).2⟩
    by_cases hname : name = name'
    · exact .inl hname
    · refine .inr fun handler hmem htakes => ?_
      by_contra hfires
      rw [← hfilter, List.map_inj_left] at hmap
      have hsame := hmap handler (List.mem_filter.mpr ⟨hmem, by simpa using hfires⟩)
      exact hname ((hcall handler).mp hsame htakes)
  · rintro ⟨htest, hname⟩
    unfold callsOf
    rw [List.filter_congr htest]
    refine congrArg _ (List.map_congr_left fun handler hmem => (hcall handler).mpr fun htakes => ?_)
    obtain ⟨hhandler, hfires⟩ := List.mem_filter.mp hmem
    rcases hname with hname | hno
    · exact hname
    · rw [← htest handler hhandler, hno handler hhandler htakes] at hfires
      exact absurd hfires (by decide)

theorem mul_inDeleteSelf_eq_zero (mask : BitVec 32) :
    mask * inDeleteSelf = 0 ↔ mask.toNat % 2 ^ 22 = 0 := by
  rw [← BitVec.toNat_inj, BitVec.toNat_mul]
  change mask.toNat * 1024 % 2 ^ 32 = 0 ↔ _
  omega

theorem and_inDeleteSelf_of_low {mask : BitVec 32} (h : mask.toNat % 2 ^ 22 = 0) :
    mask &&& inDeleteSelf = 0 := by
  have hbit : mask.toNat.testBit 10 = false := by
    have hlow := Nat.testBit_mod_two_pow mask.toNat 22 10
    rw [h] at hlow
    simpa using hlow.symm
  rw [← BitVec.toNat_inj, BitVec.toNat_and]
  change mask.toNat &&& 2 ^ 10 = 0
  rw [Nat.and_two_pow, hbit]
  rfl

theorem tests_right_iff (mask : BitVec 32) :
    (∀ handler ∈ handlers, tests mask handler = decide (mask &&& handler.bits ≠ 0)) ↔
      mask.toNat % 2 ^ 22 = 0 ∨ mask &&& inDeleteSelf ≠ 0 := by
  constructor
  · intro hall
    have hdelete := hall .onDelete (by decide)
    by_cases hbit : mask &&& inDeleteSelf = 0
    · refine .inl ((mul_inDeleteSelf_eq_zero mask).mp ?_)
      simpa [tests, Handler.bits, hbit] using hdelete
    · exact .inr hbit
  · intro hmask handler _
    by_cases hhandler : handler = .onDelete
    · subst hhandler
      have hproduct : mask * inDeleteSelf ≠ 0 ↔ mask &&& inDeleteSelf ≠ 0 := by
        rw [ne_eq, mul_inDeleteSelf_eq_zero]
        rcases hmask with hlow | hbit
        · exact iff_of_false (fun hne => hne hlow) fun hne => hne (and_inDeleteSelf_of_low hlow)
        · exact ⟨fun _ => hbit, fun _ hlow => hbit (and_inDeleteSelf_of_low hlow)⟩
      exact decide_eq_decide.mpr hproduct
    · simp [tests, hhandler]

theorem unnamed_iff (mask : BitVec 32) :
    (∀ handler ∈ handlers, handler.takesName = true → tests mask handler = false) ↔
      mask &&& (inMovedFrom ||| inMovedTo ||| inCreate ||| inDelete) = 0 := by
  have hbits : mask &&& (inMovedFrom ||| inMovedTo ||| inCreate ||| inDelete) = 0 ↔
      (((mask &&& inMovedFrom = 0) ∧ mask &&& inMovedTo = 0) ∧ mask &&& inCreate = 0) ∧
        mask &&& inDelete = 0 := by
    simp only [BitVec.and_or_distrib_left]
    exact BitVec.or_eq_zero_iff.trans (and_congr_left' (BitVec.or_eq_zero_iff.trans
      (and_congr_left' BitVec.or_eq_zero_iff)))
  have htest : ∀ bits : BitVec 32, decide (mask &&& bits ≠ 0) = false ↔ mask &&& bits = 0 := by
    intro bits
    rw [decide_eq_false_iff_not, not_not]
  rw [hbits]
  constructor
  · intro hall
    exact ⟨⟨⟨(htest _).mp (hall .onMovedFrom (by decide) rfl),
      (htest _).mp (hall .onMovedTo (by decide) rfl)⟩,
      (htest _).mp (hall .onCreatePath (by decide) rfl)⟩,
      (htest _).mp (hall .onRemovePath (by decide) rfl)⟩
  · rintro ⟨⟨⟨hfrom, hto⟩, hcreate⟩, hdelete⟩ handler - htakes
    obtain rfl | rfl | rfl | rfl : handler = .onMovedFrom ∨ handler = .onMovedTo ∨
        handler = .onCreatePath ∨ handler = .onRemovePath := by
      simpa [Handler.takesName] using htakes
    · exact (htest _).mpr hfrom
    · exact (htest _).mpr hto
    · exact (htest _).mpr hcreate
    · exact (htest _).mpr hdelete

end Dispatch

section Walk

variable {order : ByteOrder} {e : Event} {tail : List UInt8} {files : Files}

theorem Event.fields (e : Event) (order : ByteOrder) (tail : List UInt8) :
    order.load ((e.bytes order ++ tail).take 4) = e.wd ∧
      order.load (((e.bytes order ++ tail).drop 4).take 4) = e.mask ∧
      order.load (((e.bytes order ++ tail).drop 12).take 4) = .ofNat 32 e.field.length ∧
      (e.bytes order ++ tail).drop 16 = e.field ++ tail := by
  have hwd := order.length_store e.wd
  have hmask := order.length_store e.mask
  have hcookie := order.length_store e.cookie
  have hlen := order.length_store (.ofNat 32 e.field.length)
  have hbytes : e.bytes order ++ tail = order.store e.wd ++ (order.store e.mask ++
      (order.store e.cookie ++ (order.store (.ofNat 32 e.field.length) ++ (e.field ++ tail)))) := by
    simp only [Event.bytes, List.append_assoc]
  rw [hbytes]
  refine ⟨?_, ?_, ?_, ?_⟩
  · rw [List.take_left' hwd, order.load_store]
  · rw [List.drop_left' hwd, List.take_left' hmask, order.load_store]
  · rw [← List.append_assoc, ← List.append_assoc, List.drop_left' (by simp [*]),
      List.take_left' hlen, order.load_store]
  · rw [← List.append_assoc, ← List.append_assoc, ← List.append_assoc,
      List.drop_left' (by simp [*])]

theorem Event.length_bytes (e : Event) (order : ByteOrder) :
    (e.bytes order).length = 16 + e.field.length := by
  simp only [Event.bytes, List.length_append, order.length_store]

theorem Event.toNat_length (e : Event) : (BitVec.ofNat 32 e.field.length).toNat = e.field.length :=
  (BitVec.toNat_ofNat _ _).trans (Nat.mod_eq_of_lt e.short)

theorem doNotify_bytes (files : Files) (e : Event) (tail : List UInt8) :
    doNotify order files (e.bytes order ++ tail) = match files e.wd with
      | none => some (files, [])
      | some path => (strlen (e.field ++ tail)).map fun n =>
          (forget files e, dispatch e.mask path ((e.field ++ tail).take n)) := by
  obtain ⟨hwd, hmask, -, hname⟩ := e.fields order tail
  simp only [doNotify, hwd, hmask, hname]
  rfl

theorem forget_of_none (h : files e.wd = none) : forget files e = files := by
  unfold forget
  split
  · rw [← h, Function.update_eq_self]
  · rfl

/-- What is read as the name of an event. -/
theorem strlen_eq (s : List UInt8) :
    (strlen s).map (fun n => s.take n) = if 0 ∈ s then some (s.takeWhile (· ≠ 0)) else none := by
  unfold strlen
  by_cases hmem : 0 ∈ s
  · rw [if_pos hmem, if_pos hmem, Option.map_some,
      ← List.prefix_iff_eq_take.mp (List.takeWhile_prefix _)]
  · rw [if_neg hmem, if_neg hmem]
    rfl

theorem takeWhile_field (hne : e.field ≠ []) :
    (e.field ++ tail).takeWhile (· ≠ 0) = e.name := by
  have hzero : 0 ∈ e.field := e.terminated hne
  rw [List.takeWhile_append, if_neg]
  · rfl
  · intro hlength
    have hall := (List.takeWhile_prefix (l := e.field) (· ≠ 0)).eq_of_length hlength
    have := List.takeWhile_eq_self_iff.mp hall 0 hzero
    exact absurd this (by decide)

/-- An event is reported as it should be where the name read is its own, unless no handler that
is called takes it, and the tests come out as they should. -/
theorem clean_iff : Clean e tail ↔ 0 ∈ e.field ++ tail ∧
    (e.mask.toNat % 2 ^ 22 = 0 ∨ e.mask &&& inDeleteSelf ≠ 0) ∧
    ((e.field ++ tail).takeWhile (· ≠ 0) = e.name ∨
      e.mask &&& (inMovedFrom ||| inMovedTo ||| inCreate ||| inDelete) = 0) := by
  by_cases hne : e.field = []
  · have hname : e.name = [] := by
      rw [Event.name, hne, List.takeWhile_nil]
    rw [hname, hne, List.nil_append]
    have hhead : 0 ∈ tail → (tail.takeWhile (· ≠ 0) = [] ↔ tail.head? = some 0) := by
      intro hzero
      cases tail with
      | nil => exact absurd hzero List.not_mem_nil
      | cons ch tail => by_cases hch : ch = 0 <;> simp [hch]
    constructor
    · intro h
      refine ⟨h.found hne, h.product, ?_⟩
      by_cases hnamed : e.mask &&& (inMovedFrom ||| inMovedTo ||| inCreate ||| inDelete) = 0
      · exact .inr hnamed
      · exact .inl ((hhead (h.found hne)).mpr (h.unnamed hne hnamed))
    · rintro ⟨hzero, hproduct, hname⟩
      refine ⟨hproduct, fun _ => hzero, fun _ hnamed => ?_⟩
      exact (hhead hzero).mp (hname.resolve_right hnamed)
  · constructor
    · intro h
      exact ⟨List.mem_append_left _ (e.terminated hne), h.product, .inl (takeWhile_field hne)⟩
    · rintro ⟨-, hproduct, -⟩
      exact ⟨hproduct, fun hnil => absurd hnil hne, fun hnil => absurd hnil hne⟩

theorem doNotify_iff :
    doNotify order files (e.bytes order ++ tail) = some (forget files e, reported files e) ↔
      ∀ path, files e.wd = some path → Clean e tail := by
  rw [doNotify_bytes]
  cases hfile : files e.wd with
  | none => simp [forget_of_none hfile, reported, hfile]
  | some path =>
    have hread := strlen_eq (e.field ++ tail)
    have hexpected : expected path e =
        callsOf (fun handler => e.mask &&& handler.bits ≠ 0) path e.name := rfl
    have hcalls : (strlen (e.field ++ tail)).map (fun n => (forget files e,
        dispatch e.mask path ((e.field ++ tail).take n))) =
        ((strlen (e.field ++ tail)).map fun n => (e.field ++ tail).take n).map fun name =>
          (forget files e, callsOf (tests e.mask) path name) := by
      simp only [Option.map_map, dispatch_eq]
      rfl
    simp only [hcalls, hread, reported, hfile, hexpected]
    simp only [Option.some.injEq, forall_eq', clean_iff]
    by_cases hzero : 0 ∈ e.field ++ tail
    · rw [if_pos hzero, Option.map_some, Option.some.injEq, Prod.mk.injEq, callsOf_eq_iff,
        tests_right_iff, unnamed_iff]
      simp only [true_and, hzero]
    · rw [if_neg hzero]
      simp [hzero]

theorem doNotify_files {r : Files × List Call}
    (h : doNotify order files (e.bytes order ++ tail) = some r) : r.1 = forget files e := by
  rw [doNotify_bytes] at h
  cases hfile : files e.wd with
  | none =>
    rw [hfile] at h
    rw [← Option.some.inj h, forget_of_none hfile]
  | some path =>
    rw [hfile] at h
    obtain ⟨n, -, rfl⟩ := Option.map_eq_some_iff.mp h
    rfl

theorem readLoop_iff (behind : List UInt8) {events : List Event} {turns : Nat} {files : Files}
    (hturns : (bytesOf order events).length ≤ turns) :
    readLoop order turns files (bytesOf order events ++ behind) (bytesOf order events).length =
        some (dispatched files events) ↔
      ∀ pre e post, events = pre ++ e :: post → ∀ path, (pre.foldl forget files) e.wd = some path →
        Clean e (bytesOf order post ++ behind) := by
  induction events generalizing turns files with
  | nil =>
    refine iff_of_true ?_ forall_split_nil
    cases turns <;> rfl
  | cons e events ih =>
    have hbytes : bytesOf order (e :: events) = e.bytes order ++ bytesOf order events := rfl
    have hlength : (bytesOf order (e :: events)).length =
        16 + e.field.length + (bytesOf order events).length := by
      rw [hbytes, List.length_append, e.length_bytes]
    obtain ⟨turns, rfl⟩ : ∃ n, turns = n + 1 := ⟨turns - 1, by omega⟩
    obtain ⟨-, -, hlen, -⟩ := e.fields order (bytesOf order events ++ behind)
    have hdrop : (e.bytes order ++ (bytesOf order events ++ behind)).drop (16 + e.field.length) =
        bytesOf order events ++ behind := List.drop_left' (e.length_bytes order)
    have hleft : 16 + e.field.length + (bytesOf order events).length - (16 + e.field.length) =
        (bytesOf order events).length := Nat.add_sub_cancel_left ..
    have hstep := @ih turns (forget files e) (by omega)
    rw [forall_split_cons]
    simp only [List.foldl_nil, List.foldl_cons]
    rw [← hstep, ← @doNotify_iff order, readLoop, hlength, if_pos (by omega)]
    simp only [hbytes, List.append_assoc, hlen, e.toNat_length, hdrop, hleft, dispatched]
    cases hnotify : doNotify order files (e.bytes order ++ (bytesOf order events ++ behind)) with
    | none => simp
    | some r =>
      obtain ⟨left, calls⟩ := r
      obtain rfl : left = forget files e := doNotify_files hnotify
      rw [Option.bind_some]
      cases readLoop order turns (forget files e) (bytesOf order events ++ behind)
          (bytesOf order events).length with
      | none => simp
      | some rest => simp [Prod.ext_iff, and_left_comm]

theorem onRead_eq_iff {buffer : List UInt8} {size : Nat} {r : Files × List (List Call)} :
    onRead order files none buffer size = some ⟨r.1, r.2, none, true⟩ ↔
      readLoop order size files buffer size = some r := by
  rw [onRead]
  cases readLoop order size files buffer size with
  | none => simp
  | some rest => simp [Prod.ext_iff]

/-- A read reports its events exactly when the product is right for the mask of each event that is
watched, and an event without a name is not followed by something that is taken for one. -/
theorem inotify_dispatch_iff (order : ByteOrder) (files : Files) (events : List Event)
    (behind : List UInt8) :
    onRead order files none (bytesOf order events ++ behind) (bytesOf order events).length =
        some ⟨(dispatched files events).1, (dispatched files events).2, none, true⟩ ↔
      ∀ pre e post, events = pre ++ e :: post → ∀ path, (pre.foldl forget files) e.wd = some path →
        Clean e (bytesOf order post ++ behind) := by
  rw [onRead_eq_iff, readLoop_iff behind (Nat.le_refl _)]

/-- A watched file is read, and its deletion is reported. -/
theorem not_dispatched_of_access :
    dispatch inAccess (octets "/tmp") [] = [⟨.onEvent, [octets "/tmp"]⟩,
      ⟨.onAccess, [octets "/tmp"]⟩, ⟨.onDelete, [octets "/tmp"]⟩] ∧
    ¬ ∀ (order : ByteOrder) (files : Files) (events : List Event) (behind : List UInt8),
      onRead order files none (bytesOf order events ++ behind) (bytesOf order events).length =
        some ⟨(dispatched files events).1, (dispatched files events).2, none, true⟩ := by
  refine ⟨by decide +kernel, fun hall => ?_⟩
  let access : Event := ⟨1, inAccess, 0, [], by decide, by decide⟩
  let files : Files := Function.update (fun _ => none) 1 (some (octets "/tmp"))
  have hwatched : files access.wd = some (octets "/tmp") := Function.update_self ..
  have hloop := onRead_eq_iff.mp (hall .little files [access] [0])
  have hclean := (readLoop_iff [0] (Nat.le_refl _)).mp hloop [] access [] rfl _ hwatched
  exact absurd hclean.product (by decide)

end Walk

end Inotify

end Acqua
