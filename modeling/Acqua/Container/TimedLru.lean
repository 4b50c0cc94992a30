import Acqua.Container.LruCache

/-! `timed_lru_map` and `timed_lru_set`: `lru_cache_facade.ipp` over `timed_lru_map_impl.hpp` and
`timed_lru_set_impl.hpp`. A node holds `value_` and `expire_`. -/

namespace Acqua

/-- What the calls of `clock_type::now()` return, one after the other. -/
structure Clock where
  now : Nat → Int
  mono : Monotone now
  range : ∀ n, -2 ^ 63 ≤ now n ∧ now n < 2 ^ 63

/-- The sum of a time point and a duration, both of 64 bits. -/
def addDuration (t d : Int) : Int := Int.bmod (t + d) (2 ^ 64)

/-- `limit` is what `is_limits` compares `expire_` with, from `now()` and `min_expire_`. -/
structure TimedImpl (κ α : Type*) where
  impl : Impl κ α
  limit : Int → Int → Int

def timedLruMapImpl {κ β : Type*} (hash : κ → Nat) (pred : κ → κ → Bool) : TimedImpl κ (κ × β) :=
  ⟨lruMapImpl hash pred, addDuration⟩

def timedLruSetImpl {κ : Type*} (hash : κ → Nat) (pred : κ → κ → Bool) : TimedImpl κ κ :=
  ⟨lruSetImpl hash pred, fun now _ => now⟩

def TimedImpl.node {κ α : Type*} (impl : TimedImpl κ α) : Impl κ (α × Int) :=
  ⟨fun n => impl.impl.key n.1, impl.impl.hash, impl.impl.pred⟩

/-- `reads` counts the calls of `now()`. -/
structure TimedLru (α : Type*) where
  facade : LruCache (α × Int)
  minExpire : Int
  reads : Nat

namespace TimedLru

variable {κ α : Type*} (impl : TimedImpl κ α) (clock : Clock)

/-- The default constructor; `min_expire_` starts at `duration_type::max()`. -/
def empty : TimedLru α := ⟨LruCache.empty, 2 ^ 63 - 1, 0⟩

def contents (c : TimedLru α) : List (α × Int) := c.facade.contents

def size (c : TimedLru α) : Nat := c.facade.size

def withFacade (c : TimedLru α) (f : LruCache (α × Int)) : TimedLru α := { c with facade := f }

/-- `now()`, which the second part of the condition calls. -/
def isLimits (c : TimedLru α) : Bool × TimedLru α :=
  if c.facade.maxSize < c.facade.size then
    match c.facade.list.getLast?.bind c.facade.heap with
    | some back =>
      (back.2 < impl.limit (clock.now c.reads) c.minExpire, { c with reads := c.reads + 1 })
    | none => (false, c)
  else (false, c)

/-- `!list_.empty() && is_limits(*this)`. -/
def atLimits (c : TimedLru α) : Bool × TimedLru α :=
  if c.facade.list.isEmpty then (false, c) else c.isLimits impl clock

/-- A node is made of the value or written with it, and takes the time. -/
def store (c : TimedLru α) (v : α) (f : α × Int → LruCache (α × Int)) : TimedLru α :=
  { c with facade := f (v, clock.now c.reads), reads := c.reads + 1 }

def push (c : TimedLru α) (v : α) : TimedLru α × Bool :=
  match c.facade.hashFind impl.node (impl.impl.key v) with
  | some a =>
    (c.store clock v fun n => ((c.facade.listErase a).replace a n).listPushFront a, false)
  | none =>
    let r := c.atLimits impl clock
    if r.1 then
      match c.facade.list.getLast? with
      | some a =>
        (r.2.store clock v fun n =>
          ((((c.facade.listErase a).hashErase a).replace a n).listPushFront a).hashInsert
            impl.node a, true)
      | none => (r.2, true)
    else
      (r.2.store clock v fun n =>
        (((c.facade.newNode n).hashInsert impl.node c.facade.fresh).listPushFront
          c.facade.fresh).autoRehash impl.node, true)

/-- The loop of `shrink_to_fit`; every round takes a node off the list. -/
def shrinkLoop : Nat → TimedLru α → TimedLru α
  | 0, c => c
  | fuel + 1, c =>
    let r := c.atLimits impl clock
    if r.1 then
      shrinkLoop fuel (r.2.withFacade (r.2.facade.erase r.2.facade.list.getLast?).1)
    else r.2

def shrinkToFit (c : TimedLru α) : TimedLru α :=
  let r := shrinkLoop impl clock c.facade.size c
  r.withFacade (r.facade.autoRehash impl.node)

/-- `max_size(n)`. -/
def setMaxSize (c : TimedLru α) (n : Nat) : TimedLru α :=
  (c.withFacade { c.facade with maxSize := n }).shrinkToFit impl clock

/-- `expire(d)`. -/
def setExpire (c : TimedLru α) (d : Int) : TimedLru α :=
  ({ c with minExpire := d } : TimedLru α).shrinkToFit impl clock

/-- Every call but `expire`. -/
def step (c : TimedLru α) : LruCache.Op κ α → TimedLru α
  | .push v => (c.push impl clock v).1
  | .insert v => (c.push impl clock v).1
  | .insertHint v => (c.push impl clock v).1
  | .emplace v => (c.push impl clock v).1
  | .emplaceHint v => (c.push impl clock v).1
  | .erase i => c.withFacade (c.facade.erase c.facade.list[i]?).1
  | .eraseRange i n => c.withFacade (c.facade.eraseRange c.facade.list[i]? c.facade.list[i + n]?).1
  | .eraseKey k => c.withFacade (c.facade.eraseKey impl.node k).1
  | .clear => c.withFacade c.facade.clear
  | .shrinkToFit => c.shrinkToFit impl clock
  | .setMaxSize n => c.setMaxSize impl clock n

end TimedLru

end Acqua
