import Acqua.Library.Recency

/-! `lru_cache_facade.ipp` over `lru_map_impl.hpp` and `lru_set_impl.hpp`. A node is an
address; the heap holds its `value_`, the intrusive list and the bucket array of the
intrusive hash set both hold addresses. An iterator is an address, or nothing for the end. -/

namespace Acqua

/-- The `Impl` argument of the facade: where the key stands in a value, `H` and `P`. -/
structure Impl (κ α : Type*) where
  key : α → κ
  hash : κ → Nat
  pred : κ → κ → Bool

def lruMapImpl {κ β : Type*} (hash : κ → Nat) (pred : κ → κ → Bool) : Impl κ (κ × β) :=
  ⟨Prod.fst, hash, pred⟩

def lruSetImpl {κ : Type*} (hash : κ → Nat) (pred : κ → κ → Bool) : Impl κ κ :=
  ⟨id, hash, pred⟩

structure LruCache (α : Type*) where
  heap : Nat → Option α
  fresh : Nat
  list : List Nat
  bucket : List (List Nat)
  maxSize : Nat

namespace LruCache

variable {κ α : Type*} (impl : Impl κ α)

def minBucketSize : Nat := 32

/-- The default constructor; `max_size_` starts at the largest `size_t`. -/
def empty : LruCache α :=
  ⟨fun _ => none, 0, [], List.replicate minBucketSize [], 2 ^ 64 - 1⟩

def size (c : LruCache α) : Nat := c.list.length

def bucketCount (c : LruCache α) : Nat := c.bucket.length

def isLimits (c : LruCache α) : Bool := c.maxSize < c.size

def listErase (c : LruCache α) (a : Nat) : LruCache α := { c with list := c.list.erase a }

def listPushFront (c : LruCache α) (a : Nat) : LruCache α := { c with list := a :: c.list }

/-- `node::replace`, which overwrites the key as well. -/
def replace (c : LruCache α) (a : Nat) (v : α) : LruCache α :=
  { c with heap := Function.update c.heap a (some v) }

def newNode (c : LruCache α) (v : α) : LruCache α :=
  { c with heap := Function.update c.heap c.fresh (some v), fresh := c.fresh + 1 }

def delNode (c : LruCache α) (a : Nat) : LruCache α :=
  { c with heap := Function.update c.heap a none }

def hashFind (c : LruCache α) (k : κ) : Option Nat :=
  (c.bucket.getD (impl.hash k % c.bucketCount) []).find?
    fun a => (c.heap a).any fun v => impl.pred k (impl.key v)

def hashErase (c : LruCache α) (a : Nat) : LruCache α :=
  { c with bucket := c.bucket.map fun b => b.erase a }

/-- Puts the node into the bucket that its key hashes to. -/
def link (heap : Nat → Option α) (bucket : List (List Nat)) (a : Nat) : List (List Nat) :=
  match heap a with
  | some v => bucket.modify (impl.hash (impl.key v) % bucket.length) (a :: ·)
  | none => bucket

/-- `hash_.insert`: a node with an equal key in the set keeps the new one out. -/
def hashInsert (c : LruCache α) (a : Nat) : LruCache α :=
  if ((c.heap a).bind fun v => c.hashFind impl (impl.key v)).isSome then c
  else { c with bucket := link impl c.heap c.bucket a }

def rehash (c : LruCache α) (size : Nat) : LruCache α :=
  { c with bucket := c.bucket.flatten.foldl (link impl c.heap) (List.replicate size []) }

def autoRehash (c : LruCache α) : LruCache α :=
  if c.bucketCount < c.size then c.rehash impl (c.bucketCount * 2)
  else if minBucketSize < c.size ∧ c.size < c.bucketCount / 2 then
    c.rehash impl (c.bucketCount / 2)
  else c

def find (c : LruCache α) (k : κ) : Option Nat := c.hashFind impl k

/-- The iterator after `a`, which is what `list_.erase` returns. -/
def listNext (c : LruCache α) (a : Nat) : Option Nat := c.list[c.list.idxOf a + 1]?

def erase (c : LruCache α) (it : Option Nat) : LruCache α × Option Nat :=
  match it with
  | none => (c, none)
  | some a => (((c.listErase a).hashErase a).delNode a, c.listNext a)

/-- The loop of `erase(beg, end)`; every round takes a node off the list. -/
def eraseLoop : Nat → LruCache α → Option Nat → Option Nat → Option Nat →
    LruCache α × Option Nat
  | 0, c, _, _, pos => (c, pos)
  | fuel + 1, c, beg, stop, pos =>
    if beg = stop then (c, pos)
    else
      let r := c.erase beg
      eraseLoop fuel r.1 r.2 stop r.2

def eraseRange (c : LruCache α) (beg stop : Option Nat) : LruCache α × Option Nat :=
  eraseLoop c.size c beg stop none

def eraseKey (c : LruCache α) (k : κ) : LruCache α × Option Nat := c.erase (c.find impl k)

def clear (c : LruCache α) : LruCache α := (c.eraseRange c.list.head? none).1

def push (c : LruCache α) (v : α) : LruCache α × Bool :=
  match c.hashFind impl (impl.key v) with
  | some a => (((c.listErase a).replace a v).listPushFront a, false)
  | none =>
    if !c.list.isEmpty && c.isLimits then
      match c.list.getLast? with
      | some a =>
        (((((c.listErase a).hashErase a).replace a v).listPushFront a).hashInsert impl a, true)
      | none => (c, true)
    else
      (((((c.newNode v).hashInsert impl c.fresh).listPushFront c.fresh)).autoRehash impl, true)

def insert (c : LruCache α) (v : α) : LruCache α × Option Nat × Bool :=
  let r := c.push impl v
  (r.1, r.1.list.head?, r.2)

/-- `insert(hint, val)`; the hint is not looked at. -/
def insertHint (c : LruCache α) (v : α) : LruCache α × Option Nat :=
  let r := c.push impl v
  (r.1, r.1.list.head?)

/-- `emplace(args...)` and `emplace_hint`, once the arguments have made a value. -/
def emplace (c : LruCache α) (v : α) : LruCache α × Option Nat × Bool := c.insert impl v

def emplaceHint (c : LruCache α) (v : α) : LruCache α × Option Nat := c.insertHint impl v

/-- The loop of `shrink_to_fit`; every round takes a node off the list. -/
def shrinkLoop : Nat → LruCache α → LruCache α
  | 0, c => c
  | fuel + 1, c =>
    if !c.list.isEmpty && c.isLimits then shrinkLoop fuel (c.erase c.list.getLast?).1 else c

def shrinkToFit (c : LruCache α) : LruCache α := (shrinkLoop c.size c).autoRehash impl

/-- `max_size(n)`. -/
def setMaxSize (c : LruCache α) (n : Nat) : LruCache α :=
  ({ c with maxSize := n } : LruCache α).shrinkToFit impl

/-- The calls a user of `lru_map` or `lru_set` can make. Iterators are given by their
distance from `begin()` at the time of the call. -/
inductive Op (κ α : Type*)
  | push (v : α)
  | insert (v : α)
  | insertHint (v : α)
  | emplace (v : α)
  | emplaceHint (v : α)
  | erase (i : Nat)
  | eraseRange (i n : Nat)
  | eraseKey (k : κ)
  | clear
  | shrinkToFit
  | setMaxSize (n : Nat)

def step (c : LruCache α) : Op κ α → LruCache α
  | .push v => (c.push impl v).1
  | .insert v => (c.insert impl v).1
  | .insertHint v => (c.insertHint impl v).1
  | .emplace v => (c.emplace impl v).1
  | .emplaceHint v => (c.emplaceHint impl v).1
  | .erase i => (c.erase c.list[i]?).1
  | .eraseRange i n => (c.eraseRange c.list[i]? c.list[i + n]?).1
  | .eraseKey k => (c.eraseKey impl k).1
  | .clear => c.clear
  | .shrinkToFit => c.shrinkToFit impl
  | .setMaxSize n => c.setMaxSize impl n

/-- What iteration from `begin()` to `end()` sees. -/
def contents (c : LruCache α) : List α := c.list.filterMap c.heap

/-- The value `find(k)` points at, nothing for `end()`. -/
def lookup (c : LruCache α) (k : κ) : Option α := (c.find impl k).bind c.heap

end LruCache

end Acqua
