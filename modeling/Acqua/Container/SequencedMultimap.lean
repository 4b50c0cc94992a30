import Mathlib

/-! `sequenced_multimap` of `sequenced_map.hpp` over `sequenced_map_base.hpp`. An iterator is its
distance from `begin()`. -/

namespace Acqua

structure SequencedMultimap (κ ν : Type*) where
  data : List (κ × ν)
  deriving DecidableEq

namespace SequencedMultimap

-- `eq` is what a `Pred()` computes.
variable {κ ν : Type*} (eq : κ → κ → Bool)

def empty : SequencedMultimap κ ν := ⟨[]⟩

def size (m : SequencedMultimap κ ν) : Nat := m.data.length

def find (m : SequencedMultimap κ ν) (key : κ) : Nat :=
  (m.data.takeWhile fun elem => !eq elem.1 key).length

/-- The loop of `advance_to_next_key`, where `it` points to an entry of the key. -/
def advanceToNextKey (m : SequencedMultimap κ ν) (key : κ) (it : Nat) : Nat :=
  it + 1 + ((m.data.drop (it + 1)).takeWhile fun elem => eq key elem.1).length

def insertAt (m : SequencedMultimap κ ν) (it : Nat) (val : κ × ν) : SequencedMultimap κ ν :=
  ⟨m.data.take it ++ val :: m.data.drop it⟩

/-- `insert` with a hint that it does not look at. -/
def insertHint (m : SequencedMultimap κ ν) (val : κ × ν) : SequencedMultimap κ ν × Nat :=
  let it := m.find eq val.1
  match m.data[it]? with
  | some elem =>
    let it := m.advanceToNextKey eq elem.1 it
    (m.insertAt it val, it)
  | none => (⟨m.data ++ [val]⟩, m.size)

def insert (m : SequencedMultimap κ ν) (val : κ × ν) : SequencedMultimap κ ν × Nat × Bool :=
  let r := m.insertHint eq val
  (r.1, r.2, true)

def emplaceHint (m : SequencedMultimap κ ν) (key : κ) (val : ν) : SequencedMultimap κ ν × Nat :=
  m.insertHint eq (key, val)

def emplace (m : SequencedMultimap κ ν) (key : κ) (val : ν) :
    SequencedMultimap κ ν × Nat × Bool :=
  let r := m.emplaceHint eq key val
  (r.1, r.2, true)

/-- `insert(beg, end)`. There is no iterator to return when the range is empty. -/
def insertRange (m : SequencedMultimap κ ν) : List (κ × ν) → SequencedMultimap κ ν × Option Nat
  | [] => (m, none)
  | [val] =>
    let r := m.insertHint eq val
    (r.1, some (r.2 + 1))
  | val :: vals => insertRange (m.insertHint eq val).1 vals

def erase (m : SequencedMultimap κ ν) (it : Nat) : SequencedMultimap κ ν := ⟨m.data.eraseIdx it⟩

def eraseRange (m : SequencedMultimap κ ν) (beg stop : Nat) : SequencedMultimap κ ν :=
  ⟨m.data.take beg ++ m.data.drop stop⟩

def clear (_ : SequencedMultimap κ ν) : SequencedMultimap κ ν := ⟨[]⟩

def assign (m : SequencedMultimap κ ν) (vals : List (κ × ν)) :
    SequencedMultimap κ ν × Option Nat := m.clear.insertRange eq vals

inductive Op (κ ν : Type*)
  | insert (val : κ × ν)
  | insertHint (val : κ × ν)
  | emplace (key : κ) (val : ν)
  | emplaceHint (key : κ) (val : ν)
  | insertRange (vals : List (κ × ν))
  | erase (it : Nat)
  | eraseRange (beg n : Nat)
  | clear
  | assign (vals : List (κ × ν))

def step (m : SequencedMultimap κ ν) : Op κ ν → SequencedMultimap κ ν
  | .insert val => (m.insert eq val).1
  | .insertHint val => (m.insertHint eq val).1
  | .emplace key val => (m.emplace eq key val).1
  | .emplaceHint key val => (m.emplaceHint eq key val).1
  | .insertRange vals => (m.insertRange eq vals).1
  | .erase it => m.erase it
  | .eraseRange beg n => m.eraseRange beg (beg + n)
  | .clear => m.clear
  | .assign vals => (m.assign eq vals).1

end SequencedMultimap

end Acqua
