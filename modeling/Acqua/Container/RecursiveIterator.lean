import Mathlib

/-! `recursive_iterator.hpp` with `preordered_recursive_iterator_impl`. There is nothing to return
where the source dereferences a null pointer or an iterator at the end. -/

namespace Acqua

/-- The value of a node is not looked at. -/
inductive TreeNode
  | node (children : List TreeNode)

namespace TreeNode

def children : TreeNode → List TreeNode
  | node children => children

/-- A node is the way to it from the root. -/
abbrev NodePath := List Nat

def subtree : TreeNode → NodePath → Option TreeNode
  | t, [] => some t
  | t, i :: way =>
    match t.children[i]? with
    | none => none
    | some child => child.subtree way

/-- How many children a node has. -/
def arity (t : TreeNode) (n : NodePath) : Nat := (t.subtree n).elim 0 fun t => t.children.length

mutual

/-- The nodes below `n` and `n` itself in preorder. -/
def preorder (n : NodePath) : TreeNode → List NodePath
  | node children => n :: preorderChildren n 0 children

def preorderChildren (n : NodePath) (i : Nat) : List TreeNode → List NodePath
  | [] => []
  | t :: rest => preorder (n ++ [i]) t ++ preorderChildren n (i + 1) rest

end

end TreeNode

open TreeNode (NodePath)

/-- An iterator over the children of `parent`. -/
structure ChildIterator where
  parent : NodePath
  index : Nat
  deriving DecidableEq

namespace ChildIterator

def beginOf (n : NodePath) : ChildIterator := ⟨n, 0⟩

def endOf (t : TreeNode) (n : NodePath) : ChildIterator := ⟨n, t.arity n⟩

def deref (t : TreeNode) (it : ChildIterator) : Option NodePath :=
  if it.index < t.arity it.parent then some (it.parent ++ [it.index]) else none

def succ (it : ChildIterator) : ChildIterator := { it with index := it.index + 1 }

end ChildIterator

/-- `root` is `nullptr` when there is none. The front of `depth` comes first. -/
structure RecursiveIterator where
  root : Option NodePath
  depth : List ChildIterator
  deriving DecidableEq

namespace RecursiveIterator

variable (t : TreeNode)

def init : RecursiveIterator := ⟨some [], []⟩

/-- What the default constructor makes. -/
def default : RecursiveIterator := ⟨none, []⟩

def deref (it : RecursiveIterator) : Option NodePath :=
  match it.depth with
  | [] => it.root
  | front :: _ => front.deref t

/-- `operator==`. -/
def eq (lhs rhs : RecursiveIterator) : Bool :=
  match lhs.depth, rhs.depth with
  | [], [] => lhs.root = rhs.root
  | l :: _, r :: _ => l = r
  | _, _ => false

def incr (it : RecursiveIterator) : Option RecursiveIterator :=
  match _hdepth : it.depth with
  | [] =>
    match it.root with
    | none => none
    | some root =>
      if ChildIterator.beginOf root = .endOf t root then some { it with root := none }
      else some { it with depth := [.beginOf root] }
  | front :: rest =>
    match front.deref t with
    | none => none
    | some n =>
      if ChildIterator.beginOf n = .endOf t n then
        incr { it with depth := (front.succ :: rest).dropLast }
      else some { it with depth := it.depth ++ [.beginOf n] }
termination_by it.depth.length
decreasing_by simp [_hdepth]

/-- What is dereferenced from `it` on until the end, each node with `depth()`, when that takes
`n` steps at most. -/
def visits : Nat → RecursiveIterator → Option (List (NodePath × Nat))
  | 0, _ => none
  | n + 1, it =>
    if it.eq default then some []
    else
      match it.deref t, it.incr t with
      | some value, some next => (visits n next).map ((value, it.depth.length) :: ·)
      | _, _ => none

variable {t}

/-- Where the root has children, the first of them stays in front: the stack grows at the other
end while it has children of its own, and is filled with it again when it has none. -/
structure Stuck (t : TreeNode) (it : RecursiveIterator) : Prop where
  root : it.root = some []
  front : ∃ rest, it.depth = .beginOf [] :: rest
  leaf : t.arity [0] = 0 → it.depth = [.beginOf []]

theorem Stuck.incr (ht : 0 < t.arity []) {it : RecursiveIterator} (h : Stuck t it) :
    ∃ next, it.incr t = some next ∧ Stuck t next := by
  obtain ⟨root, depth⟩ := it
  obtain ⟨hroot, ⟨rest, hfront⟩, hleaf⟩ := h
  dsimp only at hroot hfront hleaf
  subst hroot hfront
  have hderef : (ChildIterator.beginOf []).deref t = some [0] := if_pos ht
  have hne : ¬ ChildIterator.beginOf [] = .endOf t [] := fun heq =>
    ht.ne (congrArg ChildIterator.index heq)
  have hend : ChildIterator.beginOf [0] = .endOf t [0] ↔ t.arity [0] = 0 := by
    simp [ChildIterator.beginOf, ChildIterator.endOf, eq_comm]
  by_cases harity : t.arity [0] = 0
  · obtain rfl : rest = [] := (List.cons.inj (hleaf harity)).2
    have hpop : RecursiveIterator.incr t ⟨some [], [.beginOf []]⟩ =
        RecursiveIterator.incr t ⟨some [], []⟩ := by
      rw [RecursiveIterator.incr]
      simp only [hderef, if_pos (hend.mpr harity), List.dropLast_singleton]
    have hpush : RecursiveIterator.incr t ⟨some [], []⟩ = some ⟨some [], [.beginOf []]⟩ := by
      rw [RecursiveIterator.incr]
      simp only [if_neg hne]
    exact ⟨_, hpop.trans hpush, rfl, ⟨[], rfl⟩, fun _ => rfl⟩
  · refine ⟨⟨some [], .beginOf [] :: rest ++ [.beginOf [0]]⟩, ?_, rfl, ⟨_, rfl⟩,
      fun hzero => absurd hzero harity⟩
    rw [RecursiveIterator.incr]
    simp only [hderef, if_neg (mt hend.mp harity)]

theorem Stuck.visits (ht : 0 < t.arity []) {it : RecursiveIterator} (h : Stuck t it) (n : Nat) :
    visits t n it = none := by
  induction n generalizing it with
  | zero => rfl
  | succ n ih =>
    obtain ⟨next, hincr, hnext⟩ := h.incr ht
    obtain ⟨rest, hfront⟩ := h.front
    have hderef : it.deref t = some [0] := by
      rw [deref, hfront]
      exact if_pos ht
    have hend : it.eq default = false := by
      rw [eq, hfront]
      rfl
    rw [RecursiveIterator.visits, hend, hderef, hincr]
    simp only [Bool.false_eq_true, if_false, ih hnext, Option.map_none]

theorem visits_of_children (ht : 0 < t.arity []) (n : Nat) : visits t n init = none := by
  cases n with
  | zero => rfl
  | succ n =>
    have hne : ¬ ChildIterator.beginOf [] = .endOf t [] := fun heq =>
      ht.ne (congrArg ChildIterator.index heq)
    have hincr : init.incr t = some ⟨some [], [.beginOf []]⟩ := by
      rw [incr]
      simp only [init, if_neg hne]
    have hstuck : Stuck t ⟨some [], [.beginOf []]⟩ := ⟨rfl, ⟨[], rfl⟩, fun _ => rfl⟩
    rw [visits, hincr]
    simp [init, deref, eq, default, hstuck.visits ht n]

theorem visits_of_leaf : visits (.node []) 2 init = some [([], 0)] := by
  have hincr : init.incr (.node []) = some default := by
    rw [incr]
    rfl
  rw [visits, hincr]
  rfl

/-- Every node once in preorder with its depth, and then the end: only of a root without
children. -/
theorem preorder_iteration_iff (t : TreeNode) :
    (∃ n, visits t n init = some ((t.preorder []).map fun node => (node, node.length))) ↔
      t.children = [] := by
  obtain ⟨children⟩ := t
  constructor
  · rintro ⟨n, hn⟩
    by_contra hne
    have ht : 0 < (TreeNode.node children).arity [] := List.length_pos_of_ne_nil hne
    rw [visits_of_children ht n] at hn
    cases hn
  · intro hnil
    obtain rfl : children = [] := hnil
    exact ⟨2, visits_of_leaf⟩

/-- With one child the end is never reached. -/
theorem not_preorder_iteration_of_one_child :
    ¬ ∃ n, visits (.node [.node []]) n init =
      some (((TreeNode.node [.node []]).preorder []).map fun node => (node, node.length)) := by
  rintro ⟨n, hn⟩
  rw [visits_of_children (by decide) n] at hn
  cases hn

end RecursiveIterator

end Acqua
