import Acqua.Container.LruHistory

/-! The copy constructor and the copy assignment of `lru_cache_facade.ipp`. -/

namespace Acqua

namespace LruCache

variable {κ α : Type*} (impl : Impl κ α)

/-- The `Impl` base is not in the initializer list, so that its `max_size_` starts anew. -/
def copyConstruct (rhs : LruCache α) : LruCache α :=
  rhs.contents.foldl (fun c e => (c.push impl e).1)
    { (empty : LruCache α) with bucket := List.replicate rhs.bucketCount [] }

/-- `operator=` for another cache than the one assigned to. -/
def copyAssign (c rhs : LruCache α) : LruCache α :=
  rhs.contents.foldl (fun c e => (c.push impl e).1) c.clear

def pop (c : LruCache α) : LruCache α :=
  match c.list.getLast? with
  | some a => ((c.listErase a).hashErase a).delNode a
  | none => c

inductive Reachable : LruCache α → Prop
  | empty : Reachable empty
  | step {c} (op : Op κ α) : Reachable c → Reachable (c.step impl op)
  | pop {c} : Reachable c → Reachable c.pop
  | copyConstruct {rhs} : Reachable rhs → Reachable (rhs.copyConstruct impl)
  | copyAssign {c rhs} : Reachable c → Reachable rhs → Reachable (c.copyAssign impl rhs)

/-- The same entries in the same order, the same `max_size`, and the same after a push. -/
structure IsCopy (c rhs : LruCache α) : Prop where
  contents : c.contents = rhs.contents
  maxSize : c.maxSize = rhs.maxSize
  push : ∀ v, (c.push impl v).1.contents = (rhs.push impl v).1.contents

variable {impl}

theorem abs_foldl_push (hc : impl.Consistent) {c : LruCache α} (h : Ok impl c) (vals : List α) :
    Ok impl (vals.foldl (fun c e => (c.push impl e).1) c) ∧
      (vals.foldl (fun c e => (c.push impl e).1) c).abs =
        vals.foldl (RecencyList.push impl.key impl.pred) c.abs := by
  induction vals generalizing c with
  | nil => exact ⟨h, rfl⟩
  | cons v vals ih =>
    obtain ⟨hok, habs⟩ := push_spec hc h v
    have hrec := ih hok
    rw [habs] at hrec
    exact hrec

theorem Ok.distinct {c : LruCache α} (h : Ok impl c) :
    c.contents.Pairwise fun x y => impl.pred (impl.key x) (impl.key y) = false := by
  refine List.pairwise_filterMap.mpr (h.nodes.nodup.imp_of_mem ?_)
  intro a b ha hb hne v hv w hw
  exact h.nodes.distinct a ha b hb hne v w hv hw

/-- Pushing what another cache holds, front to back, into a cache without entries. -/
theorem replay_spec (hc : impl.Consistent) {c rhs : LruCache α} (h : Ok impl c)
    (hrhs : Ok impl rhs) (hempty : c.contents = []) :
    Ok impl (rhs.contents.foldl (fun c e => (c.push impl e).1) c) ∧
      (rhs.contents.foldl (fun c e => (c.push impl e).1) c).abs =
        ⟨rhs.contents.reverse.take (c.maxSize + 1), c.maxSize⟩ := by
  obtain ⟨hok, habs⟩ := abs_foldl_push hc h rhs.contents
  have hc0 : c.abs = ⟨[], c.maxSize⟩ := congrArg₂ RecencyList.mk hempty rfl
  refine ⟨hok, habs.trans ?_⟩
  rw [hc0, RecencyList.foldl_push_of_distinct hc.symm hrhs.distinct]

theorem copyConstruct_spec (hc : impl.Consistent) {rhs : LruCache α} (h : Ok impl rhs) :
    Ok impl (rhs.copyConstruct impl) ∧
      (rhs.copyConstruct impl).abs = ⟨rhs.contents.reverse.take (2 ^ 64 - 1 + 1), 2 ^ 64 - 1⟩ := by
  refine replay_spec hc ⟨HashOk.replicate _ h.hash.pos, ?_, by simp [empty]⟩ h rfl
  exact ⟨.nil, by simp [empty], by simp [empty]⟩

theorem copyAssign_spec (hc : impl.Consistent) {c rhs : LruCache α} (h : Ok impl c)
    (hrhs : Ok impl rhs) :
    Ok impl (c.copyAssign impl rhs) ∧
      (c.copyAssign impl rhs).abs = ⟨rhs.contents.reverse.take (c.maxSize + 1), c.maxSize⟩ := by
  obtain ⟨hok, hempty, hmax⟩ := clear_spec h
  rw [← hmax]
  exact replay_spec hc hok hrhs hempty

theorem pop_eq (c : LruCache α) : c.pop = (c.erase c.list.getLast?).1 := by
  unfold pop
  cases c.list.getLast? <;> rfl

theorem Ok.pop {c : LruCache α} (h : Ok impl c) : Ok impl c.pop := by
  rw [pop_eq, List.getLast?_eq_getElem?]
  exact (erase_spec h _).1

theorem Reachable.ok (hc : impl.Consistent) {c : LruCache α} (h : Reachable impl c) :
    Ok impl c := by
  induction h with
  | empty => exact ok_empty
  | step op _ ih => exact (step_spec hc ih op).1
  | pop _ ih => exact ih.pop
  | copyConstruct _ ih => exact (copyConstruct_spec hc ih).1
  | copyAssign _ _ ih ihrhs => exact (copyAssign_spec hc ih ihrhs).1

theorem isCopy_of_abs (hc : impl.Consistent) {c rhs : LruCache α} (h : Ok impl c)
    (hrhs : Ok impl rhs) (habs : c.abs = rhs.abs) : IsCopy impl c rhs where
  contents := congrArg RecencyList.entries habs
  maxSize := congrArg RecencyList.bound habs
  push v := by
    have heq : (c.push impl v).1.abs = (rhs.push impl v).1.abs := by
      rw [(push_spec hc h v).2, (push_spec hc hrhs v).2, habs]
    exact congrArg RecencyList.entries heq

theorem Ok.take_reverse_eq_iff (hc : impl.Consistent) {c : LruCache α} (h : Ok impl c) (n : Nat) :
    c.contents.reverse.take (n + 1) = c.contents ↔ c.size ≤ 1 := by
  have hdistinct := h.distinct
  rw [← h.length_contents]
  match hl : c.contents with
  | [] => simp
  | [x] => simp
  | x :: y :: l =>
    rw [hl] at hdistinct
    refine ⟨fun heq => ?_, fun hle => by simp at hle⟩
    have hhead := congrArg List.head? heq
    rw [List.head?_take, if_neg (Nat.succ_ne_zero n), List.head?_reverse, List.getLast?_cons_cons,
      List.head?_cons] at hhead
    have hx : x ∈ y :: l := List.mem_of_getLast? hhead
    have hne := (List.pairwise_cons.mp hdistinct).1 x hx
    simp [hc.refl] at hne

theorem isCopy_replay_iff (hc : impl.Consistent) {c rhs : LruCache α} {n : Nat} (h : Ok impl c)
    (hrhs : Ok impl rhs) (habs : c.abs = ⟨rhs.contents.reverse.take (n + 1), n⟩) :
    IsCopy impl c rhs ↔ rhs.size ≤ 1 ∧ n = rhs.maxSize := by
  have hcont : c.contents = rhs.contents.reverse.take (n + 1) := congrArg RecencyList.entries habs
  have hmax : c.maxSize = n := congrArg RecencyList.bound habs
  rw [← hrhs.take_reverse_eq_iff hc n, ← hcont, ← hmax]
  constructor
  · intro hcopy
    exact ⟨hcopy.contents, hcopy.maxSize⟩
  · rintro ⟨hsame, hbound⟩
    exact isCopy_of_abs hc h hrhs (congrArg₂ RecencyList.mk hsame hbound)

/-- A copy is faithful exactly when there is at most one entry to copy and the `max_size` that
the copy keeps, its own, is the one of the source. -/
theorem isCopy_iff (hc : impl.Consistent) {s d : LruCache α} (hs : Reachable impl s)
    (hd : Reachable impl d) :
    (IsCopy impl (s.copyConstruct impl) s ↔ s.size ≤ 1 ∧ s.maxSize = 2 ^ 64 - 1) ∧
      (IsCopy impl (d.copyAssign impl s) s ↔ s.size ≤ 1 ∧ d.maxSize = s.maxSize) := by
  obtain ⟨hok, habs⟩ := copyConstruct_spec hc (hs.ok hc)
  obtain ⟨hok', habs'⟩ := copyAssign_spec hc (hd.ok hc) (hs.ok hc)
  have hcons := isCopy_replay_iff hc hok (hs.ok hc) habs
  rw [eq_comm] at hcons
  exact ⟨hcons, isCopy_replay_iff hc hok' (hs.ok hc) habs'⟩

theorem natMapImpl_consistent : natMapImpl.Consistent := lruMapImpl_consistent _

theorem isCopy_iff_of_two_entries :
    ¬ IsCopy natMapImpl ((run natMapImpl [.push (1, 10), .push (2, 20)]).copyConstruct natMapImpl)
      (run natMapImpl [.push (1, 10), .push (2, 20)]) := by
  have hs : Reachable natMapImpl (run natMapImpl [.push (1, 10), .push (2, 20)]) :=
    ((Reachable.empty).step (.push (1, 10))).step (.push (2, 20))
  rw [(isCopy_iff natMapImpl_consistent hs .empty).1]
  decide

theorem not_isCopy_of_two_entries :
    ((run natMapImpl [.push (1, 10), .push (2, 20)]).copyConstruct natMapImpl).contents =
        [(1, 10), (2, 20)] ∧
      (run natMapImpl [.push (1, 10), .push (2, 20)]).contents = [(2, 20), (1, 10)] ∧
      ¬ ∀ s d : LruCache (Nat × Nat), Reachable natMapImpl s → Reachable natMapImpl d →
        IsCopy natMapImpl (s.copyConstruct natMapImpl) s ∧
          IsCopy natMapImpl (d.copyAssign natMapImpl s) s := by
  have hcopy : ((run natMapImpl [.push (1, 10), .push (2, 20)]).copyConstruct
      natMapImpl).contents = [(1, 10), (2, 20)] := by decide
  have horig : (run natMapImpl [.push (1, 10), .push (2, 20)]).contents =
      [(2, 20), (1, 10)] := by decide
  refine ⟨hcopy, horig, fun h => ?_⟩
  have hs : Reachable natMapImpl (run natMapImpl [.push (1, 10), .push (2, 20)]) :=
    ((Reachable.empty).step (.push (1, 10))).step (.push (2, 20))
  have heq := (h _ _ hs .empty).1.contents
  rw [hcopy, horig] at heq
  exact absurd heq (by decide)

end LruCache

end Acqua
