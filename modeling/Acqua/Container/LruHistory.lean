import Acqua.Container.LruRefinement

/-! Whole runs of an LRU cache from the default constructor: what a cache holds in terms
of the calls made so far, and when it respects its `max_size`. -/

namespace Acqua

namespace LruCache

variable {κ α : Type*} (impl : Impl κ α)

def run (ops : List (Op κ α)) : LruCache α := ops.foldl (step impl) empty

structure Recorded (α : Type*) where
  cache : LruCache α
  history : History α

def Recorded.step (r : Recorded α) (op : Op κ α) : Recorded α :=
  let c := r.cache.step impl op
  ⟨c, (op.toRecency.pushed, c.contents) :: r.history⟩

/-- The calls of a run, the latest one first, each with what it pushed and what iteration
sees after it. -/
def history (ops : List (Op κ α)) : History α :=
  (ops.foldl (Recorded.step impl) ⟨empty, []⟩).history

def runRecency (ops : List (Op κ α)) : RecencyList α :=
  ops.foldl (fun l op => l.step impl.key impl.pred op.toRecency) ⟨[], 2 ^ 64 - 1⟩

variable {impl}

theorem ok_empty : Ok impl (empty : LruCache α) where
  hash := HashOk.replicate _ (by decide)
  nodes := ⟨.nil, by simp [empty], by simp [empty]⟩
  fresh := by simp [empty]

theorem ok_run (hc : impl.Consistent) (ops : List (Op κ α)) : Ok impl (run impl ops) :=
  foldl_invariant (show ∀ c op, Ok impl c → Ok impl (step impl c op) from
    fun _ op h => (step_spec hc h op).1) ok_empty ops

theorem abs_run (hc : impl.Consistent) (ops : List (Op κ α)) :
    (run impl ops).abs = runRecency impl ops := by
  induction ops using List.reverseRecOn with
  | nil => rfl
  | append_singleton ops op ih =>
    have hstep := (step_spec hc (ok_run hc ops) op).2
    unfold run runRecency at ih ⊢
    rw [List.foldl_append, List.foldl_append, List.foldl_cons, List.foldl_nil, List.foldl_cons,
      List.foldl_nil, ← ih]
    exact hstep

theorem recorded_cache (ops : List (Op κ α)) :
    (ops.foldl (Recorded.step impl) ⟨empty, []⟩).cache = run impl ops := by
  induction ops using List.reverseRecOn with
  | nil => rfl
  | append_singleton ops op ih =>
    unfold run at ih ⊢
    rw [List.foldl_append, List.foldl_append, List.foldl_cons, List.foldl_nil, List.foldl_cons,
      List.foldl_nil, ← ih]
    rfl

theorem history_valid (hc : impl.Consistent) (ops : List (Op κ α)) :
    History.Valid impl.key impl.pred (history impl ops) ∧
      (history impl ops).current = (run impl ops).contents := by
  induction ops using List.reverseRecOn with
  | nil => exact ⟨.nil, rfl⟩
  | append_singleton ops op ih =>
    obtain ⟨hv, hcur⟩ := ih
    have hstep := (step_spec hc (ok_run hc ops) op).2
    have hrun : run impl (ops ++ [op]) = (run impl ops).step impl op := by
      unfold run
      rw [List.foldl_append, List.foldl_cons, List.foldl_nil]
    have hhist : history impl (ops ++ [op]) =
        (op.toRecency.pushed, ((run impl ops).step impl op).contents) :: history impl ops := by
      unfold history
      rw [List.foldl_append, List.foldl_cons, List.foldl_nil, ← recorded_cache ops]
      rfl
    have hcont : ((run impl ops).step impl op).contents =
        ((run impl ops).abs.step impl.key impl.pred op.toRecency).entries :=
      congrArg RecencyList.entries hstep
    rw [hhist, hrun]
    refine ⟨?_, rfl⟩
    rw [hcont]
    exact RecencyList.step_valid hv hcur op.toRecency

theorem lookup_eq_find? {c : LruCache α} (hc : impl.Consistent) (h : Ok impl c) (k : κ) :
    c.lookup impl k = c.contents.find? (fun x => impl.pred k (impl.key x)) := by
  unfold lookup find
  cases hf : c.hashFind impl k with
  | none =>
    have hno := h.contents_any hc k
    rw [hf, Option.isSome_none, List.any_eq_false] at hno
    exact (List.find?_eq_none.mpr hno).symm
  | some a =>
    obtain ⟨ha, v, hv, hp⟩ := hashFind_some h.hash hf
    change c.heap a = _
    have hmem : v ∈ c.contents := List.mem_filterMap.mpr ⟨a, ha, hv⟩
    cases hq : c.contents.find? (fun x => impl.pred k (impl.key x)) with
    | none => exact absurd hp (List.find?_eq_none.mp hq v hmem)
    | some x =>
      obtain ⟨b, hb, hx⟩ := List.mem_filterMap.mp (List.mem_of_find?_eq_some hq)
      have hpx := List.find?_some hq
      have hba : b = a := by
        by_contra hne
        simp [h.other_key hc ha hv hp hb hne hx] at hpx
      rw [← hba, hx]

theorem push_keeps_others {c : LruCache α} (hc : impl.Consistent) (h : Ok impl c) (v : α) :
    (c.push impl v).1.contents =
        v :: c.contents.filter (fun x => !impl.pred (impl.key v) (impl.key x)) ∨
      (c.push impl v).1.contents = v :: c.contents.dropLast ∧
        ∀ x ∈ c.contents, impl.pred (impl.key v) (impl.key x) = false := by
  have hcont : (c.push impl v).1.contents = (c.abs.push impl.key impl.pred v).entries :=
    congrArg RecencyList.entries (push_spec hc h v).2
  rw [hcont]
  cases hany : c.abs.entries.any (fun x => impl.pred (impl.key v) (impl.key x)) with
  | true =>
    rw [RecencyList.push_of_mem hany]
    exact .inl rfl
  | false =>
    have hno : ∀ x ∈ c.contents, impl.pred (impl.key v) (impl.key x) = false := by
      simpa [abs] using hany
    by_cases hfull : c.abs.bound < c.abs.entries.length
    · rw [RecencyList.push_of_full hany hfull]
      exact .inr ⟨rfl, hno⟩
    · rw [RecencyList.push_of_room hany hfull]
      left
      rw [List.filter_eq_self.mpr fun x hx => by simp [hno x hx]]
      rfl

/-- A cache built by any sequence of calls is the recency list built by the operations of
the same name. List and hash set hold the same nodes, keys are distinct, iteration goes
by decreasing time of the last push, `find` returns the value pushed last unless it was
removed since, and a push takes out at most the entry at the back. -/
theorem lru_cache_refines_recency (hc : impl.Consistent) (ops : List (Op κ α)) :
    let c := run impl ops
    let h := history impl ops
    c.abs = runRecency impl ops ∧
    c.bucket.flatten.Perm c.list ∧ c.list.Nodup ∧ (∀ a ∈ c.list, ∃ v, c.heap a = some v) ∧
    c.contents.Pairwise (fun x y => impl.pred (impl.key x) (impl.key y) = false) ∧
    c.contents.Pairwise (fun x y => ∃ s t,
      h.lastPush (fun z => impl.pred (impl.key x) (impl.key z)) = some (s, x) ∧
      h.lastPush (fun z => impl.pred (impl.key y) (impl.key z)) = some (t, y) ∧ t < s) ∧
    (∀ k, c.lookup impl k =
      if h.removedSince (fun z => impl.pred k (impl.key z)) then none
      else (h.lastPush (fun z => impl.pred k (impl.key z))).map Prod.snd) ∧
    (∀ v, (c.push impl v).1.contents =
        v :: c.contents.filter (fun x => !impl.pred (impl.key v) (impl.key x)) ∨
      (c.push impl v).1.contents = v :: c.contents.dropLast ∧
        ∀ x ∈ c.contents, impl.pred (impl.key v) (impl.key x) = false) := by
  intro c h
  have hok := ok_run hc ops
  obtain ⟨hv, hcur⟩ := history_valid hc ops
  refine ⟨abs_run hc ops, hok.hash.perm, hok.nodes.nodup, hok.nodes.live, ?_, ?_, ?_,
    push_keeps_others hc hok⟩
  · rw [← hcur]
    exact hv.pairwise
  · rw [← hcur]
    exact hv.decreasing hc.refl hc.symm
  · intro k
    rw [lookup_eq_find? hc hok, ← hcur]
    apply hv.find?_eq
    intro x y hx hy
    exact hc.trans _ _ _ (hc.symm _ _ ▸ hx) hy

theorem lruMapImpl_consistent {β : Type*} [DecidableEq κ] (hash : κ → Nat) :
    (lruMapImpl (β := β) hash fun a b => decide (a = b)).Consistent where
  refl k := decide_eq_true rfl
  symm k k' := by simp only [lruMapImpl, eq_comm]
  trans k k' k'' h h' := by
    simp only [lruMapImpl, decide_eq_true_eq] at h h' ⊢
    exact h.trans h'
  hash k k' h := by
    simp only [lruMapImpl, decide_eq_true_eq] at h ⊢
    rw [h]

/-- A map from numbers to numbers whose hash function collides. -/
def natMapImpl : Impl Nat (Nat × Nat) := lruMapImpl (fun n => n % 4) fun a b => decide (a = b)

theorem lru_cache_refines_recency_of_pushes :
    lookup natMapImpl (run natMapImpl [.push (1, 10), .push (5, 50), .push (1, 11)]) 1 =
      some (1, 11) :=
  ((lru_cache_refines_recency (show natMapImpl.Consistent from lruMapImpl_consistent _)
    [.push (1, 10), .push (5, 50), .push (1, 11)]).2.2.2.2.2.2.1 1).trans (by decide)

section Capacity

/-- The call leaves the cache within `max_size`, and if it pushes into a cache that had
room left it takes nothing else out. -/
def RespectsCapacity (impl : Impl κ α) (c : LruCache α) (op : Op κ α) : Prop :=
  (c.step impl op).size ≤ (c.step impl op).maxSize ∧
    ∀ v, op.toRecency.pushed = some v → c.size < c.maxSize →
      ∀ x ∈ c.contents, impl.pred (impl.key v) (impl.key x) = false →
        x ∈ (c.step impl op).contents

/-- The call does not push a new key into a cache that is full. -/
def PushesWithRoom (impl : Impl κ α) (c : LruCache α) (op : Op κ α) : Prop :=
  ∀ v, op.toRecency.pushed = some v → (c.find impl (impl.key v)).isSome ∨ c.size < c.maxSize

theorem respectsCapacity_iff {c : LruCache α} (hc : impl.Consistent) (h : Ok impl c)
    (hsize : c.size ≤ c.maxSize) (op : Op κ α) :
    RespectsCapacity impl c op ↔ PushesWithRoom impl c op := by
  obtain ⟨hok, hstep⟩ := step_spec hc h op
  have hlen : c.contents.length = c.size := h.length_contents
  have hlen' : (c.step impl op).contents.length = (c.step impl op).size := hok.length_contents
  have hcont : (c.step impl op).contents =
      (c.abs.step impl.key impl.pred op.toRecency).entries := congrArg RecencyList.entries hstep
  have hmax : (c.step impl op).maxSize = (c.abs.step impl.key impl.pred op.toRecency).bound :=
    congrArg RecencyList.bound hstep
  have hbound := RecencyList.step_bounded_iff impl.key impl.pred
    (show c.abs.entries.length ≤ c.abs.bound from hlen ▸ hsize) op.toRecency
  rw [← hcont, ← hmax, hlen'] at hbound
  have hany : ∀ k, c.abs.entries.any (fun x => impl.pred k (impl.key x)) =
      (c.find impl k).isSome := fun k => h.contents_any hc k
  simp only [hany] at hbound
  have hroom : ∀ v, op.toRecency.pushed = some v → c.size < c.maxSize →
      ∀ x ∈ c.contents, impl.pred (impl.key v) (impl.key x) = false →
        x ∈ (c.step impl op).contents := by
    intro v hv hlt x hx hne
    rw [hcont, RecencyOp.eq_push_of_pushed hv]
    exact RecencyList.mem_push_of_room (show c.abs.entries.length < c.abs.bound from hlen ▸ hlt)
      hx hne
  have hq : PushesWithRoom impl c op ↔ ∀ v, op.toRecency.pushed = some v →
      (c.find impl (impl.key v)).isSome = true ∨ c.abs.entries.length < c.abs.bound := by
    change _ ↔ ∀ v, _ → _ ∨ c.contents.length < c.maxSize
    rw [hlen]
    rfl
  rw [hq, ← hbound]
  exact and_iff_left hroom

/-- A run from the default constructor respects the capacity at every call exactly when
none of its calls pushes a new key into a full cache. -/
theorem lru_capacity_iff (hc : impl.Consistent) (ops : List (Op κ α)) :
    EveryStep (step impl) (RespectsCapacity impl) empty ops ↔
      EveryStep (step impl) (PushesWithRoom impl) empty ops := by
  have hagree : ∀ c op, Ok impl c ∧ c.size ≤ c.maxSize →
      (RespectsCapacity impl c op ↔ PushesWithRoom impl c op) :=
    fun c op h => respectsCapacity_iff hc h.1 h.2 op
  have hkeep : ∀ c op, Ok impl c ∧ c.size ≤ c.maxSize → PushesWithRoom impl c op →
      Ok impl (c.step impl op) ∧ (c.step impl op).size ≤ (c.step impl op).maxSize :=
    fun c op h hq => ⟨(step_spec hc h.1 op).1, ((hagree c op h).mpr hq).1⟩
  exact everyStep_congr_of_invariant hagree hkeep ⟨ok_empty, by simp [empty, size]⟩

theorem lru_capacity_iff_of_one_push :
    EveryStep (step natMapImpl) (RespectsCapacity natMapImpl) empty [.setMaxSize 1, .push (1, 10)] ↔
      EveryStep (step natMapImpl) (PushesWithRoom natMapImpl) empty
        [.setMaxSize 1, .push (1, 10)] :=
  lru_capacity_iff (lruMapImpl_consistent _) _

/-- Two keys in a cache of `max_size` one. -/
theorem lru_second_key_exceeds_capacity :
    ¬ EveryStep (step natMapImpl) (RespectsCapacity natMapImpl) empty
      [.setMaxSize 1, .push (1, 10), .push (2, 20)] := by
  intro h
  have hlast := h [.setMaxSize 1, .push (1, 10)] (.push (2, 20)) [] rfl
  exact absurd hlast.1 (by decide)

end Capacity

end LruCache

end Acqua
