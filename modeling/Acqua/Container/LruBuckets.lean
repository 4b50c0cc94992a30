import Acqua.Container.LruCopy

/-! The bucket array of an LRU cache: how many buckets there are after any calls, and what a
rehash leaves as it was. -/

namespace Acqua

namespace LruCache

variable {κ α : Type*} (impl : Impl κ α)

structure Fits (c : LruCache α) : Prop where
  doubling : ∃ k, c.bucketCount = minBucketSize * 2 ^ k
  load : c.size ≤ c.bucketCount

/-- The caches that calls are made on, those among them that a copy is still filling. -/
inductive Stage : LruCache α → Prop
  | empty : Stage empty
  | step {c} (op : Op κ α) : Stage c → Stage (c.step impl op)
  | pop {c} : Stage c → Stage c.pop
  | copyStart {rhs} : Stage rhs →
      Stage { (LruCache.empty : LruCache α) with bucket := List.replicate rhs.bucketCount [] }

/-- What `auto_rehash` can be called on during a call on `c`, in `push` or `shrink_to_fit`. -/
inductive Rehashes (c : LruCache α) : LruCache α → Prop
  | push (v : α) : c.hashFind impl (impl.key v) = none →
      (!c.list.isEmpty && c.isLimits) = false →
      Rehashes c (((c.newNode v).hashInsert impl c.fresh).listPushFront c.fresh)
  | shrinkToFit : Rehashes c (shrinkLoop c.size c)
  | setMaxSize (n : Nat) : Rehashes c (shrinkLoop c.size { c with maxSize := n })

/-- The same number of buckets for as many entries or fewer. -/
def Keeps (c c' : LruCache α) : Prop := c'.bucketCount = c.bucketCount ∧ c'.size ≤ c.size

variable {impl}

section Counts

theorem Keeps.refl (c : LruCache α) : Keeps c c := ⟨rfl, Nat.le_refl _⟩

theorem Keeps.trans {c d e : LruCache α} (h : Keeps c d) (h' : Keeps d e) : Keeps c e :=
  ⟨h'.1.trans h.1, h'.2.trans h.2⟩

theorem Keeps.fits {c c' : LruCache α} (h : Keeps c c') (hc : Fits c) : Fits c' :=
  ⟨h.1 ▸ hc.doubling, h.1 ▸ h.2.trans hc.load⟩

theorem keeps_erase (c : LruCache α) (it : Option Nat) : Keeps c (c.erase it).1 := by
  cases it with
  | none => exact .refl c
  | some a => exact ⟨List.length_map _, List.length_erase_le⟩

theorem keeps_eraseLoop (fuel : Nat) (c : LruCache α) (beg stop pos : Option Nat) :
    Keeps c (eraseLoop fuel c beg stop pos).1 := by
  induction fuel generalizing c beg pos with
  | zero => exact .refl c
  | succ fuel ih =>
    unfold eraseLoop
    by_cases hend : beg = stop
    · rw [if_pos hend]
      exact .refl c
    · rw [if_neg hend]
      exact (keeps_erase c beg).trans (ih _ _ _)

theorem keeps_shrinkLoop (fuel : Nat) (c : LruCache α) : Keeps c (shrinkLoop fuel c) := by
  induction fuel generalizing c with
  | zero => exact .refl c
  | succ fuel ih =>
    unfold shrinkLoop
    by_cases hlim : (!c.list.isEmpty && c.isLimits) = true
    · rw [if_pos hlim]
      exact (keeps_erase c _).trans (ih _)
    · rw [if_neg hlim]
      exact .refl c

theorem bucketCount_hashInsert (c : LruCache α) (a : Nat) :
    (c.hashInsert impl a).bucketCount = c.bucketCount := by
  unfold hashInsert
  split
  · rfl
  · exact length_link _ _ _

theorem size_hashInsert (c : LruCache α) (a : Nat) : (c.hashInsert impl a).size = c.size := by
  unfold hashInsert
  split <;> rfl

/-- Only the third way through `push`, with a node of its own for the value, adds an entry. -/
theorem push_cases {c : LruCache α} (hok : Ok impl c) (v : α) :
    Keeps c (c.push impl v).1 ∨
      ∃ d, Rehashes impl c d ∧ (c.push impl v).1 = d.autoRehash impl := by
  have hmove : ∀ a ∈ c.list, (a :: c.list.erase a).length ≤ c.list.length := by
    intro a ha
    rw [(List.perm_cons_erase ha).length_eq]
  cases hf : c.hashFind impl (impl.key v) with
  | some a =>
    simp only [push, hf]
    exact .inl ⟨rfl, hmove a (hashFind_some hok.hash hf).1⟩
  | none =>
    by_cases hlim : (!c.list.isEmpty && c.isLimits) = true
    · cases ha : c.list.getLast? with
      | none =>
        simp only [push, hf, hlim, if_true, ha]
        exact .inl (.refl c)
      | some a =>
        simp only [push, hf, hlim, if_true, ha]
        refine .inl ⟨?_, ?_⟩
        · rw [bucketCount_hashInsert]
          exact List.length_map _
        · rw [size_hashInsert]
          exact hmove a (List.mem_of_getLast? ha)
    · simp only [push, hf, if_neg hlim]
      exact .inr ⟨_, .push v hf (by simpa using hlim), rfl⟩

theorem step_cases {c : LruCache α} (hok : Ok impl c) (op : Op κ α) :
    Keeps c (c.step impl op) ∨
      ∃ d, Rehashes impl c d ∧ c.step impl op = d.autoRehash impl := by
  cases op with
  | push _ | insert _ | insertHint _ | emplace _ | emplaceHint _ => exact push_cases hok _
  | erase _ | eraseKey _ => exact .inl (keeps_erase c _)
  | eraseRange _ _ | clear => exact .inl (keeps_eraseLoop _ c _ _ _)
  | shrinkToFit => exact .inr ⟨_, .shrinkToFit, rfl⟩
  | setMaxSize n => exact .inr ⟨_, .setMaxSize n, rfl⟩

theorem length_foldl_link (heap : Nat → Option α) (nodes : List Nat) (bucket : List (List Nat)) :
    (nodes.foldl (link impl heap) bucket).length = bucket.length := by
  induction nodes generalizing bucket with
  | nil => rfl
  | cons a nodes ih => rw [List.foldl_cons, ih, length_link]

theorem bucketCount_rehash (c : LruCache α) (n : Nat) : (c.rehash impl n).bucketCount = n := by
  unfold rehash bucketCount
  rw [length_foldl_link, List.length_replicate]

/-- One entry too many doubles the array; it is halved only while the entries still fit, and
never below 32 buckets since there are more entries than that. -/
theorem fits_autoRehash {c : LruCache α} (hdouble : ∃ k, c.bucketCount = minBucketSize * 2 ^ k)
    (hload : c.size ≤ c.bucketCount + 1) : Fits (c.autoRehash impl) := by
  obtain ⟨k, hk⟩ := hdouble
  have hpos : 0 < 2 ^ k := Nat.two_pow_pos k
  unfold autoRehash
  unfold minBucketSize at hk ⊢
  by_cases hgrow : c.bucketCount < c.size
  · rw [if_pos hgrow]
    refine ⟨⟨k + 1, ?_⟩, ?_⟩
    · rw [bucketCount_rehash, hk, minBucketSize, pow_succ, Nat.mul_assoc]
    · rw [bucketCount_rehash]
      change c.size ≤ c.bucketCount * 2
      omega
  · rw [if_neg hgrow]
    by_cases hshrink : 32 < c.size ∧ c.size < c.bucketCount / 2
    · rw [if_pos hshrink]
      cases k with
      | zero => omega
      | succ k =>
        have hhalf : c.bucketCount / 2 = 32 * 2 ^ k := by
          rw [hk, pow_succ]
          omega
        refine ⟨⟨k, by rw [bucketCount_rehash, hhalf, minBucketSize]⟩, ?_⟩
        rw [bucketCount_rehash]
        exact hshrink.2.le
    · rw [if_neg hshrink]
      exact ⟨⟨k, hk⟩, not_lt.mp hgrow⟩

theorem Rehashes.fits {c d : LruCache α} (h : Rehashes impl c d) (hc : Fits c) :
    Fits (d.autoRehash impl) := by
  cases h with
  | push v _ _ =>
    have hcount : (((c.newNode v).hashInsert impl c.fresh).listPushFront c.fresh).bucketCount =
        c.bucketCount := bucketCount_hashInsert _ _
    have hsize : (((c.newNode v).hashInsert impl c.fresh).listPushFront c.fresh).size =
        c.size + 1 := congrArg (· + 1) (size_hashInsert _ _)
    refine fits_autoRehash (hcount ▸ hc.doubling) ?_
    rw [hcount, hsize]
    exact Nat.succ_le_succ hc.load
  | shrinkToFit =>
    have hloop : Fits (shrinkLoop c.size c) := (keeps_shrinkLoop c.size c).fits hc
    exact fits_autoRehash hloop.doubling (Nat.le_succ_of_le hloop.load)
  | setMaxSize n =>
    have hmax : Fits { c with maxSize := n } := ⟨hc.doubling, hc.load⟩
    have hloop : Fits (shrinkLoop c.size { c with maxSize := n }) :=
      (keeps_shrinkLoop c.size _).fits hmax
    exact fits_autoRehash hloop.doubling (Nat.le_succ_of_le hloop.load)

end Counts

section Stages

theorem ok_copyStart {rhs : LruCache α} (h : Ok impl rhs) :
    Ok impl { (empty : LruCache α) with bucket := List.replicate rhs.bucketCount [] } :=
  ⟨HashOk.replicate _ h.hash.pos, ⟨.nil, by simp [empty], by simp [empty]⟩, by simp [empty]⟩

theorem Stage.ok (hc : impl.Consistent) {c : LruCache α} (h : Stage impl c) : Ok impl c := by
  induction h with
  | empty => exact ok_empty
  | step op _ ih => exact (step_spec hc ih op).1
  | pop _ ih => exact ih.pop
  | copyStart _ ih => exact ok_copyStart ih

theorem Stage.fits (hc : impl.Consistent) {c : LruCache α} (h : Stage impl c) : Fits c := by
  induction h with
  | empty => exact ⟨⟨0, by simp [bucketCount, LruCache.empty]⟩, Nat.zero_le _⟩
  | step op hs ih =>
    rcases step_cases (hs.ok hc) op with hkeep | ⟨d, hd, heq⟩
    · exact hkeep.fits ih
    · rw [heq]
      exact hd.fits ih
  | pop _ ih =>
    rw [pop_eq]
    exact (keeps_erase _ _).fits ih
  | copyStart _ ih =>
    have hcount := ih.doubling
    exact ⟨by simpa [bucketCount] using hcount, Nat.zero_le _⟩

theorem Stage.pushAll {c : LruCache α} (h : Stage impl c) (vals : List α) :
    Stage impl (vals.foldl (fun c e => (c.push impl e).1) c) := by
  induction vals generalizing c with
  | nil => exact h
  | cons v vals ih => exact ih (h.step (.push v))

theorem Reachable.stage {c : LruCache α} (h : Reachable impl c) : Stage impl c := by
  induction h with
  | empty => exact .empty
  | step op _ ih => exact ih.step op
  | pop _ ih => exact ih.pop
  | @copyConstruct rhs _ ih => exact ih.copyStart.pushAll rhs.contents
  | @copyAssign _ rhs _ _ ih _ => exact (ih.step .clear).pushAll rhs.contents

theorem Rehashes.ok (hc : impl.Consistent) {c d : LruCache α} (h : Rehashes impl c d)
    (hok : Ok impl c) : Ok impl d := by
  cases h with
  | push v hf _ => exact (push_new hc hok hf).1
  | shrinkToFit => exact (shrinkLoop_spec c.size hok (by omega)).1
  | setMaxSize n =>
    have hmax : Ok impl { c with maxSize := n } := ⟨hok.hash, hok.nodes, hok.fresh⟩
    exact (shrinkLoop_spec c.size hmax (Nat.le_add_right c.size n)).1

theorem list_autoRehash (c : LruCache α) : (c.autoRehash impl).list = c.list := by
  unfold autoRehash
  split
  · rfl
  · split <;> rfl

/-- The number of buckets is 32 doubled some times and no less than that of the entries, also
while a copy is filled, and a rehash keeps the entries, their order and what is found. -/
theorem lru_buckets_fit (hc : impl.Consistent) :
    (∀ c, Reachable impl c → Stage impl c) ∧
    (∀ c, Stage impl c → (∃ k, c.bucketCount = 32 * 2 ^ k) ∧ c.size ≤ c.bucketCount) ∧
    (∀ c op, Stage impl c → (c.step impl op).bucketCount = c.bucketCount ∨
      ∃ d, Rehashes impl c d ∧ c.step impl op = d.autoRehash impl) ∧
    ∀ c d, Stage impl c → Rehashes impl c d →
      (d.autoRehash impl).list = d.list ∧ (d.autoRehash impl).contents = d.contents ∧
      d.bucket.flatten.Perm d.list ∧ (d.autoRehash impl).bucket.flatten.Perm d.list ∧
      ∀ k, (d.autoRehash impl).lookup impl k = d.lookup impl k := by
  refine ⟨fun _ h => h.stage, fun _ h => ⟨(h.fits hc).doubling, (h.fits hc).load⟩, ?_, ?_⟩
  · intro c op h
    exact (step_cases (h.ok hc) op).imp_left fun hkeep => hkeep.1
  · intro c d h hd
    have hok : Ok impl d := hd.ok hc (h.ok hc)
    have hafter : Ok impl (d.autoRehash impl) := hok.autoRehash
    have hlist : (d.autoRehash impl).list = d.list := list_autoRehash d
    have hcont : (d.autoRehash impl).contents = d.contents :=
      congrArg RecencyList.entries (abs_autoRehash d)
    refine ⟨hlist, hcont, hok.hash.perm, hlist ▸ hafter.hash.perm, fun k => ?_⟩
    rw [lookup_eq_find? hc hafter, lookup_eq_find? hc hok, hcont]

theorem lru_buckets_fit_of_one_entry :
    let c := run natMapImpl [.push (1, 10)]
    ((∃ k, c.bucketCount = 32 * 2 ^ k) ∧ c.size ≤ c.bucketCount) ∧ c.size = 1 ∧
      (((shrinkLoop c.size c).autoRehash natMapImpl).list = (shrinkLoop c.size c).list) := by
  intro c
  have hr : Reachable natMapImpl c := Reachable.empty.step (.push (1, 10))
  obtain ⟨hstage, hfit, -, hrehash⟩ := lru_buckets_fit natMapImpl_consistent
  have hs : Stage natMapImpl c := hstage c hr
  exact ⟨hfit c hs, by decide, (hrehash c _ hs .shrinkToFit).1⟩

end Stages

end LruCache

end Acqua
