import Acqua.Container.LruCopy
import Acqua.Container.TimedLru

/-! What the calls on a timed LRU cache do to its entries, and how long a `timed_lru_map` without
`expire` and an `lru_map` stay the same. -/

namespace Acqua

namespace TimedLru

open LruCache (Ok)

variable {κ α : Type*} {impl : TimedImpl κ α} {clock : Clock}

theorem node_consistent (hc : impl.impl.Consistent) : impl.node.Consistent :=
  ⟨hc.refl, hc.symm, hc.trans, hc.hash⟩

theorem isLimits_facade (c : TimedLru α) :
    (c.isLimits impl clock).2.facade = c.facade ∧
      (c.isLimits impl clock).2.minExpire = c.minExpire := by
  unfold isLimits
  by_cases hlt : c.facade.maxSize < c.facade.size
  · rw [if_pos hlt]
    cases c.facade.list.getLast?.bind c.facade.heap <;> exact ⟨rfl, rfl⟩
  · rw [if_neg hlt]
    exact ⟨rfl, rfl⟩

theorem atLimits_facade (c : TimedLru α) :
    (c.atLimits impl clock).2.facade = c.facade ∧
      (c.atLimits impl clock).2.minExpire = c.minExpire := by
  unfold atLimits
  by_cases hemp : c.facade.list.isEmpty = true
  · rw [if_pos hemp]
    exact ⟨rfl, rfl⟩
  · rw [if_neg hemp]
    exact isLimits_facade c

theorem back_eq {c : TimedLru α} (h : Ok impl.node c.facade) :
    c.facade.list.getLast?.bind c.facade.heap = c.contents.getLast? := by
  change _ = (c.facade.list.filterMap c.facade.heap).getLast?
  rcases List.eq_nil_or_concat c.facade.list with hl | ⟨l, a, hl⟩
  · rw [hl]
    rfl
  · obtain ⟨v, hv⟩ := h.nodes.live a (by simp [hl])
    rw [hl, List.concat_eq_append, List.getLast?_concat, List.filterMap_append, Option.bind_some,
      hv, List.filterMap_cons_some hv, List.filterMap_nil, List.getLast?_concat]

theorem length_contents {c : TimedLru α} (h : Ok impl.node c.facade) :
    c.contents.length = c.size := h.length_contents

theorem atLimits_eq {c : TimedLru α} (h : Ok impl.node c.facade) :
    c.atLimits impl clock =
      match if c.facade.maxSize < c.size then c.contents.getLast? else none with
      | some back => (back.2 < impl.limit (clock.now c.reads) c.minExpire,
          { c with reads := c.reads + 1 })
      | none => (false, c) := by
  unfold atLimits isLimits
  rw [back_eq h]
  by_cases hemp : c.facade.list.isEmpty = true
  · have hnil : c.contents = [] := by
      change c.facade.list.filterMap c.facade.heap = []
      rw [List.isEmpty_iff.mp hemp, List.filterMap_nil]
    rw [if_pos hemp, hnil, List.getLast?_nil, ite_self]
  · rw [if_neg hemp]
    by_cases hlt : c.facade.maxSize < c.facade.size
    · rw [if_pos hlt]
      exact if_pos hlt ▸ rfl
    · rw [if_neg hlt]
      exact if_neg hlt ▸ rfl

/-- What a push leaves behind the value that it puts in front. -/
def kept (impl : TimedImpl κ α) (clock : Clock) (c : TimedLru α) (v : α) : List (α × Int) :=
  if c.contents.any (fun x => impl.impl.pred (impl.impl.key v) (impl.impl.key x.1)) = false ∧
      (c.atLimits impl clock).1 = true then c.contents.dropLast
  else c.contents.filter (fun x => !impl.impl.pred (impl.impl.key v) (impl.impl.key x.1))

theorem kept_of_full {c : TimedLru α} {v : α}
    (hany : c.contents.any (fun x => impl.impl.pred (impl.impl.key v) (impl.impl.key x.1)) = false)
    (hlim : (c.atLimits impl clock).1 = true) : kept impl clock c v = c.contents.dropLast :=
  if_pos ⟨hany, hlim⟩

theorem kept_of_mem {c : TimedLru α} {v : α}
    (hany : c.contents.any (fun x => impl.impl.pred (impl.impl.key v) (impl.impl.key x.1)) = true) :
    kept impl clock c v =
      c.contents.filter (fun x => !impl.impl.pred (impl.impl.key v) (impl.impl.key x.1)) :=
  if_neg fun h => by simp [hany] at h

theorem kept_of_room {c : TimedLru α} {v : α} (hlim : (c.atLimits impl clock).1 = false) :
    kept impl clock c v =
      c.contents.filter (fun x => !impl.impl.pred (impl.impl.key v) (impl.impl.key x.1)) :=
  if_neg fun h => by simp [hlim] at h

theorem push_spec (hc : impl.impl.Consistent) {c : TimedLru α} (h : Ok impl.node c.facade) (v : α) :
    let r := (c.push impl clock v).1
    Ok impl.node r.facade ∧ r.facade.maxSize = c.facade.maxSize ∧ r.minExpire = c.minExpire ∧
      r.contents = (v, clock.now (r.reads - 1)) :: kept impl clock c v := by
  have hany := h.contents_any (node_consistent hc) (impl.impl.key v)
  change c.contents.any (fun x => impl.impl.pred (impl.impl.key v) (impl.impl.key x.1)) = _ at hany
  obtain ⟨-, hexp⟩ : (c.atLimits impl clock).2.facade = c.facade ∧
      (c.atLimits impl clock).2.minExpire = c.minExpire := atLimits_facade c
  cases hf : c.facade.hashFind impl.node (impl.impl.key v) with
  | some a =>
    rw [hf, Option.isSome_some] at hany
    obtain ⟨hok, hcont⟩ := LruCache.push_update (node_consistent hc) h
      (show c.facade.hashFind impl.node (impl.node.key (v, clock.now c.reads)) = some a from hf)
    rw [kept_of_mem hany]
    simp only [push, hf]
    exact ⟨hok, rfl, rfl, hcont⟩
  | none =>
    rw [hf, Option.isSome_none] at hany
    have hnone : c.facade.hashFind impl.node
        (impl.node.key (v, clock.now (c.atLimits impl clock).2.reads)) = none := hf
    cases hlim : (c.atLimits impl clock).1 with
    | true =>
      have hne : c.facade.list ≠ [] := by
        intro hnil
        simp [atLimits, hnil] at hlim
      have ha := List.getLast?_eq_some_getLast hne
      obtain ⟨hok, hcont, hmax⟩ := LruCache.push_replace (node_consistent hc) h hnone ha
      rw [kept_of_full hany hlim]
      simp only [push, hf, hlim, if_true, ha]
      exact ⟨hok, hmax, hexp, hcont⟩
    | false =>
      obtain ⟨hok, hcont, hmax⟩ := LruCache.push_new (node_consistent hc) h hnone
      have habs (f : LruCache (α × Int)) : (f.autoRehash impl.node).abs = f.abs :=
        LruCache.abs_autoRehash f
      rw [kept_of_room hlim, filter_not_eq_self_of_any hany]
      simp only [push, hf, hlim, Bool.false_eq_true, if_false]
      exact ⟨hok.autoRehash, (congrArg RecencyList.bound (habs _)).trans hmax, hexp,
        (congrArg RecencyList.entries (habs _)).trans hcont⟩

section WithoutExpire

theorem addDuration_max_neg {t : Int} (hpos : 0 < t) (hlt : t < 2 ^ 63) :
    addDuration t (2 ^ 63 - 1) < 0 := by
  unfold addDuration Int.bmod
  have hmod : (t + (2 ^ 63 - 1)) % ((2 ^ 64 : Nat) : Int) = t + (2 ^ 63 - 1) := by
    apply Int.emod_eq_of_lt <;> omega
  rw [hmod, if_neg (by omega)]
  omega

/-- The sum with `min_expire_` is before any time that the clock has shown. -/
structure Quiet (impl : TimedImpl κ α) (c : TimedLru α) : Prop where
  ok : Ok impl.node c.facade
  minExpire : c.minExpire = 2 ^ 63 - 1
  positive : ∀ x ∈ c.contents, 0 < x.2

theorem Quiet.withFacade {c : TimedLru α} (h : Quiet impl c) {f : LruCache (α × Int)}
    (hok : Ok impl.node f) (hsub : ∀ x ∈ f.contents, x ∈ c.contents) :
    Quiet impl (c.withFacade f) :=
  ⟨hok, h.minExpire, fun x hx => h.positive x (hsub x hx)⟩

theorem Quiet.atLimits (hlimit : impl.limit = addDuration) (hpos : ∀ n, 0 < clock.now n)
    {c : TimedLru α} (h : Quiet impl c) : (c.atLimits impl clock).1 = false := by
  rw [atLimits_eq h.ok]
  by_cases hlt : c.facade.maxSize < c.size
  · rw [if_pos hlt]
    cases hlast : c.contents.getLast? with
    | none => rfl
    | some back =>
      have hback := h.positive back (List.mem_of_getLast? hlast)
      have hneg := addDuration_max_neg (hpos c.reads) (clock.range c.reads).2
      simp only [hlimit, h.minExpire, decide_eq_false_iff_not]
      omega
  · rw [if_neg hlt]

theorem Quiet.shrinkLoop (hlimit : impl.limit = addDuration) (hpos : ∀ n, 0 < clock.now n)
    {c : TimedLru α} (h : Quiet impl c) (fuel : Nat) :
    (shrinkLoop impl clock fuel c).facade = c.facade ∧
      (shrinkLoop impl clock fuel c).minExpire = c.minExpire := by
  cases fuel with
  | zero => exact ⟨rfl, rfl⟩
  | succ fuel =>
    simp only [TimedLru.shrinkLoop, h.atLimits hlimit hpos, Bool.false_eq_true, if_false]
    exact atLimits_facade c

theorem Quiet.shrinkToFit (hlimit : impl.limit = addDuration) (hpos : ∀ n, 0 < clock.now n)
    {c : TimedLru α} (h : Quiet impl c) :
    Quiet impl (c.shrinkToFit impl clock) ∧ (c.shrinkToFit impl clock).contents = c.contents := by
  obtain ⟨hfac, hexp⟩ := h.shrinkLoop hlimit hpos c.facade.size
  have hcont : (c.shrinkToFit impl clock).contents = c.contents := by
    change ((TimedLru.shrinkLoop impl clock c.facade.size c).facade.autoRehash impl.node).contents = _
    rw [hfac]
    have habs : (c.facade.autoRehash impl.node).abs = c.facade.abs := LruCache.abs_autoRehash _
    exact congrArg RecencyList.entries habs
  refine ⟨⟨?_, hexp.trans h.minExpire, fun x hx => h.positive x (hcont ▸ hx)⟩, hcont⟩
  change Ok impl.node
    ((TimedLru.shrinkLoop impl clock c.facade.size c).facade.autoRehash impl.node)
  rw [hfac]
  exact h.ok.autoRehash

theorem Quiet.push (hc : impl.impl.Consistent) (hlimit : impl.limit = addDuration)
    (hpos : ∀ n, 0 < clock.now n) {c : TimedLru α} (h : Quiet impl c) (v : α) :
    Quiet impl (c.push impl clock v).1 ∧
      (c.push impl clock v).1.contents.map Prod.fst = v :: (c.contents.map Prod.fst).filter
        (fun x => !impl.impl.pred (impl.impl.key v) (impl.impl.key x)) := by
  obtain ⟨hok, -, hexp, hcont⟩ : Ok impl.node (c.push impl clock v).1.facade ∧
      _ ∧ (c.push impl clock v).1.minExpire = c.minExpire ∧ _ := push_spec hc h.ok v
  rw [kept_of_room (h.atLimits hlimit hpos)] at hcont
  refine ⟨⟨hok, hexp.trans h.minExpire, fun x hx => ?_⟩, ?_⟩
  · rw [hcont] at hx
    rcases List.mem_cons.mp hx with rfl | hx
    · exact hpos _
    · exact h.positive x (List.mem_of_mem_filter hx)
  · rw [hcont, List.map_cons, List.filter_map]
    rfl

theorem Quiet.step (hc : impl.impl.Consistent) (hlimit : impl.limit = addDuration)
    (hpos : ∀ n, 0 < clock.now n) {c : TimedLru α} (h : Quiet impl c) (op : LruCache.Op κ α) :
    Quiet impl (c.step impl clock op) ∧ (c.step impl clock op).contents.map Prod.fst =
      op.toRecency.unbounded impl.impl.key impl.impl.pred (c.contents.map Prod.fst) := by
  cases op with
  | push v | insert v | insertHint v | emplace v | emplaceHint v => exact h.push hc hlimit hpos v
  | erase i =>
    obtain ⟨hok, hcont, -⟩ := LruCache.erase_spec h.ok i
    refine ⟨h.withFacade hok fun x hx => ?_, ?_⟩
    · exact (List.eraseIdx_sublist _ _).subset (hcont ▸ hx)
    · exact (congrArg (List.map Prod.fst) hcont).trans (List.eraseIdx_map _ _ _).symm
  | eraseRange i n =>
    obtain ⟨hok, hcont, -⟩ := LruCache.eraseRange_spec h.ok i n
    refine ⟨h.withFacade hok fun x hx => ?_, ?_⟩
    · rcases List.mem_append.mp (hcont ▸ hx) with hx | hx
      · exact List.mem_of_mem_take hx
      · exact List.mem_of_mem_drop hx
    · refine (congrArg (List.map Prod.fst) hcont).trans ?_
      rw [List.map_append, List.map_take, List.map_drop]
      rfl
  | eraseKey k =>
    obtain ⟨hok, habs⟩ := LruCache.eraseKey_spec (node_consistent hc) h.ok k
    have hcont : (c.facade.eraseKey impl.node k).1.contents =
        c.contents.filter (fun x => !impl.node.pred k (impl.node.key x)) :=
      congrArg RecencyList.entries habs
    refine ⟨h.withFacade hok fun x hx => List.mem_of_mem_filter (hcont ▸ hx), ?_⟩
    have hmap : (c.contents.map Prod.fst).filter (fun x => !impl.impl.pred k (impl.impl.key x)) =
        (c.contents.filter fun x => !impl.impl.pred k (impl.impl.key x.1)).map Prod.fst :=
      List.filter_map
    exact (congrArg (List.map Prod.fst) hcont).trans hmap.symm
  | clear =>
    obtain ⟨hok, hcont, -⟩ := LruCache.clear_spec h.ok
    refine ⟨h.withFacade hok fun x hx => ?_, congrArg (List.map Prod.fst) hcont⟩
    rw [hcont] at hx
    exact absurd hx List.not_mem_nil
  | shrinkToFit =>
    obtain ⟨hq, hcont⟩ := h.shrinkToFit hlimit hpos
    exact ⟨hq, congrArg (List.map Prod.fst) hcont⟩
  | setMaxSize n =>
    have hq : Quiet impl (c.withFacade { c.facade with maxSize := n }) :=
      h.withFacade ⟨h.ok.hash, h.ok.nodes, h.ok.fresh⟩ fun x hx => hx
    obtain ⟨hq, hcont⟩ := hq.shrinkToFit hlimit hpos
    exact ⟨hq, congrArg (List.map Prod.fst) hcont⟩

def keys (impl : TimedImpl κ α) (c : TimedLru α) : List κ :=
  c.contents.map fun x => impl.impl.key x.1

def run (impl : TimedImpl κ α) (clock : Clock) (ops : List (LruCache.Op κ α)) : TimedLru α :=
  ops.foldl (step impl clock) empty

/-- The call finds no limit to enforce: a push has room or an entry of its key, and shrinking
has nothing to take out. -/
def WithinLimit (impl : Impl κ α) (c : LruCache α) (op : LruCache.Op κ α) : Prop :=
  op.toRecency.Fits impl.key impl.pred c.abs

theorem sameKeys_iff (hc : impl.impl.Consistent) (hlimit : impl.limit = addDuration)
    (hpos : ∀ n, 0 < clock.now n) {t : TimedLru α} {c : LruCache α} (ht : Quiet impl t)
    (h : Ok impl.impl c) (hsame : t.contents.map Prod.fst = c.contents)
    (ops : List (LruCache.Op κ α)) :
    (∀ pre post, ops = pre ++ post → keys impl (pre.foldl (step impl clock) t) =
        (pre.foldl (LruCache.step impl.impl) c).contents.map impl.impl.key) ↔
      EveryStep (LruCache.step impl.impl) (WithinLimit impl.impl) c ops := by
  have hkeys : ∀ (t : TimedLru α), keys impl t = (t.contents.map Prod.fst).map impl.impl.key :=
    fun t => by rw [keys, List.map_map]; rfl
  induction ops generalizing t c with
  | nil =>
    refine ⟨fun _ => everyStep_nil _, fun _ pre post hpre => ?_⟩
    rw [(List.append_eq_nil_iff.mp hpre.symm).1, List.foldl_nil, List.foldl_nil, hkeys, hsame]
  | cons op ops ih =>
    obtain ⟨ht', hcont⟩ := ht.step hc hlimit hpos op
    obtain ⟨h', habs⟩ := LruCache.step_spec hc h op
    have hcont' : (c.step impl.impl op).contents =
        (c.abs.step impl.impl.key impl.impl.pred op.toRecency).entries :=
      congrArg RecencyList.entries habs
    rw [hsame] at hcont
    rw [everyStep_cons]
    constructor
    · intro hall
      have hfits : WithinLimit impl.impl c op := by
        by_contra hnot
        have hlt := RecencyList.length_step_lt hnot
        have heq := congrArg List.length (hall [op] ops rfl)
        rw [List.foldl_cons, List.foldl_nil, List.foldl_cons, List.foldl_nil, hkeys, hcont,
          List.length_map, List.length_map, hcont'] at heq
        exact absurd heq hlt.ne'
      have hnext : (t.step impl clock op).contents.map Prod.fst =
          (c.step impl.impl op).contents := by
        rw [hcont, hcont']
        exact (RecencyList.step_eq_unbounded hfits).symm
      exact ⟨hfits, (ih ht' h' hnext).mp fun pre post hpre => hall (op :: pre) post (by simp [hpre])⟩
    · rintro ⟨hfits, hrest⟩ pre post hpre
      have hnext : (t.step impl clock op).contents.map Prod.fst =
          (c.step impl.impl op).contents := by
        rw [hcont, hcont']
        exact (RecencyList.step_eq_unbounded hfits).symm
      cases pre with
      | nil => rw [List.foldl_nil, List.foldl_nil, hkeys, hsame]
      | cons op' pre =>
        obtain ⟨rfl, hops⟩ := List.cons.inj hpre
        exact (ih ht' h' hnext).mpr hrest pre post hops

/-- A `timed_lru_map` whose `expire` is not set holds the keys of an `lru_map` after each of the
same calls exactly when none of them finds the `lru_map` at its limit. -/
theorem timed_lru_map_same_keys_iff {β : Type*} (hash : κ → Nat) (pred : κ → κ → Bool)
    (hc : (lruMapImpl (β := β) hash pred).Consistent) (clock : Clock) (hpos : 0 < clock.now 0)
    (ops : List (LruCache.Op κ (κ × β))) :
    (∀ pre post, ops = pre ++ post →
        keys (timedLruMapImpl hash pred) (run (timedLruMapImpl hash pred) clock pre) =
          (LruCache.run (lruMapImpl hash pred) pre).contents.map Prod.fst) ↔
      EveryStep (LruCache.step (lruMapImpl hash pred)) (WithinLimit (lruMapImpl hash pred))
        LruCache.empty ops := by
  have hall : ∀ n, 0 < clock.now n := fun n => hpos.trans_le (clock.mono (Nat.zero_le n))
  have hquiet : Quiet (timedLruMapImpl (β := β) hash pred) empty :=
    ⟨LruCache.ok_empty, rfl, fun x hx => absurd hx (List.not_mem_nil)⟩
  have hcons : (timedLruMapImpl (β := β) hash pred).impl.Consistent := hc
  exact sameKeys_iff hcons rfl hall hquiet LruCache.ok_empty rfl ops

def natTimedMapImpl : TimedImpl Nat (Nat × Nat) :=
  timedLruMapImpl (fun n => n % 4) fun a b => decide (a = b)

/-- A clock that always shows the same time. -/
def stoppedClock (t : Int) (h : -2 ^ 63 ≤ t ∧ t < 2 ^ 63) : Clock :=
  ⟨fun _ => t, monotone_const, fun _ => h⟩

theorem timed_lru_map_same_keys_iff_of_one_push :
    EveryStep (LruCache.step (lruMapImpl (fun n : Nat => n % 4) fun a b => decide (a = b)))
      (WithinLimit (lruMapImpl (fun n => n % 4) fun a b => decide (a = b))) LruCache.empty
      [.push (1, 10)] := by
  refine (timed_lru_map_same_keys_iff _ _ (LruCache.lruMapImpl_consistent (fun n : Nat => n % 4))
    (stoppedClock 1 (by decide)) (by decide) [.push (1, 10)]).mp ?_
  intro pre post hpre
  match pre with
  | [] => rfl
  | [op] =>
    obtain ⟨rfl, rfl⟩ : op = .push (1, 10) ∧ post = [] := by simpa using hpre.symm
    decide
  | op :: op' :: pre => simp at hpre

theorem not_timed_lru_map_same_keys_of_three_pushes :
    keys natTimedMapImpl (run natTimedMapImpl (stoppedClock 1 (by decide))
        [.setMaxSize 1, .push (1, 10), .push (2, 20), .push (3, 30)]) = [3, 2, 1] ∧
      ¬ ∀ (clock : Clock) (ops : List (LruCache.Op Nat (Nat × Nat))), 0 < clock.now 0 →
        keys natTimedMapImpl (run natTimedMapImpl clock ops) =
          (LruCache.run LruCache.natMapImpl ops).contents.map Prod.fst := by
  refine ⟨by decide, fun h => ?_⟩
  have heq := h (stoppedClock 1 (by decide))
    [.setMaxSize 1, .push (1, 10), .push (2, 20), .push (3, 30)] (by decide)
  exact absurd heq (by decide)

end WithoutExpire

end TimedLru

end Acqua
