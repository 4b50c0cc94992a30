import Acqua.Container.TimedLruRefinement

/-! What is left in a timed LRU cache after `shrink_to_fit`, in terms of the times of the pushes
made before it. -/

namespace Acqua

namespace TimedLru

open LruCache (Ok)

variable {κ α : Type*} (impl : TimedImpl κ α) (clock : Clock)

/-- Every entry beyond `max_size`, the oldest first, is before what `is_limits` compares it
with when its turn comes. -/
def Passes (c : TimedLru α) : Prop :=
  ∀ j e, j < c.size - c.facade.maxSize → c.contents.reverse[j]? = some e →
    e.2 < impl.limit (clock.now (c.reads + j)) c.minExpire

/-- A cache and the pushes made so far, the latest first. A push is at the time of its last
look at the clock. -/
structure Session (α : Type*) where
  cache : TimedLru α
  log : List (α × Int)

def Session.push (s : Session α) (v : α) : Session α :=
  let c := (s.cache.push impl clock v).1
  ⟨c, (v, clock.now (c.reads - 1)) :: s.log⟩

def session (n : Nat) (d : Int) (vals : List α) : Session α :=
  vals.foldl (Session.push impl clock)
    ⟨(empty.setExpire impl clock d).setMaxSize impl clock n, []⟩

/-- When the key of `v` was pushed last. -/
def Session.lastPush (s : Session α) (v : α) : Option Int :=
  (s.log.find? fun p => impl.impl.pred (impl.impl.key v) (impl.impl.key p.1)).map Prod.snd

/-- At most `n` entries, none of them pushed last more than `d` before `t`. -/
def Fresh (s : Session α) (n : Nat) (d t : Int) (c : TimedLru α) : Prop :=
  c.size ≤ n ∧ ∀ e ∈ c.contents, ∀ u, s.lastPush impl e.1 = some u → t - u ≤ d

variable {impl clock}

theorem passes_of_small {c : TimedLru α} (h : c.size ≤ c.facade.maxSize) :
    Passes impl clock c := by
  intro j e hj
  omega

/-- The cache after a round of the loop of `shrink_to_fit`. -/
def dropBack (c : TimedLru α) : TimedLru α :=
  ⟨(c.facade.erase c.facade.list.getLast?).1, c.minExpire, c.reads + 1⟩

theorem dropBack_spec {c : TimedLru α} (h : Ok impl.node c.facade) {l : List (α × Int)}
    {back : α × Int} (hcat : c.contents = l ++ [back]) :
    Ok impl.node c.dropBack.facade ∧ c.dropBack.contents = l ∧
      c.dropBack.facade.maxSize = c.facade.maxSize := by
  obtain ⟨hok, hcont, hmax, -, -⟩ := LruCache.erase_spec h (c.facade.list.length - 1)
  rw [← List.getLast?_eq_getElem?] at hok hcont hmax
  refine ⟨hok, hcont.trans ?_, hmax⟩
  have hpos : c.facade.list.length - 1 = l.length := by
    have hlen := length_contents h
    rw [hcat, List.length_append, List.length_singleton] at hlen
    change c.size - 1 = _
    omega
  change c.contents.eraseIdx _ = l
  rw [hpos, hcat, List.eraseIdx_append_of_length_le (Nat.le_refl _), Nat.sub_self,
    List.eraseIdx_zero, List.tail_cons, List.append_nil]

theorem passes_iff_dropBack {c : TimedLru α} (h : Ok impl.node c.facade) {l : List (α × Int)}
    {back : α × Int} (hcat : c.contents = l ++ [back]) (hlt : c.facade.maxSize < c.size) :
    Passes impl clock c ↔
      back.2 < impl.limit (clock.now c.reads) c.minExpire ∧ Passes impl clock c.dropBack := by
  obtain ⟨hok, hcont, hmax⟩ := dropBack_spec h hcat
  have hsize : c.size = l.length + 1 := by
    rw [← length_contents h, hcat, List.length_append, List.length_singleton]
  have hsize' : c.dropBack.size = l.length := by rw [← length_contents hok, hcont]
  unfold Passes
  rw [hcat, hcont, hmax, hsize, hsize', List.reverse_append, List.reverse_singleton,
    List.singleton_append]
  constructor
  · intro hp
    refine ⟨hp 0 back (by omega) rfl, fun j e hj he => ?_⟩
    have hround := hp (j + 1) e (by omega) he
    rwa [← Nat.add_assoc, Nat.add_right_comm] at hround
  · rintro ⟨hback, hp⟩ j e hj he
    cases j with
    | zero =>
      obtain rfl : back = e := Option.some.inj he
      exact hback
    | succ j =>
      have hround := hp j e (by omega) he
      rwa [← Nat.add_assoc, Nat.add_right_comm]

/-- The loop gets down to `max_size` when every entry beyond it passes, and stops before that
when one does not. -/
structure Shrunk (impl : TimedImpl κ α) (clock : Clock) (c r : TimedLru α) : Prop where
  ok : Ok impl.node r.facade
  maxSize : r.facade.maxSize = c.facade.maxSize
  minExpire : r.minExpire = c.minExpire
  passes : Passes impl clock c → r.contents = c.contents.take c.facade.maxSize
  stops : ¬ Passes impl clock c → c.facade.maxSize < r.contents.length

theorem shrunk_of_small {c : TimedLru α} (h : Ok impl.node c.facade)
    (hsmall : c.size ≤ c.facade.maxSize) : Shrunk impl clock c c where
  ok := h
  maxSize := rfl
  minExpire := rfl
  passes _ := (List.take_of_length_le ((length_contents h).trans_le hsmall)).symm
  stops hnot := absurd (passes_of_small hsmall) hnot

theorem shrinkLoop_spec (fuel : Nat) {c : TimedLru α} (h : Ok impl.node c.facade)
    (hfuel : c.size ≤ fuel + c.facade.maxSize) :
    Shrunk impl clock c (shrinkLoop impl clock fuel c) := by
  induction fuel generalizing c with
  | zero => exact shrunk_of_small h (by omega)
  | succ fuel ih =>
    by_cases hlt : c.facade.maxSize < c.size
    · have hlen := length_contents h
      obtain ⟨l, back, hcat⟩ : ∃ l back, c.contents = l ++ [back] := by
        rcases List.eq_nil_or_concat c.contents with hnil | ⟨l, back, hcat⟩
        · rw [hnil, List.length_nil] at hlen
          omega
        · exact ⟨l, back, hcat.trans List.concat_eq_append⟩
      obtain ⟨hok, hcont, hmax⟩ := dropBack_spec h hcat
      have hlim : c.atLimits impl clock =
          (decide (back.2 < impl.limit (clock.now c.reads) c.minExpire),
            { c with reads := c.reads + 1 }) := by
        rw [atLimits_eq h, if_pos hlt, hcat, List.getLast?_concat]
      by_cases hback : back.2 < impl.limit (clock.now c.reads) c.minExpire
      · have hstep : shrinkLoop impl clock (fuel + 1) c =
            shrinkLoop impl clock fuel c.dropBack := by
          simp only [shrinkLoop, hlim, hback, decide_true, if_true]
          rfl
        have hsize' : c.dropBack.size + 1 = c.size := by
          rw [← length_contents hok, ← hlen, hcont, hcat, List.length_append,
            List.length_singleton]
        have hrec : Shrunk impl clock c.dropBack (shrinkLoop impl clock fuel c.dropBack) :=
          ih hok (by omega)
        have hiff : Passes impl clock c ↔ Passes impl clock c.dropBack :=
          (passes_iff_dropBack h hcat hlt).trans (and_iff_right hback)
        rw [hstep]
        refine ⟨hrec.ok, hrec.maxSize.trans hmax, hrec.minExpire, fun hp => ?_, fun hp => ?_⟩
        · rw [hrec.passes (hiff.mp hp), hcont, hmax, hcat, List.take_append_of_le_length]
          rw [← length_contents hok, hcont] at hsize'
          omega
        · exact hmax ▸ hrec.stops fun hp' => hp (hiff.mpr hp')
      · have hnot : ¬ Passes impl clock c := fun hp =>
          hback ((passes_iff_dropBack h hcat hlt).mp hp).1
        have hstep : shrinkLoop impl clock (fuel + 1) c = { c with reads := c.reads + 1 } := by
          simp only [shrinkLoop, hlim, hback, decide_false, Bool.false_eq_true, if_false]
        rw [hstep]
        exact ⟨h, rfl, rfl, fun hp => absurd hp hnot, fun _ => hlen.symm ▸ hlt⟩
    · have hstep : shrinkLoop impl clock (fuel + 1) c = c := by
        have hlim : c.atLimits impl clock = (false, c) := by
          rw [atLimits_eq h, if_neg hlt]
        simp only [shrinkLoop, hlim, Bool.false_eq_true, if_false]
      rw [hstep]
      exact shrunk_of_small h (not_lt.mp hlt)

theorem shrinkToFit_spec {c : TimedLru α} (h : Ok impl.node c.facade) :
    Shrunk impl clock c (c.shrinkToFit impl clock) := by
  have hloop : Shrunk impl clock c (shrinkLoop impl clock c.size c) :=
    shrinkLoop_spec c.size h (by omega)
  have habs : ((shrinkLoop impl clock c.size c).facade.autoRehash impl.node).abs =
      (shrinkLoop impl clock c.size c).facade.abs := LruCache.abs_autoRehash _
  have hcont : (c.shrinkToFit impl clock).contents = (shrinkLoop impl clock c.size c).contents :=
    congrArg RecencyList.entries habs
  exact ⟨hloop.ok.autoRehash, (congrArg RecencyList.bound habs).trans hloop.maxSize,
    hloop.minExpire, fun hp => hcont.trans (hloop.passes hp), fun hp => hcont ▸ hloop.stops hp⟩

structure Session.Inv (impl : TimedImpl κ α) (n : Nat) (d : Int) (s : Session α) : Prop where
  ok : Ok impl.node s.cache.facade
  maxSize : s.cache.facade.maxSize = n
  minExpire : s.cache.minExpire = d
  last : ∀ e ∈ s.cache.contents,
    (s.log.find? fun p => impl.impl.pred (impl.impl.key e.1) (impl.impl.key p.1)) = some e

theorem kept_spec {c : TimedLru α} {v : α} {e : α × Int} (h : e ∈ kept impl clock c v) :
    e ∈ c.contents ∧ impl.impl.pred (impl.impl.key v) (impl.impl.key e.1) = false := by
  unfold kept at h
  by_cases hfull : c.contents.any (fun x => impl.impl.pred (impl.impl.key v)
      (impl.impl.key x.1)) = false ∧ (c.atLimits impl clock).1 = true
  · rw [if_pos hfull] at h
    have hmem := List.mem_of_mem_dropLast h
    exact ⟨hmem, by simpa using List.any_eq_false.mp hfull.1 e hmem⟩
  · rw [if_neg hfull] at h
    obtain ⟨hmem, hne⟩ := List.mem_filter.mp h
    exact ⟨hmem, by simpa using hne⟩

theorem Session.Inv.push (hc : impl.impl.Consistent) {n : Nat} {d : Int} {s : Session α}
    (h : s.Inv impl n d) (v : α) : (s.push impl clock v).Inv impl n d := by
  obtain ⟨hok, hmax, hexp, hcont⟩ : Ok impl.node (s.push impl clock v).cache.facade ∧
      (s.push impl clock v).cache.facade.maxSize = s.cache.facade.maxSize ∧
      (s.push impl clock v).cache.minExpire = s.cache.minExpire ∧ _ := push_spec hc h.ok v
  refine ⟨hok, hmax.trans h.maxSize, hexp.trans h.minExpire, fun e he => ?_⟩
  change e ∈ (s.cache.push impl clock v).1.contents at he
  rw [hcont] at he
  change List.find? _ (_ :: s.log) = _
  rcases List.mem_cons.mp he with rfl | he
  · exact List.find?_cons_of_pos (hc.refl _)
  · obtain ⟨hmem, hne⟩ := kept_spec he
    rw [List.find?_cons_of_neg (by simp [hc.symm _ (impl.impl.key v), hne])]
    exact h.last e hmem

theorem inv_session (hc : impl.impl.Consistent) (n : Nat) (d : Int) (vals : List α) :
    (session impl clock n d vals).Inv impl n d := by
  have hempty (c : TimedLru α) (h : Ok impl.node c.facade) (hnil : c.contents = []) :
      (c.shrinkToFit impl clock).contents = [] := by
    have hsize : c.size = 0 := by rw [← length_contents h, hnil, List.length_nil]
    have hshrunk : Shrunk impl clock c (c.shrinkToFit impl clock) := shrinkToFit_spec h
    rw [hshrunk.passes (passes_of_small (by omega)), hnil, List.take_nil]
  have hexpire : Shrunk impl clock ⟨LruCache.empty, d, 0⟩ (empty.setExpire impl clock d) :=
    shrinkToFit_spec LruCache.ok_empty
  have hnil := hempty ⟨LruCache.empty, d, 0⟩ LruCache.ok_empty rfl
  have hok : Ok impl.node { (empty.setExpire impl clock d).facade with maxSize := n } :=
    ⟨hexpire.ok.hash, hexpire.ok.nodes, hexpire.ok.fresh⟩
  have hmax : Shrunk impl clock ((empty.setExpire impl clock d).withFacade _)
      ((empty.setExpire impl clock d).setMaxSize impl clock n) := shrinkToFit_spec hok
  have hnil' := hempty ((empty.setExpire impl clock d).withFacade _) hok hnil
  refine foldl_invariant (show ∀ s v, Session.Inv impl n d s →
    (Session.push impl clock s v).Inv impl n d from fun s v hs => hs.push hc v) ?_ vals
  refine ⟨hmax.ok, hmax.maxSize, hmax.minExpire.trans hexpire.minExpire, fun e he => ?_⟩
  change e ∈ ((empty.setExpire impl clock d).setMaxSize impl clock n).contents at he
  rw [show ((empty.setExpire impl clock d).setMaxSize impl clock n).contents = [] from hnil'] at he
  exact absurd he List.not_mem_nil

theorem fresh_iff (hc : impl.impl.Consistent) (n : Nat) (d : Int) (vals : List α) :
    let s := session impl clock n d vals
    Fresh impl s n d (clock.now s.cache.reads) (s.cache.shrinkToFit impl clock) ↔
      (∀ e ∈ s.cache.contents.take n, clock.now s.cache.reads - e.2 ≤ d) ∧
        Passes impl clock s.cache := by
  intro s
  have hinv : s.Inv impl n d := inv_session hc n d vals
  have hshrunk : Shrunk impl clock s.cache (s.cache.shrinkToFit impl clock) :=
    shrinkToFit_spec hinv.ok
  have hlast : ∀ e ∈ s.cache.contents, s.lastPush impl e.1 = some e.2 := fun e he => by
    rw [Session.lastPush, hinv.last e he, Option.map_some]
  unfold Fresh
  rw [← length_contents hshrunk.ok]
  by_cases hp : Passes impl clock s.cache
  · have hcont := hshrunk.passes hp
    rw [hinv.maxSize] at hcont
    rw [and_iff_left hp, hcont, and_iff_right (List.length_take_le _ _)]
    refine forall₂_congr fun e he => ?_
    rw [hlast e (List.mem_of_mem_take he)]
    simp
  · have hlt := hshrunk.stops hp
    rw [hinv.maxSize] at hlt
    exact ⟨fun h => absurd h.1 (by omega), fun h => absurd h.2 hp⟩

/-- After `shrink_to_fit` a timed map or set is within its limits exactly when none of the `n`
entries pushed last is older than `d` and every entry beyond them passes the comparison. -/
theorem timed_eviction_iff {β : Type*} (hash : κ → Nat) (pred : κ → κ → Bool)
    (hc : (lruSetImpl hash pred).Consistent) (clock : Clock) (n : Nat) (d : Int)
    (vals : List (κ × β)) (vals' : List κ) :
    let m := timedLruMapImpl hash pred
    let s := session m clock n d vals
    let m' := timedLruSetImpl hash pred
    let s' := session m' clock n d vals'
    (Fresh m s n d (clock.now s.cache.reads) (s.cache.shrinkToFit m clock) ↔
      (∀ e ∈ s.cache.contents.take n, clock.now s.cache.reads - e.2 ≤ d) ∧
        Passes m clock s.cache) ∧
    (Fresh m' s' n d (clock.now s'.cache.reads) (s'.cache.shrinkToFit m' clock) ↔
      (∀ e ∈ s'.cache.contents.take n, clock.now s'.cache.reads - e.2 ≤ d) ∧
        Passes m' clock s'.cache) := by
  have hmap : (timedLruMapImpl (β := β) hash pred).impl.Consistent :=
    ⟨hc.refl, hc.symm, hc.trans, hc.hash⟩
  have hset : (timedLruSetImpl hash pred).impl.Consistent := hc
  exact ⟨fresh_iff hmap n d vals, fresh_iff hset n d vals'⟩

theorem lruSetImpl_consistent [DecidableEq κ] (hash : κ → Nat) :
    (lruSetImpl hash fun a b => decide (a = b)).Consistent :=
  let h := LruCache.lruMapImpl_consistent (β := Unit) hash
  ⟨h.refl, h.symm, h.trans, h.hash⟩

/-- A clock that shows 1 once and 100 from then on. -/
def leapingClock : Clock where
  now n := if n = 0 then 1 else 100
  mono := monotone_nat_of_le_succ fun n => by
    cases n with
    | zero => decide
    | succ n => exact le_rfl
  range n := by
    cases n with
    | zero => decide
    | succ n =>
      simp only [Nat.succ_ne_zero, if_false]
      decide

def natTimedSetImpl : TimedImpl Nat Nat :=
  timedLruSetImpl (fun n => n % 4) fun a b => decide (a = b)

theorem timed_eviction_iff_of_one_push :
    ¬ Fresh natTimedMapImpl (session natTimedMapImpl leapingClock 10 5 [(1, 10)]) 10 5
      (leapingClock.now (session natTimedMapImpl leapingClock 10 5 [(1, 10)]).cache.reads)
      ((session natTimedMapImpl leapingClock 10 5 [(1, 10)]).cache.shrinkToFit natTimedMapImpl
        leapingClock) := by
  intro h
  have hiff := (timed_eviction_iff (β := Nat) (fun n : Nat => n % 4) (fun a b => decide (a = b))
    (lruSetImpl_consistent _) leapingClock 10 5 [(1, 10)] []).1
  have hold := (hiff.mp h).1 ((1, 10), 1) (by decide)
  exact absurd hold (by decide)

/-- The map keeps an entry of 99 ticks with an `expire` of 5, as there is room for it, and the set
keeps one entry too many, as it was pushed at the very moment. -/
theorem not_fresh_of_one_push :
    ((session natTimedMapImpl leapingClock 10 5 [(1, 10)]).cache.shrinkToFit natTimedMapImpl
        leapingClock).contents = [((1, 10), 1)] ∧
      ((session natTimedSetImpl (stoppedClock 5 (by decide)) 0 5 [1]).cache.shrinkToFit
        natTimedSetImpl (stoppedClock 5 (by decide))).size = 1 ∧
      ¬ ∀ (clock : Clock) (n : Nat) (d : Int) (vals : List (Nat × Nat)), 0 ≤ d →
        let s := session natTimedMapImpl clock n d vals
        Fresh natTimedMapImpl s n d (clock.now s.cache.reads)
          (s.cache.shrinkToFit natTimedMapImpl clock) := by
  refine ⟨by decide, by decide, fun h => ?_⟩
  have hold := (h leapingClock 10 5 [(1, 10)] (by decide)).2 ((1, 10), 1) (by decide) 1 (by decide)
  exact absurd hold (by decide)

end TimedLru

end Acqua
