import Acqua.Container.LruInvariant
import Acqua.Library.Run

/-! Every call on an LRU cache keeps the invariant and does to the sequence of values
what the operation of the same name does to a recency list. -/

namespace Acqua

theorem filterMap_take_of_isSome {α β : Type*} (f : α → Option β) (l : List α) (n : Nat)
    (h : ∀ a ∈ l, ∃ v, f a = some v) : (l.take n).filterMap f = (l.filterMap f).take n := by
  induction l generalizing n with
  | nil => simp
  | cons a l ih =>
    obtain ⟨v, hv⟩ := h a (by simp)
    cases n with
    | zero => simp
    | succ n => simp [List.filterMap_cons_some hv, ih n (fun b hb => h b (by simp [hb]))]

theorem filterMap_drop_of_isSome {α β : Type*} (f : α → Option β) (l : List α) (n : Nat)
    (h : ∀ a ∈ l, ∃ v, f a = some v) : (l.drop n).filterMap f = (l.filterMap f).drop n := by
  induction l generalizing n with
  | nil => simp
  | cons a l ih =>
    obtain ⟨v, hv⟩ := h a (by simp)
    cases n with
    | zero => simp
    | succ n => simp [List.filterMap_cons_some hv, ih n (fun b hb => h b (by simp [hb]))]

theorem length_filterMap_of_isSome {α β : Type*} (f : α → Option β) (l : List α)
    (h : ∀ a ∈ l, ∃ v, f a = some v) : (l.filterMap f).length = l.length := by
  induction l with
  | nil => rfl
  | cons a l ih =>
    obtain ⟨v, hv⟩ := h a (by simp)
    simp [List.filterMap_cons_some hv, ih (fun b hb => h b (by simp [hb]))]

theorem filterMap_update_of_not_mem {α : Type*} (heap : Nat → Option α) {a : Nat} {l : List Nat}
    (ha : a ∉ l) (o : Option α) : l.filterMap (Function.update heap a o) = l.filterMap heap := by
  apply List.filterMap_congr
  intro b hb
  exact Function.update_of_ne (fun he : b = a => ha (he ▸ hb)) _ _

namespace LruCache

variable {κ α : Type*} {impl : Impl κ α}

def abs (c : LruCache α) : RecencyList α := ⟨c.contents, c.maxSize⟩

theorem Ok.length_contents {c : LruCache α} (h : Ok impl c) : c.contents.length = c.size :=
  length_filterMap_of_isSome _ _ h.nodes.live

theorem Ok.contents_take {c : LruCache α} (h : Ok impl c) (n : Nat) :
    (c.list.take n).filterMap c.heap = c.contents.take n :=
  filterMap_take_of_isSome _ _ _ h.nodes.live

theorem Ok.contents_drop {c : LruCache α} (h : Ok impl c) (n : Nat) :
    (c.list.drop n).filterMap c.heap = c.contents.drop n :=
  filterMap_drop_of_isSome _ _ _ h.nodes.live

theorem Ok.contents_eraseIdx {c : LruCache α} (h : Ok impl c) (i : Nat) :
    (c.list.eraseIdx i).filterMap c.heap = c.contents.eraseIdx i := by
  rw [List.eraseIdx_eq_take_drop_succ, List.eraseIdx_eq_take_drop_succ, List.filterMap_append,
    h.contents_take, h.contents_drop]

theorem Ok.contents_any {c : LruCache α} (hc : impl.Consistent) (h : Ok impl c) (k : κ) :
    c.contents.any (fun x => impl.pred k (impl.key x)) = (c.hashFind impl k).isSome := by
  cases hf : c.hashFind impl k with
  | none =>
    have hno := (hashFind_eq_none hc h.hash).mp hf
    simp only [contents, List.any_eq_false, List.mem_filterMap, Option.isSome_none]
    intro x ⟨a, ha, hx⟩
    simp [hno a ha x hx]
  | some a =>
    obtain ⟨ha, v, hv, hp⟩ := hashFind_some h.hash hf
    simp only [contents, List.any_eq_true, List.mem_filterMap, Option.isSome_some]
    exact ⟨v, ⟨a, ha, hv⟩, hp⟩

theorem Ok.rebucket {c : LruCache α} (h : Ok impl c) {bucket : List (List Nat)}
    (hb : HashOk impl c.heap bucket c.list) : Ok impl { c with bucket := bucket } :=
  ⟨hb, h.nodes, h.fresh⟩

theorem Ok.autoRehash {c : LruCache α} (h : Ok impl c) : Ok impl (c.autoRehash impl) := by
  unfold LruCache.autoRehash LruCache.rehash
  have hpos := h.hash.pos
  by_cases hgrow : c.bucketCount < c.size
  · rw [if_pos hgrow]
    exact h.rebucket (h.hash.rehash h.nodes.live (by unfold bucketCount; omega))
  · rw [if_neg hgrow]
    by_cases hshrink : minBucketSize < c.size ∧ c.size < c.bucketCount / 2
    · rw [if_pos hshrink]
      exact h.rebucket (h.hash.rehash h.nodes.live (by omega))
    · rwa [if_neg hshrink]

theorem abs_autoRehash (c : LruCache α) : (c.autoRehash impl).abs = c.abs := by
  unfold LruCache.autoRehash
  by_cases hgrow : c.bucketCount < c.size
  · rw [if_pos hgrow]; rfl
  · rw [if_neg hgrow]
    by_cases hshrink : minBucketSize < c.size ∧ c.size < c.bucketCount / 2
    · rw [if_pos hshrink]; rfl
    · rw [if_neg hshrink]

theorem hashInsert_of_none {c : LruCache α} {a : Nat} {v : α} (hv : c.heap a = some v)
    (hf : c.hashFind impl (impl.key v) = none) :
    c.hashInsert impl a = { c with bucket := link impl c.heap c.bucket a } := by
  unfold hashInsert
  rw [if_neg (by simp [hv, hf])]

theorem Ok.other_key {c : LruCache α} (hc : impl.Consistent) (h : Ok impl c) {k : κ} {a : Nat}
    {v : α} (ha : a ∈ c.list) (hv : c.heap a = some v) (hp : impl.pred k (impl.key v) = true)
    {b : Nat} (hb : b ∈ c.list) (hne : b ≠ a) {x : α} (hx : c.heap b = some x) :
    impl.pred k (impl.key x) = false := by
  apply Bool.eq_false_iff.mpr
  intro hkx
  have hvx := hc.trans _ _ _ (hc.symm _ _ ▸ hp) hkx
  simp [h.nodes.distinct a ha b hb hne.symm v x hv hx] at hvx

theorem Ok.erase_eq_filter {c : LruCache α} (hc : impl.Consistent) (h : Ok impl c) {k : κ} {a : Nat}
    {v : α} (ha : a ∈ c.list) (hv : c.heap a = some v) (hp : impl.pred k (impl.key v) = true) :
    (c.list.erase a).filterMap c.heap =
      c.contents.filter (fun x => !impl.pred k (impl.key x)) := by
  rw [h.nodes.nodup.erase_eq_filter, List.filterMap_filter, contents, List.filter_filterMap]
  apply List.filterMap_congr
  intro b hb
  by_cases hba : b = a
  · subst b
    simp [hv, hp, Option.filter]
  · obtain ⟨x, hx⟩ := h.nodes.live b hb
    simp [hba, hx, h.other_key hc ha hv hp hb hba hx, Option.filter]

theorem push_update {c : LruCache α} (hc : impl.Consistent) (h : Ok impl c) {v : α} {a : Nat}
    (hf : c.hashFind impl (impl.key v) = some a) :
    Ok impl (((c.listErase a).replace a v).listPushFront a) ∧
      (((c.listErase a).replace a v).listPushFront a).contents =
        v :: c.contents.filter (fun x => !impl.pred (impl.key v) (impl.key x)) := by
  obtain ⟨ha, w, hw, hp⟩ := hashFind_some h.hash hf
  have hnot : a ∉ c.list.erase a := h.nodes.nodup.not_mem_erase
  have hsame : HashOk impl (Function.update c.heap a (some v)) c.bucket c.list := by
    apply h.hash.update a (some v)
    intro _ x hx
    obtain rfl : v = x := Option.some.inj hx
    exact ⟨w, hw, (hc.hash _ _ hp).symm⟩
  refine ⟨⟨hsame.of_perm (List.perm_cons_erase ha), ?_, ?_⟩, ?_⟩
  · apply ((h.nodes.erase a).update hnot (some v)).cons hc hnot (Function.update_self ..)
    intro b hb x hx
    have hne : b ≠ a := fun he => hnot (he ▸ hb)
    rw [Function.update_of_ne hne] at hx
    exact h.other_key hc ha hw hp (List.mem_of_mem_erase hb) hne hx
  · intro b hb
    rcases List.mem_cons.mp hb with rfl | hb
    · exact h.fresh b ha
    · exact h.fresh b (List.mem_of_mem_erase hb)
  · change List.filterMap (Function.update c.heap a (some v)) (a :: c.list.erase a) = _
    rw [List.filterMap_cons_some (Function.update_self ..), filterMap_update_of_not_mem _ hnot,
      h.erase_eq_filter hc ha hw hp]

theorem Ok.unlink {c : LruCache α} (h : Ok impl c) (a : Nat) (o : Option α) :
    HashOk impl (Function.update c.heap a o) ((c.listErase a).hashErase a).bucket
        (c.list.erase a) ∧
      NodesOk impl (Function.update c.heap a o) (c.list.erase a) := by
  have hnot : a ∉ c.list.erase a := h.nodes.nodup.not_mem_erase
  exact ⟨(h.hash.erase h.nodes.nodup a).update a o (fun ha => absurd ha hnot),
    (h.nodes.erase a).update hnot o⟩

/-- A value whose key is not in the cache goes into a node that neither structure holds. -/
theorem insert_absent (hc : impl.Consistent) (c : LruCache α) {nodes : List Nat} {a : Nat} {v : α}
    (hlist : c.list = a :: nodes) (hhash : HashOk impl c.heap c.bucket nodes)
    (hnodes : NodesOk impl c.heap nodes) (ha : a ∉ nodes) (hv : c.heap a = some v)
    (hfresh : ∀ b ∈ c.list, b < c.fresh)
    (hnew : ∀ b ∈ nodes, ∀ w, c.heap b = some w → impl.pred (impl.key v) (impl.key w) = false) :
    Ok impl (c.hashInsert impl a) ∧ (c.hashInsert impl a).contents = v :: nodes.filterMap c.heap ∧
      (c.hashInsert impl a).maxSize = c.maxSize := by
  rw [hashInsert_of_none hv ((hashFind_eq_none hc hhash).mpr hnew)]
  refine ⟨⟨?_, ?_, hfresh⟩, ?_, rfl⟩
  · change HashOk impl c.heap _ c.list
    rw [hlist]
    exact hhash.link hv
  · change NodesOk impl c.heap c.list
    rw [hlist]
    exact hnodes.cons hc ha hv hnew
  · change c.list.filterMap c.heap = _
    rw [hlist, List.filterMap_cons_some hv]

theorem hashInsert_listPushFront (c : LruCache α) (a b : Nat) :
    (c.listPushFront b).hashInsert impl a = (c.hashInsert impl a).listPushFront b := by
  have he : (c.listPushFront b).hashInsert impl a =
      if ((c.heap a).bind fun v => c.hashFind impl (impl.key v)).isSome then c.listPushFront b
      else { c.listPushFront b with bucket := link impl c.heap c.bucket a } := rfl
  rw [he, hashInsert]
  by_cases hs : ((c.heap a).bind fun v => c.hashFind impl (impl.key v)).isSome = true
  · rw [if_pos hs, if_pos hs]
  · rw [if_neg hs, if_neg hs]
    rfl

theorem push_replace {c : LruCache α} (hc : impl.Consistent) (h : Ok impl c) {v : α} {a : Nat}
    (hf : c.hashFind impl (impl.key v) = none) (ha : c.list.getLast? = some a) :
    let c' := ((((c.listErase a).hashErase a).replace a v).listPushFront a).hashInsert impl a
    Ok impl c' ∧ c'.contents = v :: c.contents.dropLast ∧ c'.maxSize = c.maxSize := by
  have hnone := (hashFind_eq_none hc h.hash).mp hf
  have hmem : a ∈ c.list := List.mem_of_getLast? ha
  have hnot : a ∉ c.list.erase a := h.nodes.nodup.not_mem_erase
  have hlast : c.list.erase a = c.list.dropLast := by
    obtain ⟨ys, hys⟩ := List.getLast?_eq_some_iff.mp ha
    have hnd := h.nodes.nodup
    rw [hys] at hnd ⊢
    have hno : a ∉ ys := fun hm => (List.nodup_append.mp hnd).2.2 a hm a (by simp) rfl
    simp [List.erase_append_right _ hno]
  obtain ⟨hhash, hnodes⟩ := h.unlink a (some v)
  have hins := insert_absent hc ((((c.listErase a).hashErase a).replace a v).listPushFront a)
    rfl hhash hnodes hnot (Function.update_self ..)
    (by
      intro b hb
      rcases List.mem_cons.mp hb with rfl | hb
      · exact h.fresh b hmem
      · exact h.fresh b (List.mem_of_mem_erase hb))
    (by
      intro b hb w hw
      have hne : b ≠ a := fun he => hnot (he ▸ hb)
      have hw' : Function.update c.heap a (some v) b = some w := hw
      rw [Function.update_of_ne hne] at hw'
      exact hnone b (List.mem_of_mem_erase hb) w hw')
  have hcont : (c.list.erase a).filterMap (Function.update c.heap a (some v)) =
      c.contents.dropLast := by
    rw [filterMap_update_of_not_mem _ hnot, hlast, List.dropLast_eq_take, List.dropLast_eq_take,
      h.contents_take, h.length_contents]
    rfl
  exact ⟨hins.1, hins.2.1.trans (congrArg (v :: ·) hcont), hins.2.2⟩

theorem push_new {c : LruCache α} (hc : impl.Consistent) (h : Ok impl c) {v : α}
    (hf : c.hashFind impl (impl.key v) = none) :
    let c' := ((c.newNode v).hashInsert impl c.fresh).listPushFront c.fresh
    Ok impl c' ∧ c'.contents = v :: c.contents ∧ c'.maxSize = c.maxSize := by
  have hnone := (hashFind_eq_none hc h.hash).mp hf
  have hnot : c.fresh ∉ c.list := fun hm => lt_irrefl _ (h.fresh _ hm)
  have hins := insert_absent hc ((c.newNode v).listPushFront c.fresh)
    rfl (h.hash.update c.fresh (some v) (fun hm => absurd hm hnot))
    (h.nodes.update hnot (some v)) hnot (Function.update_self ..)
    (by
      intro b hb
      change b < c.fresh + 1
      rcases List.mem_cons.mp hb with rfl | hb
      · omega
      · have := h.fresh b hb
        omega)
    (by
      intro b hb w hw
      have hw' : Function.update c.heap c.fresh (some v) b = some w := hw
      rw [Function.update_of_ne (fun he : b = c.fresh => hnot (he ▸ hb))] at hw'
      exact hnone b hb w hw')
  rw [hashInsert_listPushFront] at hins
  have hcont : c.list.filterMap (Function.update c.heap c.fresh (some v)) = c.contents :=
    filterMap_update_of_not_mem _ hnot _
  exact ⟨hins.1, hins.2.1.trans (congrArg (v :: ·) hcont), hins.2.2⟩

theorem push_spec {c : LruCache α} (hc : impl.Consistent) (h : Ok impl c) (v : α) :
    Ok impl (c.push impl v).1 ∧ (c.push impl v).1.abs = c.abs.push impl.key impl.pred v := by
  have hany : c.abs.entries.any (fun x => impl.pred (impl.key v) (impl.key x)) =
      (c.hashFind impl (impl.key v)).isSome := h.contents_any hc (impl.key v)
  have hsize : c.abs.entries.length = c.size := h.length_contents
  cases hf : c.hashFind impl (impl.key v) with
  | some a =>
    rw [hf, Option.isSome_some] at hany
    obtain ⟨hok, hcont⟩ := push_update hc h hf
    rw [RecencyList.push_of_mem hany]
    simp only [push, hf]
    exact ⟨hok, congrArg₂ RecencyList.mk hcont rfl⟩
  | none =>
    rw [hf, Option.isSome_none] at hany
    by_cases hlim : c.maxSize < c.size
    · have hne : c.list ≠ [] := by
        intro he
        simp [size, he] at hlim
      obtain ⟨a, ha⟩ : ∃ a, c.list.getLast? = some a := ⟨_, List.getLast?_eq_some_getLast hne⟩
      obtain ⟨hok, hcont, hmax⟩ := push_replace hc h hf ha
      have hcond : (!c.list.isEmpty && c.isLimits) = true := by
        simp [isLimits, hlim, hne]
      rw [RecencyList.push_of_full hany (hsize ▸ hlim)]
      simp only [push, hf, hcond, if_true, ha]
      exact ⟨hok, congrArg₂ RecencyList.mk hcont hmax⟩
    · obtain ⟨hok, hcont, hmax⟩ := push_new hc h hf
      have hcond : ¬ (!c.list.isEmpty && c.isLimits) = true := by
        simp [isLimits, hlim]
      rw [RecencyList.push_of_room hany (hsize ▸ hlim)]
      simp only [push, hf, if_neg hcond]
      exact ⟨hok.autoRehash, (abs_autoRehash _).trans (congrArg₂ RecencyList.mk hcont hmax)⟩

theorem erase_spec {c : LruCache α} (h : Ok impl c) (i : Nat) :
    let r := c.erase c.list[i]?
    Ok impl r.1 ∧ r.1.contents = c.contents.eraseIdx i ∧ r.1.maxSize = c.maxSize ∧
      r.1.list = c.list.eraseIdx i ∧ (i < c.size → r.2 = c.list[i + 1]?) := by
  by_cases hi : i < c.list.length
  · have hat : c.list[i]? = some c.list[i] := List.getElem?_eq_getElem hi
    have herase : c.list.erase c.list[i] = c.list.eraseIdx i := h.nodes.nodup.erase_getElem i hi
    have hnot : c.list[i] ∉ c.list.erase c.list[i] := h.nodes.nodup.not_mem_erase
    obtain ⟨hhash, hnodes⟩ := h.unlink c.list[i] none
    rw [hat]
    refine ⟨⟨hhash, hnodes, fun b hb => h.fresh b (List.mem_of_mem_erase hb)⟩, ?_, rfl, herase, ?_⟩
    · change (c.list.erase c.list[i]).filterMap (Function.update c.heap c.list[i] none) = _
      rw [filterMap_update_of_not_mem _ hnot, herase, h.contents_eraseIdx]
    · exact fun _ => congrArg (fun j => c.list[j + 1]?) (h.nodes.nodup.idxOf_getElem i hi)
  · have hat : c.list[i]? = none := List.getElem?_eq_none (not_lt.mp hi)
    have hlen : c.contents.length ≤ i := by rw [h.length_contents]; exact not_lt.mp hi
    rw [hat]
    exact ⟨h, (List.eraseIdx_of_length_le hlen).symm, rfl,
      (List.eraseIdx_of_length_le (not_lt.mp hi)).symm, fun hlt => absurd hlt hi⟩

theorem eraseIdx_take_append_drop {β : Type*} (l : List β) (i n : Nat) :
    (l.eraseIdx i).take i ++ (l.eraseIdx i).drop (i + n) = l.take i ++ l.drop (i + (n + 1)) := by
  by_cases hi : i < l.length
  · have hlen : (l.take i).length = i := by simp; omega
    rw [List.eraseIdx_eq_take_drop_succ, List.take_left' hlen, List.drop_append, hlen,
      Nat.add_sub_cancel_left, List.drop_drop, List.drop_of_length_le (by omega), List.nil_append]
    congr 2
    omega
  · have hle := not_lt.mp hi
    rw [List.eraseIdx_of_length_le hle, List.drop_of_length_le (by omega),
      List.drop_of_length_le (by omega)]

theorem eraseLoop_spec {fuel : Nat} {c : LruCache α} (h : Ok impl c) {i n : Nat}
    (hfuel : c.size ≤ fuel + i) (pos : Option Nat) :
    let r := eraseLoop fuel c c.list[i]? c.list[i + n]? pos
    Ok impl r.1 ∧ r.1.contents = c.contents.take i ++ c.contents.drop (i + n) ∧
      r.1.maxSize = c.maxSize := by
  induction fuel generalizing c n pos with
  | zero =>
    refine ⟨h, ?_, rfl⟩
    have hlen := h.length_contents
    rw [List.drop_of_length_le (by omega), List.append_nil, List.take_of_length_le (by omega)]
    rfl
  | succ fuel ih =>
    by_cases hstop : c.list[i]? = c.list[i + n]?
    · have hcont : c.contents = c.contents.take i ++ c.contents.drop (i + n) := by
        by_cases hi : i < c.list.length
        · have hn : n = 0 := by
            have hinj := (List.nodup_iff_injective_get.mp h.nodes.nodup)
            by_contra hne
            have hin : i + n < c.list.length := by
              by_contra hle
              rw [List.getElem?_eq_getElem hi, List.getElem?_eq_none (not_lt.mp hle)] at hstop
              simp at hstop
            rw [List.getElem?_eq_getElem hi, List.getElem?_eq_getElem hin] at hstop
            have heq := (h.nodes.nodup.getElem_inj_iff).mp (Option.some.inj hstop)
            omega
          rw [hn, Nat.add_zero, List.take_append_drop]
        · have hlen := h.length_contents
          have hle : c.contents.length ≤ i := by rw [hlen]; exact not_lt.mp hi
          rw [List.drop_of_length_le (by omega), List.append_nil, List.take_of_length_le hle]
      simp only [eraseLoop, if_pos hstop]
      exact ⟨h, hcont, trivial⟩
    · have hi : i < c.list.length := by
        by_contra hle
        rw [List.getElem?_eq_none (not_lt.mp hle), List.getElem?_eq_none (by omega)] at hstop
        exact hstop rfl
      obtain ⟨m, rfl⟩ : ∃ m, n = m + 1 :=
        Nat.exists_eq_succ_of_ne_zero fun hn => hstop (by simp [hn])
      obtain ⟨hok, hcont, hmax, hlist, hnext⟩ := erase_spec h i
      have hbeg : (c.erase c.list[i]?).2 = (c.erase c.list[i]?).1.list[i]? := by
        rw [hnext hi, hlist, List.getElem?_eraseIdx_of_ge (le_refl i)]
      have hend : c.list[i + (m + 1)]? = (c.erase c.list[i]?).1.list[i + m]? := by
        rw [hlist, List.getElem?_eraseIdx_of_ge (by omega)]
        congr 1
      have hsize : (c.erase c.list[i]?).1.size ≤ fuel + i := by
        unfold size at hfuel ⊢
        rw [hlist, List.length_eraseIdx_of_lt hi]
        omega
      have hrec := ih hok (n := m) hsize (c.erase c.list[i]?).2
      simp only [eraseLoop, if_neg hstop]
      rw [hend]
      rw [← hbeg] at hrec
      refine ⟨hrec.1, ?_, hrec.2.2.trans hmax⟩
      rw [hrec.2.1, hcont, eraseIdx_take_append_drop]

theorem eraseRange_spec {c : LruCache α} (h : Ok impl c) (i n : Nat) :
    let r := c.eraseRange c.list[i]? c.list[i + n]?
    Ok impl r.1 ∧ r.1.contents = c.contents.take i ++ c.contents.drop (i + n) ∧
      r.1.maxSize = c.maxSize :=
  eraseLoop_spec h (by omega) none

theorem clear_spec {c : LruCache α} (h : Ok impl c) :
    Ok impl c.clear ∧ c.clear.contents = [] ∧ c.clear.maxSize = c.maxSize := by
  have hs := eraseRange_spec h 0 c.size
  have hend : c.list[0 + c.size]? = none := List.getElem?_eq_none (by unfold size; omega)
  have hdrop : c.contents.drop (0 + c.size) = [] :=
    List.drop_of_length_le (by rw [h.length_contents]; omega)
  rw [hend, ← List.head?_eq_getElem?, hdrop, List.take_zero, List.append_nil] at hs
  exact hs

theorem shrinkLoop_spec (fuel : Nat) {c : LruCache α} (h : Ok impl c)
    (hfuel : c.size ≤ fuel + c.maxSize) :
    Ok impl (shrinkLoop fuel c) ∧ (shrinkLoop fuel c).contents = c.contents.take c.maxSize ∧
      (shrinkLoop fuel c).maxSize = c.maxSize := by
  have hlen := h.length_contents
  induction fuel generalizing c with
  | zero =>
    have hle : c.contents.length ≤ c.maxSize := by omega
    exact ⟨h, (List.take_of_length_le hle).symm, rfl⟩
  | succ fuel ih =>
    by_cases hlim : c.maxSize < c.size
    · have hne : c.list ≠ [] := by
        intro he
        simp [size, he] at hlim
      have hcond : (!c.list.isEmpty && c.isLimits) = true := by
        simp [isLimits, hlim, hne]
      obtain ⟨hok, hcont, hmax, hlist, -⟩ := erase_spec h (c.list.length - 1)
      rw [← List.getLast?_eq_getElem?] at hok hcont hmax hlist
      have hsize : (c.erase c.list.getLast?).1.size = c.size - 1 := by
        unfold size at hlim ⊢
        rw [hlist, List.length_eraseIdx_of_lt (by omega)]
      simp only [shrinkLoop, if_pos hcond]
      have hrec := ih hok (by omega) hok.length_contents
      refine ⟨hrec.1, ?_, hrec.2.2.trans hmax⟩
      rw [hrec.2.1, hcont, hmax]
      unfold size at hlen hlim
      rw [← hlen, List.eraseIdx_length_sub_one, List.dropLast_eq_take, List.take_take]
      congr 1
      omega
    · have hcond : ¬ (!c.list.isEmpty && c.isLimits) = true := by
        simp [isLimits, hlim]
      have hle : c.contents.length ≤ c.maxSize := by omega
      simp only [shrinkLoop, if_neg hcond]
      exact ⟨h, (List.take_of_length_le hle).symm, trivial⟩

theorem shrinkToFit_spec {c : LruCache α} (h : Ok impl c) :
    Ok impl (c.shrinkToFit impl) ∧
      (c.shrinkToFit impl).abs = ⟨c.contents.take c.maxSize, c.maxSize⟩ := by
  obtain ⟨hok, hcont, hmax⟩ := shrinkLoop_spec c.size h (by omega)
  refine ⟨hok.autoRehash, ?_⟩
  rw [LruCache.shrinkToFit, abs_autoRehash]
  unfold abs
  rw [hcont, hmax]

theorem eraseKey_spec {c : LruCache α} (hc : impl.Consistent) (h : Ok impl c) (k : κ) :
    Ok impl (c.eraseKey impl k).1 ∧
      (c.eraseKey impl k).1.abs =
        ⟨c.contents.filter (fun x => !impl.pred k (impl.key x)), c.maxSize⟩ := by
  unfold LruCache.eraseKey LruCache.find
  cases hf : c.hashFind impl k with
  | none =>
    have hany := h.contents_any hc k
    have hno : ∀ x ∈ c.contents, impl.pred k (impl.key x) = false := by
      simpa [hf] using hany
    refine ⟨h, congrArg₂ RecencyList.mk ?_ rfl⟩
    exact (List.filter_eq_self.mpr fun x hx => by simp [hno x hx]).symm
  | some a =>
    obtain ⟨ha, v, hv, hp⟩ := hashFind_some h.hash hf
    obtain ⟨hhash, hnodes⟩ := h.unlink a none
    refine ⟨⟨hhash, hnodes, fun b hb => h.fresh b (List.mem_of_mem_erase hb)⟩,
      congrArg₂ RecencyList.mk ?_ rfl⟩
    change (c.list.erase a).filterMap (Function.update c.heap a none) = _
    rw [filterMap_update_of_not_mem _ h.nodes.nodup.not_mem_erase]
    exact h.erase_eq_filter hc ha hv hp

def Op.toRecency : Op κ α → RecencyOp κ α
  | .push v => .push v
  | .insert v => .push v
  | .insertHint v => .push v
  | .emplace v => .push v
  | .emplaceHint v => .push v
  | .erase i => .eraseAt i
  | .eraseRange i n => .eraseRange i n
  | .eraseKey k => .eraseKey k
  | .clear => .clear
  | .shrinkToFit => .shrink
  | .setMaxSize n => .setBound n

/-- One call keeps the invariant and simulates the operation on the recency list. -/
theorem step_spec {c : LruCache α} (hc : impl.Consistent) (h : Ok impl c) (op : Op κ α) :
    Ok impl (c.step impl op) ∧
      (c.step impl op).abs = c.abs.step impl.key impl.pred op.toRecency := by
  cases op with
  | push v => exact push_spec hc h v
  | insert v => exact push_spec hc h v
  | insertHint v => exact push_spec hc h v
  | emplace v => exact push_spec hc h v
  | emplaceHint v => exact push_spec hc h v
  | erase i =>
    obtain ⟨hok, hcont, hmax, -⟩ := erase_spec h i
    exact ⟨hok, congrArg₂ RecencyList.mk hcont hmax⟩
  | eraseRange i n =>
    obtain ⟨hok, hcont, hmax⟩ := eraseRange_spec h i n
    exact ⟨hok, congrArg₂ RecencyList.mk hcont hmax⟩
  | eraseKey k => exact eraseKey_spec hc h k
  | clear =>
    obtain ⟨hok, hcont, hmax⟩ := clear_spec h
    exact ⟨hok, congrArg₂ RecencyList.mk hcont hmax⟩
  | shrinkToFit => exact shrinkToFit_spec h
  | setMaxSize n =>
    have hn : Ok impl ({ c with maxSize := n } : LruCache α) := ⟨h.hash, h.nodes, h.fresh⟩
    exact shrinkToFit_spec hn

end LruCache

end Acqua
