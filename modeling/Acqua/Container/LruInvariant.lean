import Acqua.Container.LruCache

/-! The invariant that ties the intrusive list, the intrusive hash set and the heap of an
LRU cache together, part by part: what the hash set alone needs, what the node list alone
needs, and how each primitive update of the facade carries them on. -/

namespace Acqua

/-- `P` is an equivalence and `H` respects it. -/
structure Impl.Consistent {κ α : Type*} (impl : Impl κ α) : Prop where
  refl : ∀ k, impl.pred k k = true
  symm : ∀ k k', impl.pred k k' = impl.pred k' k
  trans : ∀ k k' k'', impl.pred k k' = true → impl.pred k' k'' = true → impl.pred k k'' = true
  hash : ∀ k k', impl.pred k k' = true → impl.hash k = impl.hash k'

namespace LruCache

variable {κ α : Type*} {impl : Impl κ α}

/-- The bucket array holds exactly `nodes`, each in the bucket of its key. -/
structure HashOk (impl : Impl κ α) (heap : Nat → Option α) (bucket : List (List Nat))
    (nodes : List Nat) : Prop where
  pos : 0 < bucket.length
  perm : bucket.flatten.Perm nodes
  placed : ∀ i (hi : i < bucket.length), ∀ a ∈ bucket[i], ∀ v, heap a = some v →
    impl.hash (impl.key v) % bucket.length = i

/-- The nodes are live, different from one another, and carry different keys. -/
structure NodesOk (impl : Impl κ α) (heap : Nat → Option α) (nodes : List Nat) : Prop where
  nodup : nodes.Nodup
  live : ∀ a ∈ nodes, ∃ v, heap a = some v
  distinct : ∀ a ∈ nodes, ∀ b ∈ nodes, a ≠ b → ∀ v w, heap a = some v → heap b = some w →
    impl.pred (impl.key v) (impl.key w) = false

structure Ok (impl : Impl κ α) (c : LruCache α) : Prop where
  hash : HashOk impl c.heap c.bucket c.list
  nodes : NodesOk impl c.heap c.list
  fresh : ∀ a ∈ c.list, a < c.fresh

theorem flatten_map_erase (bs : List (List Nat)) (a : Nat) (h : bs.flatten.Nodup) :
    (bs.map fun b => b.erase a).flatten = bs.flatten.erase a := by
  induction bs with
  | nil => rfl
  | cons b bs ih =>
    rw [List.flatten_cons, List.nodup_append] at h
    obtain ⟨_, hbs, hdis⟩ := h
    simp only [List.map_cons, List.flatten_cons, ih hbs]
    by_cases ha : a ∈ b
    · have hno : a ∉ bs.flatten := fun hm => hdis a ha a hm rfl
      rw [List.erase_append_left _ ha, List.erase_of_not_mem hno]
    · rw [List.erase_append_right _ ha, List.erase_of_not_mem ha]

theorem flatten_modify_cons (bs : List (List Nat)) (a i : Nat) (hi : i < bs.length) :
    (bs.modify i (a :: ·)).flatten.Perm (a :: bs.flatten) := by
  induction bs generalizing i with
  | nil => simp at hi
  | cons b bs ih =>
    cases i with
    | zero => simp
    | succ i =>
      simp only [List.modify_succ_cons, List.flatten_cons]
      exact ((ih i (by simpa using hi)).append_left b).trans List.perm_middle

theorem HashOk.mem_iff {heap : Nat → Option α} {bucket : List (List Nat)} {nodes : List Nat}
    (h : HashOk impl heap bucket nodes) {a : Nat} :
    a ∈ nodes ↔ ∃ i, ∃ hi : i < bucket.length, a ∈ bucket[i] := by
  rw [← h.perm.mem_iff, List.mem_flatten]
  constructor
  · intro ⟨b, hb, ha⟩
    obtain ⟨i, hi, rfl⟩ := List.mem_iff_getElem.mp hb
    exact ⟨i, hi, ha⟩
  · intro ⟨i, hi, ha⟩
    exact ⟨bucket[i], List.getElem_mem hi, ha⟩

theorem HashOk.erase {heap : Nat → Option α} {bucket : List (List Nat)} {nodes : List Nat}
    (h : HashOk impl heap bucket nodes) (hnd : nodes.Nodup) (a : Nat) :
    HashOk impl heap (bucket.map fun b => b.erase a) (nodes.erase a) where
  pos := by simpa using h.pos
  perm := by
    rw [flatten_map_erase bucket a (h.perm.nodup_iff.mpr hnd)]
    exact h.perm.erase a
  placed := by
    intro i hi b hb v hv
    simp only [List.length_map] at hi ⊢
    simp only [List.getElem_map] at hb
    exact h.placed i hi b (List.mem_of_mem_erase hb) v hv

/-- Rewriting a node keeps the set in order when the node is not in it, or when its new
key hashes as the old one did. -/
theorem HashOk.update {heap : Nat → Option α} {bucket : List (List Nat)} {nodes : List Nat}
    (h : HashOk impl heap bucket nodes) (a : Nat) (o : Option α)
    (hsame : a ∈ nodes → ∀ v, o = some v →
      ∃ w, heap a = some w ∧ impl.hash (impl.key w) = impl.hash (impl.key v)) :
    HashOk impl (Function.update heap a o) bucket nodes where
  pos := h.pos
  perm := h.perm
  placed := by
    intro i hi b hb v hv
    by_cases hba : b = a
    · subst b
      rw [Function.update_self] at hv
      obtain ⟨w, hw, hh⟩ := hsame (h.mem_iff.mpr ⟨i, hi, hb⟩) v hv
      rw [← hh]
      exact h.placed i hi a hb w hw
    · rw [Function.update_of_ne hba] at hv
      exact h.placed i hi b hb v hv

theorem length_link (heap : Nat → Option α) (bucket : List (List Nat)) (a : Nat) :
    (link impl heap bucket a).length = bucket.length := by
  unfold link
  cases heap a <;> simp

theorem HashOk.link {heap : Nat → Option α} {bucket : List (List Nat)} {nodes : List Nat}
    (h : HashOk impl heap bucket nodes) {a : Nat} {v : α} (hv : heap a = some v) :
    HashOk impl heap (link impl heap bucket a) (a :: nodes) where
  pos := by rw [length_link]; exact h.pos
  perm := by
    simp only [LruCache.link, hv]
    exact (flatten_modify_cons bucket a _ (Nat.mod_lt _ h.pos)).trans (h.perm.cons a)
  placed := by
    intro i hi b hb w hw
    rw [length_link] at hi ⊢
    simp only [LruCache.link, hv, List.getElem_modify] at hb
    by_cases he : impl.hash (impl.key v) % bucket.length = i
    · rw [if_pos he] at hb
      rcases List.mem_cons.mp hb with rfl | hb
      · obtain rfl : v = w := Option.some.inj (hv.symm.trans hw)
        exact he
      · exact h.placed i hi b hb w hw
    · rw [if_neg he] at hb
      exact h.placed i hi b hb w hw

theorem HashOk.of_perm {heap : Nat → Option α} {bucket : List (List Nat)} {nodes nodes' : List Nat}
    (h : HashOk impl heap bucket nodes) (hp : nodes.Perm nodes') : HashOk impl heap bucket nodes' :=
  ⟨h.pos, h.perm.trans hp, h.placed⟩

theorem HashOk.replicate (heap : Nat → Option α) {n : Nat} (hn : 0 < n) :
    HashOk impl heap (List.replicate n []) [] where
  pos := by simpa using hn
  perm := by simp
  placed := by
    intro i hi a ha
    simp at ha

theorem HashOk.foldl_link {heap : Nat → Option α} {bucket : List (List Nat)} {nodes : List Nat}
    (h : HashOk impl heap bucket nodes) (more : List Nat) (hlive : ∀ a ∈ more, ∃ v, heap a = some v) :
    HashOk impl heap (more.foldl (LruCache.link impl heap) bucket) (more ++ nodes) := by
  induction more generalizing bucket nodes with
  | nil => exact h
  | cons a more ih =>
    obtain ⟨v, hv⟩ := hlive a (by simp)
    have hh := ih (h.link hv) (fun b hb => hlive b (by simp [hb]))
    exact hh.of_perm List.perm_middle

theorem HashOk.rehash {heap : Nat → Option α} {bucket : List (List Nat)} {nodes : List Nat}
    (h : HashOk impl heap bucket nodes) (hlive : ∀ a ∈ nodes, ∃ v, heap a = some v)
    {n : Nat} (hn : 0 < n) :
    HashOk impl heap
      (bucket.flatten.foldl (LruCache.link impl heap) (List.replicate n [])) nodes := by
  have hempty : HashOk impl heap (List.replicate n []) [] := HashOk.replicate heap hn
  have hh := hempty.foldl_link bucket.flatten (fun a ha => hlive a (h.perm.mem_iff.mp ha))
  exact hh.of_perm (by simpa using h.perm)

theorem hashFind_eq_none {c : LruCache α} {nodes : List Nat} (hc : impl.Consistent)
    (h : HashOk impl c.heap c.bucket nodes) {k : κ} :
    c.hashFind impl k = none ↔
      ∀ a ∈ nodes, ∀ v, c.heap a = some v → impl.pred k (impl.key v) = false := by
  have hlt : impl.hash k % c.bucket.length < c.bucket.length := Nat.mod_lt _ h.pos
  unfold hashFind bucketCount
  rw [List.getD_eq_getElem _ _ hlt, List.find?_eq_none]
  constructor
  · intro hno a ha v hv
    apply Bool.eq_false_iff.mpr
    intro hp
    obtain ⟨i, hi, hai⟩ := h.mem_iff.mp ha
    have hplace := h.placed i hi a hai v hv
    rw [← hc.hash _ _ hp] at hplace
    subst hplace
    exact hno a hai (by simp [hv, hp])
  · intro hall a ha hany
    obtain ⟨v, hv, hp⟩ := (Option.any_eq_true _ _).mp hany
    have hf := hall a (h.mem_iff.mpr ⟨_, hlt, ha⟩) v hv
    simp [hf] at hp

theorem hashFind_some {c : LruCache α} {nodes : List Nat}
    (h : HashOk impl c.heap c.bucket nodes) {k : κ} {a : Nat} (hf : c.hashFind impl k = some a) :
    a ∈ nodes ∧ ∃ v, c.heap a = some v ∧ impl.pred k (impl.key v) = true := by
  have hlt : impl.hash k % c.bucket.length < c.bucket.length := Nat.mod_lt _ h.pos
  unfold hashFind bucketCount at hf
  rw [List.getD_eq_getElem _ _ hlt] at hf
  refine ⟨h.mem_iff.mpr ⟨_, hlt, List.mem_of_find?_eq_some hf⟩, ?_⟩
  have hany := List.find?_some hf
  obtain ⟨v, hv, hp⟩ := (Option.any_eq_true _ _).mp hany
  exact ⟨v, hv, hp⟩

theorem NodesOk.erase {heap : Nat → Option α} {nodes : List Nat} (h : NodesOk impl heap nodes)
    (a : Nat) : NodesOk impl heap (nodes.erase a) where
  nodup := h.nodup.erase a
  live b hb := h.live b (List.mem_of_mem_erase hb)
  distinct b hb d hd := h.distinct b (List.mem_of_mem_erase hb) d (List.mem_of_mem_erase hd)

theorem NodesOk.update {heap : Nat → Option α} {nodes : List Nat} (h : NodesOk impl heap nodes)
    {a : Nat} (ha : a ∉ nodes) (o : Option α) : NodesOk impl (Function.update heap a o) nodes := by
  have hkeep : ∀ b ∈ nodes, Function.update heap a o b = heap b := fun b hb =>
    Function.update_of_ne (fun he : b = a => ha (he ▸ hb)) _ _
  refine ⟨h.nodup, fun b hb => hkeep b hb ▸ h.live b hb, ?_⟩
  intro b hb d hd hne
  rw [hkeep b hb, hkeep d hd]
  exact h.distinct b hb d hd hne

theorem NodesOk.cons (hc : impl.Consistent) {heap : Nat → Option α} {nodes : List Nat}
    (h : NodesOk impl heap nodes) {a : Nat} {v : α} (ha : a ∉ nodes) (hv : heap a = some v)
    (hnew : ∀ b ∈ nodes, ∀ w, heap b = some w → impl.pred (impl.key v) (impl.key w) = false) :
    NodesOk impl heap (a :: nodes) where
  nodup := List.nodup_cons.mpr ⟨ha, h.nodup⟩
  live := by
    intro b hb
    rcases List.mem_cons.mp hb with rfl | hb
    · exact ⟨v, hv⟩
    · exact h.live b hb
  distinct := by
    intro b hb d hd hne x y hx hy
    rcases List.mem_cons.mp hb with rfl | hb' <;> rcases List.mem_cons.mp hd with rfl | hd'
    · exact absurd rfl hne
    · obtain rfl : v = x := Option.some.inj (hv.symm.trans hx)
      exact hnew d hd' y hy
    · obtain rfl : v = y := Option.some.inj (hv.symm.trans hy)
      rw [hc.symm]
      exact hnew b hb' x hx
    · exact h.distinct b hb' d hd' hne x y hx hy

end LruCache

end Acqua
