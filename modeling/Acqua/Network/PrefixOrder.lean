import Acqua.Library.ComponentOrder
import Acqua.Network.Prefix

/-! Comparisons of prefixes. -/

namespace Acqua

namespace NetworkAddress

variable {n : Nat}

/-- `operator==`. -/
def eq (lhs rhs : NetworkAddress n) : Bool := lhs.bytes == rhs.bytes

/-- `operator<`. -/
def lt (lhs rhs : NetworkAddress n) : Bool := decide (lhs.bytes < rhs.bytes)

end NetworkAddress

namespace PrefixAddress

variable {T : Family}

/-- `operator==`. -/
def eq (lhs rhs : PrefixAddress T) : Bool :=
  lhs.masklen == rhs.masklen && lhs.address.eq rhs.address

/-- `operator<`. -/
def lt (lhs rhs : PrefixAddress T) : Bool :=
  decide (lhs.masklen < rhs.masklen) || lhs.address.lt rhs.address

theorem eq_iff (lhs rhs : PrefixAddress T) : lhs.eq rhs = true ↔
    ComponentEq PrefixAddress.masklen (fun p => p.address.bytes) lhs rhs := by
  rw [eq, NetworkAddress.eq, Bool.and_eq_true, beq_iff_eq, beq_iff_eq, ComponentEq]

theorem lt_iff (lhs rhs : PrefixAddress T) : lhs.lt rhs = true ↔
    ComponentLt PrefixAddress.masklen (fun p => p.address.bytes) lhs rhs := by
  rw [lt, NetworkAddress.lt, Bool.or_eq_true, decide_eq_true_iff, decide_eq_true_iff, ComponentLt]

/-- The comparison operators order the prefixes of `S`. -/
def Ordered (S : Set (PrefixAddress T)) : Prop :=
  StrictTotalOn S (fun a b => a.lt b = true) (fun a b => a.eq b = true)

/-- They order prefixes exactly where no longer prefix has the lesser address. -/
theorem orderedPrefixes_iff (S : Set (PrefixAddress T)) :
    Ordered S ↔ ∀ a ∈ S, ∀ b ∈ S, a.masklen < b.masklen → a.address.bytes ≤ b.address.bytes :=
  strictTotalOn_iff_agree lt_iff eq_iff

end PrefixAddress

/-- 10.0.0.0/8 and 9.0.0.0/16 are each less than the other. -/
theorem not_orderedPrefixes_opposed : ¬ PrefixAddress.Ordered
    (Set.univ : Set (PrefixAddress Family.internet4)) := by
  intro h
  exact h.asymm ⟨8, ⟨[10, 0, 0, 0], rfl⟩, by decide⟩ trivial
    ⟨16, ⟨[9, 0, 0, 0], rfl⟩, by decide⟩ trivial (by decide) (by decide)

end Acqua
