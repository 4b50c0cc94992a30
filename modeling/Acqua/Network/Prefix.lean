import Acqua.Network.Address

/-! `basic_prefix_address.ipp`. There is no result where a shift is undefined, a number overflows
or an index leaves an array. -/

namespace Acqua

/-- What a `basic_prefix_address` is of. -/
inductive Family
  | internet4
  | internet6
  deriving DecidableEq

def Family.size : Family → Nat
  | internet4 => 4
  | internet6 => 16

/-- `max_masklen`. -/
def Family.maxMasklen : Family → Nat
  | internet4 => 32
  | internet6 => 128

/-- `1 << len` of `int`. -/
def shlInt (len : Nat) : Option Int :=
  if len < 32 then some ((1 : BitVec 32) <<< len).toInt else none

/-- `i << len` of `uint`. -/
def shlUint (i len : Nat) : Option Nat := if len < 32 then some ((i <<< len) % 2 ^ 32) else none

@[ext]
structure PrefixAddress (T : Family) where
  masklen : Nat
  address : NetworkAddress T.size
  masklen_le : masklen ≤ T.maxMasklen

namespace PrefixAddress

variable {T : Family}

/-- `max_masklen<T>() - masklen_`. -/
def hostlen (p : PrefixAddress T) : Nat := T.maxMasklen - p.masklen

section Steps

-- `+=` or `-=` of the address.
variable (op : NetworkAddress T.size → Int → Option (NetworkAddress T.size))

def step (p : PrefixAddress T) : Option (PrefixAddress T) :=
  (shlInt p.hostlen).bind fun num => (op p.address num).map fun a => { p with address := a }

/-- `operator++`. -/
def incr (p : PrefixAddress T) : Option (PrefixAddress T) := p.step NetworkAddress.addAssign

/-- `operator--`. -/
def decr (p : PrefixAddress T) : Option (PrefixAddress T) := p.step NetworkAddress.subAssign

/-- `while(num)`, for so many rounds at most. -/
def rounds (len : Nat) : Nat → NetworkAddress T.size → Int → Nat → Option (NetworkAddress T.size)
  | 0, _, _, _ => none
  | fuel + 1, a, num, i =>
    if num = 0 then some a
    else
      (shlUint i len).bind fun offset => (op a offset).bind fun a =>
        rounds len fuel a (num - i) ((i <<< 1) % 2 ^ 32)

def offset (fuel : Nat) (p : PrefixAddress T) (num : Int) : Option (PrefixAddress T) :=
  (rounds op p.hostlen fuel p.address num 1).map fun a => { p with address := a }

end Steps

mutual

/-- `operator+=`. -/
def addAssign (fuel : Nat) (p : PrefixAddress T) (num : Int) : Option (PrefixAddress T) :=
  if num < 0 then if num = longMin then none else subAssign fuel p (-num)
  else offset NetworkAddress.addAssign fuel p num
termination_by if num < 0 then 1 else 0
decreasing_by simp_all; omega

/-- `operator-=`. -/
def subAssign (fuel : Nat) (p : PrefixAddress T) (num : Int) : Option (PrefixAddress T) :=
  if num < 0 then if num = longMin then none else addAssign fuel p (-num)
  else offset NetworkAddress.subAssign fuel p num
termination_by if num < 0 then 1 else 0
decreasing_by simp_all; omega

end

end PrefixAddress

section Assign

variable {n : Nat}

def NetworkAddress.load (a : NetworkAddress n) (it : Nat) : Option UInt8 := a.bytes[it]?

def NetworkAddress.store (a : NetworkAddress n) (it : Nat) (ch : UInt8) :
    Option (NetworkAddress n) :=
  if it < n then some ⟨a.bytes.set it ch, by rw [List.length_set, a.size]⟩ else none

/-- `any`. -/
def NetworkAddress.any : NetworkAddress n := ⟨List.replicate n 0, List.length_replicate⟩

/-- `~static_cast<std::uint8_t>((0x01 << (8 - masklen)) - 1)`, as an octet. -/
def maskOctet (masklen : Nat) : UInt8 := ~~~ UInt8.ofNat ((1 <<< (8 - masklen)) - 1)

/-- The loop of `assign`, and the octet after it. -/
def assignLoop (address out : NetworkAddress n) (it masklen : Nat) : Option (NetworkAddress n) :=
  if 8 ≤ masklen then
    (address.load it).bind fun ch => (out.store it ch).bind fun out =>
      assignLoop address out (it + 1) (masklen - 8)
  else (address.load it).bind fun ch => out.store it (ch &&& maskOctet masklen)
termination_by masklen

/-- The loop of `netmask`, and the octet after it. -/
def netmaskLoop (masklen : Nat) : Nat → NetworkAddress n → Nat → Option (NetworkAddress n)
  | 0, out, it => out.store it (maskOctet (masklen % 8))
  | len + 1, out, it => (out.store it 0xFF).bind fun out => netmaskLoop masklen len out (it + 1)

end Assign

namespace PrefixAddress

variable {T : Family}

def assign (address : NetworkAddress T.size) (masklen : Nat) : Option (PrefixAddress T) :=
  let masklen := min masklen T.maxMasklen
  (assignLoop address NetworkAddress.any 0 masklen).map fun a => ⟨masklen, a, Nat.min_le_right _ _⟩

def netmask (p : PrefixAddress T) : Option (NetworkAddress T.size) :=
  netmaskLoop p.masklen (p.masklen / 8) NetworkAddress.any 0

end PrefixAddress

end Acqua
