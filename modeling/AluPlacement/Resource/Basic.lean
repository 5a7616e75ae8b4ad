/-! # Resources of the unit and their addresses

The hardware offers six numbered families of slots and five single resources. Each of them has a
number in one flat address space, where the families take ranges that do not meet.

* `Resource.address?`: the address of a resource, if its index is within its family.
* `Address.resource?`: the resource at an address, if there is one.
* `Address.all`: the valid addresses, ascending. -/

namespace AluPlacement

/-- A 16-bit word. -/
abbrev Word := BitVec 16

/-- The families of numbered slots. -/
inductive Family where
  | conditionLogic
  | wordReg
  | branch
  | wordIn
  | carryIn
  | constant
  deriving DecidableEq, Repr

namespace Family

/-- Every family. -/
def all : List Family := [conditionLogic, wordReg, branch, wordIn, carryIn, constant]

/-- The number of slots of a family. -/
def capacity : Family → Nat
  | conditionLogic => 4
  | wordReg => 9
  | branch => 2
  | wordIn => 13
  | carryIn => 13
  | constant => 2

/-- The number of the first slot of a family. -/
def offset : Family → Nat
  | conditionLogic => 0
  | wordReg => 10
  | branch => 20
  | wordIn => 30
  | carryIn => 50
  | constant => 70

end Family

/-- A slot of a family or a single resource. -/
inductive Resource where
  | slot (family : Family) (index : Nat)
  | condBypass
  | condUpdate
  | builtin0
  | builtin1
  | builtinFFFF
  deriving DecidableEq, Repr

/-- A number in the flat address space. -/
structure Address where
  number : Nat
  deriving DecidableEq, Repr

namespace Resource

/-- The resources that stand alone. -/
def singles : List Resource := [condBypass, condUpdate, builtin0, builtin1, builtinFFFF]

/-- A slot lies within its family; single resources always exist. -/
def inRange : Resource → Bool
  | slot family index => index < family.capacity
  | _ => true

/-- The address of a resource that is in range. -/
def address : Resource → Address
  | slot family index => ⟨family.offset + index⟩
  | condBypass => ⟨22⟩
  | condUpdate => ⟨23⟩
  | builtin0 => ⟨80⟩
  | builtin1 => ⟨81⟩
  | builtinFFFF => ⟨82⟩

/-- The address of a resource, if the resource is in range. -/
def address? (r : Resource) : Option Address := if r.inRange then some r.address else none

/-- The value that a built-in constant drives. -/
def builtinValue? : Resource → Option Word
  | builtin0 => some 0x0000#16
  | builtin1 => some 0x0001#16
  | builtinFFFF => some 0xFFFF#16
  | _ => none

/-- The built-in constant that drives `value`. -/
def ofBuiltinValue? (value : Word) : Option Resource :=
  [builtin0, builtin1, builtinFFFF].find? fun r => r.builtinValue? = some value

end Resource

namespace Address

/-- The address of slot `index` of a family. -/
def ofSlot (family : Family) (index : Nat) : Address := (Resource.slot family index).address

/-- The address lies in the range of a family. -/
def isIn (a : Address) (family : Family) : Bool :=
  family.offset ≤ a.number && a.number < family.offset + family.capacity

/-- The resource at an address. -/
def resource? (a : Address) : Option Resource :=
  match Family.all.find? a.isIn with
  | some family => some (.slot family (a.number - family.offset))
  | none => Resource.singles.find? fun r => r.address = a

/-- The address with a number, if there is a resource at it. -/
def ofNumber? (n : Nat) : Option Address :=
  let a : Address := ⟨n⟩
  if a.resource?.isSome then some a else none

/-- The valid addresses, ascending. -/
def all : List Address := (List.range 256).filterMap ofNumber?

end Address

end AluPlacement
