import AluPlacement.Location
import AluPlacement.Resource.Basic
import AluPlacement.Signal.Id

/-! # Signals

A signal has a name, a data type and a behavior, and at most one binding to a resource. It is
declared, or derived from another signal as a slice or a delay of it. -/

namespace AluPlacement

/-- The data types of signals. -/
inductive DataType where
  | bit
  | word
  deriving DecidableEq, Repr

/-- The text of a data type. -/
def DataType.text : DataType → String
  | .bit => "bit"
  | .word => "word"

/-- What a signal does in the unit. -/
inductive Behavior where
  | wire
  | register
  | constant
  | branchCondition
  | condBypass
  | condUpdate
  | builtin
  | delayed
  | bitSlice
  deriving DecidableEq, Repr

/-- The text of a behavior. -/
def Behavior.text : Behavior → String
  | .wire => "wire"
  | .register => "reg"
  | .constant => "const"
  | .branchCondition => "branch"
  | .condBypass => "cond_bypass"
  | .condUpdate => "cond_update"
  | .builtin => "builtin"
  | .delayed => "delay"
  | .bitSlice => "bit_slice"

/-- Registers and constants have a value from the start. -/
def Behavior.isStateful : Behavior → Bool
  | .register => true
  | .constant => true
  | _ => false

/-- Whether a signal crosses the border of the unit. -/
inductive Direction where
  | none
  | input
  | output
  deriving DecidableEq, Repr

/-- Where a signal comes from. -/
inductive Origin where
  | declared
  /-- Bit `index` of the signal `base`; bit 16 is the v-bit. -/
  | slice (base : SignalId) (index : Nat)
  /-- The signal `base`, `count` clocks later. -/
  | delay (base : SignalId) (count : Nat)
  deriving DecidableEq, Repr

/-- The signal that this one is derived from. -/
def Origin.base? : Origin → Option SignalId
  | .declared => none
  | .slice base _ => some base
  | .delay base _ => some base

/-- The bit that a slice takes. -/
def Origin.sliceIndex? : Origin → Option Nat
  | .slice _ index => some index
  | _ => none

/-- The number of clocks that a signal is delayed. -/
def Origin.delayCount : Origin → Nat
  | .delay _ count => count
  | _ => 0

/-- A signal of a unit. -/
structure Signal where
  name : String
  dataType : DataType
  behavior : Behavior
  direction : Direction := .none
  initial : Option Word := none
  binding : Option Address := none
  warmReset : Bool := false
  origin : Origin := .declared
  location : Location := {}
  deriving DecidableEq, Repr

namespace Signal

/-- The signal has a resource. -/
def isBound (s : Signal) : Bool := s.binding.isSome

/-- The signal has this behavior and this data type. -/
def isOf (s : Signal) (behavior : Behavior) (dataType : DataType) : Bool :=
  s.behavior == behavior && s.dataType == dataType

/-- Slices have no name of their own in the description of a unit. -/
def isAnonymous (s : Signal) : Bool := s.origin.sliceIndex?.isSome

/-- Builtins without a direction cannot be seen from outside. -/
def isInternalBuiltin (s : Signal) : Bool := s.behavior == .builtin && s.direction == .none

/-- The text of a signal: its name and, in a fixed order, what is known of it. -/
def text (s : Signal) : String :=
  let anonymous := if s.isAnonymous then "anonymous " else ""
  let direction := match s.direction with
    | .none => ""
    | .input => "input "
    | .output => "output "
  let delay := if s.behavior = .delayed then " D" ++ toString s.origin.delayCount else ""
  let slice := match s.origin.sliceIndex? with
    | some index => " B" ++ toString index
    | none => ""
  let address := match s.binding with
    | some a => " " ++ toString a.number
    | none => ""
  let reset := if s.warmReset then " R" else ""
  let value :=
    if s.behavior.isStateful then
      match s.initial with
      | some v => " = 0x" ++ v.toHex
      | none => " = (unknown)"
    else ""
  s.name ++ " : " ++ anonymous ++ direction ++ s.behavior.text ++ " " ++ s.dataType.text ++ delay
    ++ slice ++ address ++ reset ++ value

end Signal

end AluPlacement
