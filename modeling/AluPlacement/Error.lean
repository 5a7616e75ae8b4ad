import AluPlacement.Logic.TruthFn
import AluPlacement.Signal.Basic

/-! # Errors and diagnostics

Every rule that may refuse a call has an error of its own. `Error.message` words it, `Error.kind`
puts it into one of five kinds, and a `Diagnostic` is an error at a place in the source. -/

namespace AluPlacement

/-- The stores of limited size. -/
inductive PoolKind where
  | instructions
  | wordRegisters
  | wordInputs
  | carryInputs
  | branchRegisters
  | conditionLogic
  | constants
  | destinations
  | overrides
  | latches
  deriving DecidableEq, Repr

/-- What a pool holds, as errors name it. -/
def PoolKind.text : PoolKind → String
  | .instructions => "instructions"
  | .wordRegisters => "word registers"
  | .wordInputs => "word inputs"
  | .carryInputs => "carry inputs"
  | .branchRegisters => "branch registers"
  | .conditionLogic => "condition-logic registers"
  | .constants => "constants"
  | .destinations => "destinations"
  | .overrides => "condition overrides"
  | .latches => "latches"

/-- The kinds of errors. -/
inductive ErrorKind where
  /-- A pool or a budget is used up. -/
  | capacity
  /-- Something that must be unique was given twice. -/
  | duplicate
  /-- A name does not lead anywhere. -/
  | resolution
  /-- A signal is not declared, or not as it must be. -/
  | declaration
  /-- The unit is not in the phase that the call needs. -/
  | precondition
  deriving DecidableEq, Repr

/-- The rules that may refuse a call. -/
inductive Error where
  | poolExhausted (pool : PoolKind) (capacity : Nat)
  | constantSpill (signal : String) (capacity : Nat)
  | constantInput (signal : String) (capacity : Nat)
  | nearestNeighborBudget (budget : Nat) (registers : List String)
  | slotOccupied (slot signal : String)
  | logic (error : LogicError)
  | duplicateLabel (label : String)
  | duplicateDestination (signal : String)
  | duplicateLatch (signal : String)
  | duplicateOverride (signal : String)
  | duplicateSignal (name : String)
  | operationAlreadySet
  | branchAlreadySet
  | flagAlreadySet (flag : String)
  | unknownLabel (label : String)
  | unassignedBranchCondition (instruction : Nat) (signal : String)
  | unknownOperation (name : String) (arity : Nat)
  | illegalLatchTarget (signal : String)
  | undeclaredSignal (signal unit : String)
  | wrongDataType (signal : String) (expected : DataType)
  | wrongBehavior (signal expected : String)
  | alreadyBound (signal : String)
  | invalidOperand (operation : String) (position : Nat) (reason : String)
  | complexBranchCondition
  | illegalBitSlice (signal : String)
  | illegalVBit (signal : String)
  | illegalDelay (signal : String) (delay max : Nat)
  | alreadyAssigned (unit : String)
  | invalidLimits (reason : String)
  deriving DecidableEq, Repr

namespace Error

/-- The kind of an error. -/
def kind : Error → ErrorKind
  | poolExhausted .. => .capacity
  | constantSpill .. => .capacity
  | constantInput .. => .capacity
  | nearestNeighborBudget .. => .capacity
  | slotOccupied .. => .capacity
  | logic .. => .capacity
  | duplicateLabel .. => .duplicate
  | duplicateDestination .. => .duplicate
  | duplicateLatch .. => .duplicate
  | duplicateOverride .. => .duplicate
  | duplicateSignal .. => .duplicate
  | operationAlreadySet => .duplicate
  | branchAlreadySet => .duplicate
  | flagAlreadySet .. => .duplicate
  | unknownLabel .. => .resolution
  | unassignedBranchCondition .. => .resolution
  | unknownOperation .. => .resolution
  | illegalLatchTarget .. => .resolution
  | undeclaredSignal .. => .declaration
  | wrongDataType .. => .declaration
  | wrongBehavior .. => .declaration
  | alreadyBound .. => .declaration
  | invalidOperand .. => .declaration
  | complexBranchCondition => .declaration
  | illegalBitSlice .. => .declaration
  | illegalVBit .. => .declaration
  | illegalDelay .. => .declaration
  | alreadyAssigned .. => .precondition
  | invalidLimits .. => .precondition

/-- The text of an error. -/
def message : Error → String
  | poolExhausted pool capacity =>
    let what := pool.text
    s!"Too many {what} in ALU. At most {capacity} are allowed"
  | constantSpill signal capacity =>
    s!"Too many word registers in ALU. All constants used, and only {capacity} other registers " ++
      s!"are allowed for constant '{signal}'"
  | constantInput signal capacity =>
    s!"Too many word inputs in ALU. Cannot provide constant input '{signal}'. " ++
      s!"At most {capacity} word inputs are allowed"
  | nearestNeighborBudget budget registers =>
    let count := registers.length
    let names := String.intercalate ", " registers
    s!"Only {budget} nearest-neighbor word regs are available, but {count} are non-zero, " ++
      s!"use warm_reset, or use bit-slices: {names}"
  | slotOccupied slot _ => s!"{slot} already declared in ALU. Only 1 {slot} is allowed"
  | logic error => error.message
  | duplicateLabel label => s!"Multiple instructions with label '{label}'"
  | duplicateDestination signal => s!"Destination register '{signal}' repeated in instruction"
  | duplicateLatch signal => s!"Signal '{signal}' latched more than once in instruction"
  | duplicateOverride signal =>
    s!"Condition register '{signal}' overridden more than once in instruction"
  | duplicateSignal name => s!"Signal '{name}' is already declared"
  | operationAlreadySet => "Cannot perform multiple operations in one instruction slot"
  | branchAlreadySet => "Branch destination already set for instruction"
  | flagAlreadySet flag => s!"{flag} has already been set in this instruction"
  | unknownLabel label => s!"Instruction label '{label}' not found"
  | unassignedBranchCondition instruction signal =>
    s!"Instruction {instruction} uses an unassigned branch condition '{signal}'"
  | unknownOperation name arity => s!"Unknown ALU operation '{name}' with {arity} argument(s)"
  | illegalLatchTarget signal =>
    s!"Illegal signal used in latch '{signal}'. Only word_in signals may be latched"
  | undeclaredSignal signal unit => s!"Signal '{signal}' is not declared in unit '{unit}'"
  | wrongDataType signal expected =>
    let dataType := expected.text
    s!"Signal '{signal}' must be declared as a {dataType}"
  | wrongBehavior signal expected => s!"Signal '{signal}' must be declared as {expected}"
  | alreadyBound signal => s!"Signal '{signal}' has already been assigned a resource"
  | invalidOperand operation position reason =>
    s!"Argument {position} of '{operation}' {reason}"
  | complexBranchCondition =>
    "Branch condition must be a simple expression of one branch register"
  | illegalBitSlice signal =>
    s!"Illegal bit-slice of signal '{signal}'. Can only use bits 0 to 3 of a local word reg"
  | illegalVBit signal => s!"Illegal reference to v-bit of '{signal}'"
  | illegalDelay signal delay max =>
    s!"Cannot delay signal '{signal}' by {delay}. Delay must be a value from 1 to {max}"
  | alreadyAssigned unit => s!"Resources for unit '{unit}' have already been assigned"
  | invalidLimits reason => s!"Invalid ALU limits: {reason}"

end Error

/-- An error and the place that caused it. -/
structure Diagnostic where
  location : Location
  error : Error
  deriving DecidableEq, Repr

/-- Put an error at a place. -/
def Error.located (e : Error) (location : Location) : Diagnostic := ⟨location, e⟩

/-- The kind of the error. -/
def Diagnostic.kind (d : Diagnostic) : ErrorKind := d.error.kind

/-- The text of the place and of the error. -/
def Diagnostic.text (d : Diagnostic) : String := d.location.text ++ ": " ++ d.error.message

namespace Diagnostics

/-- One of the diagnostics has this kind. -/
def hasKind (ds : List Diagnostic) (kind : ErrorKind) : Bool := ds.any fun d => d.kind == kind

/-- The text for a pass that reported these diagnostics. -/
def summary (ds : List Diagnostic) : String :=
  let count := ds.length
  s!"resource assignment failed with {count} diagnostic(s)"

/-- A pass succeeds if it reported nothing. -/
def toExcept (ds : List Diagnostic) : Except (List Diagnostic) Unit :=
  if ds.isEmpty then .ok () else .error ds

end Diagnostics

/-- A call whose refusals happen at one place. -/
def Edit.locatedAt {σ α : Type} (location : Location) (call : Edit σ Error α) :
    Edit σ Diagnostic α :=
  call.mapReason fun e => e.located location

end AluPlacement
