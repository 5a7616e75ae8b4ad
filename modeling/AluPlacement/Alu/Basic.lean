import AluPlacement.Alu.Definition
import AluPlacement.Block.Basic
import AluPlacement.Instruction.Basic

/-! # ALUs

An ALU is a block of condition logic with a program and further pools: word registers, word and
carry inputs, branch registers, shared constants, and two single slots for the signals that bypass
and update conditions. -/

namespace AluPlacement

/-- An ALU. -/
structure Alu extends Block where
  definition : Definition
  instructions : Pool Instruction
  wordRegs : Pool SignalId := { kind := .wordRegisters, capacity := Family.wordReg.capacity }
  wordIns : Pool SignalId := { kind := .wordInputs, capacity := Family.wordIn.capacity }
  carryIns : Pool SignalId := { kind := .carryInputs, capacity := Family.carryIn.capacity }
  branches : Pool DrivenSignal := { kind := .branchRegisters, capacity := Family.branch.capacity }
  condBypass : Option DrivenSignal := none
  condUpdate : Option DrivenSignal := none
  constants : Pool SignalId := { kind := .constants, capacity := Family.constant.capacity }
  /-- The first signal bound to the built-in constant 0. -/
  builtin0 : Option SignalId := none
  /-- The first signal bound to the built-in constant 1. -/
  builtin1 : Option SignalId := none
  /-- The first signal bound to the built-in constant 0xFFFF. -/
  builtinFFFF : Option SignalId := none
  deriving DecidableEq, Repr

namespace Alu

variable {ε α : Type}

/-- The signals of a new ALU. -/
def builtinSignals (definition : Definition) : Registry :=
  ⟨definition.builtins.map fun b =>
    { name := b.name, behavior := .builtin, dataType := .bit, direction := b.direction }⟩

/-- An ALU with nothing but its built-in signals. -/
def create (name : String) (definition : Definition) : Alu where
  name := name
  signals := builtinSignals definition
  definition := definition
  instructions := { kind := .instructions, capacity := definition.limits.maxInstructions }

/-- The signal at an address. A shared constant is also found in the pool of constants. -/
def signalAt? (u : Alu) (a : Address) : Option SignalId :=
  match a.resource? with
  | none => none
  | some (.slot .conditionLogic slot) => u.toBlock.logicSignal? slot
  | some (.slot .wordReg slot) => u.wordRegs.get? slot
  | some (.slot .branch slot) => (u.branches.get? slot).map DrivenSignal.signal
  | some (.slot .wordIn slot) => u.wordIns.get? slot
  | some (.slot .carryIn slot) => u.carryIns.get? slot
  | some (.slot .constant slot) => u.constants.get? slot
  | some .condBypass => u.condBypass.map DrivenSignal.signal
  | some .condUpdate => u.condUpdate.map DrivenSignal.signal
  | some .builtin0 => u.builtin0
  | some .builtin1 => u.builtin1
  | some .builtinFFFF => u.builtinFFFF

/-- Call an operation of the ALU. -/
def operation (u : Alu) (name : String) (operands : List Operand) :
    Checked Diagnostic OperationCall :=
  (u.definition.ops.call name operands u.signals).mapReason fun e => e.located u.location

/-- A call on the block of the ALU. -/
def onBlock (call : Edit Block ε α) : Edit Alu ε α :=
  call.zoom Alu.toBlock fun b u => { u with toBlock := b }

/-- A call on the signals of the ALU. -/
def onSignals (call : Edit Registry ε α) : Edit Alu ε α := onBlock (Block.onSignals call)

/-- Declare a signal. -/
def declare (name : String) (behavior : Behavior) (dataType : DataType) :
    Edit Alu Diagnostic SignalId :=
  onBlock (Block.declare name behavior dataType)

/-- Bind a bit register to the function of its next value. -/
def addRegister (id : SignalId) (f : TruthFn) : Edit Alu Diagnostic Address :=
  onBlock (Block.addRegister id f)

end Alu

end AluPlacement
