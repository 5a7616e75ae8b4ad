import AluPlacement.Branch.Condition
import AluPlacement.Branch.Shape
import AluPlacement.Operation.Table
import AluPlacement.Pool

/-! # Instructions

An instruction is put together by calls that each set one part, and each part at most once. A part
that was never set gets its default when the instruction is finalized. -/

namespace AluPlacement

/-- The yes-or-no parts of an instruction. -/
inductive Flag where
  | condBypass
  | condUpdateVr
  | condUpdateTf
  | waitForV
  deriving DecidableEq, Repr

/-- The name of a flag. -/
def Flag.name : Flag → String
  | .condBypass => "cond_bypass"
  | .condUpdateVr => "cond_update_vr"
  | .condUpdateTf => "cond_update_tf"
  | .waitForV => "wait_for_v"

/-- The flags of an instruction, as far as they were set. -/
structure Flags where
  condBypass : Option Bool := none
  condUpdateVr : Option Bool := none
  condUpdateTf : Option Bool := none
  waitForV : Option Bool := none
  deriving DecidableEq, Repr

namespace Flags

/-- The value of a flag, if it was set. -/
def get (f : Flags) : Flag → Option Bool
  | .condBypass => f.condBypass
  | .condUpdateVr => f.condUpdateVr
  | .condUpdateTf => f.condUpdateTf
  | .waitForV => f.waitForV

/-- Set a flag. -/
def set (f : Flags) (flag : Flag) (value : Bool) : Flags :=
  match flag with
  | .condBypass => { f with condBypass := some value }
  | .condUpdateVr => { f with condUpdateVr := some value }
  | .condUpdateTf => { f with condUpdateTf := some value }
  | .waitForV => { f with waitForV := some value }

/-- Flags that were not set are off. -/
def finalize (f : Flags) : Flags where
  condBypass := some (f.condBypass.getD false)
  condUpdateVr := some (f.condUpdateVr.getD false)
  condUpdateTf := some (f.condUpdateTf.getD false)
  waitForV := some (f.waitForV.getD false)

/-- Every flag was set. -/
def isFinalized (f : Flags) : Bool :=
  f.condBypass.isSome && f.condUpdateVr.isSome && f.condUpdateTf.isSome && f.waitForV.isSome

end Flags

/-- Where the v-bit that an instruction puts out comes from. -/
inductive OutputBit where
  | zero
  | one
  /-- The v-bit that came in. -/
  | carryIn
  | hold
  deriving DecidableEq, Repr

/-- The text of a source of the v-bit. -/
def OutputBit.text : OutputBit → String
  | .zero => "0"
  | .one => "1"
  | .carryIn => "v_in"
  | .hold => "hold"

/-- An instruction. -/
structure Instruction where
  label : Option String := none
  operation : Option OperationCall := none
  destinations : Pool SignalId := { kind := .destinations, capacity := Family.wordReg.capacity }
  overrides : Pool (SignalId × Bool) :=
    { kind := .overrides, capacity := Family.conditionLogic.capacity }
  latches : Pool SignalId := { kind := .latches, capacity := Family.wordIn.capacity }
  flags : Flags := {}
  outputBit : Option OutputBit := none
  branchSet : Bool := false
  branch : Branch := {}
  index : Option Nat := none
  location : Location := {}
  deriving DecidableEq, Repr

namespace Instruction

/-- Give every part that was not set its default. -/
def finalize (i : Instruction) : Instruction :=
  { i with flags := i.flags.finalize, outputBit := some (i.outputBit.getD .zero) }

/-- Every flag and the output bit were set. -/
def isFinalized (i : Instruction) : Bool := i.flags.isFinalized && i.outputBit.isSome

/-- The signals among the operands of the operation. -/
def operandSignals (i : Instruction) : List SignalId :=
  match i.operation with
  | some call => call.signals
  | none => []

/-- The encoding of the branch, once the instruction has an index and its targets are known. -/
def branchShape? (i : Instruction) : Option BranchShape := do
  let index ← i.index
  let targets ← i.branch.targetIndexes?
  return BranchShape.classify index targets

/-! ### Text -/

/-- One digit for a bit. -/
def bitText (b : Bool) : String := if b then "1" else "0"

/-- The text of an override: the name of the register and its new value. -/
def overrideText {ε : Type} (signals : Registry) (o : SignalId × Bool) : Checked ε String := do
  let name ← signals.name o.1
  return name ++ "=" ++ bitText o.2

/-- The names of the destinations, followed by an equals sign; nothing if there are none. -/
def destinationsText {ε : Type} (signals : Registry) (i : Instruction) : Checked ε String := do
  let names ← i.destinations.entries.mapM signals.name
  return if names.isEmpty then "" else String.intercalate ", " names ++ " = "

/-- The text of the operation. -/
def operationText {ε : Type} (signals : Registry) (i : Instruction) : Checked ε String :=
  match i.operation with
  | some call => call.text signals
  | none => .ok "nop()"

/-- The overrides after two blanks; nothing if there are none. -/
def overridesText {ε : Type} (signals : Registry) (i : Instruction) : Checked ε String := do
  let parts ← i.overrides.entries.mapM (overrideText signals)
  return if parts.isEmpty then "" else "  " ++ String.intercalate ", " parts

/-- The text of an instruction. -/
def text {ε : Type} (signals : Registry) (i : Instruction) : Checked ε String := do
  let destinations ← i.destinationsText signals
  let operation ← i.operationText signals
  let overrides ← i.overridesText signals
  let index := match i.index with
    | some n => toString n
    | none => "-"
  let flag := fun f => bitText ((i.flags.get f).getD false)
  return index ++ ": '" ++ i.label.getD "" ++ "' " ++ destinations ++ operation ++ overrides
    ++ "  cb:" ++ flag .condBypass ++ "  cu_vr:" ++ flag .condUpdateVr
    ++ "  cu_tf:" ++ flag .condUpdateTf ++ "  wait_v:" ++ flag .waitForV
    ++ "  v:" ++ (i.outputBit.getD .zero).text
    ++ "  " ++ String.intercalate "," (i.branch.targets.map Target.text).toList

end Instruction

end AluPlacement
