import AluPlacement.Alu.Basic

/-! # Building an ALU

Adding an instruction binds the inputs that it reads: operands that are wires or delayed signals,
and latches, as far as they have no resource yet. Words go to word inputs and bits to carry inputs.
All rules are checked before the first input is bound.

Adding condition logic binds a branch register, or one of the two signals that bypass and update
conditions, to the function that drives it. -/

namespace AluPlacement.Alu

/-! ### Instructions -/

/-- Refuse a signal that is not declared with this behavior and this type. -/
def requireOf (u : Alu) (behavior : Behavior) (dataType : DataType) (expected : String)
    (id : SignalId) : Checked Error Unit := do
  u.requireDeclared id
  let s ← u.signals.get id
  Checked.require (s.isOf behavior dataType) (.wrongBehavior s.name expected)

/-- Refuse a signal that is not declared as a word. -/
def requireWord (u : Alu) (id : SignalId) : Checked Error Unit := do
  u.requireDeclared id
  let s ← u.signals.get id
  Checked.require (s.dataType = .word) (.wrongDataType s.name .word)

/-- Refuse a label that another instruction carries. The empty label may be repeated. -/
def requireNewLabel (u : Alu) (label : Option String) : Checked Error Unit :=
  match label with
  | none => .ok ()
  | some name =>
    Checked.require (name = "" ∨ ∀ i ∈ u.instructions.entries, i.label ≠ some name)
      (.duplicateLabel name)

/-- Refuse an instruction whose signals are not declared as it uses them. -/
def checkSignals (u : Alu) (i : Instruction) : Checked Error Unit := do
  i.destinations.entries.forM (u.requireOf .register .word "a word reg")
  i.overrides.entries.forM fun o => u.requireOf .register .bit "a bit reg" o.1
  i.latches.entries.forM u.requireWord
  i.operandSignals.forM u.requireDeclared
  i.branch.conditions.forM u.requireDeclared

/-- Add an operand to the inputs to bind, if it is a wire or delayed and has no resource. -/
def addOperand (signals : Registry) (pending : List SignalId) (id : SignalId) :
    Checked Error (List SignalId) := do
  let s ← signals.get id
  let isInput := s.behavior == .wire || s.behavior == .delayed
  return if isInput && !s.isBound && !pending.contains id then pending ++ [id] else pending

/-- Add a latch to the inputs to bind, if it has no resource; any other must be a word input. -/
def addLatch (signals : Registry) (pending : List SignalId) (id : SignalId) :
    Checked Error (List SignalId) := do
  let s ← signals.get id
  match s.binding with
  | some address =>
    Checked.require (address.isIn .wordIn) (.illegalLatchTarget s.name)
    return pending
  | none => return if pending.contains id then pending else pending ++ [id]

/-- The inputs that an instruction needs and that have no resource, each once: operands in order,
then latches in order. -/
def pendingInputs (signals : Registry) (i : Instruction) : Checked Error (List SignalId) := do
  let operands ← i.operandSignals.foldlM (addOperand signals) []
  i.latches.entries.foldlM (addLatch signals) operands

/-- The data type of a signal. -/
def dataTypeOf {ε : Type} (signals : Registry) (id : SignalId) : Checked ε DataType := do
  let s ← signals.get id
  return s.dataType

/-- Refuse more inputs than the pools have room for. -/
def requireRoom (u : Alu) (pending : List SignalId) : Checked Error Unit := do
  let types ← pending.mapM (dataTypeOf u.signals)
  Checked.require (u.wordIns.size + types.count .word ≤ u.wordIns.capacity) u.wordIns.exhausted
  Checked.require (u.carryIns.size + types.count .bit ≤ u.carryIns.capacity) u.carryIns.exhausted

/-- Check every rule for an instruction, and return the inputs to bind. -/
def checkInstruction (u : Alu) (i : Instruction) : Checked Error (List SignalId) := do
  u.requireBuilding
  Checked.require (u.instructions.isFull = false) u.instructions.exhausted
  u.requireNewLabel i.label
  u.checkSignals i
  let pending ← pendingInputs u.signals i
  u.requireRoom pending
  return pending

/-- Bind a signal to the next word input or carry input. -/
def bindInput (id : SignalId) : Edit Alu Error Unit :=
  Edit.attempt fun u => do
    let dataType ← dataTypeOf u.signals id
    match dataType with
    | .word =>
      let wordIns ← u.wordIns.push id
      let signals ← u.signals.bind id (Address.ofSlot .wordIn u.wordIns.size)
      return ((), { u with wordIns := wordIns, signals := signals })
    | .bit =>
      let carryIns ← u.carryIns.push id
      let signals ← u.signals.bind id (Address.ofSlot .carryIn u.carryIns.size)
      return ((), { u with carryIns := carryIns, signals := signals })

/-- Put an instruction at the end of the program. -/
def append (i : Instruction) : Edit Alu Error Nat :=
  Edit.attempt fun u => do
    let index := u.instructions.size
    let instructions ← u.instructions.push { i.finalize with index := some index }
    return (index, { u with instructions := instructions })

/-- Add an instruction to the program and bind its inputs. -/
def addInstruction (i : Instruction) : Edit Alu Diagnostic Nat :=
  Edit.locatedAt i.location do
    let pending ← Edit.ask fun u => u.checkInstruction i
    pending.forM bindInput
    append i

/-! ### Condition logic -/

/-- Refuse what cannot be driven by condition logic with this function. -/
def checkConditionLogic (u : Alu) (id : SignalId) (f : TruthFn) : Checked Error Behavior := do
  u.requireBuilding
  u.requireBit id
  let s ← u.signals.get id
  Checked.require
    (s.behavior = .branchCondition ∨ s.behavior = .condBypass ∨ s.behavior = .condUpdate)
    (.wrongBehavior s.name "a branch, cond_bypass or cond_update signal")
  u.signals.requireUnbound id
  u.requireBitArgs f
  return s.behavior

/-- Bind a signal to the next branch register. -/
def bindBranch (entry : DrivenSignal) : Edit Alu Error Address :=
  Edit.attempt fun u => do
    let address := Address.ofSlot .branch u.branches.size
    let branches ← u.branches.push entry
    let signals ← u.signals.bind entry.signal address
    return (address, { u with branches := branches, signals := signals })

/-- Refuse a single slot that is taken. -/
def requireFree (u : Alu) (slot : Option DrivenSignal) (resource : String) (id : SignalId) :
    Checked Error Unit := do
  let name ← u.signals.name id
  Checked.require (slot = none) (.slotOccupied resource name)

/-- Bind the signal that bypasses conditions. -/
def bindCondBypass (entry : DrivenSignal) : Edit Alu Error Address :=
  Edit.attempt fun u => do
    u.requireFree u.condBypass "cond_bypass" entry.signal
    let address := Resource.condBypass.address
    let signals ← u.signals.bind entry.signal address
    return (address, { u with condBypass := some entry, signals := signals })

/-- Bind the signal that updates conditions. -/
def bindCondUpdate (entry : DrivenSignal) : Edit Alu Error Address :=
  Edit.attempt fun u => do
    u.requireFree u.condUpdate "cond_update" entry.signal
    let address := Resource.condUpdate.address
    let signals ← u.signals.bind entry.signal address
    return (address, { u with condUpdate := some entry, signals := signals })

/-- Bind a branch, bypass or update signal to the function that drives it. -/
def addConditionLogic (id : SignalId) (f : TruthFn) : Edit Alu Diagnostic Address := fun u =>
  (Edit.locatedAt u.location do
    let behavior ← Edit.ask fun u => u.checkConditionLogic id f
    match behavior with
    | .branchCondition => bindBranch ⟨id, f⟩
    | .condBypass => bindCondBypass ⟨id, f⟩
    | _ => bindCondUpdate ⟨id, f⟩) u

end AluPlacement.Alu
