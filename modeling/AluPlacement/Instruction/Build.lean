import AluPlacement.Instruction.Basic

/-! # Building instructions

The calls of the front end. Each of them sets one part of an instruction and is refused if that part
was set before, if a store of the instruction is full, or if an entry would be there twice. -/

namespace AluPlacement.Instruction

/-- Set the operation. -/
def setOperation (call : OperationCall) : Edit Instruction Error Unit := do
  Edit.ask fun i => Checked.require (i.operation = none) .operationAlreadySet
  Edit.update fun i => { i with operation := some call }

/-- Refuse a full store, then an entry that is there already. -/
def requireNew {α : Type} (pool : Pool α) (isPresent : Bool) (signals : Registry) (id : SignalId)
    (repeated : String → Error) : Checked Error Unit :=
  if pool.isFull then .refuse pool.exhausted
  else if isPresent then do
    let name ← signals.name id
    .refuse (repeated name)
  else .ok ()

/-- Add a register that the result is written to. -/
def addDestination (signals : Registry) (id : SignalId) : Edit Instruction Error Unit := do
  Edit.ask fun i =>
    requireNew i.destinations (i.destinations.contains id) signals id .duplicateDestination
  Edit.update fun i => { i with destinations := i.destinations.append id }

/-- Add a condition register that the instruction sets to `value`. -/
def addOverride (signals : Registry) (id : SignalId) (value : Bool) :
    Edit Instruction Error Unit := do
  Edit.ask fun i =>
    requireNew i.overrides (i.overrides.entries.any fun o => o.1 == id) signals id
      .duplicateOverride
  Edit.update fun i => { i with overrides := i.overrides.append (id, value) }

/-- Add a word input that the instruction latches. -/
def addLatch (signals : Registry) (id : SignalId) : Edit Instruction Error Unit := do
  Edit.ask fun i => requireNew i.latches (i.latches.contains id) signals id .duplicateLatch
  Edit.update fun i => { i with latches := i.latches.append id }

/-- Turn a flag on. -/
def setFlag (flag : Flag) : Edit Instruction Error Unit := do
  Edit.ask fun i => Checked.require (i.flags.get flag = none) (.flagAlreadySet flag.name)
  Edit.update fun i => { i with flags := i.flags.set flag true }

/-- Choose the source of the v-bit. -/
def setOutputBit (output : OutputBit) : Edit Instruction Error Unit := do
  Edit.ask fun i => Checked.require (i.outputBit = none) (.flagAlreadySet "v_out")
  Edit.update fun i => { i with outputBit := some output }

/-! ### Branches -/

/-- Set the branch: the signals of the two condition bits and a label, if any, for each value of
them. -/
def setBranch (cond0 cond1 : Option SignalId) (labels : Quad (Option String)) :
    Edit Instruction Error Unit := do
  Edit.ask fun i => Checked.require (i.branchSet = false) .branchAlreadySet
  Edit.update fun i =>
    { i with branchSet := true, branch := ⟨cond0, cond1, labels.map Target.ofLabel?⟩ }

/-- Always continue at `label`. -/
def goTo (label : String) : Edit Instruction Error Unit := setBranch none none (.const (some label))

/-- Continue at `label` if the signal is set. -/
def ifThen (cond : SignalId) (label : String) : Edit Instruction Error Unit :=
  setBranch (some cond) none (.ofFn fun _ bit => if bit then some label else none)

/-- Continue at `label` if the signal is clear. -/
def ifNot (cond : SignalId) (label : String) : Edit Instruction Error Unit :=
  setBranch (some cond) none (.ofFn fun _ bit => if bit then none else some label)

/-- Continue at `yes` if the signal is set and at `no` if it is clear. -/
def ifElse (cond : SignalId) (yes no : Option String) : Edit Instruction Error Unit :=
  setBranch (some cond) none (.ofFn fun _ bit => if bit then yes else no)

/-- Continue at the label for the values of two signals. -/
def caseOf (cond1 cond0 : SignalId) (labels : Quad (Option String)) :
    Edit Instruction Error Unit :=
  setBranch (some cond0) (some cond1) labels

/-- Continue at `yes` if the condition holds and at `no` if it does not. -/
def branchWhen (cond : BranchCondition) (yes no : Option String) : Edit Instruction Error Unit :=
  setBranch cond.signal? none (.ofFn fun _ bit => if cond.value bit then yes else no)

/-- Continue at the label for the values of two conditions. -/
def branchCase (cond1 cond0 : BranchCondition) (labels : Quad (Option String)) :
    Edit Instruction Error Unit :=
  setBranch cond0.signal? cond1.signal?
    (.ofFn fun bit1 bit0 => labels.get (cond1.value bit1) (cond0.value bit0))

end AluPlacement.Instruction
