import AluPlacement.Alu.Build
import AluPlacement.Branch.Resolution

/-! # Assigning the resources of an ALU

The final pass over an ALU. Word registers that no instruction writes and of which no bit is sliced
become constants. Then every register and constant without a resource is bound, in declaration
order, the budget of nearest neighbors is checked, and the branches of the program are resolved. The
pass goes on after refusals and reports all of them; it closes the ALU.

A constant shares the address of a bound constant of the same type and value. Failing that, a word
constant takes a built-in constant, then a slot of the constants together with a word input, then a
word register. -/

namespace AluPlacement.Alu

/-- Some instruction writes to the register. -/
def isWritten (u : Alu) (id : SignalId) : Bool :=
  u.instructions.entries.any fun i => i.destinations.contains id

/-- The word registers that keep their first value and are read as whole words only. -/
def deadRegisters (u : Alu) : List SignalId :=
  u.signals.ids.filter fun id =>
    match u.signals.get? id with
    | some s =>
      s.isOf .register .word && !s.isBound && !u.isWritten id && !u.signals.hasRegisterSlice id
    | none => false

/-- Make constants of the dead registers. -/
def promoteDead (u : Alu) : Alu := { u with signals := u.signals.promote u.deadRegisters }

/-! ### Binding -/

/-- Bind a signal to an address that others may have too. -/
def bindShared (u : Alu) (id : SignalId) (address : Address) : Checked Error Alu := do
  let signals ← u.signals.bind id address
  return { u with signals := signals }

/-- Bind a signal to the next word register. -/
def bindWordReg (u : Alu) (id : SignalId) : Checked Error Alu := do
  let wordRegs ← u.wordRegs.push id
  let signals ← u.signals.bind id (Address.ofSlot .wordReg u.wordRegs.size)
  return { u with wordRegs := wordRegs, signals := signals }

/-- Remember the first signal that is bound to a built-in constant. -/
def recordBuiltin (u : Alu) (id : SignalId) : Resource → Alu
  | .builtin0 => { u with builtin0 := u.builtin0 <|> some id }
  | .builtin1 => { u with builtin1 := u.builtin1 <|> some id }
  | .builtinFFFF => { u with builtinFFFF := u.builtinFFFF <|> some id }
  | _ => u

/-- Bind a word constant that shares no address: to the next constant slot, through the next word
input, or to a word register if the constant slots are taken. -/
def bindNewConstant (u : Alu) (id : SignalId) (name : String) : Checked Error Alu :=
  if u.constants.isFull then
    if u.wordRegs.isFull then .refuse (.constantSpill name Family.wordReg.capacity)
    else u.bindWordReg id
  else if u.wordIns.isFull then .refuse (.constantInput name Family.wordIn.capacity)
  else do
    let wordIns ← u.wordIns.push id
    let constants ← u.constants.push id
    let signals ← u.signals.bind id (Address.ofSlot .wordIn u.wordIns.size)
    return { u with wordIns := wordIns, constants := constants, signals := signals }

/-- Bind a word constant. -/
def bindWordConstant (u : Alu) (id : SignalId) (s : Signal) : Checked Error Alu :=
  match u.signals.constantAddress? .word s.initial with
  | some address => u.bindShared id address
  | none =>
    match s.initial.bind Resource.ofBuiltinValue? with
    | some resource => do
      let u' ← u.bindShared id resource.address
      return u'.recordBuiltin id resource
    | none => u.bindNewConstant id s.name

/-- A step that returns the changed ALU. -/
def change (step : Alu → Checked Error Alu) : Edit Alu Error Unit :=
  Edit.attempt fun u => do
    let u' ← step u
    return ((), u')

/-- Bind a bit constant: to the address of an equal one, or as a register that holds it. -/
def bindBitConstant (id : SignalId) (s : Signal) : Edit Alu Error Unit := do
  let shared ← Edit.ask fun u => .ok (u.signals.constantAddress? .bit s.initial)
  match shared with
  | some address => change fun u => u.bindShared id address
  | none => onBlock (Block.bindHold id)

/-- Bind a register or a constant that has no resource yet. -/
def bindRemaining (id : SignalId) : Edit Alu Diagnostic Unit := do
  let s ← Edit.ask fun u => u.signals.get id
  if s.isBound then
    return ()
  else
    Edit.locatedAt s.location do
      match s.dataType, s.behavior with
      | .word, .register => change fun u => u.bindWordReg id
      | .bit, .register => onBlock (Block.bindHold id)
      | .bit, .constant => bindBitConstant id s
      | .word, .constant => change fun u => u.bindWordConstant id s
      | _, _ => return ()

/-! ### Nearest neighbors -/

/-- The name of a word register that needs a nearest neighbor: its first value is not 0, it is reset
without a power cycle, or one of its bits is sliced. -/
def neighborName? {ε : Type} (signals : Registry) (id : SignalId) : Checked ε (Option String) := do
  let s ← signals.get id
  let isNeeded := s.initial.getD 0#16 != 0#16 || s.warmReset || signals.hasRegisterSlice id
  return if isNeeded then some s.name else none

/-- The diagnostic for more nearest neighbors than the budget allows. -/
def checkNeighbors {ε : Type} (u : Alu) : Checked ε (List Diagnostic) := do
  let names ← u.wordRegs.entries.mapM (neighborName? u.signals)
  let registers := names.filterMap id
  let budget := u.definition.limits.nnBudget
  return if registers.length ≤ budget then []
    else [(Error.nearestNeighborBudget budget registers).located u.location]

/-! ### The pass -/

/-- Resolve the branches of the program. -/
def resolveProgram {ε : Type} : Edit Alu ε (List Diagnostic) :=
  Edit.attempt fun u => do
    let slots := u.branches.entries.map DrivenSignal.signal
    let (program, ds) ← resolveBranches u.signals slots u.instructions.entries
    return (ds, { u with instructions := { u.instructions with entries := program } })

/-- Bind every register and constant that has no resource yet, check the limits, resolve the
branches and close the ALU. -/
def assign : Edit Alu (List Diagnostic) Unit := do
  onBlock Block.beginPass
  Edit.update promoteDead
  let ids ← Edit.ask fun u => .ok u.signals.ids
  let unbound ← Edit.collect bindRemaining ids
  let neighbors ← Edit.ask checkNeighbors
  let branches ← resolveProgram
  onBlock (Block.endPass (unbound ++ neighbors ++ branches))

end AluPlacement.Alu
