import AluPlacement.Pool
import AluPlacement.Signal.Derived

/-! # Blocks of condition logic

A block has signals and up to four condition-logic registers. Such a register is one bit whose next
value is a truth function of bit signals. A block is also the part of an ALU that holds its signals
and its condition logic.

* `Block.declare`, `Block.addRegister`: the calls of the front end.
* `Block.assign`: the pass that binds the registers left over, each to a function that holds its
  value, and closes the block.
* `Registry.bindOutside`: the same registration in a condition logic that belongs to no unit. -/

namespace AluPlacement

/-- A signal and the function that drives it. -/
structure DrivenSignal where
  signal : SignalId
  logic : TruthFn
  deriving DecidableEq, Repr

/-- Where a unit is in its life. -/
inductive Phase where
  /-- The front end may add to it. -/
  | building
  /-- Every resource was assigned. -/
  | bound
  /-- The assignment reported diagnostics. -/
  | failed
  deriving DecidableEq, Repr

/-- The signals and the condition logic of a unit. -/
structure Block where
  name : String
  signals : Registry := {}
  logic : Pool DrivenSignal :=
    { kind := .conditionLogic, capacity := Family.conditionLogic.capacity }
  phase : Phase := .building
  location : Location := {}
  deriving DecidableEq, Repr

namespace Block

variable {ε α : Type}

/-- The function of a condition-logic register. -/
def logicOf? (b : Block) (id : SignalId) : Option TruthFn :=
  (b.logic.entries.find? fun e => e.signal == id).map DrivenSignal.logic

/-- The signal in a slot of the condition logic. -/
def logicSignal? (b : Block) (slot : Nat) : Option SignalId :=
  (b.logic.get? slot).map DrivenSignal.signal

/-- The signal at an address of the block. -/
def signalAt? (b : Block) (a : Address) : Option SignalId :=
  match a.resource? with
  | some (.slot .conditionLogic slot) => b.logicSignal? slot
  | _ => none

/-- Refuse a unit that was closed. -/
def requireBuilding (b : Block) : Checked Error Unit :=
  Checked.require (b.phase = .building) (.alreadyAssigned b.name)

/-- Refuse an identifier that is not of this unit. -/
def requireDeclared (b : Block) (id : SignalId) : Checked Error Unit :=
  b.signals.requireDeclared id b.name

/-- Refuse a signal that is not declared as a bit. -/
def requireBit (b : Block) (id : SignalId) : Checked Error Unit := do
  b.requireDeclared id
  let s ← b.signals.get id
  Checked.require (s.dataType = .bit) (.wrongDataType s.name .bit)

/-- Refuse a function whose arguments are not all declared bits. -/
def requireBitArgs (b : Block) (f : TruthFn) : Checked Error Unit := f.args.forM b.requireBit

/-! ### Calls of the front end -/

/-- A call on the signals of the block. -/
def onSignals (call : Edit Registry ε α) : Edit Block ε α :=
  call.zoom Block.signals fun signals b => { b with signals := signals }

/-- A call whose refusals happen at the location of the block. -/
def here (call : Edit Block Error α) : Edit Block Diagnostic α := fun b =>
  call.locatedAt b.location b

/-- Declare a signal. -/
def declare (name : String) (behavior : Behavior) (dataType : DataType) :
    Edit Block Diagnostic SignalId :=
  here (onSignals (Registry.declare name behavior dataType))

/-- Bind a signal to the next slot of the condition logic. -/
def bindLogic (id : SignalId) (f : TruthFn) : Edit Block Error Address :=
  Edit.attempt fun b => do
    let address := Address.ofSlot .conditionLogic b.logic.size
    let logic ← b.logic.push ⟨id, f⟩
    let signals ← b.signals.bind id address
    return (address, { b with logic := logic, signals := signals })

/-- Refuse what cannot be a condition-logic register with this function. -/
def checkRegister (b : Block) (id : SignalId) (f : TruthFn) : Checked Error Unit := do
  b.requireBuilding
  b.requireBit id
  let s ← b.signals.get id
  Checked.require (s.behavior = .register) (.wrongBehavior s.name "a bit reg")
  b.signals.requireUnbound id
  b.requireBitArgs f

/-- Check a bit register and bind it to the next slot of the condition logic. -/
def bindRegister (id : SignalId) (f : TruthFn) : Edit Block Error Address := do
  Edit.ask fun b => b.checkRegister id f
  bindLogic id f

/-- Bind a bit register to the function of its next value. -/
def addRegister (id : SignalId) (f : TruthFn) : Edit Block Diagnostic Address :=
  here (bindRegister id f)

/-! ### Assignment -/

/-- Bind a signal so that it holds its value. -/
def bindHold (id : SignalId) : Edit Block Error Unit := do
  let _ ← bindLogic id (TruthFn.ofSignal id)
  return ()

/-- A pass starts in a unit that is being built; registers and constants get their values. -/
def beginPass : Edit Block (List Diagnostic) Unit := do
  Edit.ask fun b => b.requireBuilding.mapReason fun e => [e.located b.location]
  Edit.update fun b => { b with signals := b.signals.applyDefaults }

/-- A pass ends; the unit is bound if nothing was reported. -/
def endPass (ds : List Diagnostic) : Edit Block (List Diagnostic) Unit := do
  Edit.update fun b => { b with phase := if ds.isEmpty then .bound else .failed }
  Edit.ask fun _ => Checked.require (ds.isEmpty = true) ds

/-- Bind a register or a constant that has no resource yet. -/
def bindRemaining (id : SignalId) : Edit Block Diagnostic Unit := do
  let s ← Edit.ask fun b => b.signals.get id
  if s.isBound || !s.behavior.isStateful then
    return ()
  else
    Edit.locatedAt s.location do
      Edit.ask fun _ => Checked.require (s.dataType = .bit) (.wrongDataType s.name .bit)
      bindHold id

/-- Bind every register and constant that has no resource yet, and close the block. -/
def assign : Edit Block (List Diagnostic) Unit := do
  beginPass
  let ids ← Edit.ask fun b => .ok b.signals.ids
  let ds ← Edit.collect bindRemaining ids
  endPass ds

end Block

/-! ### Condition logic outside of a unit -/

/-- Bind a bit register in a condition logic that a caller holds, with these entries. Of the unit it
knows the signals and the name only. So it acts as a block of its own, which is being built in
whatever phase the unit is. -/
def Registry.bindOutside (entries : List DrivenSignal) (unit : String) (id : SignalId)
    (f : TruthFn) : Edit Registry Error Address :=
  (Block.bindRegister id f).zoom
    (fun signals =>
      { name := unit
        signals := signals
        logic :=
          { kind := .conditionLogic
            capacity := Family.conditionLogic.capacity
            entries := entries } })
    fun b _ => b.signals

end AluPlacement
