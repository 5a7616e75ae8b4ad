import AluPlacement.Instruction.Basic

/-! # Resolution of branches

Once branch registers are bound, each branch of a program is brought into the form of the hardware.
Condition bit 0 must be the register in branch slot 0 and bit 1 the register in slot 1, so a branch
whose conditions stand in the other order is turned round together with its targets. Then every
label becomes the index of the first instruction that carries it. Both steps go on after a fault and
report it. -/

namespace AluPlacement

/-- The slot of a condition among the branch registers. -/
def Branch.slot? (slots : List SignalId) (cond : Option SignalId) : Option Nat :=
  cond.bind fun c => slots.idxOf? c

/-- The conditions stand in the other order than the branch registers. -/
def Branch.isReversed (slots : List SignalId) (b : Branch) : Bool :=
  let slot0 := Branch.slot? slots b.cond0
  let slot1 := Branch.slot? slots b.cond1
  (slot0 == some 1 && slot1 != some 1) || (slot1 == some 0 && slot0 != some 0)

/-- The branch with its conditions in the order of the branch registers. -/
def Branch.align (slots : List SignalId) (b : Branch) : Branch :=
  if b.isReversed slots then b.swapped else b

/-- The conditions that are in no branch slot. -/
def Branch.unassigned (slots : List SignalId) (b : Branch) : List SignalId :=
  b.conditions.filter fun c => !slots.contains c

/-- The index of the first instruction with a label. -/
def indexOfLabel? (labels : List (Option String)) (name : String) : Option Nat :=
  labels.idxOf? (some name)

/-- The target of instruction `i` in a program with these labels. -/
def Target.resolve (labels : List (Option String)) (i : Nat) : Target → Target
  | .next => .index ((i + 1) % labels.length)
  | .label name =>
    match indexOfLabel? labels name with
    | some j => .index j
    | none => .invalid
  | .index j => .index j
  | .invalid => .invalid

/-- The label of a target, if no instruction carries it. -/
def Target.unknownLabel? (labels : List (Option String)) : Target → Option String
  | .label name => if (indexOfLabel? labels name).isNone then some name else none
  | _ => none

/-- The labels among the targets that no instruction carries, each once. -/
def unknownLabels (labels : List (Option String)) (targets : Quad Target) : List String :=
  (targets.toList.filterMap (Target.unknownLabel? labels)).eraseDups

/-- The error for a condition of instruction `i` that is in no branch slot. -/
def unassignedError {ε : Type} (signals : Registry) (i : Nat) (cond : SignalId) :
    Checked ε Error := do
  let name ← signals.name cond
  return .unassignedBranchCondition i name

/-- The next instruction is found only in a program that has instructions. -/
def requireProgram {ε : Type} (labels : List (Option String)) (targets : Quad Target) :
    Checked ε Unit :=
  if labels = [] ∧ .next ∈ targets.toList then .misuse .emptyProgram else .ok ()

/-- Resolve the branch of instruction `i`. -/
def Instruction.resolve {ε : Type} (signals : Registry) (slots : List SignalId)
    (labels : List (Option String)) (i : Nat) (inst : Instruction) :
    Checked ε (Instruction × List Diagnostic) := do
  let unassigned ← (inst.branch.unassigned slots).mapM (unassignedError signals i)
  let aligned := inst.branch.align slots
  requireProgram labels aligned.targets
  let unknown := (unknownLabels labels aligned.targets).map Error.unknownLabel
  let resolved := { aligned with targets := aligned.targets.map (Target.resolve labels i) }
  return ({ inst with branch := resolved },
    (unassigned ++ unknown).map fun e => e.located inst.location)

/-- Resolve the branches of a program, given the registers in the branch slots. -/
def resolveBranches {ε : Type} (signals : Registry) (slots : List SignalId)
    (program : List Instruction) : Checked ε (List Instruction × List Diagnostic) := do
  let labels := program.map Instruction.label
  let resolved ← program.zipIdx.mapM fun p => p.1.resolve signals slots labels p.2
  return (resolved.map Prod.fst, resolved.flatMap Prod.snd)

end AluPlacement
