import AluPlacement.Operation.Table

/-! # Definitions of ALUs

What all ALUs of a design share: their operations, their limits and their built-in signals. -/

namespace AluPlacement

/-- The limits that a design may lower. -/
structure Limits where
  maxInstructions : Nat := 8
  nnBudget : Nat := 4
  deriving DecidableEq, Repr

namespace Limits

/-- The limits of the hardware. -/
def hardware : Limits := {}

/-- Refuse limits above those of the hardware, and a program without room for an instruction. -/
def validate (l : Limits) : Checked Error Unit := do
  let instructions := l.maxInstructions
  let budget := l.nnBudget
  let maxInstructions := hardware.maxInstructions
  let maxBudget := hardware.nnBudget
  Checked.require (1 ≤ instructions ∧ instructions ≤ maxInstructions)
    (.invalidLimits s!"max_instructions must be from 1 to {maxInstructions}, got {instructions}")
  Checked.require (budget ≤ maxBudget)
    (.invalidLimits s!"nn_budget must be at most {maxBudget}, got {budget}")

end Limits

/-- A signal that every ALU has. -/
structure BuiltinSignal where
  name : String
  direction : Direction
  deriving DecidableEq, Repr

/-- What all ALUs of a design share. -/
structure Definition where
  ops : OperationTable
  limits : Limits
  builtins : List BuiltinSignal
  deriving DecidableEq, Repr

namespace Definition

/-- The built-in signals; those with a direction can be connected. -/
def standardBuiltins : List BuiltinSignal :=
  [⟨"status", .none⟩, ⟨"carry", .none⟩, ⟨"zero", .none⟩, ⟨"negative", .none⟩, ⟨"overflow", .none⟩,
   ⟨"v_in", .input⟩, ⟨"warm_reset", .input⟩]

/-- The standard definition. -/
def standard : Definition := ⟨OperationTable.standard, Limits.hardware, standardBuiltins⟩

/-- The standard definition with other limits. -/
def withLimits (limits : Limits) : Checked Error Definition := do
  limits.validate
  return { standard with limits := limits }

end Definition

end AluPlacement
