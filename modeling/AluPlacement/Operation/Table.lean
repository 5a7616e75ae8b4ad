import AluPlacement.Operation.Signature

/-! # The table of operations

An operation has one or more signatures. A call takes the first signature that has as many
positions as the call has operands, and then every operand must fit its position.

* `OperationTable.insert`, `OperationTable.overloads`: the signatures of a name, in the order of
  insertion.
* `OperationTable.call`: a checked call.
* `OperationTable.standard`: the operations that every ALU has. -/

namespace AluPlacement

/-- A call of an operation that was checked against a table. -/
structure OperationCall where
  name : String
  operands : List Operand
  deriving DecidableEq, Repr

namespace OperationCall

/-- The signals among the operands. -/
def signals (c : OperationCall) : List SignalId := c.operands.filterMap Operand.signal?

/-- The text of an operand. -/
def operandText {ε : Type} (registry : Registry) : Operand → Checked ε String
  | .signal id => registry.name id
  | .immediate value => .ok (toString value)

/-- The text of a call. -/
def text {ε : Type} (registry : Registry) (c : OperationCall) : Checked ε String := do
  let operands ← c.operands.mapM (operandText registry)
  return c.name ++ "(" ++ String.intercalate ", " operands ++ ")"

end OperationCall

/-- The operations of a unit: names with their signatures, no pair twice. -/
structure OperationTable where
  entries : List (String × Signature) := []
  deriving DecidableEq, Repr

namespace OperationTable

/-- Add a signature of an operation, if it is new. -/
def insert (t : OperationTable) (name : String) (signature : Signature) : OperationTable :=
  if t.entries.contains (name, signature) then t else ⟨t.entries ++ [(name, signature)]⟩

/-- The signatures of an operation, in the order of insertion. -/
def overloads (t : OperationTable) (name : String) : List Signature :=
  (t.entries.filter fun e => e.1 == name).map Prod.snd

/-- The operation has a signature. -/
def contains (t : OperationTable) (name : String) : Bool := t.entries.any fun e => e.1 == name

/-- The number of operations. -/
def size (t : OperationTable) : Nat := (t.entries.map Prod.fst).eraseDups.length

/-- Check the operand at one position of a call. -/
def checkOperand (signals : Registry) (name : String) (position : Nat) (kind : OperandKind)
    (operand : Operand) : Checked Error Unit := do
  Checked.require (operand.signal?.all signals.contains)
    (.invalidOperand name position "is not a declared signal")
  let fits ← kind.fits signals operand
  Checked.require fits (.invalidOperand name position kind.requirement)

/-- Check the operands of a call from a position on. -/
def checkOperands (signals : Registry) (name : String) :
    Nat → Signature → List Operand → Checked Error Unit
  | position, kind :: kinds, operand :: operands => do
    checkOperand signals name position kind operand
    checkOperands signals name (position + 1) kinds operands
  | _, _, _ => .ok ()

/-- Call an operation. -/
def call (t : OperationTable) (name : String) (operands : List Operand) (signals : Registry) :
    Checked Error OperationCall :=
  match (t.overloads name).find? fun s => s.length == operands.length with
  | none => .refuse (.unknownOperation name operands.length)
  | some signature => do
    checkOperands signals name 0 signature operands
    return ⟨name, operands⟩

/-- The operations that every ALU has, with the letters of their signatures. -/
def standardOps : List (String × String) :=
  [("add", "ww"), ("hadd", "wwb"), ("and", "ww"), ("and", "www"), ("avg", "ww"), ("havg", "wwb"),
   ("bmux", "www"), ("cmp", "ww"), ("hcmp", "wwb"), ("dec", "w"), ("hdec", "wb"), ("dshl", "www"),
   ("dshli", "wwk"), ("dshri", "wwk"), ("inc", "w"), ("hinc", "wb"), ("inv", "w"), ("mov", "w"),
   ("mux", "ww"), ("neg", "w"), ("hneg", "wb"), ("or", "ww"), ("or", "www"), ("roli", "wk"),
   ("rol", "ww"), ("rori", "wk"), ("setsb", ""), ("shli", "wk"), ("shl", "w"), ("shri", "wk"),
   ("sub", "ww"), ("hsub", "wb"), ("xor", "ww"), ("xor", "www"), ("xoradd", "www"),
   ("hxoradd", "wwbw"), ("xoravg", "www"), ("hxoravg", "wwbw"), ("xorcmp", "www"),
   ("hxorcmp", "wwbw"), ("zero", "")]

/-- The table of the standard operations. -/
def standard : OperationTable :=
  standardOps.foldl
    (fun t op => match Signature.ofString? op.2 with
      | some signature => t.insert op.1 signature
      | none => t) {}

end OperationTable

end AluPlacement
