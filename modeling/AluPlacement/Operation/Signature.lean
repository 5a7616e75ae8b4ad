import AluPlacement.Signal.Registry

/-! # Operands and signatures

An operation takes up to four operands, each a signal or a number. A signature says, position by
position, what an operand may be; its text has one letter per position. -/

namespace AluPlacement

/-- An operand of an operation. -/
inductive Operand where
  | signal (id : SignalId)
  | immediate (value : Nat)
  deriving DecidableEq, Repr

/-- The signal of an operand that is one. -/
def Operand.signal? : Operand → Option SignalId
  | .signal id => some id
  | .immediate _ => none

/-- What an operand may be. -/
inductive OperandKind where
  /-- A word signal or a number of 16 bits. -/
  | word
  /-- A bit signal, 0 or 1. -/
  | bit
  /-- A number of 4 bits. -/
  | nibble
  deriving DecidableEq, Repr

namespace OperandKind

/-- The letter of a kind. -/
def char : OperandKind → Char
  | word => 'w'
  | bit => 'b'
  | nibble => 'k'

/-- The kind with a letter. -/
def ofChar? : Char → Option OperandKind
  | 'w' => some word
  | 'b' => some bit
  | 'k' => some nibble
  | _ => none

/-- The operand is of the kind. -/
def fits {ε : Type} (signals : Registry) : OperandKind → Operand → Checked ε Bool
  | word, .immediate value => .ok (value ≤ 0xFFFF)
  | word, .signal id => do
    let s ← signals.get id
    return s.dataType == .word
  | bit, .immediate value => .ok (value ≤ 1)
  | bit, .signal id => do
    let s ← signals.get id
    return s.dataType == .bit
  | nibble, .immediate value => .ok (value ≤ 15)
  | nibble, .signal _ => .ok false

/-- What is said of an operand that does not fit. -/
def requirement : OperandKind → String
  | word => "must be a word signal or 16-bit immediate"
  | bit => "must be a bit signal or the immediate 0 or 1"
  | nibble => "must be an immediate from 0 to 15"

end OperandKind

/-- The kinds of the operands of an operation. -/
abbrev Signature := List OperandKind

namespace Signature

/-- The largest number of operands. -/
def maxOperands : Nat := 4

/-- The letters of a signature. -/
def text (s : Signature) : String := String.ofList (s.map OperandKind.char)

/-- The signature with these letters. -/
def ofString? (letters : String) : Option Signature :=
  if letters.length ≤ maxOperands then letters.toList.mapM OperandKind.ofChar? else none

end Signature

end AluPlacement
