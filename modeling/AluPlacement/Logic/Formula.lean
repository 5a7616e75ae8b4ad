/-! # Formulas and their traces

A trace is the postfix form of a formula over numbered argument slots: the trace of a gate is the
trace of its right operand, then that of its left operand, then the gate.

* `Formula.trace`: the trace of a formula.
* `Formula.ofTrace?`: the formula of a trace, if the trace is that of one formula and nothing else.
* `Formula.text`: the fully parenthesized text, if every slot has a name. -/

namespace AluPlacement

/-- The gates with two inputs. -/
inductive Gate where
  | and
  | or
  | xor
  deriving DecidableEq, Repr

/-- The symbol of a gate. -/
def Gate.symbol : Gate → Char
  | .and => '&'
  | .or => '|'
  | .xor => '^'

/-- The value of a gate. -/
def Gate.eval : Gate → Bool → Bool → Bool
  | .and, a, b => a && b
  | .or, a, b => a || b
  | .xor, a, b => a ^^ b

/-- One step of a trace. -/
inductive Token where
  | arg (slot : Nat)
  | const (value : Bool)
  | not
  | gate (g : Gate)
  deriving DecidableEq, Repr

/-- The character of a token; slot `n` has the character `n` places after the digit zero. -/
def Token.char : Token → Char
  | .arg slot => Char.ofNat (48 + slot)
  | .const true => 'T'
  | .const false => 'F'
  | .not => '~'
  | .gate g => g.symbol

/-- Give slot `i` the number `j` and slot `j` the number `i`. -/
def Token.swapSlots (i j : Nat) : Token → Token
  | .arg slot => .arg (if slot = i then j else if slot = j then i else slot)
  | token => token

/-- The compact text of a trace. -/
def traceText (trace : List Token) : String := String.ofList (trace.map Token.char)

/-- A formula over numbered argument slots. -/
inductive Formula where
  | arg (slot : Nat)
  | const (value : Bool)
  | not (operand : Formula)
  | gate (g : Gate) (left right : Formula)
  deriving DecidableEq, Repr

namespace Formula

/-- The value of a formula where slot `n` has the value `value n`. -/
def eval (value : Nat → Bool) : Formula → Bool
  | .arg slot => value slot
  | .const b => b
  | .not f => !f.eval value
  | .gate g l r => g.eval (l.eval value) (r.eval value)

/-- The postfix form of a formula. -/
def trace : Formula → List Token
  | .arg slot => [.arg slot]
  | .const b => [.const b]
  | .not f => f.trace ++ [.not]
  | .gate g l r => r.trace ++ l.trace ++ [.gate g]

/-- Read one token: a leaf is put on the stack, an operator takes its operands from it. The left
operand of a gate was read last. -/
def push : List Formula → Token → Option (List Formula)
  | stack, .arg slot => some (.arg slot :: stack)
  | stack, .const b => some (.const b :: stack)
  | f :: stack, .not => some (.not f :: stack)
  | l :: r :: stack, .gate g => some (.gate g l r :: stack)
  | _, _ => none

/-- The formula whose trace this is. -/
def ofTrace? (trace : List Token) : Option Formula :=
  match trace.foldlM push [] with
  | some [f] => some f
  | _ => none

/-- Reading the trace of a formula puts the formula on the stack. -/
theorem foldlM_push_trace (f : Formula) (stack : List Formula) :
    f.trace.foldlM push stack = some (f :: stack) := by
  induction f generalizing stack with
  | arg slot => rfl
  | const b => rfl
  | not f ih => simp [trace, ih, push]
  | gate g l r ihl ihr => simp [trace, ihl, ihr, push]

theorem ofTrace?_trace (f : Formula) : ofTrace? f.trace = some f := by
  simp [ofTrace?, foldlM_push_trace]

/-- The fully parenthesized text of a formula, where slot `n` is called `name n`. -/
def text (name : Nat → Option String) : Formula → Option String
  | .arg slot => name slot
  | .const true => some "1'b1"
  | .const false => some "1'b0"
  | .not f => do
    let operand ← f.text name
    return "~" ++ operand
  | .gate g l r => do
    let left ← l.text name
    let right ← r.text name
    return "(" ++ left ++ " " ++ g.symbol.toString ++ " " ++ right ++ ")"

/-- The text of the formula of a trace. -/
def textOfTrace? (name : Nat → Option String) (trace : List Token) : Option String :=
  (ofTrace? trace).bind (text name)

end Formula

end AluPlacement
