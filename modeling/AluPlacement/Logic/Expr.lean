import AluPlacement.Logic.TruthFn

/-! # Condition expressions

The expressions of the condition language, over signals. `Expr.build` makes a truth function of an
expression from the leaves up; it fails where a function of more than four arguments would arise or
a number other than 0 and 1 occurs. `Expr.eval` is the value of an expression. -/

namespace AluPlacement

/-- A condition expression. -/
inductive Expr where
  | bool (value : Bool)
  | number (value : Nat)
  | signal (s : SignalId)
  | not (e : Expr)
  | and (a b : Expr)
  | or (a b : Expr)
  | xor (a b : Expr)
  | equals (a b : Expr)
  | notEquals (a b : Expr)
  | ifThenElse (c a b : Expr)
  deriving DecidableEq, Repr

namespace Expr

/-- The value of an expression where signal `s` has the value `value s`. A comparison `a == b` has
the value of the exclusive disjunction, as the condition language defines it. -/
def eval (value : SignalId → Bool) : Expr → Bool
  | .bool b => b
  | .number n => n == 1
  | .signal s => value s
  | .not e => !e.eval value
  | .and a b => a.eval value && b.eval value
  | .or a b => a.eval value || b.eval value
  | .xor a b => a.eval value ^^ b.eval value
  | .equals a b => a.eval value ^^ b.eval value
  | .notEquals a b => !(a.eval value ^^ b.eval value)
  | .ifThenElse c a b => if c.eval value then a.eval value else b.eval value

/-- The truth function of an expression. -/
def build : Expr → Checked LogicError TruthFn
  | .bool b => .ok (TruthFn.const b)
  | .number n => TruthFn.ofNat n
  | .signal s => .ok (TruthFn.ofSignal s)
  | .not e => do
    let f ← e.build
    return f.not
  | .and a b => do
    let f ← a.build
    let g ← b.build
    f.and g
  | .or a b => do
    let f ← a.build
    let g ← b.build
    f.or g
  | .xor a b => do
    let f ← a.build
    let g ← b.build
    f.xor g
  | .equals a b => do
    let f ← a.build
    let g ← b.build
    f.equals g
  | .notEquals a b => do
    let f ← a.build
    let g ← b.build
    f.notEquals g
  | .ifThenElse c a b => do
    let f ← c.build
    let g ← a.build
    let h ← b.build
    f.ifThenElse g h

end Expr

end AluPlacement
