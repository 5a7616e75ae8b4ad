import AluPlacement.Logic.Formula
import AluPlacement.Logic.Table

/-! # Truth functions of signals

A truth function has at most four arguments, all different. It keeps them in a list, with the table
of its values over their positions and the trace of how it was built.

Two functions are combined over one argument list: the arguments of the first, followed by the new
arguments of the second. `TruthFn.alignTo` brings the second function there, one argument at a time,
by transpositions of its table and its trace.

* `TruthFn.evaluate`: the value under an assignment of the signals.
* `TruthFn.not`, `and`, `or`, `xor`, `ifThenElse`: the connectives. A function whose table is
  constant is replaced by a shortcut, also if it still has arguments. -/

namespace AluPlacement

/-- Why a truth function cannot be built. -/
inductive LogicError where
  | tooManyArguments (limit : Nat)
  | invalidConstant (value : Nat)
  deriving DecidableEq, Repr

/-- The text shown for a truth function that cannot be built. -/
def LogicError.message : LogicError → String
  | .tooManyArguments limit =>
    s!"Cannot create truth function with more than {limit} arguments"
  | .invalidConstant value => s!"Cannot create truth function from integer value: {value}"

/-- A boolean function of signals. -/
structure TruthFn where
  args : List SignalId
  table : Table
  trace : List Token
  deriving DecidableEq, Repr

namespace TruthFn

/-- The constant function. -/
def const (value : Bool) : TruthFn where
  args := []
  table := if value then Table.always else Table.never
  trace := [.const value]

/-- The constant function written as the number 0 or 1. -/
def ofNat (value : Nat) : Checked LogicError TruthFn :=
  match value with
  | 0 => .ok (const false)
  | 1 => .ok (const true)
  | n => .refuse (.invalidConstant n)

/-- The function that is the value of `s`. -/
def ofSignal (s : SignalId) : TruthFn where
  args := [s]
  table := Table.first
  trace := [.arg 0]

/-- The table is true in every row. -/
def isTrue (f : TruthFn) : Bool := f.table == Table.always

/-- The table is false in every row. -/
def isFalse (f : TruthFn) : Bool := f.table == Table.never

/-- The function passes the value of `s` on. -/
def isHold (f : TruthFn) (s : SignalId) : Bool := f.table == Table.first && f.args == [s]

/-- The row of a table where the arguments have the given values, the first one in bit 0. -/
def row (value : SignalId → Bool) : List SignalId → Nat
  | [] => 0
  | a :: args => (value a).toNat + 2 * row value args

/-- The value of the function where signal `s` has the value `value s`. -/
def evaluate (f : TruthFn) (value : SignalId → Bool) : Bool := f.table.getLsbD (row value f.args)

/-! ### Lining up arguments -/

/-- A function on its way to a longer argument list: the list so far, the table and the trace, and
the position where each of the arguments of the function now stands. -/
structure Alignment where
  args : List SignalId
  table : Table
  trace : List Token
  slot : Nat → Nat

/-- The position of `s` in the list, which grows if `s` is new. -/
def Alignment.target (args : List SignalId) (s : SignalId) :
    Checked LogicError (List SignalId × Nat) :=
  match args.idxOf? s with
  | some p => .ok (args, p)
  | none =>
    if args.length < Table.positions then .ok (args ++ [s], args.length)
    else .refuse (.tooManyArguments Table.positions)

/-- Bring argument `k` of the function, the signal `s`, to the position of `s` in the list. The
argument that stood there takes the position that `k` leaves. -/
def Alignment.place (m : Alignment) (k : Nat) (s : SignalId) : Checked LogicError Alignment := do
  let (args, target) ← Alignment.target m.args s
  let current := m.slot k
  if current = target then
    return { m with args := args }
  else
    let table ← m.table.transpose current target
    return {
      args := args
      table := table
      trace := m.trace.map (Token.swapSlots current target)
      slot := fun i =>
        if i = k then target else if k < i ∧ m.slot i = target then current else m.slot i }

/-- Bring the arguments from number `k` on to their positions. -/
def Alignment.placeFrom (m : Alignment) (k : Nat) : List SignalId → Checked LogicError Alignment
  | [] => .ok m
  | s :: rest => do
    let m' ← m.place k s
    m'.placeFrom (k + 1) rest

/-- The function `g` over `args` followed by its own new arguments. -/
def alignTo (args : List SignalId) (g : TruthFn) : Checked LogicError TruthFn := do
  let start : Alignment := { args := args, table := g.table, trace := g.trace, slot := id }
  let m ← start.placeFrom 0 g.args
  return { args := m.args, table := m.table, trace := m.trace }

/-! ### Connectives -/

/-- The gate, row by row. -/
def gateTable : Gate → Table → Table → Table
  | .and, s, t => s &&& t
  | .or, s, t => s ||| t
  | .xor, s, t => s ^^^ t

/-- Join two functions by a gate, over the arguments of `f` and the new ones of `g`. -/
def combine (gate : Gate) (f g : TruthFn) : Checked LogicError TruthFn := do
  let h ← g.alignTo f.args
  return {
    args := h.args
    table := gateTable gate f.table h.table
    trace := h.trace ++ f.trace ++ [.gate gate] }

/-- The negation. The trace of a constant table is that of the constant. -/
def not (f : TruthFn) : TruthFn where
  args := f.args
  table := ~~~f.table
  trace :=
    if f.isFalse then [.const true] else if f.isTrue then [.const false] else f.trace ++ [.not]

/-- The conjunction. -/
def and (f g : TruthFn) : Checked LogicError TruthFn :=
  if f.isFalse || g.isFalse then .ok (const false)
  else if f.isTrue then .ok g
  else if g.isTrue then .ok f
  else combine .and f g

/-- The disjunction. -/
def or (f g : TruthFn) : Checked LogicError TruthFn :=
  if f.isTrue || g.isTrue then .ok (const true)
  else if f.isFalse then .ok g
  else if g.isFalse then .ok f
  else combine .or f g

/-- The exclusive disjunction. -/
def xor (f g : TruthFn) : Checked LogicError TruthFn :=
  if f.isFalse then .ok g
  else if g.isFalse then .ok f
  else if f.isTrue then .ok g.not
  else if g.isTrue then .ok f.not
  else combine .xor f g

/-- The comparison `f == g` of the condition language, which is encoded as the exclusive
disjunction. -/
def equals (f g : TruthFn) : Checked LogicError TruthFn := f.xor g

/-- The comparison `f != g` of the condition language: the negation of `equals`. -/
def notEquals (f g : TruthFn) : Checked LogicError TruthFn := do
  let h ← f.xor g
  return h.not

/-- The choice between `g` and `h` by `f`. -/
def ifThenElse (f g h : TruthFn) : Checked LogicError TruthFn := do
  let taken ← f.and g
  let notTaken ← f.not.and h
  taken.or notTaken

/-! ### Text -/

/-- Table and trace of the function. -/
def text (f : TruthFn) : String :=
  "TF:0x" ++ f.table.toHex.toUpper ++ " " ++ traceText f.trace

/-- The function as a parenthesized formula over the names of its arguments. -/
def formulaText (f : TruthFn) (name : SignalId → Option String) : String :=
  (Formula.textOfTrace? (fun slot => f.args[slot]?.bind name) f.trace).getD "UNKNOWN"

end TruthFn

end AluPlacement
