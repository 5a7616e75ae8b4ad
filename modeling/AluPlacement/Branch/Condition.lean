import AluPlacement.Signal.Registry

/-! # Branch conditions

The hardware tests a branch register as it is. A condition of the source is a truth function; it is
reduced to a constant or to one branch register, possibly inverted, and the inversion is later put
into the order of the targets. -/

namespace AluPlacement

/-- A condition that can be tested. -/
inductive BranchCondition where
  | always
  | never
  | signal (s : SignalId) (inverted : Bool)
  deriving DecidableEq, Repr

namespace BranchCondition

/-- The register that is tested. -/
def signal? : BranchCondition → Option SignalId
  | signal s _ => some s
  | _ => none

/-- The value of the condition where its register reads `input`. -/
def value : BranchCondition → Bool → Bool
  | always, _ => true
  | never, _ => false
  | signal _ inverted, input => input ^^ inverted

/-- The table is that of its one argument, or the inverse of it. -/
def inverted? (table : Table) : Option Bool :=
  if table = Table.first then some false
  else if table = ~~~Table.first then some true
  else none

/-- Reduce a truth function. -/
def ofTruthFn (f : TruthFn) (signals : Registry) : Checked Error BranchCondition :=
  if f.isTrue then .ok always
  else if f.isFalse then .ok never
  else
    match f.args, inverted? f.table with
    | [s], some inverted => do
      Checked.require (signals.contains s) .complexBranchCondition
      let declared ← signals.get s
      Checked.require (declared.behavior = .branchCondition)
        (.wrongBehavior declared.name "a branch condition")
      return signal s inverted
    | _, _ => .refuse .complexBranchCondition

end BranchCondition

end AluPlacement
