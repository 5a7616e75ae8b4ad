import AluPlacement.Branch.Target

/-! # Branch shapes

The smallest encoding of a branch whose targets are known: it tests no register, one, or both. -/

namespace AluPlacement

/-- How a branch is encoded. -/
inductive BranchShape where
  /-- Continue at the next instruction. -/
  | fallthrough
  | jump (target : Nat)
  /-- Test one of the two branch registers. -/
  | single (register : Fin 2) (taken notTaken : Nat)
  | case (targets : Quad Nat)
  deriving DecidableEq, Repr

namespace BranchShape

/-- The smallest encoding of the targets of instruction `index`. -/
def classify (index : Nat) (t : Quad Nat) : BranchShape :=
  if t.t0 = t.t1 ∧ t.t0 = t.t2 ∧ t.t0 = t.t3 then
    if t.t0 = index + 1 then .fallthrough else .jump t.t0
  else if t.t0 = t.t2 ∧ t.t1 = t.t3 then .single 0 t.t1 t.t0
  else if t.t0 = t.t1 ∧ t.t2 = t.t3 then .single 1 t.t2 t.t0
  else .case t

end BranchShape

end AluPlacement
