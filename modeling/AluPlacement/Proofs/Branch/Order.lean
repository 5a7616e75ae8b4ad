import AluPlacement.Proofs.Branch.Meaning
import AluPlacement.Proofs.Placement.Closed
import Mathlib.Data.List.Nodup

/-! # The order of the conditions in a bound unit

The hardware addresses the targets of a branch by the two branch registers, so condition 0 of an
instruction has to be the register in slot 0, and condition 1 the register in slot 1. Resolution
turns a branch round where that puts it in order. Only a branch that names one register for both
conditions cannot be put in order: exactly these are out of order in a bound unit
(`Reachable.inOrder_iff`). The pass accepts them all the same, and the target that the registers
choose is then not always the one that the branch denotes (`not_inOrder_sameCondition`). -/

namespace AluPlacement

namespace Branch

variable {slots : List SignalId} {b : Branch}

/-- Each condition is the register in the slot of its bit. -/
structure InOrder (slots : List SignalId) (b : Branch) : Prop where
  cond0 : ∀ s, b.cond0 = some s → slots[0]? = some s
  cond1 : ∀ s, b.cond1 = some s → slots[1]? = some s

/-- Turning a branch round keeps a condition that it has twice. -/
theorem cond_align_of_same {s : SignalId} (h0 : b.cond0 = some s) (h1 : b.cond1 = some s)
    (slots : List SignalId) :
    (b.align slots).cond0 = some s ∧ (b.align slots).cond1 = some s := by
  unfold align
  split_ifs
  · exact ⟨h1, h0⟩
  · exact ⟨h0, h1⟩

/-- **An aligned branch is in order exactly if its conditions differ.** -/
theorem inOrder_align_iff (hslots : slots.length ≤ 2) (hnodup : slots.Nodup)
    (hmem : ∀ s ∈ b.conditions, s ∈ slots) :
    (b.align slots).InOrder slots ↔ ∀ s, b.cond0 = some s → b.cond1 ≠ some s := by
  constructor
  · intro h s h0 h1
    obtain ⟨ha0, ha1⟩ := cond_align_of_same h0 h1 slots
    have hs0 : slots[0]? = some s := h.cond0 s ha0
    have hs1 : slots[1]? = some s := h.cond1 s ha1
    have hlt : 1 < slots.length := (List.getElem?_eq_some_iff.mp hs1).1
    exact List.nodup_iff_getElem?_ne_getElem?.mp hnodup 0 1 Nat.one_pos hlt (hs0.trans hs1.symm)
  · intro hdistinct
    obtain ⟨h0, h1⟩ := align_inOrder hslots hmem hdistinct
    exact ⟨h0, h1⟩

end Branch

namespace Alu

variable {u u' : Alu}

/-- No signal is in two branch slots. -/
theorem Placed.nodup_branchSlots (h : u.Placed) : u.branchSlots.Nodup :=
  h.nodup_slots .branch fun _ => Option.some_ne_none _

/-- **Exactly the branches with one condition for both bits are out of order in a bound unit.** -/
theorem Reachable.inOrder_iff (h : Reachable u) (hok : assign u = .ok () u') (calls : List Call)
    {n : Nat} {inst' : Instruction} (hn : (u'.run calls).instructions.get? n = some inst') :
    ∃ inst, u.instructions.get? n = some inst ∧
      (inst'.branch.InOrder (u'.run calls).branchSlots ↔
        ∀ s, inst.branch.cond0 = some s → inst.branch.cond1 ≠ some s) := by
  have hsound := h.sound
  have hkeeps := keeps_of_assign hsound hok calls
  rw [hkeeps.instructions, Pool.get?, getElem?_of_assign hsound hok] at hn
  obtain ⟨inst, hinst, rfl⟩ := Option.map_eq_some_iff.mp hn
  refine ⟨inst, hinst, ?_⟩
  rw [hkeeps.branchSlots, branchSlots_of_assign hsound hok]
  -- the resolved branch has the conditions of the aligned one
  have hconds : ((inst.resolved u.branchSlots u.labels n).branch.InOrder u.branchSlots ↔
      (inst.branch.align u.branchSlots).InOrder u.branchSlots) :=
    ⟨fun h => ⟨h.cond0, h.cond1⟩, fun h => ⟨h.cond0, h.cond1⟩⟩
  rw [hconds]
  refine Branch.inOrder_align_iff (hsound.placed.slots_length .branch)
    hsound.placed.nodup_branchSlots ?_
  exact (isResolvable_of_assign hsound hok inst (List.mem_of_getElem? hinst)).conditions

/-- The calls of a unit with two branch registers and a program of four instructions, of which the
first one has this branch. -/
def branchingCalls (call : BranchCall) : List Call :=
  [.declare "b0" .branchCondition .bit, .declare "b1" .branchCondition .bit,
    .addConditionLogic ⟨7⟩ (.ofSignal ⟨2⟩), .addConditionLogic ⟨8⟩ (.ofSignal ⟨1⟩),
    .addInstruction (.built (some "x0") [.branch call]), .addInstruction (.built (some "x1") []),
    .addInstruction (.built (some "x2") []), .addInstruction (.built (some "x3") [])]

/-- The unit after these calls. -/
def branchingUnit (call : BranchCall) : Alu := (create "alu" .standard).run (branchingCalls call)

theorem reachable_branchingUnit (call : BranchCall) : Reachable (branchingUnit call) :=
  (Reachable.new (.standard "alu")).run _

/-- The conditions of the first instruction. -/
def firstConditions (u : Alu) : Option (Option SignalId × Option SignalId) :=
  (u.instructions.get? 0).map fun i => (i.branch.cond0, i.branch.cond1)

/-- A branch on both registers, in the other order. -/
def crossedCase : BranchCall := .caseOf ⟨7⟩ ⟨8⟩ ⟨some "x0", some "x1", some "x2", some "x3"⟩

theorem inOrder_crossedCase :
    (branchingUnit crossedCase).firstConditions = some (some ⟨8⟩, some ⟨7⟩) ∧
      ∃ u', assign (branchingUnit crossedCase) = .ok () u' ∧
        ∃ inst', (u'.run [.declare "late" .wire .bit]).instructions.get? 0 = some inst' ∧
          inst'.branch.InOrder (u'.run [.declare "late" .wire .bit]).branchSlots := by
  have h := reachable_branchingUnit crossedCase
  have hbefore : (branchingUnit crossedCase).firstConditions = some (some ⟨8⟩, some ⟨7⟩) := by
    decide +kernel
  have hok := assign_of_phase h.sound (by decide +kernel) (by decide +kernel)
  have hafter : ((assign.after (branchingUnit crossedCase)).run
      [.declare "late" .wire .bit]).firstConditions = some (some ⟨7⟩, some ⟨8⟩) := by
    decide +kernel
  obtain ⟨inst', hn, -⟩ := Option.map_eq_some_iff.mp hafter
  obtain ⟨inst, hinst, hiff⟩ := h.inOrder_iff hok _ hn
  refine ⟨hbefore, _, hok, inst', hn, hiff.mpr fun s h0 h1 => ?_⟩
  unfold firstConditions at hbefore
  rw [hinst, Option.map_some, h0, h1] at hbefore
  cases hbefore

/-- A branch that names the first register for both conditions. -/
def sameCase : BranchCall := .caseOf ⟨7⟩ ⟨7⟩ ⟨some "x0", some "x1", some "x2", some "x3"⟩

/-- The target that a branch chooses for two bits. -/
def chosen? (u : Alu) (n : Nat) (bit1 bit0 : Bool) : Option Nat := do
  let inst ← u.instructions.get? n
  let t ← inst.branch.targetIndexes?
  return t.get bit1 bit0

/-- The pass accepts a branch that names one register twice. Condition 1 is then not the register in
slot 1, and where only that register reads 1 the targets send the program to instruction 2. The
branch denotes instruction 0 there. -/
theorem not_inOrder_sameCondition :
    ∃ u', assign (branchingUnit sameCase) = .ok () u' ∧ u'.branchSlots = [⟨7⟩, ⟨8⟩] ∧
      (∃ inst, u'.instructions.get? 0 = some inst ∧ ¬inst.branch.InOrder u'.branchSlots) ∧
      u'.chosen? 0 true false = some 2 ∧
      ∀ value : SignalId → Bool, value ⟨7⟩ = false →
        destination u'.instructions.entries 0 (sameCase.label value) = 0 := by
  have hok := assign_of_phase (reachable_branchingUnit sameCase).sound
    (by decide +kernel) (by decide +kernel)
  have hslots : (assign.after (branchingUnit sameCase)).branchSlots = [⟨7⟩, ⟨8⟩] := by
    decide +kernel
  have hconds : (assign.after (branchingUnit sameCase)).firstConditions =
      some (some ⟨7⟩, some ⟨7⟩) := by decide +kernel
  obtain ⟨inst, hn, hinst⟩ := Option.map_eq_some_iff.mp hconds
  refine ⟨_, hok, hslots, ⟨inst, hn, fun horder => ?_⟩, by decide +kernel, fun value hvalue => ?_⟩
  · have hsame := horder.cond1 ⟨7⟩ (Prod.mk.inj hinst).2
    rw [hslots] at hsame
    exact absurd hsame (by decide)
  · have hlabel : sameCase.label value = some "x0" := by
      simp only [sameCase, BranchCall.label, hvalue, Quad.get]
    rw [hlabel]
    decide +kernel

end Alu

end AluPlacement
