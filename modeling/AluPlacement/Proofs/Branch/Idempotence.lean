import AluPlacement.Proofs.Branch.Resolved
import AluPlacement.Proofs.List

/-! # Resolving a program twice

Resolution turns a branch round on a condition about slots, so a second run might turn it back. It
does not: a branch that was turned round is not reversed any more (`Branch.isReversed_swapped`), so
an aligned branch stays as it is (`Branch.isReversed_align`). A branch is reversed only if one of
its conditions has a slot, so turning it round does not change the order in which conditions without
a slot are reported (`Branch.unassigned_align`). A resolved target is an index or invalid, and both
stay (`Target.resolve_resolve`).

Hence a second run changes nothing, and reports again what the first one reported, except for
unknown labels, of which none is left (`resolveBranches_idempotent`). This holds of every program,
also one that is partly resolved, and of every list of slots. -/

namespace AluPlacement

/-! ### The order of the conditions -/

namespace Branch

variable {slots : List SignalId} {b : Branch}

/-- A branch that was turned round does not have to be turned back. -/
theorem isReversed_swapped (h : b.isReversed slots = true) :
    b.swapped.isReversed slots = false := by
  simp only [isReversed, Bool.or_eq_true, Bool.and_eq_true, beq_iff_eq, bne_iff_ne] at h
  simp only [isReversed, swapped, Bool.or_eq_false_iff, Bool.and_eq_false_iff, beq_eq_false_iff_ne]
  -- the condition that was in the slot of the other bit is now in its own
  rcases h with ⟨h0, h1⟩ | ⟨h1, h0⟩
  · have hslot : slot? slots b.cond0 ≠ some 0 := by simp [h0]
    exact ⟨Or.inl h1, Or.inl hslot⟩
  · have hslot : slot? slots b.cond1 ≠ some 1 := by simp [h1]
    exact ⟨Or.inl hslot, Or.inl h0⟩

/-- **An aligned branch is not reversed.** -/
theorem isReversed_align (slots : List SignalId) (b : Branch) :
    (b.align slots).isReversed slots = false := by
  by_cases h : b.isReversed slots = true
  · have hswapped : b.align slots = b.swapped := by simp [align, h]
    rw [hswapped]
    exact isReversed_swapped h
  · have hsame : b.align slots = b := by simp [align, h]
    rw [hsame]
    exact Bool.eq_false_iff.mpr h

/-- A condition that has a slot is not reported. -/
theorem filter_of_slot {cond : Option SignalId} {n : Nat} (h : slot? slots cond = some n) :
    cond.toList.filter (fun c => !slots.contains c) = [] := by
  obtain ⟨c, rfl, hc⟩ := Option.bind_eq_some_iff.mp h
  have hmem : c ∈ slots := List.isSome_idxOf?.mp (by simp [hc])
  simp [hmem]

theorem unassigned_align (slots : List SignalId) (b : Branch) :
    (b.align slots).unassigned slots = b.unassigned slots := by
  by_cases h : b.isReversed slots = true
  · have hswapped : b.align slots = b.swapped := by simp [align, h]
    rw [hswapped]
    simp only [unassigned, conditions, swapped, List.filter_append]
    -- one of the two conditions is not reported, so their order does not matter
    simp only [isReversed, Bool.or_eq_true, Bool.and_eq_true, beq_iff_eq] at h
    rcases h with ⟨h0, -⟩ | ⟨h1, -⟩
    · rw [filter_of_slot h0, List.append_nil, List.nil_append]
    · rw [filter_of_slot h1, List.append_nil, List.nil_append]
  · have hsame : b.align slots = b := by simp [align, h]
    rw [hsame]

end Branch

/-! ### Targets -/

namespace Target

/-- A resolved target is an index or invalid. -/
theorem resolve_cases (labels : List (Option String)) (i : Nat) (t : Target) :
    (∃ j, t.resolve labels i = .index j) ∨ t.resolve labels i = .invalid := by
  cases t with
  | next => exact Or.inl ⟨_, rfl⟩
  | label name =>
    cases hj : indexOfLabel? labels name with
    | some j => exact Or.inl ⟨j, by simp [resolve, hj]⟩
    | none => exact Or.inr (by simp [resolve, hj])
  | index j => exact Or.inl ⟨j, rfl⟩
  | invalid => exact Or.inr rfl

theorem resolve_resolve (labels : List (Option String)) (i : Nat) (t : Target) :
    (t.resolve labels i).resolve labels i = t.resolve labels i := by
  rcases resolve_cases labels i t with ⟨j, h⟩ | h
  · rw [h]
    rfl
  · rw [h]
    rfl

theorem unknownLabel?_resolve (labels : List (Option String)) (i : Nat) (t : Target) :
    (t.resolve labels i).unknownLabel? labels = none := by
  rcases resolve_cases labels i t with ⟨j, h⟩ | h
  · rw [h]
    rfl
  · rw [h]
    rfl

end Target

theorem unknownLabels_resolve (labels : List (Option String)) (i : Nat) (targets : Quad Target) :
    unknownLabels labels (targets.map (Target.resolve labels i)) = [] := by
  simp [unknownLabels, Quad.map, Quad.toList, Target.unknownLabel?_resolve]

/-! ### Instructions -/

/-- The error is about a label that no instruction carries. -/
def Error.isUnknownLabel : Error → Bool
  | .unknownLabel _ => true
  | _ => false

namespace Instruction

variable {slots : List SignalId} {labels : List (Option String)} {i : Nat} {inst : Instruction}

/-- The aligned branch of a resolved instruction is its branch. -/
theorem align_resolved (slots : List SignalId) (labels : List (Option String)) (i : Nat)
    (inst : Instruction) :
    (inst.resolved slots labels i).branch.align slots = (inst.resolved slots labels i).branch := by
  -- only the conditions decide on the order, and they are those of the aligned branch
  have hsame : (inst.resolved slots labels i).branch.isReversed slots = false :=
    Branch.isReversed_align slots inst.branch
  simp [Branch.align, hsame]

/-- An aligned instruction whose targets are resolved stays as it is. -/
theorem resolved_eq_self (halign : inst.branch.align slots = inst.branch)
    (htargets : inst.branch.targets.map (Target.resolve labels i) = inst.branch.targets) :
    inst.resolved slots labels i = inst := by
  simp only [resolved, halign, htargets]

theorem resolved_resolved (slots : List SignalId) (labels : List (Option String)) (i : Nat)
    (inst : Instruction) :
    (inst.resolved slots labels i).resolved slots labels i = inst.resolved slots labels i := by
  refine resolved_eq_self (align_resolved slots labels i inst) ?_
  simp only [resolved, Quad.map, Target.resolve_resolve]

/-- The conditions without a slot are the same after resolution, and in the same order. -/
theorem unassigned_resolved (slots : List SignalId) (labels : List (Option String)) (i : Nat)
    (inst : Instruction) :
    (inst.resolved slots labels i).branch.unassigned slots = inst.branch.unassigned slots :=
  Branch.unassigned_align slots inst.branch

/-- **The faults of a resolved instruction** are those it had before, without the unknown labels. -/
theorem faults_resolved (signals : Registry) (slots : List SignalId)
    (labels : List (Option String)) (i : Nat) (inst : Instruction) :
    (inst.resolved slots labels i).faults signals slots labels i =
      (inst.faults signals slots labels i).filter fun e => !e.isUnknownLabel := by
  have hunknown : unknownLabels labels ((inst.resolved slots labels i).branch.align slots).targets =
      [] := by
    rw [align_resolved]
    exact unknownLabels_resolve labels i (inst.branch.align slots).targets
  unfold faults
  rw [unassigned_resolved, hunknown, List.filter_append, List.map_nil, List.append_nil]
  have hkept : ∀ conds : List SignalId, (conds.map fun c =>
      Error.unassignedBranchCondition i ((signals.name? c).getD "")).filter
        (fun e => !e.isUnknownLabel) =
      conds.map fun c => .unassignedBranchCondition i ((signals.name? c).getD "") := by
    intro conds
    refine List.filter_eq_self.mpr fun e he => ?_
    obtain ⟨c, -, rfl⟩ := List.mem_map.mp he
    rfl
  have hdropped : ∀ names : List String,
      (names.map Error.unknownLabel).filter (fun e => !e.isUnknownLabel) = [] := by
    intro names
    refine List.filter_eq_nil_iff.mpr fun e he => ?_
    obtain ⟨name, -, rfl⟩ := List.mem_map.mp he
    simp [Error.isUnknownLabel]
  rw [hkept, hdropped, List.append_nil]

end Instruction

/-! ### Programs -/

section Programs

variable {ε : Type} {signals : Registry} {slots : List SignalId} {program : List Instruction}

/-- An instruction is resolved only if its conditions without a slot are declared: their names are
looked up. -/
theorem Instruction.declared_of_resolve {labels : List (Option String)} {i : Nat}
    {inst : Instruction} {r : Instruction × List Diagnostic}
    (h : (inst.resolve signals slots labels i : Checked ε _) = .ok r) :
    ∀ c ∈ inst.branch.unassigned slots, signals.contains c = true := by
  intro c hc
  obtain ⟨errors, herrors, -⟩ := Checked.bind_eq_ok.mp h
  obtain ⟨e, -, he⟩ := Checked.exists_of_mapM herrors c hc
  obtain ⟨name, hname, -⟩ := Checked.bind_eq_ok.mp he
  obtain ⟨s, hs, -⟩ := Checked.bind_eq_ok.mp hname
  exact Registry.contains_iff.mpr ⟨s, Registry.get_eq_ok.mp hs⟩

/-- **Resolution answers exactly if all conditions without a slot are declared.** -/
theorem resolveBranches_isOk_iff :
    (∃ r, (resolveBranches signals slots program : Checked ε _) = .ok r) ↔
      ∀ inst ∈ program, ∀ c ∈ inst.branch.unassigned slots, signals.contains c = true := by
  constructor
  · rintro ⟨r, hr⟩ inst hinst
    obtain ⟨rs, hrs, -⟩ := Checked.bind_eq_ok.mp hr
    obtain ⟨i, hi⟩ := List.mem_iff_getElem?.mp hinst
    have hmem : (inst, i) ∈ program.zipIdx := List.mk_mem_zipIdx_iff_getElem?.mpr hi
    obtain ⟨r', -, hr'⟩ := Checked.exists_of_mapM hrs (inst, i) hmem
    exact Instruction.declared_of_resolve hr'
  · intro h
    exact ⟨_, resolveBranches_eq h⟩

/-- The labels are kept. -/
theorem map_label_resolved (slots : List SignalId) (labels : List (Option String))
    (program : List Instruction) :
    (program.zipIdx.map fun p => p.1.resolved slots labels p.2).map Instruction.label =
      program.map Instruction.label := by
  refine List.ext_getElem? fun i => ?_
  simp only [List.getElem?_map, List.getElem?_zipIdx, Option.map_map]
  rfl

/-- **Resolution is idempotent.** If a program can be resolved, then resolving the result again with
the same slots leaves it as it is and reports what was reported before, without the unknown labels.
Every program can be resolved whose conditions without a slot are declared. -/
theorem resolveBranches_idempotent (signals : Registry) (slots : List SignalId)
    (program : List Instruction) :
    (∀ program' ds, (resolveBranches signals slots program : Checked ε _) = .ok (program', ds) →
      (resolveBranches signals slots program' : Checked ε _) =
        .ok (program', ds.filter fun d => !d.error.isUnknownLabel)) ∧
    ((∃ result, (resolveBranches signals slots program : Checked ε _) = .ok result) ↔
      ∀ inst ∈ program, ∀ c ∈ inst.branch.conditions, c ∉ slots → signals.contains c = true) := by
  constructor
  · intro program' ds hfirst
    have hdeclared := resolveBranches_isOk_iff.mp ⟨_, hfirst⟩
    rw [resolveBranches_eq hdeclared] at hfirst
    obtain ⟨rfl, rfl⟩ := Prod.mk.inj (Except.ok.inj hfirst)
    -- the second run finds the same labels and the same conditions without a slot
    rw [resolveBranches_eq, map_label_resolved, zipIdx_map_zipIdx]
    · simp only [List.map_map, List.flatMap_map, List.filter_flatMap, List.filter_map,
        Function.comp_def, Instruction.resolved_resolved, Instruction.faults_resolved]
      rfl
    · intro inst' hinst'
      obtain ⟨⟨inst, i⟩, hp, rfl⟩ := List.mem_map.mp hinst'
      rw [Instruction.unassigned_resolved]
      exact hdeclared inst (List.fst_mem_of_mem_zipIdx hp)
  · rw [resolveBranches_isOk_iff]
    simp [Branch.unassigned]

end Programs

/-- Two branch registers and two other conditions. -/
def conditionSignals : Registry :=
  ⟨[{ name := "b0", dataType := .bit, behavior := .branchCondition },
    { name := "b1", dataType := .bit, behavior := .branchCondition },
    { name := "c", dataType := .bit, behavior := .wire },
    { name := "d", dataType := .bit, behavior := .wire }]⟩

/-- A crossed branch that is partly resolved, and one on two conditions without a slot. -/
def halfResolved : List Instruction :=
  [{ label := some "top", location := ⟨none, 1⟩, branch :=
      ⟨some ⟨1⟩, some ⟨0⟩, ⟨.index 7, .label "gone", .next, .invalid⟩⟩ },
    { location := ⟨none, 2⟩, branch :=
      ⟨some ⟨3⟩, some ⟨2⟩, ⟨.label "top", .next, .label "gone", .index 0⟩⟩ }]

/-- The slots have a repetition. The first run turns the first branch round, the second one does not
turn it back; the two conditions without a slot are reported in the same order again. -/
theorem resolveBranches_idempotent_halfResolved :
    ∃ program', (resolveBranches conditionSignals [⟨0⟩, ⟨1⟩, ⟨0⟩] halfResolved : Checked Error _) =
        .ok (program', [⟨⟨none, 1⟩, .unknownLabel "gone"⟩,
          ⟨⟨none, 2⟩, .unassignedBranchCondition 1 "d"⟩,
          ⟨⟨none, 2⟩, .unassignedBranchCondition 1 "c"⟩, ⟨⟨none, 2⟩, .unknownLabel "gone"⟩]) ∧
      program'.map Instruction.branch =
        [⟨some ⟨0⟩, some ⟨1⟩, ⟨.index 7, .index 1, .invalid, .invalid⟩⟩,
          ⟨some ⟨3⟩, some ⟨2⟩, ⟨.index 0, .index 0, .invalid, .index 0⟩⟩] ∧
      (resolveBranches conditionSignals [⟨0⟩, ⟨1⟩, ⟨0⟩] program' : Checked Error _) =
        .ok (program', [⟨⟨none, 2⟩, .unassignedBranchCondition 1 "d"⟩,
          ⟨⟨none, 2⟩, .unassignedBranchCondition 1 "c"⟩]) := by
  have hfirst : (resolveBranches conditionSignals [⟨0⟩, ⟨1⟩, ⟨0⟩] halfResolved : Checked Error _) =
      .ok (_, _) := rfl
  exact ⟨_, hfirst, rfl, (resolveBranches_idempotent _ _ _).1 _ _ hfirst⟩

end AluPlacement
