import AluPlacement.Proofs.Admission.Exact
import AluPlacement.Proofs.Branch.Meaning
import AluPlacement.Proofs.Placement.Destinations

/-! # A bound unit is complete

The pass binds every register and every constant, keeps what was bound before it, resolves every
branch and keeps to the budget of nearest neighbors. Together with what the program was supplied
with while it was built, this gives every instruction of a bound unit all that it refers to
(`Reachable.complete`). -/

namespace AluPlacement

theorem Behavior.isStateful_iff {b : Behavior} :
    b.isStateful = true ↔ b = .register ∨ b = .constant := by
  cases b <;> simp [isStateful]

namespace Alu

/-- Everything that the unit and its program refer to is in place. -/
structure Complete (u : Alu) : Prop where
  stateful : ∀ id s, u.signals.get? id = some s →
    s.behavior = .register ∨ s.behavior = .constant → s.binding ≠ none
  operands : ∀ i ∈ u.instructions.entries, ∀ call, i.operation = some call →
    ∀ o, .signal o ∈ call.operands → ∃ s, u.signals.get? o = some s ∧
      ((s.behavior = .wire ∨ s.behavior = .delayed) ∨
        s.behavior = .register ∨ s.behavior = .constant → s.binding ≠ none)
  latches : ∀ i ∈ u.instructions.entries, ∀ l ∈ i.latches.entries,
    ∃ n, 30 ≤ n ∧ n ≤ 42 ∧ u.IsBoundAt l n
  destinations : ∀ i ∈ u.instructions.entries, ∀ d ∈ i.destinations.entries,
    ∃ s, u.signals.get? d = some s ∧ s.behavior = .register
  targets : ∀ i ∈ u.instructions.entries, ∃ t, i.branch.targetIndexes? = some t ∧
    (∀ bit1 bit0, t.get bit1 bit0 < u.instructions.size) ∧ ∃ shape, i.branchShape? = some shape
  neighbors : u.wordRegs.entries.countP (needsNeighbor u.signals) ≤ u.definition.limits.nnBudget

variable {u u' : Alu} {id : SignalId} {s : Signal} {i : Instruction}

/-! ### Signals -/

/-- The pass makes no wire and no delayed signal. -/
theorem isInput_of_prepare (h : (u.prepare id s).IsInput) : s.IsInput := by
  cases hdead : u.isDead id s with
  | true =>
    rw [prepare_of_dead hdead] at h
    rcases h with h | h <;> cases h
  | false =>
    rw [prepare_of_not_dead hdead, withDefault_eq] at h
    exact h

/-- Registers and constants are bound by the pass. -/
theorem binding_of_stateful (h : u.Sound) (hok : assign u = .ok () u')
    (hs : u'.signals.get? id = some s)
    (hstate : s.behavior = .register ∨ s.behavior = .constant) : s.binding ≠ none := by
  obtain ⟨s₀, hs₀⟩ := exists_of_assign h hok hs
  obtain ⟨b, hb, -, hbound⟩ := get?_of_assign h hok hs₀
  rw [hs] at hb
  cases hb
  exact hbound (Behavior.isStateful_iff.mpr hstate)

/-- The operands of an instruction are bound by the pass, or were when the instruction came. -/
theorem Supplied.operand_of_assign (hu : u.Supplied) (h : u.Sound) (hok : assign u = .ok () u')
    (hi : i ∈ u.instructions.entries) (ho : id ∈ i.operandSignals) :
    ∃ s, u'.signals.get? id = some s ∧
      (s.IsInput ∨ s.behavior = .register ∨ s.behavior = .constant → s.binding ≠ none) := by
  obtain ⟨s, hs, hbound⟩ := hu.operands i hi id ho
  obtain ⟨b, hs', hkept, -⟩ := get?_of_assign h hok hs
  refine ⟨_, hs', ?_⟩
  rintro (hinput | hstate)
  · have hne := hbound (isInput_of_prepare hinput)
    show b ≠ none
    rwa [hkept hne]
  · exact binding_of_stateful h hok hs' hstate

/-! ### Branches -/

theorem size_of_assign (h : u.Sound) (hok : assign u = .ok () u') :
    u'.instructions.size = u.instructions.size := by
  obtain ⟨-, t, -, -, hf, -, -, -, rfl⟩ := assign_eq_ok h hok
  show (t.instructions.entries.zipIdx.map _).length = _
  rw [hf.instructions, List.length_map, List.length_zipIdx]
  rfl

/-- All targets of a resolved branch are in the program. -/
theorem targets_of_assign (h : u.Sound) (hok : assign u = .ok () u') {n : Nat}
    (hn : u.instructions.entries[n]? = some i) (hnew : i.branch.IsUnresolved) :
    ∃ t, (i.resolved u.branchSlots u.labels n).branch.targetIndexes? = some t ∧
      ∀ bit1 bit0, t.get bit1 bit0 < u.instructions.size := by
  have hres := isResolvable_of_assign h hok i (List.mem_of_getElem? hn)
  obtain ⟨t, ht, hget⟩ := Instruction.targetIndexes?_of_unresolved n hres hnew
  refine ⟨t, ht, fun bit1 bit0 => ?_⟩
  obtain ⟨l, -, hcarried, hdest⟩ := hget bit1 bit0
  rw [hdest]
  exact destination_lt (List.getElem?_eq_some_iff.mp hn).1 hcarried

/-- The shape of a branch is known once it is resolved, since the instruction knows its place. -/
theorem Supplied.branchShape?_of_resolved (hu : u.Supplied) {n : Nat} {t : Quad Nat}
    (hn : u.instructions.entries[n]? = some i)
    (ht : (i.resolved u.branchSlots u.labels n).branch.targetIndexes? = some t) :
    ∃ shape, (i.resolved u.branchSlots u.labels n).branchShape? = some shape := by
  have hindex : (i.resolved u.branchSlots u.labels n).index = some n := hu.index n i hn
  refine ⟨BranchShape.classify n t, ?_⟩
  simp [Instruction.branchShape?, hindex, ht]

/-- **A unit is complete once the pass answered**, if its branches came with labels only. -/
theorem Reachable.complete (h : Reachable u)
    (hnew : ∀ i ∈ u.instructions.entries, i.branch.IsUnresolved)
    (hok : assign u = .ok () u') : u'.Complete := by
  have hsound := h.sound
  have hsupplied := h.supplied (assign_eq_ok hsound hok).1
  constructor
  case stateful => exact fun id s hs hstate => binding_of_stateful hsound hok hs hstate
  case operands =>
    intro i hi call hcall o ho
    obtain ⟨n, inst, hinst, rfl⟩ := mem_of_assign hsound hok hi
    have hoperand : o ∈ inst.operandSignals := Instruction.mem_operandSignals.mpr ⟨call, hcall, ho⟩
    exact hsupplied.operand_of_assign hsound hok (List.mem_of_getElem? hinst) hoperand
  case latches =>
    intro i hi l hl
    have hlatched := (isLatched_of_assign hsound hok).mp ⟨i, hi, hl⟩
    obtain ⟨n, hlo, hhi, hbound⟩ := hsupplied.latch_address hsound.placed hlatched
    exact ⟨n, hlo, hhi, isBoundAt_of_assign hsound hok hbound⟩
  case destinations =>
    intro i hi d hd
    obtain ⟨n, inst, hinst, rfl⟩ := mem_of_assign hsound hok hi
    obtain ⟨s, -, hs, hreg, -⟩ := h.destination_of_assign hok (List.mem_of_getElem? hinst) hd
    exact ⟨s, hs, hreg⟩
  case targets =>
    intro i hi
    obtain ⟨n, inst, hinst, rfl⟩ := mem_of_assign hsound hok hi
    obtain ⟨t, ht, hlt⟩ :=
      targets_of_assign hsound hok hinst (hnew inst (List.mem_of_getElem? hinst))
    rw [size_of_assign hsound hok]
    exact ⟨t, ht, hlt, hsupplied.branchShape?_of_resolved hinst ht⟩
  case neighbors =>
    obtain ⟨-, t, -, -, -, -, hneighbors, -, rfl⟩ := assign_eq_ok hsound hok
    exact neighborFaults_eq_nil.mp hneighbors

/-- The calls of a unit with a dead register, a constant, a wire, a latch and a branch. -/
def fullCalls : List Call :=
  [.declare "a" .register .word, .declare "c" .constant .word, .declare "dead" .register .word,
    .declare "w" .wire .word, .declare "b" .branchCondition .bit, .edit (.setInitial ⟨8⟩ 5),
    .addConditionLogic ⟨11⟩ (.ofSignal ⟨2⟩),
    .addInstruction
      { label := some "loop"
        operation := some ⟨"add", [.signal ⟨8⟩, .signal ⟨10⟩]⟩
        destinations := { kind := .destinations, capacity := 9, entries := [⟨7⟩] }
        latches := { kind := .latches, capacity := 13, entries := [⟨10⟩] } },
    .addInstruction
      { branchSet := true
        branch := ⟨some ⟨11⟩, none, ⟨.next, .label "loop", .next, .label "loop"⟩⟩ }]

theorem complete_fullCalls :
    ∃ u', assign ((create "alu" .standard).run fullCalls) = .ok () u' ∧
      u'.instructions.size = 2 ∧ u'.Complete := by
  have h : Reachable ((create "alu" .standard).run fullCalls) :=
    (Reachable.new (.standard "alu")).run _
  have hok := assign_of_phase h.sound (by decide +kernel) (by decide +kernel)
  have hbranches : ((create "alu" .standard).run fullCalls).instructions.entries.map
      Instruction.branch =
        [{}, ⟨some ⟨11⟩, none, ⟨.next, .label "loop", .next, .label "loop"⟩⟩] := by decide +kernel
  refine ⟨_, hok, by decide +kernel, h.complete (fun i hi => ?_) hok⟩
  have hmem := List.mem_map_of_mem (f := Instruction.branch) hi
  rw [hbranches, List.mem_cons, List.mem_singleton] at hmem
  rcases hmem with hmem | hmem <;> rw [hmem]
  · exact ⟨.const none, rfl⟩
  · exact ⟨⟨none, some "loop", none, some "loop"⟩, rfl⟩

end Alu

end AluPlacement
