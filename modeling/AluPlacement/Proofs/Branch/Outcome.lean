import AluPlacement.Proofs.Branch.Meaning
import Mathlib.Data.List.Forall2

/-! # The exact outcome of resolution

What resolution makes of a program of labels, and everything that it reports, said without the
functions that compute it:

* `Branch.TurnsInto`: the branch is turned round if one of its conditions is the register of the
  other bit and the other one is not;
* `Target.ResolvesTo`: each target becomes the index of the first instruction that carries its label,
  the next index round the end of the program, or `invalid`;
* `ListsUnknown`: the labels that no instruction carries, in the order of their first appearance in
  the table.

`IsResolution` puts these together for one instruction, and `resolveBranches_exact` says that every
instruction has such an outcome, reported in the order of the program. -/

namespace AluPlacement

/-! ### The order of the conditions -/

namespace Branch

variable {slots : List SignalId} {b : Branch}

/-- The condition is the signal in slot `n`, and in no slot before it. -/
def IsAt (slots : List SignalId) (cond : Option SignalId) (n : Nat) : Prop :=
  ∃ c, cond = some c ∧ slots[n]? = some c ∧ ∀ m < n, slots[m]? ≠ some c

/-- A condition is in the slot of the other bit, and the other condition is not in that slot. -/
def IsCrossed (slots : List SignalId) (b : Branch) : Prop :=
  (IsAt slots b.cond0 1 ∧ ¬IsAt slots b.cond1 1) ∨ (IsAt slots b.cond1 0 ∧ ¬IsAt slots b.cond0 0)

/-- The branch in the order of the slots: if it is crossed, the two conditions and the targets 1 and
2 are exchanged. -/
inductive TurnsInto (slots : List SignalId) (b : Branch) : Branch → Prop
  | same (h : ¬b.IsCrossed slots) : TurnsInto slots b b
  | exchanged (h : b.IsCrossed slots) : TurnsInto slots b
      ⟨b.cond1, b.cond0, ⟨b.targets.t0, b.targets.t2, b.targets.t1, b.targets.t3⟩⟩

theorem slot?_eq_some {cond : Option SignalId} {n : Nat} :
    slot? slots cond = some n ↔ IsAt slots cond n := by
  unfold slot? IsAt
  rw [Option.bind_eq_some_iff]
  refine exists_congr fun c => and_congr_right fun _ => ?_
  rw [List.idxOf?_eq_some_iff, List.getElem?_eq_some_iff]
  constructor
  · rintro ⟨hlt, hget, hfirst⟩
    refine ⟨⟨hlt, hget⟩, fun m hm hsome => ?_⟩
    obtain ⟨_, hget'⟩ := List.getElem?_eq_some_iff.mp hsome
    exact hfirst m hm hget'
  · rintro ⟨⟨hlt, hget⟩, hfirst⟩
    refine ⟨hlt, hget, fun m hm hget' => ?_⟩
    have hm' : m < slots.length := by omega
    exact hfirst m hm (List.getElem?_eq_some_iff.mpr ⟨hm', hget'⟩)

theorem isReversed_iff : b.isReversed slots = true ↔ b.IsCrossed slots := by
  simp only [isReversed, IsCrossed, Bool.or_eq_true, Bool.and_eq_true, beq_iff_eq, bne_iff_ne,
    ne_eq, slot?_eq_some]

theorem turnsInto_align (slots : List SignalId) (b : Branch) :
    b.TurnsInto slots (b.align slots) := by
  unfold align
  split_ifs with hreversed
  · exact .exchanged (isReversed_iff.mp hreversed)
  · exact .same fun hcrossed => hreversed (isReversed_iff.mpr hcrossed)

theorem unassigned_eq (slots : List SignalId) (b : Branch) :
    b.unassigned slots = b.conditions.filter (· ∉ slots) := by
  unfold unassigned
  refine List.filter_congr fun c _ => ?_
  simp

end Branch

/-! ### Targets -/

/-- What a target of instruction `i` becomes. -/
inductive Target.ResolvesTo (program : List Instruction) (i : Nat) : Target → Target → Prop
  | next : ResolvesTo program i .next (.index ((i + 1) % program.length))
  | carried {name : String} {j : Nat} {inst : Instruction} (hj : program[j]? = some inst)
      (hlabel : inst.label = some name)
      (hfirst : ∀ k < j, ∀ other, program[k]? = some other → other.label ≠ some name) :
      ResolvesTo program i (.label name) (.index j)
  | unknown {name : String} (h : ∀ inst ∈ program, inst.label ≠ some name) :
      ResolvesTo program i (.label name) .invalid

variable {program : List Instruction}

theorem indexOfLabel?_eq_some {name : String} {j : Nat}
    (h : indexOfLabel? (program.map Instruction.label) name = some j) :
    ∃ inst, program[j]? = some inst ∧ inst.label = some name ∧
      ∀ k < j, ∀ other, program[k]? = some other → other.label ≠ some name := by
  obtain ⟨hlt, hget, hfirst⟩ := List.idxOf?_eq_some_iff.mp h
  have hj : j < program.length := by simpa using hlt
  rw [List.getElem_map] at hget
  refine ⟨program[j], List.getElem?_eq_getElem hj, hget, fun k hk other hother hlabel => ?_⟩
  obtain ⟨hk', rfl⟩ := List.getElem?_eq_some_iff.mp hother
  exact hfirst k hk (by rw [List.getElem_map, hlabel])

theorem not_carried_iff {name : String} :
    some name ∉ program.map Instruction.label ↔ ∀ inst ∈ program, inst.label ≠ some name := by
  simp [List.mem_map]

theorem Target.resolvesTo_ofLabel? (program : List Instruction) (i : Nat) (label : Option String) :
    Target.ResolvesTo program i (ofLabel? label)
      ((ofLabel? label).resolve (program.map Instruction.label) i) := by
  cases label with
  | none =>
    simp only [ofLabel?, resolve, List.length_map]
    exact .next
  | some name =>
    simp only [ofLabel?, resolve]
    cases hj : indexOfLabel? (program.map Instruction.label) name with
    | some j =>
      obtain ⟨inst, hinst, hlabel, hfirst⟩ := indexOfLabel?_eq_some hj
      exact .carried hinst hlabel hfirst
    | none => exact .unknown (not_carried_iff.mp (indexOfLabel?_eq_none.mp hj))

/-! ### Unknown labels -/

/-- The labels of the table that no instruction carries, each once, in the order of their first
appearance. -/
structure ListsUnknown (program : List Instruction) (targets : Quad Target) (names : List String) :
    Prop where
  mem_iff : ∀ name, name ∈ names ↔
    .label name ∈ targets.toList ∧ ∀ inst ∈ program, inst.label ≠ some name
  nodup : names.Nodup
  ordered : names.Pairwise fun a b =>
    targets.toList.idxOf (.label a) < targets.toList.idxOf (.label b)

/-- Without repetitions, labels that are taken from a table stand in the order in which the table
first has them. -/
theorem pairwise_eraseDups : ∀ (targets : List Target) (f : Target → Option String),
    (∀ t name, f t = some name → t = .label name) →
      (targets.filterMap f).eraseDups.Pairwise fun a b =>
        targets.idxOf (.label a) < targets.idxOf (.label b)
  | [], _, _ => List.Pairwise.nil
  | t :: targets, f, hf => by
    -- a label of the rest that is not `t` comes one place later in the whole table
    have hshift : ∀ {l : List String}, (∀ a ∈ l, t ≠ .label a) →
        (l.Pairwise fun a b => targets.idxOf (.label a) < targets.idxOf (.label b)) →
        l.Pairwise fun a b =>
          (t :: targets).idxOf (.label a) < (t :: targets).idxOf (.label b) := by
      intro l hne hl
      refine hl.imp_of_mem fun ha hb hlt => ?_
      rw [List.idxOf_cons_ne _ (hne _ ha), List.idxOf_cons_ne _ (hne _ hb)]
      omega
    cases ht : f t with
    | none =>
      rw [List.filterMap_cons_none ht]
      refine hshift (fun a ha => ?_) (pairwise_eraseDups targets f hf)
      rintro rfl
      obtain ⟨t', -, ht'⟩ := List.mem_filterMap.mp (List.mem_eraseDups.mp ha)
      rw [← hf t' a ht', ht'] at ht
      cases ht
    | some name =>
      obtain rfl := hf t name ht
      rw [List.filterMap_cons_some ht, List.eraseDups_cons, List.filter_filterMap]
      have hne : ∀ a ∈ (targets.filterMap fun t => (f t).filter (!· == name)).eraseDups,
          Target.label name ≠ .label a := by
        intro a ha hname
        obtain ⟨t', -, ht'⟩ := List.mem_filterMap.mp (List.mem_eraseDups.mp ha)
        have hkept := (Option.filter_eq_some_iff.mp ht').2
        cases hname
        simp at hkept
      refine List.pairwise_cons.mpr ⟨fun a ha => ?_, hshift hne ?_⟩
      · rw [List.idxOf_cons_self, List.idxOf_cons_ne _ (hne a ha)]
        omega
      · refine pairwise_eraseDups targets _ fun t' a ht' => ?_
        exact hf t' a (Option.filter_eq_some_iff.mp ht').1

theorem unknownLabel?_eq_some {t : Target} {name : String} :
    t.unknownLabel? (program.map Instruction.label) = some name ↔
      t = .label name ∧ ∀ inst ∈ program, inst.label ≠ some name := by
  rw [← not_carried_iff, ← indexOfLabel?_eq_none]
  cases t with
  | label other =>
    simp only [Target.unknownLabel?, Option.isNone_iff_eq_none, Target.label.injEq]
    constructor
    · intro h
      split_ifs at h with hnone
      cases h
      exact ⟨rfl, hnone⟩
    · rintro ⟨rfl, hnone⟩
      exact if_pos hnone
  | _ => simp [Target.unknownLabel?]

theorem listsUnknown (program : List Instruction) (targets : Quad Target) :
    ListsUnknown program targets (unknownLabels (program.map Instruction.label) targets) := by
  have hordered := pairwise_eraseDups targets.toList
    (Target.unknownLabel? (program.map Instruction.label))
    fun t name ht => (unknownLabel?_eq_some.mp ht).1
  refine ⟨fun name => ?_, hordered.imp fun hlt heq => ?_, hordered⟩
  · simp only [unknownLabels, List.mem_eraseDups, List.mem_filterMap, unknownLabel?_eq_some]
    constructor
    · rintro ⟨t, ht, rfl, hnone⟩
      exact ⟨ht, hnone⟩
    · rintro ⟨ht, hnone⟩
      exact ⟨_, ht, rfl, hnone⟩
  · rw [heq] at hlt
    omega

/-! ### Instructions -/

/-- What resolution makes of instruction `i`, whose branch is turned into `turned`, and what it
reports: the conditions without a slot, the first one before the second, and then the labels that no
instruction carries, all at the location of the instruction. -/
structure IsResolution (signals : Registry) (slots : List SignalId) (program : List Instruction)
    (i : Nat) (inst : Instruction) (turned : Branch) (inst' : Instruction) (ds : List Diagnostic) :
    Prop where
  order : inst.branch.TurnsInto slots turned
  kept : inst' = { inst with branch := ⟨turned.cond0, turned.cond1, inst'.branch.targets⟩ }
  targets : ∀ bit1 bit0, Target.ResolvesTo program i (turned.targets.get bit1 bit0)
    (inst'.branch.targets.get bit1 bit0)
  reports : ∃ errors names,
    List.Forall₂ (fun c e => ∃ s, signals.get? c = some s ∧
        e = Error.unassignedBranchCondition i s.name)
      (inst.branch.conditions.filter (· ∉ slots)) errors ∧
    ListsUnknown program turned.targets names ∧
    ds = (errors ++ names.map Error.unknownLabel).map fun e => ⟨inst.location, e⟩

theorem Instruction.isResolution {signals : Registry} (slots : List SignalId)
    (program : List Instruction) (i : Nat) {inst : Instruction}
    (hunresolved : inst.branch.IsUnresolved)
    (hdeclared : ∀ c ∈ inst.branch.conditions, signals.contains c = true) :
    IsResolution signals slots program i inst (inst.branch.align slots)
      (inst.resolved slots (program.map Instruction.label) i)
      ((inst.faults signals slots (program.map Instruction.label) i).map
        fun e => e.located inst.location) where
  order := Branch.turnsInto_align slots inst.branch
  kept := rfl
  targets := by
    intro bit1 bit0
    obtain ⟨labels, hlabels⟩ := hunresolved.align slots
    simp only [Instruction.resolved, hlabels, Quad.get_map]
    exact Target.resolvesTo_ofLabel? program i _
  reports := by
    refine ⟨_, _, ?_, listsUnknown program (inst.branch.align slots).targets, rfl⟩
    rw [← Branch.unassigned_eq, List.forall₂_map_right_iff, List.forall₂_same]
    intro c hc
    obtain ⟨s, hs⟩ := Registry.contains_iff.mp (hdeclared c (List.mem_filter.mp hc).1)
    exact ⟨s, hs, by simp [Registry.name?, hs]⟩

theorem Instruction.isResolvable_iff {slots : List SignalId} {inst : Instruction} :
    inst.IsResolvable slots (program.map Instruction.label) ↔
      (∀ c ∈ inst.branch.conditions, c ∈ slots) ∧
        ∀ name, .label name ∈ inst.branch.targets.toList →
          ∃ other ∈ program, other.label = some name := by
  constructor
  · intro h
    exact ⟨h.conditions, fun name hname => List.mem_map.mp (h.labels name hname)⟩
  · rintro ⟨hconditions, hlabels⟩
    exact ⟨hconditions, fun name hname => List.mem_map.mpr (hlabels name hname)⟩

/-! ### Programs -/

/-- **The exact outcome of resolution.** A program of labels whose conditions are declared is always
resolved, every instruction as `IsResolution` says, and the reports come in the order of the
instructions. There are none exactly if every condition has a slot and every label is carried. -/
theorem resolveBranches_exact {ε : Type} (signals : Registry) (slots : List SignalId)
    (program : List Instruction) (hunresolved : ∀ inst ∈ program, inst.branch.IsUnresolved)
    (hdeclared : ∀ inst ∈ program, ∀ c ∈ inst.branch.conditions, signals.contains c = true) :
    ∃ (program' : List Instruction) (reports : List (List Diagnostic)),
      (resolveBranches signals slots program : Checked ε _) = .ok (program', reports.flatten) ∧
      program'.length = program.length ∧ reports.length = program.length ∧
      (∀ i inst, program[i]? = some inst → ∃ turned inst' ds, program'[i]? = some inst' ∧
        reports[i]? = some ds ∧ IsResolution signals slots program i inst turned inst' ds) ∧
      (reports.flatten = [] ↔ ∀ inst ∈ program, (∀ c ∈ inst.branch.conditions, c ∈ slots) ∧
        ∀ name, .label name ∈ inst.branch.targets.toList →
          ∃ other ∈ program, other.label = some name) := by
  have hresolve : (resolveBranches signals slots program : Checked ε _) = .ok _ :=
    resolveBranches_eq fun inst hinst c hc => hdeclared inst hinst c (List.mem_filter.mp hc).1
  refine ⟨_, _, hresolve, by simp, by simp, fun i inst hi => ?_, ?_⟩
  · have hmem := List.mem_of_getElem? hi
    refine ⟨_, inst.resolved slots _ i, _, by simp [hi], ?_,
      Instruction.isResolution slots program i (hunresolved inst hmem) (hdeclared inst hmem)⟩
    simp [hi]
  · simp only [List.flatten_eq_nil_iff, List.forall_mem_map, List.map_eq_nil_iff,
      Instruction.faults_eq_nil, Instruction.isResolvable_iff]
    constructor
    · intro h inst hinst
      obtain ⟨i, hi⟩ := List.mem_iff_getElem?.mp hinst
      exact h (inst, i) (List.mk_mem_zipIdx_iff_getElem?.mpr hi)
    · intro h p hp
      exact h p.1 (List.fst_mem_of_mem_zipIdx hp)

/-- Two branch registers and a condition that got none. -/
def straySignals : Registry :=
  ⟨[{ name := "b0", dataType := .bit, behavior := .branchCondition },
    { name := "b1", dataType := .bit, behavior := .branchCondition },
    { name := "c", dataType := .bit, behavior := .wire }]⟩

/-- A crossed branch to two labels that nobody carries, and one to a label that is carried twice on a
condition without a slot. -/
def strayProgram : List Instruction :=
  [{ label := some "top", location := ⟨none, 1⟩, branch :=
      ⟨some ⟨1⟩, some ⟨0⟩, ⟨.next, .label "gone", .label "lost", .label "gone"⟩⟩ },
    { location := ⟨none, 2⟩, branch :=
      ⟨some ⟨2⟩, none, ⟨.label "top", .next, .label "top", .next⟩⟩ },
    { label := some "top", location := ⟨none, 3⟩ }]

/-- The labels are reported in the order of the exchanged table, the repeated one is the index of its
first instruction, and the last instruction continues at the first one. -/
theorem resolveBranches_exact_stray :
    ∃ (program' : List Instruction) (reports : List (List Diagnostic)),
      (resolveBranches straySignals [⟨0⟩, ⟨1⟩] strayProgram : Checked Error _) =
        .ok (program', reports.flatten) ∧
      program'.map Instruction.branch =
        [⟨some ⟨0⟩, some ⟨1⟩, ⟨.index 1, .invalid, .invalid, .invalid⟩⟩,
          ⟨some ⟨2⟩, none, ⟨.index 0, .index 2, .index 0, .index 2⟩⟩,
          ⟨none, none, ⟨.index 0, .index 0, .index 0, .index 0⟩⟩] ∧
      reports.flatten = [⟨⟨none, 1⟩, .unknownLabel "lost"⟩, ⟨⟨none, 1⟩, .unknownLabel "gone"⟩,
        ⟨⟨none, 2⟩, .unassignedBranchCondition 1 "c"⟩] ∧
      ∀ i inst, strayProgram[i]? = some inst → ∃ turned inst' ds, program'[i]? = some inst' ∧
        reports[i]? = some ds ∧
          IsResolution straySignals [⟨0⟩, ⟨1⟩] strayProgram i inst turned inst' ds := by
  have hunresolved : ∀ inst ∈ strayProgram, inst.branch.IsUnresolved := by
    simp only [strayProgram, List.forall_mem_cons]
    exact ⟨⟨⟨none, some "gone", some "lost", some "gone"⟩, rfl⟩,
      ⟨⟨some "top", none, some "top", none⟩, rfl⟩, ⟨⟨none, none, none, none⟩, rfl⟩,
      List.forall_mem_nil _⟩
  obtain ⟨program', reports, hok, -, -, hresolution, -⟩ :=
    resolveBranches_exact straySignals [⟨0⟩, ⟨1⟩] strayProgram hunresolved (by decide +kernel)
  have hvalue : (resolveBranches straySignals [⟨0⟩, ⟨1⟩] strayProgram : Checked Error _) =
      .ok (_, _) := rfl
  obtain ⟨rfl, hreports⟩ := Prod.ext_iff.mp (Except.ok.inj (hok.symm.trans hvalue))
  exact ⟨_, reports, hok, rfl, hreports, hresolution⟩

end AluPlacement
