import AluPlacement.Branch.Resolution
import AluPlacement.Proofs.Edit
import Mathlib.Tactic.SplitIfs

/-! # What resolution computes

Resolution asks for names only to report conditions without a slot. With the conditions declared it
is a plain function of the program: instruction `i` becomes `Instruction.resolved slots labels i`,
and its faults are those of `Instruction.faults` (`resolveBranches_eq`). Nothing is reported exactly
if every instruction is resolvable: its conditions are in slots and its labels are carried by
instructions (`resolveBranches_eq_nil`). -/

namespace AluPlacement

namespace Instruction

/-- The instruction with its branch in the form of the hardware. -/
def resolved (slots : List SignalId) (labels : List (Option String)) (i : Nat)
    (inst : Instruction) : Instruction :=
  let aligned := inst.branch.align slots
  { inst with branch := { aligned with targets := aligned.targets.map (Target.resolve labels i) } }

/-- The errors in the branch of instruction `i`. -/
def faults (signals : Registry) (slots : List SignalId) (labels : List (Option String)) (i : Nat)
    (inst : Instruction) : List Error :=
  (inst.branch.unassigned slots).map
      (fun c => .unassignedBranchCondition i ((signals.name? c).getD "")) ++
    (unknownLabels labels (inst.branch.align slots).targets).map .unknownLabel

/-- The conditions are in slots and the labels are carried by instructions. -/
structure IsResolvable (slots : List SignalId) (labels : List (Option String))
    (inst : Instruction) : Prop where
  conditions : ∀ c ∈ inst.branch.conditions, c ∈ slots
  labels : ∀ name, Target.label name ∈ inst.branch.targets.toList → some name ∈ labels

end Instruction

theorem Branch.mem_targets_align (slots : List SignalId) (b : Branch) (t : Target) :
    t ∈ (b.align slots).targets.toList ↔ t ∈ b.targets.toList := by
  unfold Branch.align
  split_ifs
  · simp only [Branch.swapped, Quad.swapBits, Quad.toList, List.mem_cons, List.not_mem_nil,
      or_false]
    grind
  · exact Iff.rfl

theorem Branch.unassigned_eq_nil {slots : List SignalId} {b : Branch} :
    b.unassigned slots = [] ↔ ∀ c ∈ b.conditions, c ∈ slots := by
  simp [Branch.unassigned, List.filter_eq_nil_iff]

theorem indexOfLabel?_eq_none {labels : List (Option String)} {name : String} :
    indexOfLabel? labels name = none ↔ some name ∉ labels :=
  List.idxOf?_eq_none_iff

theorem unknownLabels_eq_nil {labels : List (Option String)} {targets : Quad Target} :
    unknownLabels labels targets = [] ↔
      ∀ name, Target.label name ∈ targets.toList → some name ∈ labels := by
  have hdups : ∀ l : List String, l.eraseDups = [] ↔ l = [] := by
    intro l
    cases l <;> simp [List.eraseDups_cons]
  unfold unknownLabels
  rw [hdups, List.filterMap_eq_nil_iff]
  constructor
  · intro h name hmem
    have hnone := h _ hmem
    simp only [Target.unknownLabel?, ite_eq_right_iff, reduceCtorEq, imp_false,
      Option.isNone_iff_eq_none] at hnone
    exact Classical.not_not.mp fun hn => hnone (indexOfLabel?_eq_none.mpr hn)
  · intro h t hmem
    cases t with
    | label name =>
      have hne : indexOfLabel? labels name ≠ none := fun hn =>
        indexOfLabel?_eq_none.mp hn (h name hmem)
      simpa [Target.unknownLabel?, Option.isNone_iff_eq_none] using hne
    | _ => rfl

namespace Instruction

variable {ε : Type} {signals : Registry} {slots : List SignalId} {labels : List (Option String)}

theorem faults_eq_nil {i : Nat} {inst : Instruction} :
    inst.faults signals slots labels i = [] ↔ inst.IsResolvable slots labels := by
  unfold faults
  rw [List.append_eq_nil_iff, List.map_eq_nil_iff, List.map_eq_nil_iff, Branch.unassigned_eq_nil,
    unknownLabels_eq_nil]
  simp only [Branch.mem_targets_align]
  exact ⟨fun h => ⟨h.1, h.2⟩, fun h => ⟨h.conditions, h.labels⟩⟩

theorem requireProgram_eq_ok (h : labels ≠ []) (targets : Quad Target) :
    (requireProgram labels targets : Checked ε Unit) = .ok () :=
  if_neg fun hempty => h hempty.1

theorem resolve_eq {i : Nat} {inst : Instruction} (hlabels : labels ≠ [])
    (h : ∀ c ∈ inst.branch.unassigned slots, signals.contains c = true) :
    (inst.resolve signals slots labels i : Checked ε _) =
      .ok (inst.resolved slots labels i,
        (inst.faults signals slots labels i).map fun e => e.located inst.location) := by
  have hnames : ((inst.branch.unassigned slots).mapM (unassignedError signals i) :
      Checked ε (List Error)) = .ok ((inst.branch.unassigned slots).map
        fun c => .unassignedBranchCondition i ((signals.name? c).getD "")) := by
    refine Checked.mapM_eq_ok fun c hc => ?_
    obtain ⟨s, hs⟩ := Registry.contains_iff.mp (h c hc)
    have hname : (signals.name c : Checked ε String) = .ok s.name :=
      Checked.bind_eq_ok.mpr ⟨s, Registry.get_eq_ok.mpr hs, rfl⟩
    refine Checked.bind_eq_ok.mpr ⟨s.name, hname, ?_⟩
    simp only [Registry.name?, hs, Option.map_some, Option.getD_some]
    rfl
  refine Checked.bind_eq_ok.mpr ⟨_, hnames, ?_⟩
  exact Checked.bind_eq_ok.mpr ⟨(), requireProgram_eq_ok hlabels _, rfl⟩

/-- Nothing is reported only if every condition has a slot. -/
theorem unassigned_of_resolve {i : Nat} {inst inst' : Instruction}
    (h : (inst.resolve signals slots labels i : Checked ε _) = .ok (inst', [])) :
    inst.branch.unassigned slots = [] := by
  obtain ⟨errors, herrors, h⟩ := Checked.bind_eq_ok.mp h
  obtain ⟨-, -, h⟩ := Checked.bind_eq_ok.mp h
  have hnil : errors = [] := by
    have := (Prod.mk.inj (Except.ok.inj h)).2
    exact (List.append_eq_nil_iff.mp (List.map_eq_nil_iff.mp this)).1
  cases hu : inst.branch.unassigned slots with
  | nil => rfl
  | cons c cs =>
    rw [hu, List.mapM_cons, hnil] at herrors
    obtain ⟨e, -, herrors⟩ := Checked.bind_eq_ok.mp herrors
    obtain ⟨es, -, herrors⟩ := Checked.bind_eq_ok.mp herrors
    cases herrors

end Instruction

variable {ε : Type} {signals : Registry} {slots : List SignalId} {program : List Instruction}

/-- **Resolution with declared conditions.** -/
theorem resolveBranches_eq
    (h : ∀ inst ∈ program, ∀ c ∈ inst.branch.unassigned slots, signals.contains c = true) :
    (resolveBranches signals slots program : Checked ε _) =
      .ok (program.zipIdx.map fun p => p.1.resolved slots (program.map Instruction.label) p.2,
        program.zipIdx.flatMap fun p =>
          (p.1.faults signals slots (program.map Instruction.label) p.2).map
            fun e => e.located p.1.location) := by
  have hlabels : ∀ inst ∈ program, program.map Instruction.label ≠ [] := by
    intro inst hinst hnil
    exact List.ne_nil_of_mem hinst (List.map_eq_nil_iff.mp hnil)
  have hall : (program.zipIdx.mapM fun p =>
      p.1.resolve signals slots (program.map Instruction.label) p.2 : Checked ε _) = .ok _ :=
    Checked.mapM_eq_ok fun p hp =>
      have hmem := List.fst_mem_of_mem_zipIdx hp
      Instruction.resolve_eq (hlabels p.1 hmem) (h p.1 hmem)
  refine Checked.bind_eq_ok.mpr ⟨_, hall, ?_⟩
  simp only [List.map_map, List.flatMap_map]
  rfl

/-- **Nothing is reported exactly if every instruction is resolvable.** -/
theorem resolveBranches_eq_nil {program' : List Instruction} :
    (resolveBranches signals slots program : Checked ε _) = .ok (program', []) ↔
      (∀ inst ∈ program, inst.IsResolvable slots (program.map Instruction.label)) ∧
        program' = program.zipIdx.map
          fun p => p.1.resolved slots (program.map Instruction.label) p.2 := by
  have hunassigned : ((resolveBranches signals slots program : Checked ε _) = .ok (program', []) ∨
      ∀ inst ∈ program, inst.IsResolvable slots (program.map Instruction.label)) →
      ∀ inst ∈ program, inst.branch.unassigned slots = [] := by
    rintro (h | h) inst hinst
    · obtain ⟨rs, hrs, h⟩ := Checked.bind_eq_ok.mp h
      have hnil : rs.flatMap Prod.snd = [] := (Prod.mk.inj (Except.ok.inj h)).2
      obtain ⟨i, hi⟩ := List.mem_iff_getElem?.mp hinst
      obtain ⟨⟨inst', ds⟩, hr, hres⟩ := Checked.exists_of_mapM hrs (inst, i)
        (List.mk_mem_zipIdx_iff_getElem?.mpr hi)
      have hds : ds = [] := List.flatMap_eq_nil_iff.mp hnil (inst', ds) hr
      rw [hds] at hres
      exact Instruction.unassigned_of_resolve hres
    · exact Branch.unassigned_eq_nil.mpr (h inst hinst).conditions
  constructor
  · intro h
    have hu := hunassigned (Or.inl h)
    rw [resolveBranches_eq fun inst hinst c hc => by rw [hu inst hinst] at hc; cases hc] at h
    obtain ⟨rfl, hnil⟩ := Prod.mk.inj (Except.ok.inj h)
    refine ⟨fun inst hinst => ?_, rfl⟩
    obtain ⟨i, hi⟩ := List.mem_iff_getElem?.mp hinst
    have := List.flatMap_eq_nil_iff.mp hnil (inst, i) (List.mk_mem_zipIdx_iff_getElem?.mpr hi)
    exact Instruction.faults_eq_nil.mp (List.map_eq_nil_iff.mp this)
  · rintro ⟨h, rfl⟩
    have hu := hunassigned (Or.inr h)
    rw [resolveBranches_eq fun inst hinst c hc => by rw [hu inst hinst] at hc; cases hc]
    refine congrArg Except.ok (Prod.ext rfl (List.flatMap_eq_nil_iff.mpr fun p hp => ?_))
    rw [Instruction.faults_eq_nil.mpr (h p.1 (List.fst_mem_of_mem_zipIdx hp))]
    rfl

end AluPlacement
