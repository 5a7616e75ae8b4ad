import AluPlacement.Proofs.Admission.Counts
import AluPlacement.Proofs.Placement.Reachable

/-! # The admission test is exact

The final pass on a reachable unit that is being built answers exactly if the admission test holds
(`Reachable.assign_isOk_iff`), whatever the order in which the signals were declared: the visits
report nothing exactly if the demand fits, the nearest neighbors are then those that the test
counts, and the branches are those of the program as it was built. -/

namespace AluPlacement

namespace Alu

variable {u t : Alu}

theorem neighborFaults_eq_nil : t.neighborFaults = [] ↔
    t.wordRegs.entries.countP (needsNeighbor t.signals) ≤ t.definition.limits.nnBudget := by
  have hlen : t.neighbors.length = t.wordRegs.entries.countP (needsNeighbor t.signals) := by
    unfold neighbors
    rw [List.length_map, List.countP_eq_length_filter]
  unfold neighborFaults
  rw [hlen]
  simp only
  split_ifs with h
  · exact ⟨fun _ => h, fun _ => rfl⟩
  · exact ⟨nofun, fun hc => absurd hc h⟩

theorem branchFaults_eq_nil : t.branchFaults = [] ↔
    (∀ i ∈ t.instructions.entries, ∀ c ∈ i.branch.conditions,
      ∃ e ∈ t.branches.entries, e.signal = c) ∧
    ∀ i ∈ t.instructions.entries, ∀ name, Target.label name ∈ i.branch.targets.toList →
      ∃ j ∈ t.instructions.entries, j.label = some name := by
  rw [branchFaults_eq_nil_iff_isResolvable]
  constructor
  · intro h
    exact ⟨fun i hi c hc => List.mem_map.mp ((h i hi).conditions c hc),
      fun i hi name hname => List.mem_map.mp ((h i hi).labels name hname)⟩
  · rintro ⟨hcond, hlabel⟩ i hi
    exact ⟨fun c hc => List.mem_map.mpr (hcond i hi c hc),
      fun name hname => List.mem_map.mpr (hlabel i hi name hname)⟩

theorem close_eq_ok_iff {ds : List Diagnostic} : (∃ u', t.close ds = .ok () u') ↔ ds = [] := by
  unfold close
  split_ifs with h
  · exact ⟨fun _ => h, fun _ => ⟨_, rfl⟩⟩
  · refine ⟨?_, fun hc => absurd hc h⟩
    rintro ⟨u', hu'⟩
    cases hu'

/-- The visits and the budget, with the counts of the test. -/
theorem visits_eq_nil_iff (h : u.Sound) (hp : u.InProgress) {unbound : List Diagnostic}
    (hcollect : (Edit.collect bindRemaining u.prepared.signals.ids :
      Edit Alu (List Diagnostic) _) u.prepared = .ok unbound t) (hf : Frame u t) :
    unbound = [] ∧ t.neighborFaults = [] ↔
      (u.wordIns.size + min u.wordValues.card 2 ≤ 13 ∧ u.liveRegisters.length + u.spilled ≤ 9 ∧
        u.logic.size + u.bitDemand ≤ 4) ∧
      (u.liveRegisters.filter (needsNeighbor u.signals)).length + u.spilled ≤
        u.definition.limits.nnBudget := by
  have hfits := collect_eq_nil_iff (ε := List Diagnostic) h.placed.prepared
    u.prepared.signals.nodup_ids fun id hid => Registry.mem_ids.mp hid
  have hunbound : unbound = [] ↔ u.prepared.Fits u.prepared.signals.ids := by
    rw [← hfits, hcollect]
    constructor
    · rintro rfl
      exact ⟨t, rfl⟩
    · rintro ⟨t', ht'⟩
      cases ht'
      rfl
  rw [← fits_prepared_iff hp, ← hunbound]
  refine and_congr_right fun hnil => ?_
  rw [hnil] at hcollect
  rw [neighborFaults_eq_nil, hf.definition, ← neighborTotal_prepared hp,
    neighborTotal_of_collect h.placed.prepared (isInitialized_prepared u)
      u.prepared.signals.nodup_ids (fun id hid => Registry.mem_ids.mp hid) hcollect]

/-- **The final pass answers exactly if the admission test holds.** -/
theorem Reachable.assign_isOk_iff (h : Reachable u) (hp : u.phase = .building) :
    (∃ u', assign u = .ok () u') ↔ u.Admissible := by
  have hsound := h.sound
  have hin := hsound.inProgress hp
  obtain ⟨unbound, t, hcollect, hf, hassign⟩ := assign_eq (hsound.ready hp) hp
  have hbranches : t.branches = u.branches := (branches_of_collect hcollect).trans rfl
  rw [hassign, close_eq_ok_iff, List.append_eq_nil_iff, List.append_eq_nil_iff,
    visits_eq_nil_iff hsound hin hcollect hf, branchFaults_eq_nil, hf.instructions, hbranches]
  constructor
  · rintro ⟨⟨⟨h1, h2, h3⟩, h4⟩, h5, h6⟩
    exact ⟨h1, h2, h3, h4, h5, h6⟩
  · rintro ⟨h1, h2, h3, h4, h5, h6⟩
    exact ⟨⟨⟨h1, h2, h3⟩, h4⟩, h5, h6⟩

/-- Three constants and no nearest neighbor: the third one finds no place. -/
def threeConstants : Alu :=
  (create "alu" { Definition.standard with limits := ⟨8, 0⟩ }).run
    [.declare "a" .constant .word, .declare "b" .constant .word, .declare "c" .constant .word,
      .edit (.setInitial ⟨7⟩ 5), .edit (.setInitial ⟨8⟩ 6), .edit (.setInitial ⟨9⟩ 7)]

theorem not_assign_threeConstants :
    Reachable threeConstants ∧ threeConstants.phase = .building ∧ threeConstants.spilled = 1 ∧
      ¬∃ u', assign threeConstants = .ok () u' := by
  have hlimits : Definition.withLimits ⟨8, 0⟩ =
      .ok { Definition.standard with limits := ⟨8, 0⟩ } := rfl
  have h : Reachable threeConstants := (Reachable.new (.limited "alu" hlimits)).run _
  have hp : threeConstants.phase = .building := by decide +kernel
  have hspilled : threeConstants.spilled = 1 := by decide +kernel
  refine ⟨h, hp, hspilled, fun hok => ?_⟩
  have hbudget := ((h.assign_isOk_iff hp).mp hok).neighbors
  have hzero : threeConstants.definition.limits.nnBudget = 0 := by decide +kernel
  omega

end Alu

end AluPlacement
