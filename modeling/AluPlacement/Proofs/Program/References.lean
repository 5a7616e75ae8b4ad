import AluPlacement.Proofs.Block.Slots
import AluPlacement.Proofs.Logic.Stored
import AluPlacement.Proofs.Program.Invariant
import AluPlacement.Proofs.Signal.Reachable

/-! # The signals that a unit refers to

A unit refers to its signals by identifiers: in its pools, in the functions that it stores, in the
instructions of its program and in the origins of derived signals. All of these identifiers are of
signals of the unit, whatever calls lead to it (`Alu.Reachable.references_declared`), and the same
holds of a block of condition logic that stands alone (`Block.references_declared`). -/

namespace AluPlacement

/-- The signals that an instruction names. -/
def Instruction.references (i : Instruction) : List SignalId :=
  i.destinations.entries ++ i.overrides.entries.map Prod.fst ++ i.latches.entries ++
    i.operandSignals ++ i.branch.conditions

theorem Instruction.forall_references {i : Instruction} {P : SignalId → Prop}
    (hdestinations : ∀ d ∈ i.destinations.entries, P d)
    (hoverrides : ∀ o ∈ i.overrides.entries, P o.1) (hlatches : ∀ l ∈ i.latches.entries, P l)
    (hoperands : ∀ o ∈ i.operandSignals, P o) (hconditions : ∀ c ∈ i.branch.conditions, P c) :
    ∀ id ∈ i.references, P id := by
  intro id hid
  simp only [references, List.mem_append] at hid
  rcases hid with (((hid | hid) | hid) | hid) | hid
  · exact hdestinations id hid
  · obtain ⟨o, ho, rfl⟩ := List.mem_map.mp hid
    exact hoverrides o ho
  · exact hlatches id hid
  · exact hoperands id hid
  · exact hconditions id hid

/-- The signal and the arguments of the function that drives it. -/
def DrivenSignal.references (e : DrivenSignal) : List SignalId := e.signal :: e.logic.args

/-- The signals that others are derived from. -/
def Registry.references (r : Registry) : List SignalId :=
  r.signals.filterMap fun s => s.origin.base?

/-- The signals that a block refers to. -/
def Block.references (b : Block) : List SignalId :=
  b.signals.references ++ b.logic.entries.flatMap DrivenSignal.references

/-- The signals that a unit refers to. -/
def Alu.references (u : Alu) : List SignalId :=
  u.signals.references ++ u.stored.flatMap DrivenSignal.references ++ u.wordRegs.entries ++
    u.wordIns.entries ++ u.carryIns.entries ++ u.constants.entries ++ u.builtin0.toList ++
    u.builtin1.toList ++ u.builtinFFFF.toList ++
    u.instructions.entries.flatMap Instruction.references

/-! ### Bases -/

namespace Registry

variable {r : Registry}

theorem contains_of_get? {id : SignalId} {P : Signal → Prop}
    (h : ∃ s, r.get? id = some s ∧ P s) : r.contains id = true := by
  obtain ⟨s, hs, -⟩ := h
  exact contains_iff.mpr ⟨s, hs⟩

theorem HasBases.contains (h : r.HasBases) {id : SignalId} (hid : id ∈ r.references) :
    r.contains id = true := by
  obtain ⟨s, hs, hbase⟩ := List.mem_filterMap.mp hid
  obtain ⟨i, hi⟩ := List.mem_iff_getElem?.mp hs
  exact h ⟨i⟩ s id hi hbase

end Registry

/-! ### Blocks -/

namespace Block

variable {b : Block}

theorem Placed.contains_of_entry (h : b.Placed) {e : DrivenSignal} (he : e ∈ b.logic.entries) :
    b.signals.contains e.signal = true := by
  obtain ⟨i, hi⟩ := mem_entries_iff.mp ⟨e, he, rfl⟩
  have ha := (h.address e.signal _).mpr ⟨i, hi, rfl⟩
  obtain ⟨s, hs, -⟩ := Registry.address?_eq_some.mp ha
  exact Registry.contains_iff.mpr ⟨s, hs⟩

/-- **A block refers to its own signals only.** -/
theorem references_declared (name : String) (calls : List Call) :
    ∀ id ∈ (run { name := name } calls).references,
      (run { name := name } calls).signals.contains id = true := by
  have hbases := (Registry.Reachable.of_block name calls).lineage.named.hasBases
  have hstores : Stores (fun _ => True) { name := name } :=
    fun e he => absurd he List.not_mem_nil
  intro id hid
  rcases List.mem_append.mp hid with hid | hid
  · exact hbases.contains hid
  · obtain ⟨e, he, hid⟩ := List.mem_flatMap.mp hid
    rcases List.mem_cons.mp hid with rfl | hid
    · exact ((placed_new name).run calls).contains_of_entry he
    · have hpasses : ∀ c ∈ calls, c.Passes fun _ => True := by
        intro c _
        cases c <;> trivial
      exact (hstores.run (fun _ => trivial) hpasses e he).declared id hid

end Block

/-! ### Units with a program -/

namespace Alu

variable {u : Alu} {id : SignalId}

/-- Every function that a unit stores reads declared signals only. -/
theorem Reachable.stores (h : Reachable u) : u.Stores fun _ => True := by
  induction h with
  | new h =>
    obtain ⟨name, definition, rfl⟩ := h.eq_create
    exact stores_create name definition
  | call hu c ih =>
    have hpasses : c.Passes fun _ => True := by
      cases c <;> trivial
    exact ih.apply (fun _ => trivial) hu.sound hpasses

/-- Whoever holds a resource is a signal of the unit. -/
theorem Placed.contains_of_holder (h : u.Placed) {r : Resource} (hd : r.dataType? ≠ none)
    (ht : u.holder? r = some id) : u.signals.contains id = true := by
  obtain ⟨p, hp, -⟩ := h.holder r id hd ht
  obtain ⟨s, hs, -⟩ := Registry.bound?_eq_some.mp hp
  exact Registry.contains_iff.mpr ⟨s, hs⟩

theorem Placed.contains_of_slot (h : u.Placed) (family : Family) (ht : id ∈ u.slots family) :
    u.signals.contains id = true := by
  have hslot : ∀ family : Family, family ≠ .constant → id ∈ u.slots family →
      u.signals.contains id = true := by
    intro family hne ht
    obtain ⟨i, hi⟩ := mem_slots_iff.mp ht
    refine h.contains_of_holder (fun hd => ?_) hi
    obtain ⟨j, hj⟩ := Resource.eq_constant_slot hd
    exact hne (Resource.slot.inj hj).1
  by_cases hf : family = .constant
  · -- a slot of the constants has no address: its signal is bound to a word input
    subst hf
    exact hslot .wordIn nofun (h.constants id ht)
  · exact hslot family hf ht

theorem Placed.contains_of_stored (h : u.Placed) {e : DrivenSignal} (he : e ∈ u.stored) :
    u.signals.contains e.signal = true := by
  simp only [stored, drivers, List.mem_append, Option.mem_toList] at he
  rcases he with he | (he | he) | he
  · exact h.contains_of_slot .conditionLogic (List.mem_map_of_mem he)
  · exact h.contains_of_slot .branch (List.mem_map_of_mem he)
  · refine h.contains_of_holder (r := .condBypass) (Option.some_ne_none _) ?_
    rw [holder?, he, Option.map_some]
  · refine h.contains_of_holder (r := .condUpdate) (Option.some_ne_none _) ?_
    rw [holder?, he, Option.map_some]

theorem Uses.contains {i : Instruction} (h : u.Uses i) :
    ∀ id ∈ i.references, u.signals.contains id = true :=
  Instruction.forall_references
    (fun d hd => Registry.contains_of_get? (h.destinations d hd))
    (fun o ho => Registry.contains_of_get? (h.overrides o ho))
    (fun l hl => by
      obtain ⟨s, a, hs, -⟩ := h.latches l hl
      exact Registry.contains_iff.mpr ⟨s, hs⟩)
    h.operands h.conditions

/-- **A unit refers to its own signals only.** -/
theorem Reachable.references_declared (h : Reachable u) :
    ∀ id ∈ u.references, u.signals.contains id = true := by
  have hplaced := h.sound.placed
  have hbases := (Registry.Reachable.of_unit h).lineage.named.hasBases
  have hbuiltin : ∀ {r : Resource} {id : SignalId}, r.dataType? ≠ none → id ∈ (u.holder? r).toList →
      u.signals.contains id = true := fun hd hid =>
    hplaced.contains_of_holder hd (Option.mem_toList.mp hid)
  intro id hid
  simp only [references, List.mem_append] at hid
  rcases hid with (((((((((hid | hid) | hid) | hid) | hid) | hid) | hid) | hid) | hid) | hid)
  · exact hbases.contains hid
  · obtain ⟨e, he, hid⟩ := List.mem_flatMap.mp hid
    rcases List.mem_cons.mp hid with rfl | hid
    · exact hplaced.contains_of_stored he
    · exact (h.stores e he).declared id hid
  · exact hplaced.contains_of_slot .wordReg hid
  · exact hplaced.contains_of_slot .wordIn hid
  · exact hplaced.contains_of_slot .carryIn hid
  · exact hplaced.contains_of_slot .constant hid
  · exact hbuiltin (r := .builtin0) (Option.some_ne_none _) hid
  · exact hbuiltin (r := .builtin1) (Option.some_ne_none _) hid
  · exact hbuiltin (r := .builtinFFFF) (Option.some_ne_none _) hid
  · obtain ⟨i, hi, hid⟩ := List.mem_flatMap.mp hid
    exact (h.wellFormed.uses i hi).contains id hid

end Alu

end AluPlacement
