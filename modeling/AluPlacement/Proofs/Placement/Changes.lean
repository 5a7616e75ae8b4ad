import AluPlacement.Proofs.Block.Pass
import Mathlib.Logic.Relation

/-! # What calls do to the signals of a block or a unit

A call on a block or a unit changes its signals by calls on the registry and by bindings, and a pass
also fills in values and makes constants of registers (`Registry.Change`). Whatever these few
changes keep is kept by every call, so each such fact needs no look at the calls again.

A pass closes a block or a unit, and nothing else does (`phase_apply`). What the pass over a unit
looks up stays declared until then (`ready_apply`). -/

namespace AluPlacement

namespace Registry

/-- A change of the signals of a block or a unit. The last two are made by a pass only. -/
inductive Change (pass : Prop) (r : Registry) : Registry → Prop
  | call (c : Call) : Change pass r (c.apply r)
  | bind {r' : Registry} (h : r.Advances r') : Change pass r r'
  | fill (hpass : pass) : Change pass r r.applyDefaults
  | promote (hpass : pass) {ids : List SignalId}
      (h : ∀ id ∈ ids, ∃ s, r.get? id = some s ∧ s.behavior = .register ∧ s.binding = none) :
      Change pass r (r.promote ids)

/-- Any number of changes. -/
def Changes (pass : Prop) : Registry → Registry → Prop := Relation.ReflTransGen (Change pass)

variable {p q : Prop} {r r' r'' : Registry} {id : SignalId}

theorem Changes.bind (h : Changes p r r') (ha : r'.Advances r'') : Changes p r r'' :=
  Relation.ReflTransGen.tail h (.bind ha)

theorem Change.mono (h : Change p r r') (hpq : p → q) : Change q r r' := by
  cases h with
  | call c => exact .call c
  | bind ha => exact .bind ha
  | fill hp => exact .fill (hpq hp)
  | promote hp hids => exact .promote (hpq hp) hids

theorem Changes.mono (h : Changes p r r') (hpq : p → q) : Changes q r r' :=
  Relation.ReflTransGen.mono (fun _ _ hc => Change.mono hc hpq) r r' h

/-- No change takes a signal away. -/
theorem Change.contains (h : Change p r r') (hid : r.contains id = true) :
    r'.contains id = true := by
  have hsize : ∀ {r' : Registry}, r'.size = r.size → r'.contains id = true := by
    intro r' hsize
    unfold Registry.contains at hid ⊢
    rwa [hsize]
  cases h with
  | call c => exact (extends_apply c r).contains hid
  | bind ha => exact hsize ha.size
  | fill => exact hsize (size_applyDefaults r)
  | promote => exact hsize (size_promote _ r)

theorem Changes.contains (h : Changes p r r') (hid : r.contains id = true) :
    r'.contains id = true := by
  induction h with
  | refl => exact hid
  | tail _ hlast ih => exact hlast.contains ih

end Registry

/-! ### Blocks -/

namespace Block

variable {b b' : Block}

/-- What a call other than a pass can do to a block. -/
structure Builds (b b' : Block) : Prop where
  changes : Registry.Changes False b.signals b'.signals
  phase : b'.phase = b.phase

theorem builds_apply (b : Block) {c : Call} (hc : c ≠ .assign) : Builds b (c.apply b) := by
  cases c with
  | setLocation location => exact ⟨.refl, rfl⟩
  | declare name behavior dataType =>
    show Builds b ((Block.declare name behavior dataType).after b)
    rw [after_declare]
    exact ⟨.single (.call (.declare name behavior dataType)), rfl⟩
  | edit call => exact ⟨.single (.call call), rfl⟩
  | addRegister id f =>
    show Builds b ((Block.addRegister id f).after b)
    rcases addRegister_result b id f with ⟨e, he⟩ | ⟨a, s, hdrive, -, -, hok⟩
    · rw [Edit.after_of_error he]
      exact ⟨.refl, rfl⟩
    · rw [Edit.after_of_ok hok]
      exact ⟨.single (.bind (Registry.advances_place hdrive.declared hdrive.unbound _)), rfl⟩
  | assign => exact absurd rfl hc

theorem phase_assign (b : Block) : (assign.after b).phase ≠ .building := by
  by_cases hp : b.phase = .building
  · obtain ⟨ds, t, -, -, hassign⟩ := assign_eq (P := fun _ => True) hp trivial
      fun _ _ _ _ _ _ _ _ => trivial
    unfold close at hassign
    split_ifs at hassign
    · rw [Edit.after_of_ok hassign]
      nofun
    · rw [Edit.after_of_error hassign]
      nofun
  · rwa [Edit.after_of_error (assign_of_closed hp)]

/-- What a call on a block does to its signals. -/
theorem changes_apply (b : Block) (c : Call) :
    Registry.Changes (c = .assign) b.signals (c.apply b).signals := by
  by_cases hc : c = .assign
  · subst hc
    refine after_assign (P := fun t => Registry.Changes _ b.signals t.signals) .refl
      (fun _ => .single (.fill rfl)) ?_ fun _ _ _ ht => ht
    intro v id s hs hneeds _ _ hv
    exact hv.bind (Registry.advances_place hs (Signal.needsSlot_iff.mp hneeds).2 _)
  · exact (builds_apply b hc).changes.mono False.elim

/-- Only a pass closes a block. -/
theorem phase_apply (b : Block) (c : Call) :
    (c.apply b).phase = .building ↔ b.phase = .building ∧ c ≠ .assign := by
  by_cases hc : c = .assign
  · subst hc
    exact iff_of_false b.phase_assign fun h => h.2 rfl
  · rw [(builds_apply b hc).phase, and_iff_left hc]

end Block

/-! ### Units -/

namespace Alu

variable {u u' : Alu}

/-- What a call other than the pass can do to a unit. -/
structure Builds (u u' : Alu) : Prop extends Block.Builds u.toBlock u'.toBlock where
  wordRegs : u'.wordRegs = u.wordRegs
  conditions : ∀ i ∈ u'.instructions.entries,
    i ∈ u.instructions.entries ∨ ∀ c ∈ i.branch.conditions, u.signals.contains c = true

theorem Builds.refl (u : Alu) : Builds u u := ⟨⟨.refl, rfl⟩, rfl, fun _ hi => Or.inl hi⟩

theorem builds_added {i : Instruction} {pending : List SignalId} (h : u.Accepts i pending) :
    Builds u (u.added i pending) := by
  have hrest : u.KeepsRest (u.withInputs pending) := keepsRest_withInputs u pending
  unfold KeepsRest at hrest
  refine ⟨⟨.single (.bind h.supply.advances), ?_⟩, ?_, fun j hj => ?_⟩
  · show (u.withInputs pending).phase = u.phase
    rw [hrest]
  · show (u.withInputs pending).wordRegs = u.wordRegs
    rw [hrest]
  · rcases List.mem_append.mp hj with hj | hj
    · exact Or.inl hj
    · rw [List.mem_singleton.mp hj]
      exact Or.inr h.conditions

theorem builds_apply (u : Alu) {c : Call} (hc : c ≠ .assign) : Builds u (c.apply u) := by
  cases c with
  | setLocation location => exact ⟨⟨.refl, rfl⟩, rfl, fun _ hi => Or.inl hi⟩
  | declare name behavior dataType =>
    show Builds u ((Alu.declare name behavior dataType).after u)
    rw [after_declare]
    exact ⟨⟨.single (.call (.declare name behavior dataType)), rfl⟩, rfl, fun _ hi => Or.inl hi⟩
  | edit call => exact ⟨⟨.single (.call call), rfl⟩, rfl, fun _ hi => Or.inl hi⟩
  | addInstruction i =>
    show Builds u ((Alu.addInstruction i).after u)
    rcases addInstruction_result u i with ⟨e, he⟩ | ⟨pending, hi, hok⟩
    · rw [Edit.after_of_error he]
      exact .refl u
    · rw [Edit.after_of_ok hok]
      exact builds_added hi
  | addConditionLogic id f =>
    show Builds u ((Alu.addConditionLogic id f).after u)
    rcases addConditionLogic_result u id f with ⟨e, he⟩ | ⟨a, s, t, hdrive, -, hdrives, hok⟩
    · rw [Edit.after_of_error he]
      exact .refl u
    · rw [Edit.after_of_ok hok]
      have hplaced := Registry.advances_place hdrive.declared hdrive.unbound
      cases hdrives <;>
        exact ⟨⟨.single (.bind (hplaced _)), rfl⟩, rfl, fun _ hi => Or.inl hi⟩
  | addRegister id f =>
    show Builds u ((Alu.addRegister id f).after u)
    rcases addRegister_result u id f with ⟨e, he⟩ | ⟨a, s, hdrive, -, -, hok⟩
    · rw [Edit.after_of_error he]
      exact .refl u
    · rw [Edit.after_of_ok hok]
      have hplaced := Registry.advances_place hdrive.declared hdrive.unbound
      exact ⟨⟨.single (.bind (hplaced _)), rfl⟩, rfl, fun _ hi => Or.inl hi⟩
  | assign => exact absurd rfl hc

theorem phase_assign (h : u.phase = .building → u.Ready) :
    (Alu.assign.after u).phase ≠ .building := by
  by_cases hp : u.phase = .building
  · obtain ⟨_, t, phase, -, -, hphase, hafter⟩ := exists_after_assign (h hp) hp
    rw [hafter]
    exact hphase
  · rwa [Edit.after_of_error (assign_of_closed hp)]

/-- What a call on a unit does to its signals. -/
theorem changes_apply (h : u.phase = .building → u.Ready) (c : Call) :
    Registry.Changes (c = .assign) u.signals (c.apply u).signals := by
  by_cases hc : c = .assign
  · subst hc
    refine after_assign (P := fun t => Registry.Changes _ u.signals t.signals) h .refl
      fun _ t phase hcollect _ => ?_
    -- values are filled in, dead registers become constants, and then signals are bound
    have hfilled : Registry.Changes (Call.assign = .assign) u.signals u.signals.applyDefaults :=
      .single (.fill rfl)
    have hprepared : Registry.Changes (Call.assign = .assign) u.signals u.prepared.signals :=
      hfilled.tail (.promote rfl fun _ hid => register_of_mem_deadRegisters hid)
    have hvisits := advances_of_collect hcollect
    exact hprepared.bind hvisits
  · exact (builds_apply u hc).changes.mono False.elim

/-- Only a pass closes a unit. -/
theorem phase_apply (h : u.phase = .building → u.Ready) (c : Call) :
    (c.apply u).phase = .building ↔ u.phase = .building ∧ c ≠ .assign := by
  by_cases hc : c = .assign
  · subst hc
    exact iff_of_false (phase_assign h) fun h => h.2 rfl
  · rw [(builds_apply u hc).phase, and_iff_left hc]

/-- A unit that is being built stays ready for the pass. -/
theorem ready_apply (h : u.phase = .building → u.Ready) (c : Call) :
    (c.apply u).phase = .building → (c.apply u).Ready := by
  intro hp
  obtain ⟨hbuilding, hc⟩ := (phase_apply h c).mp hp
  obtain ⟨hregs, hconditions⟩ := h hbuilding
  have hbuilds := builds_apply u hc
  refine ⟨fun id hid => ?_, fun i hi c hcond => hbuilds.changes.contains ?_⟩
  · rw [hbuilds.wordRegs] at hid
    exact hbuilds.changes.contains (hregs id hid)
  · rcases hbuilds.conditions i hi with hi | hnew
    · exact hconditions i hi c hcond
    · exact hnew c hcond

end Alu

end AluPlacement
