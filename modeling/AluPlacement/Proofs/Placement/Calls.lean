import AluPlacement.Proofs.Placement.Inputs

/-! # What the calls that bind do

The calls that add to a unit check every rule before they write, so each of them happens as a whole
or changes nothing. For each there is one lemma that says when it happens and what it does then:
`addRegister_result`, `addConditionLogic_result` and `addInstruction_result`. No later proof opens
these calls again. -/

namespace AluPlacement

/-! ### Bit registers -/

namespace Block

variable {b : Block} {id : SignalId} {f : TruthFn}

/-- The signal may be bound to a slot with this function. -/
structure CanDrive (b : Block) (id : SignalId) (f : TruthFn) (s : Signal) : Prop where
  building : b.phase = .building
  declared : b.signals.get? id = some s
  dataType : s.dataType = .bit
  unbound : s.binding = none
  args : ∀ a ∈ f.args, b.signals.contains a = true

theorem requireBuilding_of_closed (h : b.phase ≠ .building) :
    b.requireBuilding = .error (.refused (.alreadyAssigned b.name)) := if_neg h

theorem requireBit_eq_ok {a : Unit} (h : b.requireBit id = .ok a) :
    ∃ s, b.signals.get? id = some s ∧ s.dataType = .bit := by
  obtain ⟨_, -, h⟩ := Checked.bind_eq_ok.mp h
  obtain ⟨s, hs, h⟩ := Checked.bind_eq_ok.mp h
  exact ⟨s, Registry.get_eq_ok.mp hs, Checked.require_eq_ok.mp h⟩

theorem contains_of_requireBitArgs {a : Unit} (h : b.requireBitArgs f = .ok a) :
    ∀ x ∈ f.args, b.signals.contains x = true := by
  intro x hx
  obtain ⟨s, hs, -⟩ := requireBit_eq_ok (Checked.forM_eq_ok h x hx)
  exact Registry.contains_iff.mpr ⟨s, hs⟩

/-- What the checks of driven signals have in common: the signal is a bit of these behaviors, it has
no binding, and the function is one of declared bits. -/
def checkTarget (b : Block) (T : Behavior → Prop) [DecidablePred T] (expected : String)
    (id : SignalId) (f : TruthFn) : Checked Error Behavior := do
  b.requireBuilding
  b.requireBit id
  let s ← b.signals.get id
  Checked.require (T s.behavior) (.wrongBehavior s.name expected)
  b.signals.requireUnbound id
  b.requireBitArgs f
  return s.behavior

theorem checkTarget_eq_ok {T : Behavior → Prop} [DecidablePred T] {expected : String}
    {behavior : Behavior} (h : b.checkTarget T expected id f = .ok behavior) :
    ∃ s, b.CanDrive id f s ∧ s.behavior = behavior ∧ T behavior := by
  obtain ⟨_, hbuild, h⟩ := Checked.bind_eq_ok.mp h
  obtain ⟨_, hbit, h⟩ := Checked.bind_eq_ok.mp h
  obtain ⟨s, hs, hd⟩ := requireBit_eq_ok hbit
  obtain ⟨s', hs', h⟩ := Checked.bind_eq_ok.mp h
  rw [Registry.get_eq_ok, hs] at hs'
  cases hs'
  obtain ⟨_, htarget, h⟩ := Checked.bind_eq_ok.mp h
  obtain ⟨_, hunbound, h⟩ := Checked.bind_eq_ok.mp h
  obtain ⟨_, hargs, h⟩ := Checked.bind_eq_ok.mp h
  obtain ⟨s', hs', hb⟩ := Registry.requireUnbound_eq_ok.mp hunbound
  rw [hs] at hs'
  cases hs'
  cases h
  exact ⟨s, ⟨Checked.require_eq_ok.mp hbuild, hs, hd, hb, contains_of_requireBitArgs hargs⟩, rfl,
    Checked.require_eq_ok.mp htarget⟩

theorem checkRegister_eq (b : Block) (id : SignalId) (f : TruthFn) :
    b.checkRegister id f = do
      let _ ← b.checkTarget (· = .register) "a bit reg" id f
      return () := by
  unfold checkRegister checkTarget
  simp only [bind_assoc, pure_bind, bind_pure_unit]

theorem checkRegister_eq_ok {a : Unit} (h : b.checkRegister id f = .ok a) :
    ∃ s, b.CanDrive id f s ∧ s.behavior = .register := by
  rw [checkRegister_eq] at h
  obtain ⟨behavior, htarget, -⟩ := Checked.bind_eq_ok.mp h
  obtain ⟨s, hdrive, rfl, hreg⟩ := checkTarget_eq_ok htarget
  exact ⟨s, hdrive, hreg⟩

/-- The block with a signal in the next slot of its condition logic. -/
def takeLogic (b : Block) (id : SignalId) (f : TruthFn) : Block :=
  { b with
    logic := b.logic.append ⟨id, f⟩
    signals := b.signals.place id (Address.ofSlot .conditionLogic b.logic.entries.length) }

theorem bindLogic_result (b : Block) (id : SignalId) (f : TruthFn) :
    (∃ e, bindLogic id f b = .error e b) ∨
      ∃ a s, b.logic.entries.length < b.logic.capacity ∧ b.signals.get? id = some s ∧
        s.binding = none ∧ bindLogic id f b = .ok a (b.takeLogic id f) := by
  cases h : bindLogic id f b with
  | error e t =>
    rw [(Edit.attempt_eq_error.mp h).2]
    exact Or.inl ⟨e, rfl⟩
  | ok a t =>
    obtain ⟨hroom, ⟨s, hs, hb⟩, ht⟩ := Alu.push_bind_eq_ok.mp (Edit.attempt_eq_ok.mp h)
    rw [(Prod.mk.inj ht).2]
    exact Or.inr ⟨a, s, hroom, hs, hb, rfl⟩

theorem bindRegister_result (b : Block) (id : SignalId) (f : TruthFn) :
    (∃ e, bindRegister id f b = .error e b) ∨
      ∃ a s, b.CanDrive id f s ∧ s.behavior = .register ∧
        b.logic.entries.length < b.logic.capacity ∧
        bindRegister id f b = .ok a (b.takeLogic id f) := by
  cases hcheck : b.checkRegister id f with
  | error e =>
    have hask := Edit.ask_eq_error (q := fun b : Block => b.checkRegister id f).mpr ⟨hcheck, rfl⟩
    exact Or.inl ⟨e, Edit.bind_eq_error.mpr (Or.inl hask)⟩
  | ok x =>
    obtain ⟨s, hdrive, hreg⟩ := checkRegister_eq_ok hcheck
    have hask : Edit.ask (fun b : Block => b.checkRegister id f) b = .ok x b :=
      Edit.ask_eq_ok.mpr ⟨hcheck, rfl⟩
    rcases bindLogic_result b id f with ⟨e, he⟩ | ⟨a, -, hroom, -, -, hok⟩
    · exact Or.inl ⟨e, (Edit.bind_of_ok hask _).trans he⟩
    · exact Or.inr ⟨a, s, hdrive, hreg, hroom, (Edit.bind_of_ok hask _).trans hok⟩

/-- **Adding a bit register happens or changes nothing.** -/
theorem addRegister_result (b : Block) (id : SignalId) (f : TruthFn) :
    (∃ e, addRegister id f b = .error e b) ∨
      ∃ a s, b.CanDrive id f s ∧ s.behavior = .register ∧
        b.logic.entries.length < b.logic.capacity ∧
        addRegister id f b = .ok a (b.takeLogic id f) := by
  rcases bindRegister_result b id f with ⟨e, he⟩ | ⟨a, s, hdrive, hreg, hroom, hok⟩
  · exact Or.inl ⟨_, Edit.mapReason_eq_error.mpr ⟨e, he, rfl⟩⟩
  · exact Or.inr ⟨a, s, hdrive, hreg, hroom, Edit.mapReason_eq_ok.mpr hok⟩

end Block

namespace Alu

variable {u : Alu} {id : SignalId} {s : Signal} {f : TruthFn}

theorem takeSlot_conditionLogic (u : Alu) (id : SignalId) (f : TruthFn) :
    u.takeSlot .conditionLogic id f = { u with toBlock := u.toBlock.takeLogic id f } := by
  unfold takeSlot
  rw [length_slots_conditionLogic]
  rfl

theorem addRegister_result (u : Alu) (id : SignalId) (f : TruthFn) :
    (∃ e, addRegister id f u = .error e u) ∨
      ∃ a s, u.CanDrive id f s ∧ s.behavior = .register ∧
        u.logic.entries.length < u.logic.capacity ∧
        addRegister id f u = .ok a (u.takeSlot .conditionLogic id f) := by
  unfold addRegister onBlock
  rcases Block.addRegister_result u.toBlock id f with ⟨e, he⟩ | ⟨a, s, hdrive, hreg, hroom, hok⟩
  · exact Or.inl ⟨e, Edit.zoom_eq_error.mpr ⟨u.toBlock, he, rfl⟩⟩
  · refine Or.inr ⟨a, s, hdrive, hreg, hroom, ?_⟩
    rw [takeSlot_conditionLogic]
    exact Edit.zoom_eq_ok.mpr ⟨_, hok, rfl⟩

/-! ### Condition logic -/

/-- The unit with a driven signal at its resource. -/
inductive Drives (u : Alu) (entry : DrivenSignal) : Alu → Prop
  | branch (hroom : u.branches.entries.length < u.branches.capacity) :
      Drives u entry (u.takeSlot .branch entry.signal entry.logic)
  | condBypass (hfree : u.condBypass = none) :
      Drives u entry { u with
        condBypass := some entry
        signals := u.signals.place entry.signal Resource.condBypass.address }
  | condUpdate (hfree : u.condUpdate = none) :
      Drives u entry { u with
        condUpdate := some entry
        signals := u.signals.place entry.signal Resource.condUpdate.address }

/-- Condition logic drives signals of these behaviors. -/
abbrev IsCondition (behavior : Behavior) : Prop :=
  behavior = .branchCondition ∨ behavior = .condBypass ∨ behavior = .condUpdate

theorem checkConditionLogic_eq (u : Alu) (id : SignalId) (f : TruthFn) :
    u.checkConditionLogic id f =
      u.checkTarget IsCondition "a branch, cond_bypass or cond_update signal" id f := rfl

theorem checkConditionLogic_eq_ok {behavior : Behavior}
    (h : u.checkConditionLogic id f = .ok behavior) :
    ∃ s, u.CanDrive id f s ∧ s.behavior = behavior ∧ IsCondition behavior := by
  rw [checkConditionLogic_eq] at h
  exact Block.checkTarget_eq_ok h

theorem bindBranch_eq_ok {entry : DrivenSignal} {a : Address} {t : Alu}
    (h : bindBranch entry u = .ok a t) : Drives u entry t := by
  obtain ⟨hroom, -, ht⟩ := push_bind_eq_ok.mp (Edit.attempt_eq_ok.mp h)
  have htake : t = u.takeSlot .branch entry.signal entry.logic := by
    unfold takeSlot
    rw [length_slots_branch]
    exact (Prod.mk.inj ht).2
  rw [htake]
  exact .branch hroom

/-- What binding to a single slot does. -/
theorem bindSingle_eq_ok {slot : Option DrivenSignal} {resource : String} {address a : Address}
    {put : Registry → Alu} {t : Alu}
    (h : (do u.requireFree slot resource id
             let signals ← u.signals.bind id address
             return (address, put signals) : Checked Error (Address × Alu)) = .ok (a, t)) :
    slot = none ∧ t = put (u.signals.place id address) := by
  obtain ⟨_, hfree, h⟩ := Checked.bind_eq_ok.mp h
  obtain ⟨name, -, hfree⟩ := Checked.bind_eq_ok.mp hfree
  obtain ⟨signals, hsig, h⟩ := Checked.bind_eq_ok.mp h
  obtain ⟨-, rfl⟩ := Registry.bind_eq_ok.mp hsig
  cases h
  exact ⟨Checked.require_eq_ok.mp hfree, rfl⟩

theorem bindCondBypass_eq_ok {entry : DrivenSignal} {a : Address} {t : Alu}
    (h : bindCondBypass entry u = .ok a t) : Drives u entry t := by
  obtain ⟨hfree, rfl⟩ := bindSingle_eq_ok (Edit.attempt_eq_ok.mp h)
  exact .condBypass hfree

theorem bindCondUpdate_eq_ok {entry : DrivenSignal} {a : Address} {t : Alu}
    (h : bindCondUpdate entry u = .ok a t) : Drives u entry t := by
  obtain ⟨hfree, rfl⟩ := bindSingle_eq_ok (Edit.attempt_eq_ok.mp h)
  exact .condUpdate hfree

/-- **Adding condition logic happens or changes nothing.** -/
theorem addConditionLogic_result (u : Alu) (id : SignalId) (f : TruthFn) :
    (∃ e, addConditionLogic id f u = .error e u) ∨
      ∃ a s t, u.CanDrive id f s ∧ s.behavior ≠ .constant ∧ Drives u ⟨id, f⟩ t ∧
        addConditionLogic id f u = .ok a t := by
  cases h : addConditionLogic id f u with
  | error e t =>
    obtain ⟨e', h, -⟩ := Edit.mapReason_eq_error.mp h
    refine Or.inl ⟨e, ?_⟩
    rcases Edit.bind_eq_error.mp h with hask | ⟨behavior, t', hask, hbind⟩
    · rw [(Edit.ask_eq_error.mp hask).2]
    · obtain ⟨-, rfl⟩ := Edit.ask_eq_ok.mp hask
      -- whichever slot it is, binding is one step that does not happen
      split at hbind <;> rw [(Edit.attempt_eq_error.mp hbind).2]
  | ok a t =>
    obtain ⟨behavior, t', hask, hbind⟩ := Edit.bind_eq_ok.mp (Edit.mapReason_eq_ok.mp h)
    obtain ⟨hcheck, rfl⟩ := Edit.ask_eq_ok.mp hask
    obtain ⟨s, hdrive, hs, hcond⟩ := checkConditionLogic_eq_ok hcheck
    have hnc : s.behavior ≠ .constant := by
      rw [hs]
      rintro rfl
      simp [IsCondition] at hcond
    refine Or.inr ⟨a, s, t, hdrive, hnc, ?_, rfl⟩
    split at hbind
    · exact bindBranch_eq_ok hbind
    · exact bindCondBypass_eq_ok hbind
    · exact bindCondUpdate_eq_ok hbind

/-- A driven signal that takes its resource is a step. -/
theorem Drives.buildStep {entry : DrivenSignal} {t : Alu} (h : Drives u entry t)
    (hcap : u.capacityOf = Family.capacity) (hs : u.signals.get? entry.signal = some s)
    (hb : s.binding = none) (hd : s.dataType = .bit) (hnc : s.behavior ≠ .constant) :
    BuildStep u t := by
  cases h with
  | branch hroom =>
    refine buildStep_takeSlot .branch rfl hcap ?_ hs hb (by rw [hd]; rfl) (fun _ => hnc) entry.logic
    rw [length_slots_branch]
    exact hroom
  | condBypass hfree =>
    refine .take (r := .condBypass) hs hb rfl (by rw [hd]; rfl) ?_ rfl (fun _ => hnc) rfl
      (takes_single (by decide) rfl rfl (fun r hr => ?_) rfl rfl rfl rfl rfl)
    · rw [holder?, hfree]
      rfl
    · simp only [Resource.singles, List.mem_cons, List.not_mem_nil, or_false] at hr
      rcases hr with rfl | rfl | rfl | rfl | rfl <;> rfl
  | condUpdate hfree =>
    refine .take (r := .condUpdate) hs hb rfl (by rw [hd]; rfl) ?_ rfl (fun _ => hnc) rfl
      (takes_single (by decide) rfl rfl (fun r hr => ?_) rfl rfl rfl rfl rfl)
    · rw [holder?, hfree]
      rfl
    · simp only [Resource.singles, List.mem_cons, List.not_mem_nil, or_false] at hr
      rcases hr with rfl | rfl | rfl | rfl | rfl <;> rfl

/-! ### Instructions -/

/-- The unit takes the instruction, and with it these inputs. -/
structure Accepts (u : Alu) (i : Instruction) (pending : List SignalId) : Prop where
  building : u.phase = .building
  room : u.instructions.entries.length < u.instructions.capacity
  destinations : ∀ d ∈ i.destinations.entries,
    ∃ s, u.signals.get? d = some s ∧ s.behavior = .register ∧ s.dataType = .word
  latches : ∀ l ∈ i.latches.entries, ∃ s, u.signals.get? l = some s ∧ s.dataType = .word
  conditions : ∀ c ∈ i.branch.conditions, u.signals.contains c = true
  inputs : Pending u.signals i.operandSignals i.latches.entries pending
  supply : u.Suppliable pending

/-- The unit with the instruction at the end of its program and its inputs bound. -/
def added (u : Alu) (i : Instruction) (pending : List SignalId) : Alu :=
  { u.withInputs pending with
    instructions := u.instructions.append { i.finalize with index := some u.instructions.size } }

variable {i : Instruction} {pending : List SignalId}

theorem requireOf_eq_ok {behavior : Behavior} {dataType : DataType} {expected : String} {a : Unit}
    (h : u.requireOf behavior dataType expected id = .ok a) :
    ∃ s, u.signals.get? id = some s ∧ s.behavior = behavior ∧ s.dataType = dataType := by
  obtain ⟨_, -, h⟩ := Checked.bind_eq_ok.mp h
  obtain ⟨s, hs, h⟩ := Checked.bind_eq_ok.mp h
  have hof := Checked.require_eq_ok.mp h
  simp only [Signal.isOf, Bool.and_eq_true, beq_iff_eq] at hof
  exact ⟨s, Registry.get_eq_ok.mp hs, hof⟩

theorem requireWord_eq_ok {a : Unit} (h : u.requireWord id = .ok a) :
    ∃ s, u.signals.get? id = some s ∧ s.dataType = .word := by
  obtain ⟨_, -, h⟩ := Checked.bind_eq_ok.mp h
  obtain ⟨s, hs, h⟩ := Checked.bind_eq_ok.mp h
  exact ⟨s, Registry.get_eq_ok.mp hs, Checked.require_eq_ok.mp h⟩

theorem count_dataTypes {r : Registry} {types : List DataType}
    (h : (pending.mapM (dataTypeOf r) : Checked Error _) = .ok types) (d : DataType) :
    types.count d = pending.countP (hasType r d) := by
  induction pending generalizing types with
  | nil =>
    cases h
    rfl
  | cons id pending ih =>
    rw [List.mapM_cons] at h
    obtain ⟨type, htype, h⟩ := Checked.bind_eq_ok.mp h
    obtain ⟨rest, hrest, h⟩ := Checked.bind_eq_ok.mp h
    obtain ⟨s, hs, htype⟩ := Checked.bind_eq_ok.mp htype
    cases h
    cases htype
    have hid : hasType r d id = (s.dataType == d) := by
      rw [hasType, Registry.get_eq_ok.mp hs]
      rfl
    rw [List.count_cons, List.countP_cons, ih hrest, hid]

theorem requireRoom_eq_ok {a : Unit} (h : u.requireRoom pending = .ok a) (d : DataType) :
    (u.slots d.inputFamily).length + pending.countP (hasType u.signals d) ≤
      u.capacityOf d.inputFamily := by
  obtain ⟨types, htypes, h⟩ := Checked.bind_eq_ok.mp h
  obtain ⟨_, hword, hbit⟩ := Checked.bind_eq_ok.mp h
  rw [← count_dataTypes htypes]
  cases d with
  | word => exact Checked.require_eq_ok.mp hword
  | bit => exact Checked.require_eq_ok.mp hbit

theorem checkInstruction_eq_ok (h : u.checkInstruction i = .ok pending) : u.Accepts i pending := by
  obtain ⟨_, hbuild, h⟩ := Checked.bind_eq_ok.mp h
  obtain ⟨_, hroom, h⟩ := Checked.bind_eq_ok.mp h
  obtain ⟨_, -, h⟩ := Checked.bind_eq_ok.mp h
  obtain ⟨_, hsig, h⟩ := Checked.bind_eq_ok.mp h
  obtain ⟨pending', hpend, h⟩ := Checked.bind_eq_ok.mp h
  obtain ⟨_, hsupply, h⟩ := Checked.bind_eq_ok.mp h
  cases h
  obtain ⟨_, hdest, hsig⟩ := Checked.bind_eq_ok.mp hsig
  obtain ⟨_, -, hsig⟩ := Checked.bind_eq_ok.mp hsig
  obtain ⟨_, hlatch, hsig⟩ := Checked.bind_eq_ok.mp hsig
  obtain ⟨_, -, hcond⟩ := Checked.bind_eq_ok.mp hsig
  have hpending := pendingInputs_eq_ok hpend
  exact
    { building := Checked.require_eq_ok.mp hbuild
      room := by simpa [Pool.isFull] using Checked.require_eq_ok.mp hroom
      destinations := fun d hd => requireOf_eq_ok (Checked.forM_eq_ok hdest d hd)
      latches := fun l hl => requireWord_eq_ok (Checked.forM_eq_ok hlatch l hl)
      conditions := fun c hc => Checked.require_eq_ok.mp (Checked.forM_eq_ok hcond c hc)
      inputs := hpending
      supply := ⟨hpending.nodup, hpending.unbound, requireRoom_eq_ok hsupply⟩ }

theorem instructions_withInputs (h : u.Suppliable pending) :
    (u.withInputs pending).instructions = u.instructions := by
  refine h.induction (P := fun v => v.instructions = u.instructions) rfl
    fun v id s _ _ _ _ hv => ?_
  rw [← hv]
  exact instructions_appendSlot v _ id _

/-- An instruction that passes the check is added. -/
theorem addInstruction_of_ok (hcheck : u.checkInstruction i = .ok pending) :
    addInstruction i u = .ok u.instructions.size (u.added i pending) := by
  have haccepts := checkInstruction_eq_ok hcheck
  have hinst := instructions_withInputs haccepts.supply
  have happend : append i (u.withInputs pending) =
      .ok u.instructions.size (u.added i pending) := by
    unfold append added
    rw [Edit.attempt_eq_ok, hinst]
    exact Checked.bind_eq_ok.mpr ⟨_, Pool.push_eq_ok.mpr ⟨haccepts.room, rfl⟩, rfl⟩
  have hbody : (do pending.forM bindInput; append i : Edit Alu Error Nat) u =
      .ok u.instructions.size (u.added i pending) :=
    (Edit.bind_of_ok (bindInputs_eq haccepts.supply) _).trans happend
  exact (Edit.locatedAt_ask_of_ok (q := fun u : Alu => u.checkInstruction i) hcheck _).trans
    (Edit.mapReason_eq_ok.mpr hbody)

/-- **Adding an instruction happens or changes nothing.** -/
theorem addInstruction_result (u : Alu) (i : Instruction) :
    (∃ e, addInstruction i u = .error e u) ∨
      ∃ pending, u.Accepts i pending ∧
        addInstruction i u = .ok u.instructions.size (u.added i pending) := by
  cases hcheck : u.checkInstruction i with
  | error e =>
    exact Or.inl
      ⟨_, Edit.locatedAt_ask_of_error (q := fun u : Alu => u.checkInstruction i) hcheck _⟩
  | ok pending =>
    exact Or.inr ⟨pending, checkInstruction_eq_ok hcheck, addInstruction_of_ok hcheck⟩

end Alu

end AluPlacement
