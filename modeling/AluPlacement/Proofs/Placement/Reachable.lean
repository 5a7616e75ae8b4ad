import AluPlacement.Proofs.Placement.Assignment
import AluPlacement.Proofs.Placement.Calls

/-! # Units that the calls of the front end can reach

`Alu.Call` are the calls of the front end on a unit, and `Alu.Reachable u` says that calls, answered
or refused, lead from a new unit to `u`. Each call preserves the placement invariant, so it holds of
every reachable unit (`Reachable.sound`). What this says of pools, bindings and addresses is
`ConsistentPlacement`.

A block of condition logic that stands alone has calls of its own, `Block.Call`. -/

namespace AluPlacement

namespace Block

/-- A call of the front end on a block. -/
inductive Call where
  | setLocation (location : Location)
  | declare (name : String) (behavior : Behavior) (dataType : DataType)
  /-- A call on the signals of the block. -/
  | edit (call : Registry.Call)
  | addRegister (id : SignalId) (f : TruthFn)
  | assign
  deriving DecidableEq, Repr

/-- The block after a call, whether it answered or not. -/
def Call.apply : Call → Block → Block
  | .setLocation location => fun b => { b with location := location }
  | .declare name behavior dataType => (Block.declare name behavior dataType).after
  | .edit call => fun b => { b with signals := call.apply b.signals }
  | .addRegister id f => (Block.addRegister id f).after
  | .assign => Block.assign.after

/-- The block after several calls. -/
def run (b : Block) (calls : List Call) : Block := calls.foldl (fun b c => c.apply b) b

theorem after_declare (b : Block) (name : String) (behavior : Behavior) (dataType : DataType) :
    (declare name behavior dataType).after b =
      { b with signals := (Registry.declare name behavior dataType).after b.signals } :=
  (Edit.after_locatedAt b.location _ b).trans (Edit.after_zoom _ _ _ _)

end Block

namespace Alu

/-- A call of the front end on a unit. -/
inductive Call where
  | setLocation (location : Location)
  | declare (name : String) (behavior : Behavior) (dataType : DataType)
  /-- A call on the signals of the unit. -/
  | edit (call : Registry.Call)
  | addInstruction (i : Instruction)
  | addConditionLogic (id : SignalId) (f : TruthFn)
  | addRegister (id : SignalId) (f : TruthFn)
  | assign
  deriving DecidableEq, Repr

/-- The unit after a call, whether it answered or not. -/
def Call.apply : Call → Alu → Alu
  | .setLocation location => fun u => { u with location := location }
  | .declare name behavior dataType => (Alu.declare name behavior dataType).after
  | .edit call => fun u => { u with signals := call.apply u.signals }
  | .addInstruction i => (Alu.addInstruction i).after
  | .addConditionLogic id f => (Alu.addConditionLogic id f).after
  | .addRegister id f => (Alu.addRegister id f).after
  | .assign => Alu.assign.after

/-- The unit after several calls. -/
def run (u : Alu) (calls : List Call) : Alu := calls.foldl (fun u c => c.apply u) u

/-- A unit as the front end creates it. -/
inductive IsNew : Alu → Prop
  | standard (name : String) : IsNew (create name .standard)
  | limited (name : String) {limits : Limits} {definition : Definition}
      (h : Definition.withLimits limits = .ok definition) : IsNew (create name definition)

theorem IsNew.eq_create {u : Alu} (h : u.IsNew) :
    ∃ name definition, u = create name definition := by
  cases h <;> exact ⟨_, _, rfl⟩

/-- Calls lead from a new unit to this one. -/
inductive Reachable : Alu → Prop
  | new {u : Alu} (h : u.IsNew) : Reachable u
  | call {u : Alu} (h : Reachable u) (c : Call) : Reachable (c.apply u)

theorem Reachable.run {u : Alu} (h : Reachable u) : ∀ calls, Reachable (u.run calls) := by
  intro calls
  induction calls generalizing u with
  | nil => exact h
  | cons c calls ih => exact ih (h.call c)

/-! ### New units -/

theorem bound?_create (name : String) (definition : Definition) (id : SignalId) :
    (create name definition).signals.bound? id = none := by
  cases hs : (create name definition).signals.get? id with
  | none => simp [Registry.bound?, hs]
  | some s =>
    obtain ⟨b, -, rfl⟩ := List.mem_map.mp (Registry.mem_signals_iff.mpr ⟨id, hs⟩)
    rw [Registry.bound?_of_get? hs]
    rfl

theorem holder?_create (name : String) (definition : Definition) (r : Resource) :
    (create name definition).holder? r = none := by
  cases r with
  | slot f i => cases f <;> rfl
  | _ => rfl

theorem sound_create (name : String) (definition : Definition) :
    Sound (create name definition) := by
  have hb := bound?_create name definition
  have hh := holder?_create name definition
  refine ⟨⟨?_, ?_, ?_, ?_, ?_, fun t ht => ?_, Nat.zero_le _, rfl⟩, fun _ =>
    ⟨fun r _ => hh r, ?_, ?_, fun i hi => ?_⟩⟩
  · funext f
    cases f <;> rfl
  · intro r t ht
    rw [hh] at ht
    cases ht
  · intro r t _ ht
    rw [hh] at ht
    cases ht
  · intro i p hp
    rw [hb] at hp
    cases hp
  · intro i p r v hp
    rw [hb] at hp
    cases hp
  · cases ht
  · intro i p hp
    rw [hb] at hp
    cases hp
  · intro i p hp
    rw [hb] at hp
    cases hp
  · cases hi

/-! ### Calls on the signals -/

variable {u u' : Alu} {id : SignalId} {s : Signal}

theorem Sound.withSignals (h : u.Sound) {r : Registry} (hr : u.signals.Extends r) :
    Sound { u with signals := r } := by
  have hbound := Registry.bound?_eq_of_extends hr
  refine ⟨h.placed.withSignals hbound, fun hp => ?_⟩
  obtain ⟨hclosed, hown, hbit, hdecl⟩ := h.inProgress hp
  refine ⟨hclosed, ?_, ?_, ?_⟩
  · intro i p
    rw [hbound]
    exact hown i p
  · intro i p
    rw [hbound]
    exact hbit i p
  · exact fun i hi c hc => hr.contains (hdecl i hi c hc)

theorem after_declare (u : Alu) (name : String) (behavior : Behavior) (dataType : DataType) :
    (Alu.declare name behavior dataType).after u =
      { u with signals := (Registry.declare name behavior dataType).after u.signals } := by
  unfold Alu.declare onBlock
  rw [Edit.after_zoom, Block.after_declare]

/-! ### Calls that bind -/

theorem Sound.addRegister (h : u.Sound) (id : SignalId) (f : TruthFn) :
    Sound ((Alu.addRegister id f).after u) := by
  rcases addRegister_result u id f with ⟨e, he⟩ | ⟨a, s, hdrive, hreg, hroom, hok⟩
  · rw [Edit.after_of_error he]
    exact h
  · rw [Edit.after_of_ok hok]
    refine (buildStep_takeSlot .conditionLogic rfl h.placed.capacity ?_ hdrive.declared
      hdrive.unbound (by rw [hdrive.dataType]; rfl) (fun _ => by rw [hreg]; decide) f).sound h
    rw [length_slots_conditionLogic]
    exact hroom

theorem Sound.addConditionLogic (h : u.Sound) (id : SignalId) (f : TruthFn) :
    Sound ((Alu.addConditionLogic id f).after u) := by
  rcases addConditionLogic_result u id f with ⟨e, he⟩ | ⟨a, s, t, hdrive, hnc, hdrives, hok⟩
  · rw [Edit.after_of_error he]
    exact h
  · rw [Edit.after_of_ok hok]
    exact (hdrives.buildStep h.placed.capacity hdrive.declared hdrive.unbound hdrive.dataType
      hnc).sound h

/-! ### Adding an instruction -/

variable {i : Instruction} {pending : List SignalId}

/-- No constant of type bit becomes an input. -/
theorem Accepts.mayBeInput (h : u.Accepts i pending) (hid : id ∈ pending) :
    ∃ s, u.signals.get? id = some s ∧ (s.dataType = .bit → s.behavior ≠ .constant) := by
  rcases h.inputs.source id hid with hlatch | ⟨-, s, hs, hin⟩
  · obtain ⟨s, hs, hword⟩ := h.latches id hlatch
    exact ⟨s, hs, fun hbit => by rw [hword] at hbit; cases hbit⟩
  · refine ⟨s, hs, fun _ hc => ?_⟩
    rcases hin with hin | hin <;> rw [hc] at hin <;> cases hin

theorem Sound.withInputs (h : u.Sound) (hi : u.Accepts i pending) :
    (u.withInputs pending).Sound := by
  suffices (u.withInputs pending).Sound ∧
      u.signals.Advances (u.withInputs pending).signals from this.1
  refine hi.supply.induction (P := fun v => v.Sound ∧ u.signals.Advances v.signals) ⟨h, .refl _⟩
    fun v id s hid hs hb hroom ⟨hv, hadv⟩ => ?_
  refine ⟨?_, hadv.trans (Registry.advances_place hs hb _)⟩
  -- what the check said of the signal still holds after other signals are bound
  obtain ⟨s₀, hs₀, hnc⟩ := hi.mayBeInput hid
  obtain ⟨s₁, hs₁, hsame, -⟩ := hadv.of_get? hs
  rw [hs₀] at hs₁
  cases hs₁
  have hnc' : s.dataType = .bit → s.behavior ≠ .constant := by
    rw [hsame]
    exact hnc
  refine (buildStep_takeSlot s.dataType.inputFamily ?_ hv.placed.capacity hroom hs hb ?_ hnc'
    (.ofSignal id)).sound hv
  · cases s.dataType <;> rfl
  · cases s.dataType <;> rfl

theorem Sound.addInstruction (h : u.Sound) (i : Instruction) :
    Sound ((Alu.addInstruction i).after u) := by
  rcases addInstruction_result u i with ⟨e, he⟩ | ⟨pending, hi, hok⟩
  · rw [Edit.after_of_error he]
    exact h
  · rw [Edit.after_of_ok hok]
    obtain ⟨hpl, hpr⟩ := h.withInputs hi
    have hinst := instructions_withInputs hi.supply
    refine ⟨⟨hpl.capacity, hpl.inRange, hpl.holder, hpl.bound, hpl.builtin, hpl.constants, ?_, ?_⟩,
      fun hphase => ?_⟩
    · show (u.instructions.entries ++ [_]).length ≤ _
      rw [List.length_append, List.length_singleton]
      exact hi.room
    · have hprogram := hpl.program
      rw [hinst] at hprogram
      exact hprogram
    · obtain ⟨hclosed, hown, hbit, hold⟩ := hpr hphase
      refine ⟨hclosed, hown, hbit, fun j hj c hc => ?_⟩
      rcases List.mem_append.mp hj with hj | hj
      · exact hold j (hinst ▸ hj) c hc
      · rw [List.mem_singleton.mp hj] at hc
        show (u.withInputs pending).signals.contains c = true
        rw [hi.supply.advances.contains]
        exact hi.conditions c hc

/-! ### All calls -/

/-- Every call preserves the invariant. -/
theorem Sound.apply (h : u.Sound) (c : Call) : Sound (c.apply u) := by
  cases c with
  | setLocation location =>
    obtain ⟨hpl, hpr⟩ := h
    refine ⟨⟨hpl.capacity, hpl.inRange, hpl.holder, hpl.bound, hpl.builtin, hpl.constants,
      hpl.instructions, hpl.program⟩, fun hphase => ?_⟩
    obtain ⟨hclosed, hown, hbit, hdecl⟩ := hpr hphase
    exact ⟨hclosed, hown, hbit, hdecl⟩
  | declare name behavior dataType =>
    show Sound ((Alu.declare name behavior dataType).after u)
    rw [after_declare]
    exact h.withSignals (Registry.extends_apply (.declare name behavior dataType) u.signals)
  | edit call => exact h.withSignals (Registry.extends_apply call u.signals)
  | addInstruction i => exact h.addInstruction i
  | addConditionLogic id f => exact h.addConditionLogic id f
  | addRegister id f => exact h.addRegister id f
  | assign => exact h.assign

/-- **The placement invariant holds of every reachable unit.** -/
theorem Reachable.sound (h : Reachable u) : u.Sound := by
  induction h with
  | new h =>
    obtain ⟨name, definition, rfl⟩ := h.eq_create
    exact sound_create name definition
  | call _ c ih => exact ih.apply c

end Alu

end AluPlacement
