import AluPlacement.Proofs.Placement.Destinations
import AluPlacement.Proofs.Program.Addition
import AluPlacement.Proofs.Program.Built

/-! # The program of a unit

`WellFormed u` says what holds of the program of every reachable unit: an instruction knows its
place and is finalized, labels are not repeated, and the signals that an instruction names are
declared as it uses them (`Uses`). Every call preserves it (`WellFormed.apply`). The final pass
needs care, as it makes constants of registers, but not of those that an instruction writes.

Every instruction of a program is one that was given to the unit, with its branch as it was or
resolved (`FromCalls`). So what is known of instructions that are built by calls holds of the
instructions of a program too (`IsNew.wellAssembled`). -/

namespace AluPlacement

/-- The instruction as it stands in place `n` of a program. -/
def Instruction.placedAt (i : Instruction) (n : Nat) : Instruction :=
  { i.finalize with index := some n }

namespace Alu

variable {u u' : Alu} {i : Instruction} {id : SignalId} {s : Signal}

/-! ### The signals of an instruction -/

/-- The signals that an instruction names are declared as it uses them. -/
structure Uses (u : Alu) (i : Instruction) : Prop where
  destinations : ∀ d ∈ i.destinations.entries,
    ∃ s, u.signals.get? d = some s ∧ s.behavior = .register ∧ s.dataType = .word
  overrides : ∀ o ∈ i.overrides.entries,
    ∃ s, u.signals.get? o.1 = some s ∧ s.behavior = .register ∧ s.dataType = .bit
  latches : ∀ l ∈ i.latches.entries, ∃ s a, u.signals.get? l = some s ∧ s.dataType = .word ∧
    s.binding = some a ∧ a.isIn .wordIn = true
  operands : ∀ o ∈ i.operandSignals, u.signals.contains o = true
  conditions : ∀ c ∈ i.branch.conditions, u.signals.contains c = true

theorem retains_contains (hr : u.signals.Retains u'.signals) {o : SignalId}
    (ho : u.signals.contains o = true) : u'.signals.contains o = true := by
  obtain ⟨s, hs⟩ := Registry.contains_iff.mp ho
  obtain ⟨s', hs', -⟩ := hr o s hs
  exact Registry.contains_iff.mpr ⟨s', hs'⟩

theorem retains_register (hr : u.signals.Retains u'.signals) {d : SignalId} {dataType : DataType}
    (hd : ∃ s, u.signals.get? d = some s ∧ s.behavior = .register ∧ s.dataType = dataType) :
    ∃ s, u'.signals.get? d = some s ∧ s.behavior = .register ∧ s.dataType = dataType := by
  obtain ⟨s, hs, hreg, htype⟩ := hd
  obtain ⟨s', hs', hdata, hbeh, -⟩ := hr d s hs
  exact ⟨s', hs', hbeh.trans hreg, hdata.trans htype⟩

theorem Uses.retain (h : u.Uses i) (hr : u.signals.Retains u'.signals) : u'.Uses i where
  destinations := fun d hd => retains_register hr (h.destinations d hd)
  overrides := fun o ho => retains_register hr (h.overrides o ho)
  latches := by
    intro l hl
    obtain ⟨s, a, hs, hword, hb, ha⟩ := h.latches l hl
    obtain ⟨s', hs', hdata, -, hkept⟩ := hr l s hs
    refine ⟨s', a, hs', hdata.trans hword, ?_, ha⟩
    rw [hkept (by rw [hb]; exact Option.some_ne_none a), hb]
  operands := fun o ho => retains_contains hr (h.operands o ho)
  conditions := fun c hc => retains_contains hr (h.conditions c hc)

/-- An instruction of the new program is an old one or the one that was added. -/
theorem Adds.getElem? (h : u.Adds i u') {n : Nat} {j : Instruction}
    (hj : u'.instructions.entries[n]? = some j) : u.instructions.entries[n]? = some j ∨
      n = u.instructions.size ∧ j = i.placedAt u.instructions.size := by
  rw [h.program, getElem?_append_singleton] at hj
  split_ifs at hj with hn
  · exact Or.inr ⟨hn, (Option.some.inj hj).symm⟩
  · exact Or.inl hj

/-- The latches of an instruction that was added are word inputs. -/
theorem Adds.latch (h : u.Adds i u') (hi : u.Admits i) (hcap : u.capacityOf = Family.capacity)
    {l : SignalId} (hl : l ∈ i.latches.entries) :
    ∃ s a, u'.signals.get? l = some s ∧ s.dataType = .word ∧ s.binding = some a ∧
      a.isIn .wordIn = true := by
  obtain ⟨s, hs, hword, hlatch⟩ := hi.latches l hl
  cases hb : s.binding with
  | some a =>
    have hold : l ∉ u.newInputs i := by
      intro hnew
      obtain ⟨t, ht, hnone⟩ := hi.supply.unbound l hnew
      rw [hs] at ht
      cases ht
      rw [hb] at hnone
      cases hnone
    exact ⟨s, a, (h.others l hold).trans hs, hword, hb, hlatch a hb⟩
  | none =>
    have hnew : l ∈ u.newInputsOf i .word :=
      List.mem_filter.mpr ⟨mem_newInputs.mpr (Or.inr ⟨hl, Registry.isFree_iff.mpr ⟨s, hs, hb⟩⟩),
        (hasType_iff hs).mpr hword⟩
    obtain ⟨k, hk⟩ := List.mem_iff_getElem?.mp hnew
    obtain ⟨t, ht, hdata, -, hbound⟩ := h.bound .word k l hk
    refine ⟨_, _, hbound, hdata, rfl, ?_⟩
    have hroom := hi.inputs .word
    have hlt : k < (u.newInputsOf i .word).length := (List.getElem?_eq_some_iff.mp hk).1
    rw [hcap] at hroom
    exact Address.isIn_ofSlot (by omega)

/-- The signals of an instruction that was added are declared as it uses them. -/
theorem Admits.uses (hi : u.Admits i) (hcap : u.capacityOf = Family.capacity) (n : Nat) :
    (u.added i (u.newInputs i)).Uses (i.placedAt n) := by
  have hr : u.signals.Retains (u.added i (u.newInputs i)).signals := hi.supply.advances.retains
  exact
    { destinations := fun d hd => retains_register hr (hi.destinations d hd)
      overrides := fun o ho => retains_register hr (hi.overrides o ho)
      latches := fun l hl => hi.adds.latch hi hcap hl
      operands := fun o ho => retains_contains hr (hi.operands o ho)
      conditions := fun c hc => retains_contains hr (hi.conditions c hc) }

/-! ### The program -/

/-- What holds of the program of every reachable unit. -/
structure WellFormed (u : Alu) : Prop where
  index : ∀ (n : Nat) (i : Instruction),
    u.instructions.entries[n]? = some i → i.index = some n ∧ i.isFinalized = true
  labels : ∀ (m n : Nat) (i j : Instruction) (name : String),
    u.instructions.entries[m]? = some i → u.instructions.entries[n]? = some j →
    i.label = some name → j.label = some name → name ≠ "" → m = n
  uses : ∀ i ∈ u.instructions.entries, u.Uses i

theorem WellFormed.retain (h : u.WellFormed) (hr : u.signals.Retains u'.signals)
    (hprogram : u'.instructions = u.instructions) : u'.WellFormed := by
  refine ⟨?_, ?_, fun i hi => ?_⟩
  · rw [hprogram]
    exact h.index
  · rw [hprogram]
    exact h.labels
  · rw [hprogram] at hi
    exact (h.uses i hi).retain hr

theorem WellFormed.addInstruction (h : u.WellFormed) (hu : u.Placed) (i : Instruction) :
    WellFormed ((Alu.addInstruction i).after u) := by
  by_cases hi : u.Admits i
  · rw [Edit.after_of_ok (addInstruction_of_admits hi)]
    have hadds := hi.adds
    refine ⟨fun n j hj => ?_, fun m n j k name hj hk hlj hlk hname => ?_, fun j hj => ?_⟩
    · rcases hadds.getElem? hj with hold | ⟨rfl, rfl⟩
      · exact h.index n j hold
      · exact ⟨rfl, rfl⟩
    · -- a label that is new in the program is carried by no other instruction
      have hnew : ∀ {n : Nat} {j : Instruction}, u.instructions.entries[n]? = some j →
          i.label = some name → j.label = some name → False := by
        intro n j hj hli hlj
        rcases hi.label name hli with hempty | hfree
        · exact hname hempty
        · exact hfree j (List.mem_of_getElem? hj) hlj
      rcases hadds.getElem? hj with hj | ⟨rfl, rfl⟩ <;>
        rcases hadds.getElem? hk with hk | ⟨rfl, rfl⟩
      · exact h.labels m n j k name hj hk hlj hlk hname
      · exact (hnew hj hlk hlj).elim
      · exact (hnew hk hlj hlk).elim
      · rfl
    · rw [hadds.program] at hj
      rcases List.mem_append.mp hj with hj | hj
      · exact (h.uses j hj).retain hi.supply.advances.retains
      · rw [List.mem_singleton.mp hj]
        exact hi.uses hu.capacity _
  · obtain ⟨e, he⟩ := addInstruction_of_not_admits hi
    rw [Edit.after_of_error he]
    exact h

/-- A bit register is no word, so the pass leaves it a register. -/
theorem behavior_prepare_of_bit (h : s.dataType = .bit) :
    (u.prepare id s).behavior = s.behavior := by
  have hlive : u.isDead id s = false := by
    simp [isDead, Signal.isOf, h]
  rw [prepare_of_not_dead hlive, withDefault_eq]

theorem dataType_prepare : (u.prepare id s).dataType = s.dataType := by
  cases h : u.isDead id s with
  | true => rw [prepare_of_dead h]
  | false => rw [prepare_of_not_dead h, withDefault_eq]

/-- The pass keeps the signals of an instruction as the instruction uses them. -/
theorem Uses.assign {ε : Type} {ds : List Diagnostic} {t : Alu}
    (hcollect : (Edit.collect bindRemaining u.prepared.signals.ids : Edit Alu ε _) u.prepared =
      .ok ds t) (hi : i ∈ u.instructions.entries) (h : u.Uses i) (slots : List SignalId)
    (labels : List (Option String)) (n : Nat) : t.Uses (i.resolved slots labels n) := by
  have hcontains : ∀ o, u.signals.contains o = true → t.signals.contains o = true := by
    intro o ho
    obtain ⟨s, hs⟩ := Registry.contains_iff.mp ho
    obtain ⟨b, hb, -⟩ := get?_of_collect hcollect hs
    exact Registry.contains_iff.mpr ⟨_, hb⟩
  refine ⟨fun d hd => ?_, fun o ho => ?_, fun l hl => ?_, fun o ho => hcontains o (h.operands o ho),
    fun c hc => hcontains c (h.conditions c ((Branch.mem_conditions_align slots).mp hc))⟩
  · obtain ⟨s, hs, hreg, hword⟩ := h.destinations d hd
    obtain ⟨b, hb, -⟩ := get?_of_collect hcollect hs
    obtain ⟨hbeh, hdata⟩ := behavior_prepare_of_destination (s := s) hi hd
    exact ⟨_, hb, hbeh.trans hreg, hdata.trans hword⟩
  · obtain ⟨s, hs, hreg, hbit⟩ := h.overrides o ho
    obtain ⟨b, hb, -⟩ := get?_of_collect hcollect hs
    exact ⟨_, hb, (behavior_prepare_of_bit hbit).trans hreg, dataType_prepare.trans hbit⟩
  · obtain ⟨s, a, hs, hword, hsb, ha⟩ := h.latches l hl
    obtain ⟨b, hb, hkept⟩ := get?_of_collect hcollect hs
    refine ⟨_, a, hb, dataType_prepare.trans hword, ?_, ha⟩
    show b = some a
    rw [hkept (by rw [hsb]; exact Option.some_ne_none a), hsb]

/-- What the pass makes of the program, whether it answers or not. -/
theorem getElem?_after_assign (hu : u.Sound) (hp : u.phase = .building) :
    ∃ slots labels, ∀ (n : Nat) (j : Instruction),
      (Alu.assign.after u).instructions.entries[n]? = some j →
      ∃ i, u.instructions.entries[n]? = some i ∧ j = i.resolved slots labels n ∧
        (u.Uses i → (Alu.assign.after u).Uses j) := by
  obtain ⟨ds, t, phase, hcollect, hf, -, hafter⟩ := exists_after_assign (hu.ready hp) hp
  refine ⟨t.branchSlots, t.labels, fun n j hj => ?_⟩
  rw [hafter] at hj ⊢
  have hj : t.resolved.instructions.entries[n]? = some j := hj
  rw [getElem?_resolved, hf.instructions] at hj
  obtain ⟨i, hi, rfl⟩ := Option.map_eq_some_iff.mp hj
  refine ⟨i, hi, rfl, fun huses => ?_⟩
  have huses := huses.assign hcollect (List.mem_of_getElem? hi) t.branchSlots t.labels n
  exact ⟨huses.destinations, huses.overrides, huses.latches, huses.operands, huses.conditions⟩

theorem WellFormed.assign (h : u.WellFormed) (hu : u.Sound) :
    WellFormed (Alu.assign.after u) := by
  by_cases hp : u.phase = .building
  · obtain ⟨slots, labels, hget⟩ := getElem?_after_assign hu hp
    refine ⟨fun n j hj => ?_, fun m n j k name hj hk hlj hlk hname => ?_, fun j hj => ?_⟩
    · obtain ⟨i, hi, rfl, -⟩ := hget n j hj
      exact h.index n i hi
    · obtain ⟨i, hi, rfl, -⟩ := hget m j hj
      obtain ⟨i', hi', rfl, -⟩ := hget n k hk
      exact h.labels m n i i' name hi hi' hlj hlk hname
    · obtain ⟨n, hn⟩ := List.mem_iff_getElem?.mp hj
      obtain ⟨i, hi, -, huses⟩ := hget n j hn
      exact huses (h.uses i (List.mem_of_getElem? hi))
  · rw [Edit.after_of_error (assign_of_closed hp)]
    exact h

/-- **Every call keeps the program well formed.** -/
theorem WellFormed.apply (h : u.WellFormed) (hu : u.Sound) (c : Call) : WellFormed (c.apply u) := by
  cases c with
  | setLocation location => exact ⟨h.index, h.labels, fun i hi => (h.uses i hi).retain fun _ s hs =>
      ⟨s, hs, rfl, rfl, fun _ => rfl⟩⟩
  | declare name behavior dataType =>
    show WellFormed ((Alu.declare name behavior dataType).after u)
    rw [after_declare]
    exact h.retain (Registry.extends_apply (.declare name behavior dataType) _).retains rfl
  | edit call => exact h.retain (Registry.extends_apply call u.signals).retains rfl
  | addInstruction i => exact h.addInstruction hu.placed i
  | addConditionLogic id f =>
    show WellFormed ((Alu.addConditionLogic id f).after u)
    rcases addConditionLogic_result u id f with ⟨e, he⟩ | ⟨a, s, t, hdrive, -, hdrives, hok⟩
    · rw [Edit.after_of_error he]
      exact h
    · rw [Edit.after_of_ok hok]
      cases hdrives <;>
        exact h.retain (Registry.advances_place hdrive.declared hdrive.unbound _).retains rfl
  | addRegister id f =>
    show WellFormed ((Alu.addRegister id f).after u)
    rcases addRegister_result u id f with ⟨e, he⟩ | ⟨a, s, hdrive, -, -, hok⟩
    · rw [Edit.after_of_error he]
      exact h
    · rw [Edit.after_of_ok hok]
      exact h.retain (Registry.advances_place hdrive.declared hdrive.unbound _).retains rfl
  | assign => exact h.assign hu

theorem wellFormed_create (name : String) (definition : Definition) :
    WellFormed (create name definition) := by
  have hnil : (create name definition).instructions.entries = [] := rfl
  refine ⟨fun n i hi => ?_, fun m n i j label hi => ?_, fun i hi => ?_⟩ <;>
    rw [hnil] at hi <;> cases hi

/-- **The program of every reachable unit is well formed.** -/
theorem Reachable.wellFormed (h : Reachable u) : u.WellFormed := by
  induction h with
  | new h =>
    obtain ⟨name, definition, rfl⟩ := h.eq_create
    exact wellFormed_create name definition
  | call hu c ih => exact ih.apply hu.sound c

/-! ### Where instructions come from -/

/-- Every instruction of the program is one of these, as it was added while the unit is being built,
and resolved from then on. -/
def FromCalls (A : Instruction → Prop) (u : Alu) : Prop :=
  ∀ (n : Nat) (inst : Instruction), u.instructions.entries[n]? = some inst → ∃ i, A i ∧
    (u.phase = .building ∧ inst = i.placedAt n ∨
      u.phase ≠ .building ∧ ∃ slots labels, inst = (i.placedAt n).resolved slots labels n)

variable {A : Instruction → Prop}

theorem FromCalls.keep (h : u.FromCalls A) (hprogram : u'.instructions = u.instructions)
    (hphase : u'.phase = u.phase) : u'.FromCalls A := by
  unfold FromCalls
  rw [hprogram, hphase]
  exact h

theorem FromCalls.addInstruction (h : u.FromCalls A) (hi : A i) :
    FromCalls A ((Alu.addInstruction i).after u) := by
  by_cases hadmits : u.Admits i
  · rw [Edit.after_of_ok (addInstruction_of_admits hadmits)]
    have hadds := hadmits.adds
    have hphase : (u.added i (u.newInputs i)).phase = u.phase := by rw [hadds.rest]
    intro n inst hinst
    rw [hphase]
    rcases hadds.getElem? hinst with hold | ⟨rfl, rfl⟩
    · exact h n inst hold
    · exact ⟨i, hi, Or.inl ⟨hadmits.building, rfl⟩⟩
  · obtain ⟨e, he⟩ := addInstruction_of_not_admits hadmits
    rw [Edit.after_of_error he]
    exact h

theorem FromCalls.assign (h : u.FromCalls A) (hu : u.Sound) :
    FromCalls A (Alu.assign.after u) := by
  by_cases hp : u.phase = .building
  · obtain ⟨slots, labels, hget⟩ := getElem?_after_assign hu hp
    obtain ⟨_, t, phase, -, -, hphase, hafter⟩ := exists_after_assign (hu.ready hp) hp
    have hclosed : (Alu.assign.after u).phase ≠ .building := by
      rw [hafter]
      exact hphase
    intro n inst hinst
    obtain ⟨j, hj, rfl, -⟩ := hget n inst hinst
    obtain ⟨i, hi, hplaced⟩ := h n j hj
    rcases hplaced with ⟨-, rfl⟩ | ⟨hnot, -⟩
    · exact ⟨i, hi, Or.inr ⟨hclosed, slots, labels, rfl⟩⟩
    · exact absurd hp hnot
  · rw [Edit.after_of_error (assign_of_closed hp)]
    exact h

theorem FromCalls.apply (h : u.FromCalls A) (hu : u.Sound) {c : Call}
    (hc : ∀ i, c = .addInstruction i → A i) : FromCalls A (c.apply u) := by
  cases c with
  | setLocation location => exact h
  | declare name behavior dataType =>
    show FromCalls A ((Alu.declare name behavior dataType).after u)
    rw [after_declare]
    exact h
  | edit call => exact h
  | addInstruction i => exact h.addInstruction (hc i rfl)
  | addConditionLogic id f =>
    show FromCalls A ((Alu.addConditionLogic id f).after u)
    rcases addConditionLogic_result u id f with ⟨e, he⟩ | ⟨a, s, t, -, -, hdrives, hok⟩
    · rw [Edit.after_of_error he]
      exact h
    · rw [Edit.after_of_ok hok]
      cases hdrives <;> exact h.keep rfl rfl
  | addRegister id f =>
    show FromCalls A ((Alu.addRegister id f).after u)
    rcases addRegister_result u id f with ⟨e, he⟩ | ⟨a, s, -, -, -, hok⟩
    · rw [Edit.after_of_error he]
      exact h
    · rw [Edit.after_of_ok hok]
      exact h.keep rfl rfl
  | assign => exact h.assign hu

theorem FromCalls.run (h : u.FromCalls A) (hu : u.Sound) {calls : List Call}
    (hcalls : ∀ i, .addInstruction i ∈ calls → A i) : FromCalls A (u.run calls) := by
  induction calls generalizing u with
  | nil => exact h
  | cons c calls ih =>
    have hfirst : ∀ i, c = .addInstruction i → A i := by
      rintro i rfl
      exact hcalls i List.mem_cons_self
    exact ih (h.apply hu hfirst) (hu.apply c) fun i hi => hcalls i (List.mem_cons_of_mem c hi)

theorem IsNew.fromCalls (h : u.IsNew) : u.FromCalls A := by
  have hnil : u.instructions.entries = [] := by cases h <;> rfl
  intro n inst hinst
  rw [hnil] at hinst
  cases hinst

end Alu

/-! ### Programs whose instructions are built by calls -/

/-- The instruction in place `n` of a program, and the calls that built it. -/
structure Instruction.StemsFrom (label : Option String) (calls : List Instruction.Call) (n : Nat)
    (inst : Instruction) : Prop where
  /-- It is the built instruction in all parts but its branch. -/
  parts : inst = { (Instruction.built label calls).placedAt n with branch := inst.branch }
  /-- Its conditions were named by a branch call that answered. -/
  conditions : ∀ c ∈ inst.branch.conditions, ∃ earlier call,
    Instruction.Answers label calls earlier call ∧ (call.cond0? = some c ∨ call.cond1? = some c)
  /-- No other branch call answered. -/
  once : ∀ earlier earlier' call call', Instruction.Answers label calls earlier call →
    Instruction.Answers label calls earlier' call' → earlier = earlier' ∧ call = call'
  /-- A bit without a condition makes no difference to its targets. -/
  absent : inst.branch.IgnoresAbsent

theorem Instruction.stemsFrom_placedAt (label : Option String) (calls : List Instruction.Call)
    (n : Nat) : ((built label calls).placedAt n).StemsFrom label calls n where
  parts := rfl
  conditions := fun _ hc => answers_of_condition hc
  once := fun _ _ _ _ h h' => h.unique h'
  absent := (hasBranch_built label calls).means.ignoresAbsent

theorem Instruction.StemsFrom.resolved {label : Option String} {calls : List Instruction.Call}
    {n : Nat} {inst : Instruction} (h : inst.StemsFrom label calls n) (slots : List SignalId)
    (labels : List (Option String)) : (inst.resolved slots labels n).StemsFrom label calls n where
  parts := by
    rw [h.parts]
    rfl
  conditions := fun c hc => h.conditions c ((Branch.mem_conditions_align slots).mp hc)
  once := h.once
  absent := ignoresAbsent_resolved h.absent slots labels n

namespace Alu

/-- The instructions that the call passes were built by calls. -/
def Call.IsAssembled (c : Call) : Prop :=
  ∀ i, c = .addInstruction i → ∃ label calls, i = Instruction.built label calls

/-- What holds of the program of a unit after these calls. -/
structure WellAssembled (calls : List Call) (u : Alu) : Prop where
  index : ∀ (n : Nat) (inst : Instruction),
    u.instructions.entries[n]? = some inst → inst.index = some n ∧ inst.isFinalized = true
  labels : ∀ (m n : Nat) (i j : Instruction) (name : String),
    u.instructions.entries[m]? = some i → u.instructions.entries[n]? = some j →
    i.label = some name → j.label = some name → name ≠ "" → m = n
  destinations : ∀ inst ∈ u.instructions.entries,
    inst.destinations.entries.length ≤ 9 ∧ inst.destinations.entries.Nodup ∧
      ∀ d ∈ inst.destinations.entries,
        ∃ s, u.signals.get? d = some s ∧ s.behavior = .register ∧ s.dataType = .word
  overrides : ∀ inst ∈ u.instructions.entries,
    inst.overrides.entries.length ≤ 4 ∧ (inst.overrides.entries.map Prod.fst).Nodup ∧
      ∀ o ∈ inst.overrides.entries,
        ∃ s, u.signals.get? o.1 = some s ∧ s.behavior = .register ∧ s.dataType = .bit
  latches : ∀ inst ∈ u.instructions.entries,
    inst.latches.entries.length ≤ 13 ∧ inst.latches.entries.Nodup ∧
      ∀ l ∈ inst.latches.entries, ∃ s n, u.signals.get? l = some s ∧ s.dataType = .word ∧
        s.binding = some ⟨n⟩ ∧ 30 ≤ n ∧ n ≤ 42
  operands : ∀ inst ∈ u.instructions.entries, ∀ call, inst.operation = some call →
    ∀ o, .signal o ∈ call.operands → u.signals.contains o = true
  conditions : ∀ inst ∈ u.instructions.entries, ∀ c ∈ inst.branch.conditions,
    u.signals.contains c = true
  built : ∀ (n : Nat) (inst : Instruction), u.instructions.entries[n]? = some inst →
    ∃ label icalls, .addInstruction (Instruction.built label icalls) ∈ calls ∧
      inst.StemsFrom label icalls n

variable {u : Alu} {calls : List Call}

theorem stemsFrom_of_calls (hu : u.IsNew) (hcalls : ∀ c ∈ calls, c.IsAssembled) {n : Nat}
    {inst : Instruction} (hinst : (u.run calls).instructions.entries[n]? = some inst) :
    ∃ label icalls, .addInstruction (Instruction.built label icalls) ∈ calls ∧
      inst.StemsFrom label icalls n := by
  have hfrom := hu.fromCalls.run (Reachable.new hu).sound (A := fun i => .addInstruction i ∈ calls)
    fun _ hi => hi
  obtain ⟨i, hi, hplaced⟩ := hfrom n inst hinst
  obtain ⟨label, icalls, rfl⟩ := hcalls _ hi i rfl
  refine ⟨label, icalls, hi, ?_⟩
  have hstems := Instruction.stemsFrom_placedAt label icalls n
  rcases hplaced with ⟨-, rfl⟩ | ⟨-, slots, labels, rfl⟩
  · exact hstems
  · exact hstems.resolved slots labels

/-- What is built by calls has no signal twice, and a program does not change this. -/
theorem hasSets_of_calls (hu : u.IsNew) (hcalls : ∀ c ∈ calls, c.IsAssembled)
    {inst : Instruction} (hinst : inst ∈ (u.run calls).instructions.entries) : inst.HasSets := by
  obtain ⟨n, hn⟩ := List.mem_iff_getElem?.mp hinst
  obtain ⟨label, icalls, -, hstems⟩ := stemsFrom_of_calls hu hcalls hn
  have hsets := Instruction.hasSets_built label icalls
  rw [hstems.parts]
  exact ⟨hsets.destinations, hsets.overrides, hsets.latches⟩

/-- **The program of a unit whose instructions are built by calls.** The calls on the unit and on
the instructions are any calls, answered or not. -/
theorem IsNew.wellAssembled (hu : u.IsNew) (hcalls : ∀ c ∈ calls, c.IsAssembled) :
    WellAssembled calls (u.run calls) := by
  have hwell := ((Reachable.new hu).run calls).wellFormed
  have hsets : ∀ inst ∈ (u.run calls).instructions.entries, inst.HasSets :=
    fun inst hinst => hasSets_of_calls hu hcalls hinst
  exact
    { index := hwell.index
      labels := hwell.labels
      destinations := fun inst hinst => by
        have hnodup := (hsets inst hinst).destinations.nodup
        rw [List.map_id] at hnodup
        exact ⟨(hsets inst hinst).destinations.room, hnodup, (hwell.uses inst hinst).destinations⟩
      overrides := fun inst hinst => ⟨(hsets inst hinst).overrides.room,
        (hsets inst hinst).overrides.nodup, (hwell.uses inst hinst).overrides⟩
      latches := fun inst hinst => by
        have hnodup := (hsets inst hinst).latches.nodup
        rw [List.map_id] at hnodup
        refine ⟨(hsets inst hinst).latches.room, hnodup, fun l hl => ?_⟩
        obtain ⟨s, ⟨n⟩, hs, hword, hb, ha⟩ := (hwell.uses inst hinst).latches l hl
        have hrange : 30 ≤ n ∧ n < 30 + 13 := Address.isIn_iff.mp ha
        exact ⟨s, n, hs, hword, hb, by omega, by omega⟩
      operands := fun inst hinst call hcall o ho => (hwell.uses inst hinst).operands o
        (Instruction.mem_operandSignals.mpr ⟨call, hcall, ho⟩)
      conditions := fun inst hinst => (hwell.uses inst hinst).conditions
      built := fun n inst hinst => stemsFrom_of_calls hu hcalls hinst }

/-- Two registers, a word and a condition. -/
def assembledSignals : List Call :=
  [.declare "r" .register .word, .declare "f" .register .bit, .declare "w" .wire .word,
    .declare "b" .branchCondition .bit]

/-- The calls that build an instruction. The second one repeats a destination and the last one sets
a second branch, so they are refused. -/
def assembledCalls : List Instruction.Call :=
  let signals := ((create "alu" .standard).run assembledSignals).signals
  [.addDestination signals ⟨7⟩, .addDestination signals ⟨7⟩, .addOverride signals ⟨8⟩ true,
    .addLatch signals ⟨9⟩, .branch (.ifThen ⟨10⟩ "start"), .branch (.goTo "nowhere")]

/-- The calls of a unit with this instruction, up to the final pass. -/
def assemblingCalls : List Call :=
  assembledSignals ++ [.addConditionLogic ⟨10⟩ (.ofSignal ⟨2⟩), .addRegister ⟨8⟩ (.ofSignal ⟨2⟩),
    .addInstruction (.built (some "start") assembledCalls), .assign]

theorem wellAssembled_assemblingCalls :
    (∀ c ∈ assemblingCalls, c.IsAssembled) ∧
      WellAssembled assemblingCalls ((create "alu" .standard).run assemblingCalls) ∧
      ((create "alu" .standard).run assemblingCalls).phase = .bound ∧
      ((create "alu" .standard).run assemblingCalls).instructions.entries.map
        (fun i => (i.destinations.entries, i.branch.conditions)) = [([⟨7⟩], [⟨10⟩])] := by
  have hcalls : ∀ c ∈ assemblingCalls, c.IsAssembled := by
    have hinst : ∀ i, .addInstruction i ∈ assemblingCalls →
        i = .built (some "start") assembledCalls := by
      intro i hi
      simpa [assemblingCalls, assembledSignals] using hi
    rintro c hc i rfl
    exact ⟨_, _, hinst i hc⟩
  exact ⟨hcalls, (IsNew.standard "alu").wellAssembled hcalls, by decide +kernel, by decide +kernel⟩

end Alu

end AluPlacement
