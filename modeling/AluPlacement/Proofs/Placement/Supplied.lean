import AluPlacement.Proofs.Placement.Closed

/-! # What the program of a unit has been given

While a unit is being built, `Supplied` says what its program can count on: destinations are word
registers, every wire and delayed signal that an instruction reads has an input, every latch is a
word input, and an instruction knows its place. It also says where word inputs come from, which is
what keeps the other word registers free for the final pass. Every call preserves this
(`Supplied.apply`), so it holds of every reachable unit that is being built
(`Reachable.supplied`). -/

namespace AluPlacement

/-! ### Registries that keep what a program uses -/

/-- Every signal keeps its type and its behavior, and its binding if it has one. -/
def Registry.Retains (r r' : Registry) : Prop :=
  ∀ id s, r.get? id = some s → ∃ s', r'.get? id = some s' ∧ s'.dataType = s.dataType ∧
    s'.behavior = s.behavior ∧ (s.binding ≠ none → s'.binding = s.binding)

theorem Registry.Extends.retains {r r' : Registry} (h : r.Extends r') : r.Retains r' := by
  intro id s hs
  obtain ⟨s', hs', hk⟩ := h.kept id s hs
  exact ⟨s', hs', hk.dataType, hk.behavior, fun _ => hk.binding⟩

theorem Registry.Advances.retains {r r' : Registry} (h : r.Advances r') : r.Retains r' := by
  intro id s hs
  obtain ⟨b, hb, hkept⟩ := h.get id s hs
  exact ⟨_, hb, rfl, rfl, hkept⟩

theorem Signal.IsInput.of_behavior {s s' : Signal} (h : s'.behavior = s.behavior) :
    s'.IsInput ↔ s.IsInput := by
  unfold IsInput
  rw [h]

namespace Alu

/-- What the program can count on while the unit is being built. -/
structure Supplied (u : Alu) : Prop where
  destinations : ∀ i ∈ u.instructions.entries, ∀ d ∈ i.destinations.entries,
    ∃ s, u.signals.get? d = some s ∧ s.behavior = .register ∧ s.dataType = .word
  operands : ∀ i ∈ u.instructions.entries, ∀ o ∈ i.operandSignals,
    ∃ s, u.signals.get? o = some s ∧ (s.IsInput → s.binding ≠ none)
  latches : ∀ i ∈ u.instructions.entries, ∀ l ∈ i.latches.entries, l ∈ u.wordIns.entries
  inputs : ∀ id ∈ u.wordIns.entries,
    (∃ i ∈ u.instructions.entries, id ∈ i.latches.entries) ∨
      ∃ s, u.signals.get? id = some s ∧ s.IsInput
  index : ∀ (n : Nat) (i : Instruction), u.instructions.entries[n]? = some i → i.index = some n

variable {u u' : Alu} {id : SignalId} {s : Signal} {i : Instruction} {pending : List SignalId}

/-! ### Calls that leave the program as it is -/

theorem Supplied.retain (h : u.Supplied) (hsignals : u.signals.Retains u'.signals)
    (hinputs : u'.wordIns = u.wordIns) (hprogram : u'.instructions = u.instructions) :
    u'.Supplied := by
  refine ⟨fun i hi d hd => ?_, fun i hi o ho => ?_, fun i hi l hl => ?_, fun id hid => ?_, ?_⟩
  · rw [hprogram] at hi
    obtain ⟨s, hs, hreg, hword⟩ := h.destinations i hi d hd
    obtain ⟨s', hs', hdata, hbeh, -⟩ := hsignals d s hs
    exact ⟨s', hs', hbeh.trans hreg, hdata.trans hword⟩
  · rw [hprogram] at hi
    obtain ⟨s, hs, hbound⟩ := h.operands i hi o ho
    obtain ⟨s', hs', -, hbeh, hkept⟩ := hsignals o s hs
    refine ⟨s', hs', fun hin => ?_⟩
    have hne := hbound ((Signal.IsInput.of_behavior hbeh).mp hin)
    rwa [hkept hne]
  · rw [hprogram] at hi
    rw [hinputs]
    exact h.latches i hi l hl
  · rw [hinputs] at hid
    rw [hprogram]
    refine (h.inputs id hid).imp_right fun ⟨s, hs, hin⟩ => ?_
    obtain ⟨s', hs', -, hbeh, -⟩ := hsignals id s hs
    exact ⟨s', hs', (Signal.IsInput.of_behavior hbeh).mpr hin⟩
  · rw [hprogram]
    exact h.index

theorem Supplied.addRegister (h : u.Supplied) (id : SignalId) (f : TruthFn) :
    Supplied ((Alu.addRegister id f).after u) := by
  rcases addRegister_result u id f with ⟨e, he⟩ | ⟨a, s, hdrive, -, -, hok⟩
  · rw [Edit.after_of_error he]
    exact h
  · rw [Edit.after_of_ok hok]
    exact h.retain (Registry.advances_place hdrive.declared hdrive.unbound _).retains rfl rfl

theorem Supplied.addConditionLogic (h : u.Supplied) (id : SignalId) (f : TruthFn) :
    Supplied ((Alu.addConditionLogic id f).after u) := by
  rcases addConditionLogic_result u id f with ⟨e, he⟩ | ⟨a, s, t, hdrive, -, hdrives, hok⟩
  · rw [Edit.after_of_error he]
    exact h
  · rw [Edit.after_of_ok hok]
    cases hdrives <;>
      exact h.retain (Registry.advances_place hdrive.declared hdrive.unbound _).retains rfl rfl

/-! ### Adding an instruction -/

theorem Suppliable.mem_slots (h : u.Suppliable pending) (hid : id ∈ pending)
    (hs : u.signals.get? id = some s) :
    id ∈ (u.withInputs pending).slots s.dataType.inputFamily := by
  rw [h.slots]
  refine List.mem_append_right _ (List.mem_filter.mpr ⟨hid, ?_⟩)
  rw [hs]
  simp

/-- Whoever is in a slot is bound. -/
theorem Placed.binding_of_mem_slots (h : u.Placed) {family : Family} (hne : family ≠ .constant)
    (hid : id ∈ u.slots family) (hs : u.signals.get? id = some s) : s.binding ≠ none := by
  obtain ⟨k, hk⟩ := mem_slots_iff.mp hid
  have hd : (Resource.slot family k).dataType? ≠ none := fun hnone => by
    obtain ⟨_, heq⟩ := Resource.eq_constant_slot hnone
    cases heq
    exact hne rfl
  rw [h.binding_of_holder hd hk hs]
  exact Option.some_ne_none _

/-- Whoever is bound to the address of a word input holds it. -/
theorem InProgress.mem_wordIns (h : u.InProgress) (hs : u.signals.get? id = some s) {a : Address}
    (hb : s.binding = some a) (ha : a.isIn .wordIn = true) : id ∈ u.wordIns.entries := by
  have hp : u.signals.bound? id = some ⟨a, s.dataType, s.behavior, s.initial⟩ :=
    Registry.bound?_eq_some.mpr ⟨s, hs, hb, rfl, rfl, rfl⟩
  obtain ⟨r, hr, hpr, hholder⟩ := h.own id _ hp
  have har : a = r.address := hpr
  have hrange : 30 ≤ r.address.number ∧ r.address.number < 30 + 13 := by
    obtain ⟨hlo, hhi⟩ := Bool.and_eq_true_iff.mp ha
    rw [← har]
    exact ⟨of_decide_eq_true hlo, of_decide_eq_true hhi⟩
  obtain ⟨k, rfl⟩ := Resource.eq_wordIn_slot hr hrange.1 (by omega)
  exact List.mem_of_getElem? hholder

theorem Supplied.addInstruction (h : u.Supplied) (hu : u.Sound) (i : Instruction) :
    Supplied ((Alu.addInstruction i).after u) := by
  rcases addInstruction_result u i with ⟨e, he⟩ | ⟨pending, hi, hok⟩
  · rw [Edit.after_of_error he]
    exact h
  rw [Edit.after_of_ok hok]
  have hretains : u.signals.Retains (u.withInputs pending).signals := hi.supply.advances.retains
  have hplaced := (hu.withInputs hi).placed
  have hin := hu.inProgress hi.building
  have hwordIns : ∀ id ∈ u.wordIns.entries, id ∈ (u.withInputs pending).wordIns.entries := by
    intro id hid
    show id ∈ (u.withInputs pending).slots .wordIn
    rw [hi.supply.slots]
    exact List.mem_append_left _ hid
  refine ⟨fun j hj d hd => ?_, fun j hj o ho => ?_, fun j hj l hl => ?_, fun id hid => ?_,
    fun n j hj => ?_⟩
  · have hdeclared : ∃ s, u.signals.get? d = some s ∧ s.behavior = .register ∧
        s.dataType = .word := by
      rcases List.mem_append.mp hj with hj | hj
      · exact h.destinations j hj d hd
      · rw [List.mem_singleton.mp hj] at hd
        exact hi.destinations d hd
    obtain ⟨s, hs, hreg, hword⟩ := hdeclared
    obtain ⟨s', hs', hdata, hbeh, -⟩ := hretains d s hs
    exact ⟨s', hs', hbeh.trans hreg, hdata.trans hword⟩
  · -- an operand of the new instruction was bound before or is among the new inputs
    have hdeclared : ∃ s, u.signals.get? o = some s ∧
        (s.IsInput → s.binding = none → o ∈ pending) := by
      rcases List.mem_append.mp hj with hj | hj
      · obtain ⟨s, hs, hbound⟩ := h.operands j hj o ho
        exact ⟨s, hs, fun hinput hb => absurd hb (hbound hinput)⟩
      · rw [List.mem_singleton.mp hj] at ho
        exact hi.inputs.operands o ho
    obtain ⟨s, hs, hpending⟩ := hdeclared
    obtain ⟨s', hs', hdata, hbeh, hkept⟩ := hretains o s hs
    refine ⟨s', hs', fun hinput => ?_⟩
    have hinput := (Signal.IsInput.of_behavior hbeh).mp hinput
    by_cases hb : s.binding = none
    · refine hplaced.binding_of_mem_slots ?_ (hi.supply.mem_slots (hpending hinput hb) hs) hs'
      cases s.dataType <;> exact nofun
    · rwa [hkept hb]
  · rcases List.mem_append.mp hj with hj | hj
    · exact hwordIns l (h.latches j hj l hl)
    · rw [List.mem_singleton.mp hj] at hl
      rcases hi.inputs.latches l hl with hpending | ⟨s, a, hs, hb, ha⟩
      · obtain ⟨s, hs, hword⟩ := hi.latches l hl
        have hmem := hi.supply.mem_slots hpending hs
        rwa [hword] at hmem
      · exact hwordIns l (hin.mem_wordIns hs hb ha)
  · have hid : id ∈ (u.withInputs pending).slots .wordIn := hid
    rw [hi.supply.slots] at hid
    have hsource : (∃ j ∈ (u.added i pending).instructions.entries, id ∈ j.latches.entries) ∨
        ∃ s, u.signals.get? id = some s ∧ s.IsInput := by
      rcases List.mem_append.mp hid with hid | hid
      · refine (h.inputs id hid).imp_left fun ⟨j, hj, hl⟩ => ?_
        exact ⟨j, List.mem_append_left _ hj, hl⟩
      · rcases hi.inputs.source id (List.mem_filter.mp hid).1 with hl | ⟨-, hop⟩
        · exact Or.inl ⟨_, List.mem_append_right _ (List.mem_singleton.mpr rfl), hl⟩
        · exact Or.inr hop
    refine hsource.imp_right fun ⟨s, hs, hinput⟩ => ?_
    obtain ⟨s', hs', -, hbeh, -⟩ := hretains id s hs
    exact ⟨s', hs', (Signal.IsInput.of_behavior hbeh).mpr hinput⟩
  · have hj : (u.instructions.entries ++ [_])[n]? = some j := hj
    rw [getElem?_append_singleton] at hj
    split_ifs at hj with hn
    · cases hj
      rw [hn]
      rfl
    · exact h.index n j hj

/-! ### All calls -/

/-- Every call preserves what the program can count on, as long as the unit is being built. -/
theorem Supplied.apply (h : u.Supplied) (hu : u.Sound) (c : Call)
    (hp : (c.apply u).phase = .building) : Supplied (c.apply u) := by
  cases c with
  | setLocation location => exact ⟨h.destinations, h.operands, h.latches, h.inputs, h.index⟩
  | declare name behavior dataType =>
    show Supplied ((Alu.declare name behavior dataType).after u)
    rw [after_declare]
    exact h.retain (Registry.extends_apply (.declare name behavior dataType) _).retains rfl rfl
  | edit call => exact h.retain (Registry.extends_apply call u.signals).retains rfl rfl
  | addInstruction i => exact h.addInstruction hu i
  | addConditionLogic id f => exact h.addConditionLogic id f
  | addRegister id f => exact h.addRegister id f
  | assign =>
    refine after_assign (P := fun v => v.phase = .building → v.Supplied) hu.ready (fun _ => h) ?_ hp
    exact fun _ _ _ _ hphase hb => absurd hb hphase

theorem supplied_create (name : String) (definition : Definition) :
    Supplied (create name definition) := by
  have hprogram : (create name definition).instructions.entries = [] := rfl
  have hinputs : (create name definition).wordIns.entries = [] := rfl
  constructor <;> simp [hprogram, hinputs]

/-- **The program of every reachable unit that is being built has what it needs.** -/
theorem Reachable.supplied (h : Reachable u) (hp : u.phase = .building) : u.Supplied := by
  induction h with
  | new h =>
    obtain ⟨name, definition, rfl⟩ := h.eq_create
    exact supplied_create name definition
  | @call u h c ih =>
    have hbefore : u.phase = .building := by
      by_contra hclosed
      rw [(keeps_apply hclosed c).phase] at hp
      exact hclosed hp
    exact (ih hbefore).apply h.sound c hp

end Alu

end AluPlacement
