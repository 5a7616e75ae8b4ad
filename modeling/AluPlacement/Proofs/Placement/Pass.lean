import AluPlacement.Proofs.Placement.Step

/-! # One step of the final pass

The final pass visits every signal once. `Outcome u id s` lists what a visit of the signal `s` can
come to: the state after it, or the refusal, with the condition under which it happens. The list is
complete (`bindRemaining_outcome`), so no later proof opens the pass again. -/

namespace AluPlacement

/-! ### Constants with a given value -/

namespace Registry

/-- A bound constant of this type and this value. -/
def HasConstant (r : Registry) (dataType : DataType) (value : Option Word) : Prop :=
  ∃ id p, r.bound? id = some p ∧ p.behavior = .constant ∧ p.dataType = dataType ∧ p.initial = value

theorem mem_signals_iff {r : Registry} {s : Signal} : s ∈ r.signals ↔ ∃ id, r.get? id = some s := by
  rw [List.mem_iff_getElem?]
  exact ⟨fun ⟨i, h⟩ => ⟨⟨i⟩, h⟩, fun ⟨id, h⟩ => ⟨id.index, h⟩⟩

theorem constantAddress?_eq_some {r : Registry} {d : DataType} {v : Option Word} {a : Address}
    (h : r.constantAddress? d v = some a) : ∃ id p, r.bound? id = some p ∧ p.address = a ∧
      p.behavior = .constant ∧ p.dataType = d ∧ p.initial = v := by
  obtain ⟨s, hmem, h⟩ := List.exists_of_findSome?_eq_some h
  obtain ⟨id, hs⟩ := mem_signals_iff.mp hmem
  split_ifs at h with hc
  simp only [Signal.isOf, Bool.and_eq_true, beq_iff_eq] at hc
  refine ⟨id, ⟨a, s.dataType, s.behavior, s.initial⟩, ?_, rfl, hc.1.1, hc.1.2, hc.2⟩
  exact bound?_eq_some.mpr ⟨s, hs, h, rfl, rfl, rfl⟩

theorem constantAddress?_eq_none {r : Registry} {d : DataType} {v : Option Word} :
    r.constantAddress? d v = none ↔ ¬r.HasConstant d v := by
  unfold constantAddress? HasConstant
  rw [List.findSome?_eq_none_iff]
  constructor
  · rintro h ⟨id, p, hp, hc, hd, hi⟩
    obtain ⟨s, hs, hb, h1, h2, h3⟩ := bound?_eq_some.mp hp
    have := h s (mem_signals_iff.mpr ⟨id, hs⟩)
    rw [if_pos (by simp [Signal.isOf, h1, h2, h3, hc, hd, hi]), hb] at this
    cases this
  · intro h s hmem
    obtain ⟨id, hs⟩ := mem_signals_iff.mp hmem
    split_ifs with hc
    · simp only [Signal.isOf, Bool.and_eq_true, beq_iff_eq] at hc
      cases ha : s.binding with
      | none => rfl
      | some a =>
        refine absurd ?_ h
        refine ⟨id, ⟨a, s.dataType, s.behavior, s.initial⟩, ?_, hc.1.1, hc.1.2, hc.2⟩
        exact bound?_eq_some.mpr ⟨s, hs, ha, rfl, rfl, rfl⟩
    · rfl

end Registry

namespace Alu

/-- A constant that shares no address. -/
structure IsNewConstant (u : Alu) (s : Signal) : Prop where
  unbound : s.binding = none
  behavior : s.behavior = .constant
  notBound : ¬u.signals.HasConstant s.dataType s.initial

/-- What a visit of the signal `s` can come to. -/
inductive Outcome (u : Alu) (id : SignalId) (s : Signal) :
    EStateM.Result (Fault Diagnostic) Alu Unit → Prop
  | skip (h : s.binding ≠ none ∨ s.behavior.isStateful = false) : Outcome u id s (.ok () u)
  | wordReg (hb : s.binding = none) (hr : s.behavior = .register) (hd : s.dataType = .word)
      (hroom : u.wordRegs.entries.length < u.wordRegs.capacity) :
      Outcome u id s (.ok () (u.takeSlot .wordReg id))
  | wordRegFull (hb : s.binding = none) (hr : s.behavior = .register) (hd : s.dataType = .word)
      (hfull : u.wordRegs.capacity ≤ u.wordRegs.entries.length) :
      Outcome u id s (.error (.refused (u.wordRegs.exhausted.located s.location)) u)
  | hold (hd : s.dataType = .bit)
      (hn : (s.binding = none ∧ s.behavior = .register) ∨ u.IsNewConstant s)
      (hroom : u.logic.entries.length < u.logic.capacity) :
      Outcome u id s (.ok () (u.takeSlot .conditionLogic id))
  | holdFull (hd : s.dataType = .bit)
      (hn : (s.binding = none ∧ s.behavior = .register) ∨ u.IsNewConstant s)
      (hfull : u.logic.capacity ≤ u.logic.entries.length) :
      Outcome u id s (.error (.refused (u.logic.exhausted.located s.location)) u)
  | shared {a : Address} (hb : s.binding = none) (hc : s.behavior = .constant)
      (ha : u.signals.constantAddress? s.dataType s.initial = some a) :
      Outcome u id s (.ok () (u.takeShared id a))
  | builtin {r : Resource} (hd : s.dataType = .word) (hn : u.IsNewConstant s)
      (hr : s.initial.bind Resource.ofBuiltinValue? = some r) :
      Outcome u id s (.ok () (u.takeBuiltin id r))
  | constant (hd : s.dataType = .word) (hn : u.IsNewConstant s)
      (hr : s.initial.bind Resource.ofBuiltinValue? = none)
      (hconst : u.constants.entries.length < u.constants.capacity)
      (hroom : u.wordIns.entries.length < u.wordIns.capacity) :
      Outcome u id s (.ok () (u.takeConstant id))
  | inputFull (hd : s.dataType = .word) (hn : u.IsNewConstant s)
      (hr : s.initial.bind Resource.ofBuiltinValue? = none)
      (hconst : u.constants.entries.length < u.constants.capacity)
      (hfull : u.wordIns.capacity ≤ u.wordIns.entries.length) :
      Outcome u id s (.error (.refused
        ((Error.constantInput s.name Family.wordIn.capacity).located s.location)) u)
  | spill (hd : s.dataType = .word) (hn : u.IsNewConstant s)
      (hr : s.initial.bind Resource.ofBuiltinValue? = none)
      (hconst : u.constants.capacity ≤ u.constants.entries.length)
      (hroom : u.wordRegs.entries.length < u.wordRegs.capacity) :
      Outcome u id s (.ok () (u.takeSlot .wordReg id))
  | spillFull (hd : s.dataType = .word) (hn : u.IsNewConstant s)
      (hr : s.initial.bind Resource.ofBuiltinValue? = none)
      (hconst : u.constants.capacity ≤ u.constants.entries.length)
      (hfull : u.wordRegs.capacity ≤ u.wordRegs.entries.length) :
      Outcome u id s (.error (.refused
        ((Error.constantSpill s.name Family.wordReg.capacity).located s.location)) u)

/-! ### The routes of the pass -/

section Routes

variable {u : Alu} {id : SignalId} {s : Signal}

theorem bindWordReg_of_room (hs : u.signals.get? id = some s) (hb : s.binding = none)
    (hroom : u.wordRegs.entries.length < u.wordRegs.capacity) :
    u.bindWordReg id = .ok (u.takeSlot .wordReg id) :=
  push_bind_eq_ok.mpr ⟨hroom, ⟨s, hs, hb⟩, rfl⟩

theorem bindWordReg_of_full (hfull : u.wordRegs.capacity ≤ u.wordRegs.entries.length) :
    u.bindWordReg id = .error (.refused u.wordRegs.exhausted) :=
  Checked.bind_eq_error.mpr (Or.inl (Pool.push_eq_error.mpr ⟨hfull, rfl⟩))

theorem bindShared_eq (hs : u.signals.get? id = some s) (hb : s.binding = none) (a : Address) :
    u.bindShared id a = .ok (u.takeShared id a) :=
  Checked.bind_eq_ok.mpr ⟨_, Registry.bind_eq_ok.mpr ⟨⟨s, hs, hb⟩, rfl⟩, rfl⟩

theorem bindNewConstant_of_room (hs : u.signals.get? id = some s) (hb : s.binding = none)
    (name : String) (hconst : u.constants.entries.length < u.constants.capacity)
    (hroom : u.wordIns.entries.length < u.wordIns.capacity) :
    u.bindNewConstant id name = .ok (u.takeConstant id) := by
  unfold bindNewConstant
  rw [Pool.isFull_eq_false.mpr hconst, Pool.isFull_eq_false.mpr hroom]
  refine Checked.bind_eq_ok.mpr ⟨_, Pool.push_eq_ok.mpr ⟨hroom, rfl⟩, ?_⟩
  exact push_bind_eq_ok.mpr ⟨hconst, ⟨s, hs, hb⟩, rfl⟩

theorem bindNewConstant_of_inputFull (name : String)
    (hconst : u.constants.entries.length < u.constants.capacity)
    (hfull : u.wordIns.capacity ≤ u.wordIns.entries.length) :
    u.bindNewConstant id name = .error (.refused (.constantInput name Family.wordIn.capacity)) := by
  unfold bindNewConstant
  rw [Pool.isFull_eq_false.mpr hconst, Pool.isFull_eq_true.mpr hfull]
  rfl

theorem bindNewConstant_of_spill (hs : u.signals.get? id = some s) (hb : s.binding = none)
    (name : String) (hconst : u.constants.capacity ≤ u.constants.entries.length)
    (hroom : u.wordRegs.entries.length < u.wordRegs.capacity) :
    u.bindNewConstant id name = .ok (u.takeSlot .wordReg id) := by
  unfold bindNewConstant
  rw [Pool.isFull_eq_true.mpr hconst, Pool.isFull_eq_false.mpr hroom]
  exact bindWordReg_of_room hs hb hroom

theorem bindNewConstant_of_spillFull (name : String)
    (hconst : u.constants.capacity ≤ u.constants.entries.length)
    (hfull : u.wordRegs.capacity ≤ u.wordRegs.entries.length) :
    u.bindNewConstant id name =
      .error (.refused (.constantSpill name Family.wordReg.capacity)) := by
  unfold bindNewConstant
  rw [Pool.isFull_eq_true.mpr hconst, Pool.isFull_eq_true.mpr hfull]
  rfl

/-- A change that happens, at a place. -/
theorem locatedAt_change_of_ok {step : Alu → Checked Error Alu} {u' : Alu} (l : Location)
    (h : step u = .ok u') : Edit.locatedAt l (change step) u = .ok () u' := by
  refine Edit.mapReason_eq_ok.mpr (Edit.attempt_eq_ok.mpr ?_)
  exact Checked.bind_eq_ok.mpr ⟨u', h, rfl⟩

/-- A change that is refused, at a place. -/
theorem locatedAt_change_of_refused {step : Alu → Checked Error Alu} {e : Error} (l : Location)
    (h : step u = .error (.refused e)) :
    Edit.locatedAt l (change step) u = .error (.refused (e.located l)) u := by
  refine Edit.mapReason_eq_error.mpr ⟨.refused e, Edit.attempt_eq_error.mpr ⟨?_, rfl⟩, rfl⟩
  exact Checked.bind_eq_error.mpr (Or.inl h)

theorem bindHold_of_room (hs : u.signals.get? id = some s) (hb : s.binding = none) (l : Location)
    (hroom : u.logic.entries.length < u.logic.capacity) :
    Edit.locatedAt l (onBlock (Block.bindHold id)) u = .ok () (u.takeSlot .conditionLogic id) := by
  refine Edit.mapReason_eq_ok.mpr ?_
  obtain ⟨b, hbind, hput⟩ := Edit.zoom_eq_ok.mp
    (onBlock_bindLogic_eq_ok (f := TruthFn.ofSignal id).mpr ⟨hroom, ⟨s, hs, hb⟩, rfl, rfl⟩)
  refine Edit.zoom_eq_ok.mpr ⟨b, Edit.bind_eq_ok.mpr ⟨_, b, hbind, rfl⟩, hput⟩

theorem bindHold_of_full (l : Location) (hfull : u.logic.capacity ≤ u.logic.entries.length) :
    Edit.locatedAt l (onBlock (Block.bindHold id)) u =
      .error (.refused (u.logic.exhausted.located l)) u := by
  refine Edit.mapReason_eq_error.mpr ⟨.refused u.logic.exhausted, ?_, rfl⟩
  refine Edit.zoom_eq_error.mpr ⟨u.toBlock, Edit.bind_eq_error.mpr (Or.inl ?_), rfl⟩
  refine Edit.attempt_eq_error.mpr ⟨?_, rfl⟩
  exact Checked.bind_eq_error.mpr (Or.inl (Pool.push_eq_error.mpr ⟨hfull, rfl⟩))

/-- Holding a value in the condition logic. -/
theorem bindHold_outcome (hs : u.signals.get? id = some s) (hd : s.dataType = .bit)
    (hn : (s.binding = none ∧ s.behavior = .register) ∨ u.IsNewConstant s) :
    Outcome u id s (Edit.locatedAt s.location (onBlock (Block.bindHold id)) u) := by
  have hb : s.binding = none := hn.elim And.left IsNewConstant.unbound
  rcases Nat.lt_or_ge u.logic.entries.length u.logic.capacity with hroom | hfull
  · rw [bindHold_of_room hs hb s.location hroom]
    exact .hold hd hn hroom
  · rw [bindHold_of_full s.location hfull]
    exact .holdFull hd hn hfull

theorem bindWordReg_outcome (hs : u.signals.get? id = some s) (hb : s.binding = none)
    (hr : s.behavior = .register) (hd : s.dataType = .word) :
    Outcome u id s (Edit.locatedAt s.location (change fun u => u.bindWordReg id) u) := by
  rcases Nat.lt_or_ge u.wordRegs.entries.length u.wordRegs.capacity with hroom | hfull
  · rw [locatedAt_change_of_ok s.location (bindWordReg_of_room hs hb hroom)]
    exact .wordReg hb hr hd hroom
  · rw [locatedAt_change_of_refused s.location (bindWordReg_of_full hfull)]
    exact .wordRegFull hb hr hd hfull

theorem bindBitConstant_outcome (hs : u.signals.get? id = some s) (hb : s.binding = none)
    (hc : s.behavior = .constant) (hd : s.dataType = .bit) :
    Outcome u id s (Edit.locatedAt s.location (bindBitConstant id s) u) := by
  have hask : ∀ {a?}, u.signals.constantAddress? .bit s.initial = a? →
      Edit.ask (fun u : Alu => .ok (u.signals.constantAddress? .bit s.initial)) u =
        (.ok a? u : EStateM.Result (Fault Error) Alu _) :=
    fun ha => Edit.ask_eq_ok.mpr ⟨congrArg Except.ok ha, rfl⟩
  cases ha : u.signals.constantAddress? .bit s.initial with
  | some a =>
    have hcall : bindBitConstant id s u = change (fun u => u.bindShared id a) u :=
      Edit.bind_of_ok (hask ha) _
    rw [Edit.locatedAt_congr s.location hcall,
      locatedAt_change_of_ok s.location (bindShared_eq hs hb a)]
    exact .shared hb hc (by rw [hd]; exact ha)
  | none =>
    have hcall : bindBitConstant id s u = onBlock (Block.bindHold id) u :=
      Edit.bind_of_ok (hask ha) _
    rw [Edit.locatedAt_congr s.location hcall]
    refine bindHold_outcome hs hd (Or.inr ⟨hb, hc, ?_⟩)
    rw [hd]
    exact Registry.constantAddress?_eq_none.mp ha

/-- A constant that needs a place of its own: it gets a constant slot and a word input, and a word
register once the constant slots are taken. -/
theorem newConstant_outcome {step : Alu → Checked Error Alu} (hs : u.signals.get? id = some s)
    (hd : s.dataType = .word) (hn : u.IsNewConstant s)
    (hr : s.initial.bind Resource.ofBuiltinValue? = none)
    (hstep : step u = u.bindNewConstant id s.name) :
    Outcome u id s (Edit.locatedAt s.location (change step) u) := by
  rcases Nat.lt_or_ge u.constants.entries.length u.constants.capacity with hconst | hconst
  · rcases Nat.lt_or_ge u.wordIns.entries.length u.wordIns.capacity with hroom | hfull
    · rw [locatedAt_change_of_ok s.location
        (hstep.trans (bindNewConstant_of_room hs hn.unbound s.name hconst hroom))]
      exact .constant hd hn hr hconst hroom
    · rw [locatedAt_change_of_refused s.location
        (hstep.trans (bindNewConstant_of_inputFull s.name hconst hfull))]
      exact .inputFull hd hn hr hconst hfull
  · rcases Nat.lt_or_ge u.wordRegs.entries.length u.wordRegs.capacity with hroom | hfull
    · rw [locatedAt_change_of_ok s.location
        (hstep.trans (bindNewConstant_of_spill hs hn.unbound s.name hconst hroom))]
      exact .spill hd hn hr hconst hroom
    · rw [locatedAt_change_of_refused s.location
        (hstep.trans (bindNewConstant_of_spillFull s.name hconst hfull))]
      exact .spillFull hd hn hr hconst hfull

theorem bindWordConstant_outcome (hs : u.signals.get? id = some s) (hb : s.binding = none)
    (hc : s.behavior = .constant) (hd : s.dataType = .word) :
    Outcome u id s (Edit.locatedAt s.location (change fun u => u.bindWordConstant id s) u) := by
  cases ha : u.signals.constantAddress? .word s.initial with
  | some a =>
    have hstep : u.bindWordConstant id s = .ok (u.takeShared id a) := by
      unfold bindWordConstant
      rw [ha]
      exact bindShared_eq hs hb a
    rw [locatedAt_change_of_ok s.location hstep]
    exact .shared hb hc (by rw [hd]; exact ha)
  | none =>
    have hn : u.IsNewConstant s :=
      ⟨hb, hc, by rw [hd]; exact Registry.constantAddress?_eq_none.mp ha⟩
    cases hr : s.initial.bind Resource.ofBuiltinValue? with
    | some r =>
      have hstep : u.bindWordConstant id s = .ok (u.takeBuiltin id r) := by
        unfold bindWordConstant
        rw [ha, hr]
        exact Checked.bind_eq_ok.mpr ⟨_, bindShared_eq hs hb r.address, rfl⟩
      rw [locatedAt_change_of_ok s.location hstep]
      exact .builtin hd hn hr
    | none =>
      have hnew : u.bindWordConstant id s = u.bindNewConstant id s.name := by
        unfold bindWordConstant
        rw [ha, hr]
      exact newConstant_outcome hs hd hn hr hnew

/-- **What a visit of the final pass can come to.** -/
theorem bindRemaining_outcome (hs : u.signals.get? id = some s) :
    Outcome u id s (bindRemaining id u) := by
  have hask : bindRemaining id u = _ :=
    Edit.bind_of_ok (Edit.ask_eq_ok (q := fun u : Alu => u.signals.get id).mpr
      ⟨Registry.get_eq_ok.mpr hs, rfl⟩) _
  rw [hask]
  by_cases hb : s.binding = none
  · have hbound : s.isBound = false := by simp [Signal.isBound, hb]
    simp only [hbound, Bool.false_eq_true, if_false]
    cases hd : s.dataType <;> cases hbeh : s.behavior
    case word.register => exact bindWordReg_outcome hs hb hbeh hd
    case bit.register => exact bindHold_outcome hs hd (Or.inl ⟨hb, hbeh⟩)
    case bit.constant => exact bindBitConstant_outcome hs hb hbeh hd
    case word.constant => exact bindWordConstant_outcome hs hb hbeh hd
    all_goals exact .skip (Or.inr (by rw [hbeh]; rfl))
  · have hbound : s.isBound = true := Option.isSome_iff_ne_none.mpr hb
    simp only [hbound, if_true]
    exact .skip (Or.inl hb)

end Routes

end Alu

end AluPlacement
