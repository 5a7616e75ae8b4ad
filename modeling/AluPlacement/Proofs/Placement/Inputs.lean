import AluPlacement.Proofs.Placement.Step
import Mathlib.Data.List.Nodup

/-! # The inputs of an instruction

An instruction that is added takes an input for every wire, delayed signal and latch that has none.
`Pending` says which signals these are, and `withInputs` is the unit with all of them bound, each to
the next slot for its type. With room for all of them, no binding is refused (`bindInputs_eq`). -/

namespace AluPlacement

/-- The slots that take an input of this type. -/
def DataType.inputFamily : DataType → Family
  | .word => .wordIn
  | .bit => .carryIn

theorem DataType.inputFamily_inj {d d' : DataType} (h : d.inputFamily = d'.inputFamily) :
    d = d' := by
  cases d <;> cases d' <;> first | rfl | cases h

/-- An instruction that reads the signal needs an input for it. -/
def Signal.IsInput (s : Signal) : Prop := s.behavior = .wire ∨ s.behavior = .delayed

theorem Instruction.mem_operandSignals {i : Instruction} {o : SignalId} :
    o ∈ i.operandSignals ↔ ∃ call, i.operation = some call ∧ .signal o ∈ call.operands := by
  unfold Instruction.operandSignals
  cases i.operation with
  | none => simp
  | some call =>
    simp only [Option.some.injEq, exists_eq_left', OperationCall.signals, List.mem_filterMap]
    constructor
    · rintro ⟨operand, hmem, hsignal⟩
      cases operand with
      | signal id =>
        cases hsignal
        exact hmem
      | immediate value => cases hsignal
    · exact fun hmem => ⟨.signal o, hmem, rfl⟩

namespace Alu

/-! ### Which signals are bound -/

/-- The inputs that operands `ops` and latches `ls` need, each once. -/
structure Pending (r : Registry) (ops ls pending : List SignalId) : Prop where
  nodup : pending.Nodup
  unbound : ∀ id ∈ pending, ∃ s, r.get? id = some s ∧ s.binding = none
  source : ∀ id ∈ pending, id ∈ ls ∨ id ∈ ops ∧ ∃ s, r.get? id = some s ∧ s.IsInput
  operands : ∀ id ∈ ops, ∃ s, r.get? id = some s ∧
    (s.IsInput → s.binding = none → id ∈ pending)
  latches : ∀ id ∈ ls, id ∈ pending ∨
    ∃ s a, r.get? id = some s ∧ s.binding = some a ∧ a.isIn .wordIn = true

section Pending

variable {r : Registry} {ops ls pending pending' : List SignalId} {id : SignalId} {s : Signal}

theorem pending_nil (r : Registry) : Pending r [] [] [] :=
  ⟨List.nodup_nil, nofun, nofun, nofun, nofun⟩

/-- One more input. -/
theorem Pending.insert (h : Pending r ops ls pending) (hs : r.get? id = some s)
    (hb : s.binding = none) (hnew : id ∉ pending) {ops' ls' : List SignalId}
    (hops : ops ⊆ ops') (hls : ls ⊆ ls') (hsource : id ∈ ls' ∨ id ∈ ops' ∧ s.IsInput)
    (hops' : ∀ i ∈ ops', i ∈ ops ∨ i = id) (hls' : ∀ i ∈ ls', i ∈ ls ∨ i = id) :
    Pending r ops' ls' (pending ++ [id]) := by
  have hid : id ∈ pending ++ [id] := by simp
  have hkept : ∀ {i}, i ∈ pending → i ∈ pending ++ [id] := List.mem_append_left _
  refine ⟨?_, fun i hi => ?_, fun i hi => ?_, fun i hi => ?_, fun i hi => ?_⟩
  · refine List.nodup_append.mpr ⟨h.nodup, List.nodup_singleton id, fun a ha b hb' => ?_⟩
    rw [List.mem_singleton.mp hb']
    rintro rfl
    exact hnew ha
  · rcases List.mem_append.mp hi with hi | hi
    · exact h.unbound i hi
    · rw [List.mem_singleton.mp hi]
      exact ⟨s, hs, hb⟩
  · rcases List.mem_append.mp hi with hi | hi
    · exact (h.source i hi).imp (@hls i) fun hop => ⟨hops hop.1, hop.2⟩
    · rw [List.mem_singleton.mp hi]
      exact hsource.imp_right fun hop => ⟨hop.1, s, hs, hop.2⟩
  · rcases hops' i hi with hi | rfl
    · obtain ⟨t, ht, hin⟩ := h.operands i hi
      exact ⟨t, ht, fun h1 h2 => hkept (hin h1 h2)⟩
    · exact ⟨s, hs, fun _ _ => hid⟩
  · rcases hls' i hi with hi | rfl
    · exact (h.latches i hi).imp_left hkept
    · exact Or.inl hid

theorem Pending.addOperand (h : Pending r ops ls pending)
    (hadd : addOperand r pending id = .ok pending') : Pending r (ops ++ [id]) ls pending' := by
  obtain ⟨s, hs, hadd⟩ := Checked.bind_eq_ok.mp hadd
  rw [Registry.get_eq_ok] at hs
  cases hadd
  split_ifs with hnew
  · simp only [Bool.and_eq_true, Bool.or_eq_true, beq_iff_eq, Bool.not_eq_true', Signal.isBound,
      Option.isSome_eq_false_iff, Option.isNone_iff_eq_none, List.contains_eq_mem,
      decide_eq_false_iff_not] at hnew
    refine h.insert hs hnew.1.2 hnew.2 (List.subset_append_left _ _) (List.Subset.refl _)
      (Or.inr ⟨by simp, hnew.1.1⟩) (fun i hi => ?_) fun i hi => Or.inl hi
    simpa using hi
  · refine ⟨h.nodup, h.unbound, fun i hi => ?_, fun i hi => ?_, h.latches⟩
    · exact (h.source i hi).imp_right fun hop => ⟨List.mem_append_left _ hop.1, hop.2⟩
    · rcases List.mem_append.mp hi with hi | hi
      · exact h.operands i hi
      · rw [List.mem_singleton.mp hi]
        refine ⟨s, hs, fun hin hb => ?_⟩
        by_cases hmem : id ∈ pending
        · exact hmem
        · refine absurd ?_ hnew
          rcases hin with hin | hin <;> simp [hin, hb, hmem, Signal.isBound]

theorem Pending.addLatch (h : Pending r ops ls pending)
    (hadd : addLatch r pending id = .ok pending') : Pending r ops (ls ++ [id]) pending' := by
  obtain ⟨s, hs, hadd⟩ := Checked.bind_eq_ok.mp hadd
  rw [Registry.get_eq_ok] at hs
  have hweaken : (id ∈ pending ∨
      ∃ s a, r.get? id = some s ∧ s.binding = some a ∧ a.isIn .wordIn = true) →
      Pending r ops (ls ++ [id]) pending := by
    intro hid
    refine ⟨h.nodup, h.unbound, fun i hi => ?_, h.operands, fun i hi => ?_⟩
    · exact (h.source i hi).imp_left (List.mem_append_left _)
    · rcases List.mem_append.mp hi with hi | hi
      · exact h.latches i hi
      · rw [List.mem_singleton.mp hi]
        exact hid
  cases hb : s.binding with
  | some a =>
    rw [hb] at hadd
    obtain ⟨_, hin, hadd⟩ := Checked.bind_eq_ok.mp hadd
    cases hadd
    exact hweaken (Or.inr ⟨s, a, hs, hb, Checked.require_eq_ok.mp hin⟩)
  | none =>
    rw [hb] at hadd
    cases hadd
    split_ifs with hmem
    · exact hweaken (Or.inl (by simpa using hmem))
    · refine h.insert hs hb (by simpa using hmem) (List.Subset.refl _)
        (List.subset_append_left _ _) (Or.inl (by simp)) (fun i hi => Or.inl hi) fun i hi => ?_
      simpa using hi

/-- **The inputs that are bound with an instruction.** -/
theorem pendingInputs_eq_ok {i : Instruction} (h : pendingInputs r i = .ok pending) :
    Pending r i.operandSignals i.latches.entries pending := by
  obtain ⟨operands, hop, h⟩ := Checked.bind_eq_ok.mp h
  have hops : Pending r i.operandSignals [] operands :=
    Checked.foldlM_invariant (P := fun seen p => Pending r seen [] p)
      (fun _ _ _ _ hp hadd => hp.addOperand hadd) (pending_nil r) hop
  exact Checked.foldlM_invariant (P := fun seen p => Pending r i.operandSignals seen p)
    (fun _ _ _ _ hp hadd => hp.addLatch hadd) hops h

end Pending

/-! ### Binding them -/

/-- The signal is declared with this type. -/
def hasType (r : Registry) (d : DataType) (id : SignalId) : Bool :=
  (r.get? id).any fun s => s.dataType == d

/-- Bind a signal to the next input for its type. -/
def takeInput (u : Alu) (id : SignalId) : Alu :=
  match u.signals.get? id with
  | some s => u.takeSlot s.dataType.inputFamily id
  | none => u

/-- Bind signals to inputs, in order. -/
def withInputs (u : Alu) (pending : List SignalId) : Alu := pending.foldl takeInput u

/-- The signals have no binding yet, and there is an input for each of them. -/
structure Suppliable (u : Alu) (pending : List SignalId) : Prop where
  nodup : pending.Nodup
  unbound : ∀ id ∈ pending, ∃ s, u.signals.get? id = some s ∧ s.binding = none
  room : ∀ d : DataType, (u.slots d.inputFamily).length + pending.countP (hasType u.signals d) ≤
    u.capacityOf d.inputFamily

section Suppliable

variable {u : Alu} {id : SignalId} {s : Signal} {pending : List SignalId}

theorem takeInput_eq (hs : u.signals.get? id = some s) :
    u.takeInput id = u.takeSlot s.dataType.inputFamily id := by
  unfold takeInput
  rw [hs]

theorem hasType_iff (hs : u.signals.get? id = some s) {d : DataType} :
    hasType u.signals d id = true ↔ s.dataType = d := by
  simp [hasType, hs]

theorem hasType_takeInput (u : Alu) (id : SignalId) (d : DataType) :
    hasType (u.takeInput id).signals d = hasType u.signals d := by
  funext i
  unfold hasType takeInput
  cases hs : u.signals.get? id with
  | none => rfl
  | some s =>
    show ((u.signals.place id _).get? i).any _ = _
    rw [Registry.get?_place]
    split_ifs with hi
    · subst hi
      rw [hs]
      rfl
    · rfl

theorem slots_takeInput (hs : u.signals.get? id = some s) (family : Family) :
    (u.takeInput id).slots family =
      if family = s.dataType.inputFamily then u.slots family ++ [id] else u.slots family := by
  rw [takeInput_eq hs]
  show (u.appendSlot _ id _).slots family = _
  rw [slots_appendSlot]
  split_ifs with h
  · rw [h]
  · rfl

theorem capacityOf_takeInput (u : Alu) (id : SignalId) :
    (u.takeInput id).capacityOf = u.capacityOf := by
  unfold takeInput
  cases u.signals.get? id with
  | none => rfl
  | some s => exact capacityOf_appendSlot u _ id _

theorem get?_takeInput_of_ne {i : SignalId} (h : i ≠ id) :
    (u.takeInput id).signals.get? i = u.signals.get? i := by
  unfold takeInput
  cases u.signals.get? id with
  | none => rfl
  | some s =>
    show (u.signals.place id _).get? i = _
    rw [Registry.get?_place, if_neg (Ne.symm h)]

/-- `v` is `u` with other signals and other inputs in its pools. -/
def KeepsRest (u v : Alu) : Prop :=
  v = { u with
    signals := v.signals
    wordIns := { u.wordIns with entries := v.wordIns.entries }
    carryIns := { u.carryIns with entries := v.carryIns.entries } }

theorem KeepsRest.trans {v w : Alu} (h : u.KeepsRest v) (h' : v.KeepsRest w) : u.KeepsRest w := by
  unfold KeepsRest at h
  refine Eq.trans h' ?_
  rw [h]

theorem keepsRest_takeInput (u : Alu) (id : SignalId) : u.KeepsRest (u.takeInput id) := by
  cases hs : u.signals.get? id with
  | none =>
    unfold takeInput
    rw [hs]
    rfl
  | some s =>
    rw [takeInput_eq hs]
    cases s.dataType <;> rfl

theorem keepsRest_withInputs (u : Alu) (pending : List SignalId) :
    u.KeepsRest (u.withInputs pending) := by
  induction pending generalizing u with
  | nil => rfl
  | cons id pending ih => exact (keepsRest_takeInput u id).trans (ih (u.takeInput id))

/-- The first signal can be bound, and then the others. -/
theorem Suppliable.head (h : u.Suppliable (id :: pending)) :
    ∃ s, u.signals.get? id = some s ∧ s.binding = none ∧
      (u.slots s.dataType.inputFamily).length < u.capacityOf s.dataType.inputFamily := by
  obtain ⟨s, hs, hb⟩ := h.unbound id List.mem_cons_self
  have hroom := h.room s.dataType
  rw [List.countP_cons_of_pos ((hasType_iff hs).mpr rfl)] at hroom
  exact ⟨s, hs, hb, by omega⟩

theorem Suppliable.tail (h : u.Suppliable (id :: pending)) :
    (u.takeInput id).Suppliable pending := by
  obtain ⟨s, hs, -⟩ := h.head
  obtain ⟨hnew, hnodup⟩ := List.nodup_cons.mp h.nodup
  refine ⟨hnodup, fun i hi => ?_, fun d => ?_⟩
  · have hne : i ≠ id := fun he => hnew (he ▸ hi)
    rw [get?_takeInput_of_ne hne]
    exact h.unbound i (List.mem_cons_of_mem id hi)
  · have hroom := h.room d
    rw [hasType_takeInput, capacityOf_takeInput, slots_takeInput hs]
    by_cases hd : s.dataType = d
    · rw [List.countP_cons_of_pos ((hasType_iff hs).mpr hd)] at hroom
      rw [if_pos (congrArg DataType.inputFamily hd.symm), List.length_append,
        List.length_singleton]
      omega
    · rw [List.countP_cons_of_neg (fun ht => hd ((hasType_iff hs).mp ht))] at hroom
      rw [if_neg (fun he => hd (DataType.inputFamily_inj he).symm)]
      exact hroom

/-- What binding one input preserves holds after all of them are bound. -/
theorem Suppliable.induction {P : Alu → Prop} (h : u.Suppliable pending) (hu : P u)
    (hstep : ∀ v id s, id ∈ pending → v.signals.get? id = some s → s.binding = none →
      (v.slots s.dataType.inputFamily).length < v.capacityOf s.dataType.inputFamily → P v →
        P (v.takeSlot s.dataType.inputFamily id)) : P (u.withInputs pending) := by
  induction pending generalizing u with
  | nil => exact hu
  | cons id pending ih =>
    obtain ⟨s, hs, hb, hroom⟩ := h.head
    refine ih h.tail ?_ fun v i t hi => hstep v i t (List.mem_cons_of_mem id hi)
    rw [takeInput_eq hs]
    exact hstep u id s List.mem_cons_self hs hb hroom hu

theorem Suppliable.advances (h : u.Suppliable pending) :
    u.signals.Advances (u.withInputs pending).signals :=
  h.induction (P := fun v => u.signals.Advances v.signals) (.refl _)
    fun _ _ _ _ hs hb _ hv => hv.trans (Registry.advances_place hs hb _)

/-- The slots after all inputs are bound: those of each type were put behind the others. -/
theorem Suppliable.slots (h : u.Suppliable pending) (family : Family) :
    (u.withInputs pending).slots family = u.slots family ++
      pending.filter fun i => (u.signals.get? i).any fun s => s.dataType.inputFamily = family := by
  induction pending generalizing u with
  | nil => exact (List.append_nil _).symm
  | cons id pending ih =>
    obtain ⟨s, hs, -⟩ := h.head
    have hrest : (pending.filter fun i => ((u.takeInput id).signals.get? i).any
          fun s => s.dataType.inputFamily = family) =
        pending.filter fun i =>
          (u.signals.get? i).any fun s => s.dataType.inputFamily = family := by
      refine List.filter_congr fun i hi => ?_
      have hne : i ≠ id := fun he => (List.nodup_cons.mp h.nodup).1 (he ▸ hi)
      rw [get?_takeInput_of_ne hne]
    show ((u.takeInput id).withInputs pending).slots family = _
    rw [ih h.tail, hrest, slots_takeInput hs, List.filter_cons, hs]
    simp only [Option.any_some, decide_eq_true_eq, eq_comm (a := family)]
    split_ifs
    · rw [List.append_assoc, List.singleton_append]
    · rfl

theorem bindInput_eq (hs : u.signals.get? id = some s) (hb : s.binding = none)
    (hroom : (u.slots s.dataType.inputFamily).length < u.capacityOf s.dataType.inputFamily) :
    bindInput id u = .ok () (u.takeSlot s.dataType.inputFamily id) := by
  have hd : (dataTypeOf u.signals id : Checked Error DataType) = .ok s.dataType :=
    Checked.bind_eq_ok.mpr ⟨s, Registry.get_eq_ok.mpr hs, rfl⟩
  refine Edit.attempt_eq_ok.mpr (Checked.bind_eq_ok.mpr ⟨s.dataType, hd, ?_⟩)
  cases hty : s.dataType with
  | word =>
    rw [hty] at hroom
    exact push_bind_eq_ok.mpr ⟨hroom, ⟨s, hs, hb⟩, rfl⟩
  | bit =>
    rw [hty] at hroom
    exact push_bind_eq_ok.mpr ⟨hroom, ⟨s, hs, hb⟩, rfl⟩

/-- **Where there is room, all inputs are bound.** -/
theorem bindInputs_eq (h : u.Suppliable pending) :
    pending.forM bindInput u = .ok () (u.withInputs pending) := by
  induction pending generalizing u with
  | nil => rfl
  | cons id pending ih =>
    obtain ⟨s, hs, hb, hroom⟩ := h.head
    have hfirst := bindInput_eq hs hb hroom
    rw [← takeInput_eq hs] at hfirst
    exact (Edit.bind_of_ok hfirst _).trans (ih h.tail)

end Suppliable

end Alu

end AluPlacement
