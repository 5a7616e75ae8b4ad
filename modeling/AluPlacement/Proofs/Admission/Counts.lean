import AluPlacement.Proofs.Admission.Visits
import Mathlib.Data.Finset.Image

/-! # The admission test

`Admissible u` is a test on a unit before its final pass: it counts live registers, the values that
constants and dead registers ask for, and bits, and compares the counts with the room that is left
and with the budget of nearest neighbors.

The visits of the pass see other signals than the test does: every register and constant has a
value, and dead registers have become constants. The counts are the same: what the prepared signals
ask for fits exactly if the counts of the test do (`fits_prepared_iff`). -/

namespace AluPlacement

/-- The value of a signal, 0 if none was set. -/
def Registry.valueOf (r : Registry) (id : SignalId) : Word := (r.initialOf id).getD 0#16

namespace Alu

/-! ### The test -/

/-- The signals of this behavior and type without a binding. -/
def unbound (u : Alu) (behavior : Behavior) (dataType : DataType) : List SignalId :=
  u.signals.ids.filter (u.signals.isPending behavior dataType)

/-- An instruction writes to the register, or one of its bits 0 to 3 is sliced. -/
def isLive (u : Alu) (id : SignalId) : Bool := u.isWritten id || u.signals.hasRegisterSlice id

/-- The word registers that need a register. -/
def liveRegisters (u : Alu) : List SignalId := (u.unbound .register .word).filter u.isLive

/-- The word signals that only need their value: constants and registers that are not live. -/
def valueSignals (u : Alu) : List SignalId :=
  u.unbound .constant .word ++ (u.unbound .register .word).filter fun id => !u.isLive id

/-- The values of the word constants that are bound. -/
def boundWordValues (u : Alu) : Finset Word :=
  ((u.signals.ids.filter fun id =>
    (u.signals.get? id).any fun s => s.isOf .constant .word && s.isBound).map
      u.signals.valueOf).toFinset

/-- The word values that need a place of their own. -/
def wordValues (u : Alu) : Finset Word :=
  ((u.valueSignals.map u.signals.valueOf).toFinset \ {0x0000#16, 0x0001#16, 0xFFFF#16}) \
    u.boundWordValues

/-- The number of word values beyond the two constant slots. -/
def spilled (u : Alu) : Nat := u.wordValues.card - 2

/-- The number of condition-logic registers that are still needed. -/
def bitDemand (u : Alu) : Nat :=
  (u.unbound .register .bit).length +
    ((u.unbound .constant .bit).map u.signals.valueOf).toFinset.card

/-- **The admission test.** -/
structure Admissible (u : Alu) : Prop where
  wordIns : u.wordIns.size + min u.wordValues.card 2 ≤ 13
  wordRegs : u.liveRegisters.length + u.spilled ≤ 9
  logic : u.logic.size + u.bitDemand ≤ 4
  neighbors : (u.liveRegisters.filter (needsNeighbor u.signals)).length + u.spilled ≤
    u.definition.limits.nnBudget
  conditions : ∀ i ∈ u.instructions.entries, ∀ c ∈ i.branch.conditions,
    ∃ e ∈ u.branches.entries, e.signal = c
  labels : ∀ i ∈ u.instructions.entries, ∀ name, Target.label name ∈ i.branch.targets.toList →
    ∃ j ∈ u.instructions.entries, j.label = some name

/-! ### The prepared signals -/

section Prepared

variable {u : Alu} {id : SignalId} {s : Signal}

/-- The signal is a word register that becomes a constant. -/
def isDead (u : Alu) (id : SignalId) (s : Signal) : Bool :=
  s.isOf .register .word && !s.isBound && !u.isLive id

/-- A signal as the visits find it. -/
def prepare (u : Alu) (id : SignalId) (s : Signal) : Signal :=
  if u.isDead id s then Registry.promoted (Registry.withDefault s) else Registry.withDefault s

theorem withDefault_eq (s : Signal) : Registry.withDefault s =
    { s with
      initial := if s.behavior.isStateful then some (s.initial.getD 0#16) else s.initial } := by
  unfold Registry.withDefault
  cases s.behavior.isStateful <;> cases hi : s.initial <;> simp
  all_goals cases s; simp_all

theorem hasRegisterSlice_applyDefaults (r : Registry) (id : SignalId) :
    r.applyDefaults.hasRegisterSlice id = r.hasRegisterSlice id := by
  unfold Registry.hasRegisterSlice Registry.applyDefaults
  rw [List.any_map]
  congr 1
  funext s
  simp only [Function.comp_apply, withDefault_eq]

theorem mem_deadRegisters_iff (hs : u.signals.get? id = some s) :
    id ∈ ({ u with signals := u.signals.applyDefaults } : Alu).deadRegisters ↔
      u.isDead id s = true := by
  have hmem : id ∈ u.signals.applyDefaults.ids := by
    rw [Registry.mem_ids, Registry.contains, Registry.size_applyDefaults]
    exact Registry.contains_iff.mpr ⟨s, hs⟩
  unfold deadRegisters
  rw [List.mem_filter]
  simp only [hmem, true_and, Registry.get?_applyDefaults, hs, Option.map_some,
    hasRegisterSlice_applyDefaults, withDefault_eq, Signal.isOf, Signal.isBound, isDead, isLive]
  have hwritten : ({ u with signals := u.signals.applyDefaults } : Alu).isWritten id =
    u.isWritten id := rfl
  rw [hwritten, Bool.not_or, Bool.and_assoc _ (!u.isWritten id)]

theorem get?_prepared (u : Alu) (id : SignalId) :
    u.prepared.signals.get? id = (u.signals.get? id).map (u.prepare id) := by
  show (Registry.promote _ _).get? id = _
  rw [Registry.get?_promote, Registry.get?_applyDefaults]
  cases hs : u.signals.get? id with
  | none => split_ifs <;> rfl
  | some s =>
    simp only [mem_deadRegisters_iff hs, Option.map_some, prepare]
    split_ifs <;> rfl

theorem get?_prepared_of_some (hs : u.signals.get? id = some s) :
    u.prepared.signals.get? id = some (u.prepare id s) := by
  rw [get?_prepared, hs]
  rfl

theorem prepare_of_dead (h : u.isDead id s = true) : u.prepare id s =
    { s with
      behavior := .constant, warmReset := false, initial := some (s.initial.getD 0#16) } := by
  have hstate : s.behavior.isStateful = true := by
    simp only [isDead, Signal.isOf, Bool.and_eq_true, beq_iff_eq] at h
    rw [h.1.1.1]
    rfl
  rw [prepare, if_pos h, withDefault_eq, if_pos hstate]
  rfl

theorem prepare_of_not_dead (h : u.isDead id s = false) :
    u.prepare id s = Registry.withDefault s := by
  rw [prepare, h]
  rfl

theorem origin_prepare : (u.prepare id s).origin = s.origin := by
  cases h : u.isDead id s with
  | true => rw [prepare_of_dead h]
  | false => rw [prepare_of_not_dead h, withDefault_eq]

/-- A register or constant has its value, set or not. -/
theorem initial_prepare (h : (u.prepare id s).behavior.isStateful = true) :
    (u.prepare id s).initial = some (s.initial.getD 0#16) := by
  cases hdead : u.isDead id s with
  | true => rw [prepare_of_dead hdead]
  | false =>
    rw [prepare_of_not_dead hdead, withDefault_eq] at h ⊢
    exact if_pos h

theorem isBitSlice_prepare :
    (u.prepare id s).behavior = .bitSlice ↔ s.behavior = .bitSlice := by
  cases h : u.isDead id s with
  | true =>
    rw [prepare_of_dead h]
    simp only [isDead, Signal.isOf, Bool.and_eq_true, beq_iff_eq] at h
    simp [h.1.1.1]
  | false => rw [prepare_of_not_dead h, withDefault_eq]

theorem isOf_prepare (b : Behavior) (d : DataType) :
    ((u.prepare id s).isOf b d && !(u.prepare id s).isBound) =
      if u.isDead id s then b == .constant && d == .word else s.isOf b d && !s.isBound := by
  cases h : u.isDead id s with
  | true =>
    rw [prepare_of_dead h]
    simp only [isDead, Signal.isOf, Bool.and_eq_true, beq_iff_eq] at h
    obtain ⟨⟨⟨-, hd⟩, hb⟩, -⟩ := h
    have hbound : s.binding.isSome = false := by simpa [Signal.isBound] using hb
    simp [Signal.isOf, Signal.isBound, hd, hbound, Bool.beq_comm]
  | false =>
    rw [prepare_of_not_dead h, withDefault_eq]
    rfl

/-! ### What the prepared signals ask for -/

theorem isPending_prepared (b : Behavior) (d : DataType) (id : SignalId) :
    u.prepared.signals.isPending b d id =
      if u.signals.isPending .register .word id && !u.isLive id then b == .constant && d == .word
      else u.signals.isPending b d id := by
  cases hs : u.signals.get? id with
  | none => simp [Registry.isPending, get?_prepared, hs]
  | some s =>
    rw [Registry.isPending_eq (get?_prepared_of_some hs), isOf_prepare, Registry.isPending_eq hs,
      Registry.isPending_eq hs]
    rfl

theorem isPending_prepared_wordReg (id : SignalId) :
    u.prepared.signals.isPending .register .word id =
      (u.signals.isPending .register .word id && u.isLive id) := by
  rw [isPending_prepared]
  cases u.signals.isPending .register .word id <;> cases u.isLive id <;> rfl

theorem isPending_prepared_wordConst (id : SignalId) :
    u.prepared.signals.isPending .constant .word id =
      (u.signals.isPending .constant .word id ||
        (u.signals.isPending .register .word id && !u.isLive id)) := by
  rw [isPending_prepared]
  cases u.signals.isPending .register .word id <;> cases u.isLive id <;> simp

theorem isPending_prepared_bit (b : Behavior) (id : SignalId) :
    u.prepared.signals.isPending b .bit id = u.signals.isPending b .bit id := by
  rw [isPending_prepared]
  split_ifs with h
  · -- a word register that becomes a constant is no bit before or after
    cases hs : u.signals.get? id with
    | none => simp [Registry.isPending, hs]
    | some s =>
      simp only [Registry.isPending_eq hs, Signal.isOf, Bool.and_eq_true, beq_iff_eq] at h
      have hword : (DataType.bit == DataType.word) = false := rfl
      have hbit : (DataType.word == DataType.bit) = false := rfl
      simp [Registry.isPending_eq hs, Signal.isOf, h.1.1.2, hword, hbit]
  · rfl

theorem initialOf_prepared {b : Behavior} {d : DataType} (hb : b.isStateful = true)
    (h : u.prepared.signals.isPending b d id = true) :
    u.prepared.signals.initialOf id = some (u.signals.valueOf id) := by
  cases hs : u.signals.get? id with
  | none => simp [Registry.isPending, get?_prepared, hs] at h
  | some s =>
    rw [Registry.isPending_eq (get?_prepared_of_some hs)] at h
    simp only [Signal.isOf, Bool.and_eq_true, beq_iff_eq] at h
    have := initial_prepare (by rw [h.1.1, hb])
    simp [Registry.initialOf, Registry.valueOf, get?_prepared_of_some hs, hs, this]

theorem ids_prepared (u : Alu) : u.prepared.signals.ids = u.signals.ids := by
  unfold Registry.ids
  rw [(frame_prepared u).size]

theorem registers_prepared_word (u : Alu) :
    u.prepared.signals.registers .word u.signals.ids = u.liveRegisters.length := by
  unfold Registry.registers liveRegisters unbound
  rw [List.countP_eq_length_filter, List.filter_filter]
  refine congrArg List.length (List.filter_congr fun id _ => ?_)
  rw [isPending_prepared_wordReg, Bool.and_comm]

theorem registers_prepared_bit (u : Alu) :
    u.prepared.signals.registers .bit u.signals.ids = (u.unbound .register .bit).length := by
  unfold Registry.registers unbound
  rw [List.countP_eq_length_filter]
  exact congrArg List.length (List.filter_congr fun id _ => isPending_prepared_bit .register id)

theorem mem_pendingValues_prepared {d : DataType} {v : Option Word} :
    v ∈ u.prepared.signals.pendingValues d u.signals.ids ↔
      ∃ id ∈ u.signals.ids, u.prepared.signals.isPending .constant d id = true ∧
        v = some (u.signals.valueOf id) := by
  unfold Registry.pendingValues
  simp only [List.mem_toFinset, List.mem_map, List.mem_filter]
  constructor
  · rintro ⟨id, ⟨hid, hp⟩, rfl⟩
    exact ⟨id, hid, hp, initialOf_prepared rfl hp⟩
  · rintro ⟨id, hid, hp, rfl⟩
    exact ⟨id, ⟨hid, hp⟩, initialOf_prepared rfl hp⟩

theorem bound?_prepared (i : SignalId) : u.prepared.signals.bound? i =
    (u.signals.bound? i).map BoundSignal.withDefault := by
  have hpromote : u.prepared.signals.bound? = u.signals.applyDefaults.bound? :=
    Registry.bound?_promote fun _ hid => bound?_of_mem_deadRegisters hid
  rw [hpromote]
  exact Registry.bound?_applyDefaults u.signals i

theorem hasConstant_prepared {d : DataType} {v : Option Word} :
    u.prepared.signals.HasConstant d v ↔ ∃ i p, u.signals.bound? i = some p ∧
      p.behavior = .constant ∧ p.dataType = d ∧ v = some (p.initial.getD 0#16) := by
  have hvalue : ∀ p : BoundSignal, p.behavior = .constant →
      p.withDefault.initial = some (p.initial.getD 0#16) := by
    intro p hc
    unfold BoundSignal.withDefault
    rw [hc]
    cases hi : p.initial <;> simp [hi, Behavior.isStateful]
  unfold Registry.HasConstant
  simp only [bound?_prepared, Option.map_eq_some_iff]
  constructor
  · rintro ⟨i, _, ⟨p, hp, rfl⟩, hc, hd, rfl⟩
    rw [BoundSignal.behavior_withDefault] at hc
    rw [BoundSignal.dataType_withDefault] at hd
    exact ⟨i, p, hp, hc, hd, hvalue p hc⟩
  · rintro ⟨i, p, hp, hc, hd, rfl⟩
    refine ⟨i, p.withDefault, ⟨p, hp, rfl⟩, ?_, ?_, hvalue p hc⟩
    · rw [BoundSignal.behavior_withDefault, hc]
    · rw [BoundSignal.dataType_withDefault, hd]

theorem mem_boundValues_prepared {v : Option Word} :
    v ∈ u.prepared.signals.boundValues .word ↔ ∃ w ∈ u.boundWordValues, v = some w := by
  rw [Registry.mem_boundValues, hasConstant_prepared]
  unfold boundWordValues
  simp only [List.mem_toFinset, List.mem_map, List.mem_filter, Option.any_eq_true,
    Bool.and_eq_true, Signal.isOf, beq_iff_eq]
  constructor
  · rintro ⟨i, p, hp, hc, hd, rfl⟩
    obtain ⟨s, hs, hb, h1, h2, h3⟩ := Registry.bound?_eq_some.mp hp
    refine ⟨_, ⟨i, ⟨Registry.mem_ids.mpr (Registry.contains_iff.mpr ⟨s, hs⟩), s, hs,
      ⟨h2.trans hc, h1.trans hd⟩, by simp [Signal.isBound, hb]⟩, rfl⟩, ?_⟩
    simp [Registry.valueOf, Registry.initialOf, hs, h3]
  · rintro ⟨_, ⟨i, ⟨-, s, hs, ⟨hc, hd⟩, hb⟩, rfl⟩, rfl⟩
    obtain ⟨a, ha⟩ := Option.isSome_iff_exists.mp hb
    refine ⟨i, ⟨a, s.dataType, s.behavior, s.initial⟩,
      Registry.bound?_eq_some.mpr ⟨s, hs, ha, rfl, rfl, rfl⟩, hc, hd, ?_⟩
    simp [Registry.valueOf, Registry.initialOf, hs]

/-- The fresh values are the word values that need a place. -/
theorem fresh_prepared (u : Alu) : u.prepared.signals.fresh u.signals.ids = u.wordValues.card := by
  have himage : u.prepared.signals.newValues .word u.signals.ids \ Resource.builtinValues =
      u.wordValues.image some := by
    ext v
    simp only [Registry.newValues, Finset.mem_sdiff, mem_pendingValues_prepared,
      mem_boundValues_prepared, isPending_prepared_wordConst, Finset.mem_image, wordValues,
      valueSignals, unbound, Resource.builtinValues, Finset.mem_insert, Finset.mem_singleton,
      List.mem_toFinset, List.mem_map, List.mem_append, List.mem_filter, Bool.or_eq_true,
      Bool.and_eq_true]
    constructor
    · rintro ⟨⟨⟨id, hid, hp, rfl⟩, hbound⟩, hbuiltin⟩
      refine ⟨u.signals.valueOf id, ⟨⟨⟨id, ?_, rfl⟩, fun h => hbuiltin (by simpa using h)⟩,
        fun h => hbound ⟨_, h, rfl⟩⟩, rfl⟩
      exact hp.imp (fun h => ⟨hid, h⟩) fun h => ⟨⟨hid, h.1⟩, h.2⟩
    · rintro ⟨w, ⟨⟨⟨id, hid, rfl⟩, hbuiltin⟩, hbound⟩, rfl⟩
      refine ⟨⟨⟨id, ?_, ?_, rfl⟩, ?_⟩, fun h => hbuiltin (by simpa using h)⟩
      · exact hid.elim And.left fun h => h.1.1
      · exact hid.imp And.right fun h => ⟨h.1.2, h.2⟩
      · rintro ⟨w, hw, hvw⟩
        rw [Option.some.inj hvw] at hbound
        exact hbound hw
  unfold Registry.fresh
  rw [himage, Finset.card_image_of_injective _ (Option.some_injective Word)]

/-- Before the final pass no bit constant is bound, so the bits asked for are those of the test. -/
theorem bits_prepared (h : u.InProgress) :
    u.prepared.signals.bits u.signals.ids = u.bitDemand := by
  have himage : u.prepared.signals.newValues .bit u.signals.ids =
      ((u.unbound .constant .bit).map u.signals.valueOf).toFinset.image some := by
    ext v
    have hnone : v ∉ u.prepared.signals.boundValues .bit := by
      rw [Registry.mem_boundValues, hasConstant_prepared]
      rintro ⟨i, p, hp, hc, hd, -⟩
      exact h.noBitConstant i p hp hd hc
    simp only [Registry.newValues, Finset.mem_sdiff, hnone, not_false_eq_true, and_true,
      mem_pendingValues_prepared, isPending_prepared_bit, Finset.mem_image, List.mem_toFinset,
      List.mem_map, unbound, List.mem_filter]
    constructor
    · rintro ⟨id, hid, hp, rfl⟩
      exact ⟨_, ⟨id, ⟨hid, hp⟩, rfl⟩, rfl⟩
    · rintro ⟨_, ⟨id, ⟨hid, hp⟩, rfl⟩, rfl⟩
      exact ⟨id, hid, hp, rfl⟩
  unfold Registry.bits bitDemand
  rw [registers_prepared_bit, himage, Finset.card_image_of_injective _ (Option.some_injective Word)]

theorem hasRegisterSlice_prepared (id : SignalId) :
    u.prepared.signals.hasRegisterSlice id = u.signals.hasRegisterSlice id := by
  rw [Bool.eq_iff_iff, Registry.hasRegisterSlice_iff, Registry.hasRegisterSlice_iff]
  constructor
  · rintro ⟨i, t, k, hi, hb, ho, hk⟩
    rw [get?_prepared] at hi
    obtain ⟨s, hs, rfl⟩ := Option.map_eq_some_iff.mp hi
    exact ⟨i, s, k, hs, isBitSlice_prepare.mp hb, origin_prepare.symm.trans ho, hk⟩
  · rintro ⟨i, s, k, hs, hb, ho, hk⟩
    exact ⟨i, u.prepare i s, k, get?_prepared_of_some hs, isBitSlice_prepare.mpr hb,
      origin_prepare.trans ho, hk⟩

theorem needsNeighbor_prepared (hlive : u.isLive id = true) :
    needsNeighbor u.prepared.signals id = needsNeighbor u.signals id := by
  unfold needsNeighbor
  cases hs : u.signals.get? id with
  | none =>
    rw [get?_prepared, hs]
    rfl
  | some s =>
    have hdead : u.isDead id s = false := by simp [isDead, hlive]
    rw [get?_prepared_of_some hs, prepare_of_not_dead hdead, withDefault_eq,
      hasRegisterSlice_prepared]
    simp only
    split_ifs <;> rfl

theorem neighborRegisters_prepared (u : Alu) :
    u.prepared.signals.neighborRegisters u.signals.ids =
      (u.liveRegisters.filter (needsNeighbor u.signals)).length := by
  unfold Registry.neighborRegisters liveRegisters unbound
  rw [List.countP_eq_length_filter, List.filter_filter, List.filter_filter]
  refine congrArg List.length (List.filter_congr fun id _ => ?_)
  rw [isPending_prepared_wordReg]
  cases hlive : u.isLive id with
  | false => simp
  | true =>
    rw [needsNeighbor_prepared hlive, Bool.and_true, Bool.and_true, Bool.and_comm]

theorem isInitialized_prepared (u : Alu) : u.prepared.IsInitialized := by
  intro id s' hs' hst
  rw [get?_prepared] at hs'
  obtain ⟨s, -, rfl⟩ := Option.map_eq_some_iff.mp hs'
  rw [initial_prepare hst]
  exact Option.some_ne_none _

/-- The demand of all signals fits exactly if the counts of the test do. -/
theorem fits_prepared_iff (h : u.InProgress) : u.prepared.Fits u.prepared.signals.ids ↔
    u.wordIns.size + min u.wordValues.card 2 ≤ 13 ∧ u.liveRegisters.length + u.spilled ≤ 9 ∧
      u.logic.size + u.bitDemand ≤ 4 := by
  have hconst : u.prepared.used .constant = 0 := congrArg List.length (h.slots_eq_nil .constant rfl)
  have hreg : u.prepared.used .wordReg = 0 := congrArg List.length (h.slots_eq_nil .wordReg rfl)
  have hlogic : u.prepared.used .conditionLogic = u.logic.size := length_slots_conditionLogic u
  have hin : u.prepared.used .wordIn = u.wordIns.size := rfl
  rw [fits_iff, ids_prepared, hconst, hreg, hlogic, hin, fresh_prepared, registers_prepared_word,
    bits_prepared h, Nat.zero_add]
  exact Iff.rfl

theorem neighborTotal_prepared (h : u.InProgress) :
    u.prepared.neighborTotal u.prepared.signals.ids =
      (u.liveRegisters.filter (needsNeighbor u.signals)).length + u.spilled := by
  have hconst : u.prepared.used .constant = 0 := congrArg List.length (h.slots_eq_nil .constant rfl)
  have hreg : u.prepared.wordRegs.entries = [] := h.slots_eq_nil .wordReg rfl
  unfold neighborTotal
  rw [ids_prepared, hconst, hreg, fresh_prepared, neighborRegisters_prepared, List.countP_nil,
    Nat.zero_add]
  rfl

end Prepared

end Alu

end AluPlacement
