import AluPlacement.Proofs.Placement.Reachable

/-! # The placement of every reachable unit is consistent

`ConsistentPlacement` spells out, with the numbers of the address space, what the placement
invariant says of pools and bindings: sizes, the address of every pool entry, the addresses that
words and bits may have, who is found at an address, who may share one, and what is still free
before the final pass. It holds of every reachable unit (`Reachable.consistentPlacement`). -/

namespace AluPlacement.Alu

/-- The signal is bound to the address with this number. -/
def IsBoundAt (u : Alu) (id : SignalId) (n : Nat) : Prop :=
  ∃ s, u.signals.get? id = some s ∧ s.binding = some ⟨n⟩

/-- What holds of the pools and bindings of a unit after any calls. -/
structure ConsistentPlacement (u : Alu) : Prop where
  logic_size : u.logic.size ≤ 4
  wordRegs_size : u.wordRegs.size ≤ 9
  branches_size : u.branches.size ≤ 2
  wordIns_size : u.wordIns.size ≤ 13
  carryIns_size : u.carryIns.size ≤ 13
  constants_size : u.constants.size ≤ 2
  instructions_size : u.instructions.size ≤ u.definition.limits.maxInstructions
  logic : ∀ i e, u.logic.get? i = some e → u.IsBoundAt e.signal i
  wordRegs : ∀ i id, u.wordRegs.get? i = some id → u.IsBoundAt id (10 + i)
  branches : ∀ i e, u.branches.get? i = some e → u.IsBoundAt e.signal (20 + i)
  wordIns : ∀ i id, u.wordIns.get? i = some id → u.IsBoundAt id (30 + i)
  carryIns : ∀ i id, u.carryIns.get? i = some id → u.IsBoundAt id (50 + i)
  condBypass : ∀ e, u.condBypass = some e → u.IsBoundAt e.signal 22
  condUpdate : ∀ e, u.condUpdate = some e → u.IsBoundAt e.signal 23
  builtin0 : ∀ id, u.builtin0 = some id → u.IsBoundAt id 80
  builtin1 : ∀ id, u.builtin1 = some id → u.IsBoundAt id 81
  builtinFFFF : ∀ id, u.builtinFFFF = some id → u.IsBoundAt id 82
  constants : ∀ i id, u.constants.get? i = some id →
    ∃ j, u.wordIns.get? j = some id ∧ u.IsBoundAt id (30 + j)
  valid : ∀ id s a, u.signals.get? id = some s → s.binding = some a →
    a.resource? ≠ none ∧ ¬(70 ≤ a.number ∧ a.number ≤ 71)
  word_address : ∀ id s n, u.signals.get? id = some s → s.binding = some ⟨n⟩ →
    s.dataType = .word → (10 ≤ n ∧ n ≤ 18) ∨ (30 ≤ n ∧ n ≤ 42) ∨ (80 ≤ n ∧ n ≤ 82)
  bit_address : ∀ id s n, u.signals.get? id = some s → s.binding = some ⟨n⟩ →
    s.dataType = .bit → n ≤ 3 ∨ (20 ≤ n ∧ n ≤ 23) ∨ (50 ≤ n ∧ n ≤ 62)
  signalAt : ∀ id n, u.IsBoundAt id n → ∃ t, u.signalAt? ⟨n⟩ = some t ∧ u.IsBoundAt t n
  shared : ∀ id id' s s' a, id ≠ id' → u.signals.get? id = some s → u.signals.get? id' = some s' →
    s.binding = some a → s'.binding = some a →
      s.behavior = .constant ∧ s'.behavior = .constant ∧ s.dataType = s'.dataType ∧
        s.initial = s'.initial
  building : u.phase = .building →
    u.wordRegs.entries = [] ∧ u.constants.entries = [] ∧
      u.builtin0 = none ∧ u.builtin1 = none ∧ u.builtinFFFF = none ∧
      (∀ id n, u.IsBoundAt id n → u.signalAt? ⟨n⟩ = some id) ∧
      ∀ id id' n, u.IsBoundAt id n → u.IsBoundAt id' n → id = id'

variable {u : Alu} {id : SignalId} {s : Signal}

theorem isBoundAt_iff {n : Nat} :
    u.IsBoundAt id n ↔ ∃ p, u.signals.bound? id = some p ∧ p.address = ⟨n⟩ := by
  constructor
  · rintro ⟨s, hs, hb⟩
    exact ⟨⟨⟨n⟩, s.dataType, s.behavior, s.initial⟩,
      Registry.bound?_eq_some.mpr ⟨s, hs, hb, rfl, rfl, rfl⟩, rfl⟩
  · rintro ⟨p, hp, ha⟩
    obtain ⟨s, hs, hb, -⟩ := Registry.bound?_eq_some.mp hp
    exact ⟨s, hs, by rw [hb, ha]⟩

theorem holder?_of_logic {i : Nat} {e : DrivenSignal} (h : u.logic.get? i = some e) :
    u.holder? (.slot .conditionLogic i) = some e.signal := by
  show (u.logic.entries.map DrivenSignal.signal)[i]? = some e.signal
  rw [List.getElem?_map]
  exact congrArg (Option.map DrivenSignal.signal) h

theorem holder?_of_branches {i : Nat} {e : DrivenSignal} (h : u.branches.get? i = some e) :
    u.holder? (.slot .branch i) = some e.signal := by
  show (u.branches.entries.map DrivenSignal.signal)[i]? = some e.signal
  rw [List.getElem?_map]
  exact congrArg (Option.map DrivenSignal.signal) h

theorem Placed.isBoundAt (h : u.Placed) (r : Resource) (hd : r.dataType? ≠ none)
    (ht : u.holder? r = some id) : u.IsBoundAt id r.address.number :=
  isBoundAt_iff.mpr (h.holder r id hd ht)

/-- Whoever is found at the address of a bound signal is bound to it. -/
theorem Placed.signalAt (h : u.Placed) {n : Nat} (hb : u.IsBoundAt id n) :
    ∃ t, u.signalAt? ⟨n⟩ = some t ∧ u.IsBoundAt t n := by
  obtain ⟨p, hp, ha⟩ := isBoundAt_iff.mp hb
  obtain ⟨r, t, -, hd, hr, ht, -⟩ := h.bound id p hp
  have hn : r.address = ⟨n⟩ := hr.symm.trans ha
  refine ⟨t, ?_, ?_⟩
  · rw [← hn, signalAt?_address u (h.inRange r t ht), ht]
  · have hbound := h.isBoundAt r (by rw [hd]; exact Option.some_ne_none _) ht
    rwa [hn] at hbound

theorem InProgress.signalAt (h : u.InProgress) {n : Nat} (hb : u.IsBoundAt id n) :
    u.signalAt? ⟨n⟩ = some id := by
  obtain ⟨p, hp, ha⟩ := isBoundAt_iff.mp hb
  obtain ⟨r, hr, hpr, ht⟩ := h.own id p hp
  rw [← ha, hpr, signalAt?_address u hr, ht]

theorem InProgress.isBoundAt_inj (h : u.InProgress) {id' : SignalId} {n : Nat}
    (hb : u.IsBoundAt id n) (hb' : u.IsBoundAt id' n) : id = id' := by
  obtain ⟨p, hp, ha⟩ := isBoundAt_iff.mp hb
  obtain ⟨q, hq, ha'⟩ := isBoundAt_iff.mp hb'
  exact h.address_inj hp hq (ha.trans ha'.symm)

theorem Placed.hasNumber (h : u.Placed) {n : Nat} (hs : u.signals.get? id = some s)
    (hb : s.binding = some ⟨n⟩) : Resource.HasNumber s.dataType n := by
  obtain ⟨r, hr, hdr, ha⟩ := h.bound_inRange (bound?_of_binding hs hb)
  have hnumber := Resource.hasNumber_of_dataType? hr hdr
  rwa [← ha] at hnumber

theorem Placed.valid (h : u.Placed) {a : Address} (hs : u.signals.get? id = some s)
    (hb : s.binding = some a) : a.resource? ≠ none ∧ ¬(70 ≤ a.number ∧ a.number ≤ 71) := by
  constructor
  · obtain ⟨r, hr, -, ha⟩ := h.bound_inRange (bound?_of_binding hs hb)
    have ha : a = r.address := ha
    rw [ha, Resource.resource?_address hr]
    exact Option.some_ne_none r
  · have hnumber := h.hasNumber hs hb
    cases hd : s.dataType <;> rw [hd] at hnumber <;> unfold Resource.HasNumber at hnumber <;> omega

/-- **The placement of every reachable unit is consistent.** -/
theorem Reachable.consistentPlacement (h : Reachable u) : u.ConsistentPlacement := by
  obtain ⟨hpl, hpr⟩ := h.sound
  exact
    { logic_size := by
        have := hpl.slots_length .conditionLogic
        rwa [length_slots_conditionLogic] at this
      wordRegs_size := hpl.slots_length .wordReg
      branches_size := by
        have := hpl.slots_length .branch
        rwa [length_slots_branch] at this
      wordIns_size := hpl.slots_length .wordIn
      carryIns_size := hpl.slots_length .carryIn
      constants_size := hpl.slots_length .constant
      instructions_size := hpl.program ▸ hpl.instructions
      logic := fun i e he => by
        have := hpl.isBoundAt (.slot .conditionLogic i) (Option.some_ne_none _)
          (holder?_of_logic he)
        rwa [show (Resource.slot .conditionLogic i).address.number = i from Nat.zero_add i] at this
      wordRegs := fun i id hi => hpl.isBoundAt (.slot .wordReg i) (Option.some_ne_none _) hi
      branches := fun i e he =>
        hpl.isBoundAt (.slot .branch i) (Option.some_ne_none _) (holder?_of_branches he)
      wordIns := fun i id hi => hpl.isBoundAt (.slot .wordIn i) (Option.some_ne_none _) hi
      carryIns := fun i id hi => hpl.isBoundAt (.slot .carryIn i) (Option.some_ne_none _) hi
      condBypass := fun e he => hpl.isBoundAt .condBypass (Option.some_ne_none _)
        (congrArg (Option.map DrivenSignal.signal) he)
      condUpdate := fun e he => hpl.isBoundAt .condUpdate (Option.some_ne_none _)
        (congrArg (Option.map DrivenSignal.signal) he)
      builtin0 := fun id hi => hpl.isBoundAt .builtin0 (Option.some_ne_none _) hi
      builtin1 := fun id hi => hpl.isBoundAt .builtin1 (Option.some_ne_none _) hi
      builtinFFFF := fun id hi => hpl.isBoundAt .builtinFFFF (Option.some_ne_none _) hi
      constants := fun i id hi => by
        have hin : id ∈ u.slots .wordIn := hpl.constants id (List.mem_of_getElem? hi)
        obtain ⟨j, hj⟩ := mem_slots_iff.mp hin
        exact ⟨j, hj, hpl.isBoundAt (.slot .wordIn j) (Option.some_ne_none _) hj⟩
      valid := fun id s a hs hb => hpl.valid hs hb
      word_address := fun id s n hs hb hd => by
        have hnumber := hpl.hasNumber hs hb
        rwa [hd] at hnumber
      bit_address := fun id s n hs hb hd => by
        have hnumber := hpl.hasNumber hs hb
        rwa [hd] at hnumber
      signalAt := fun id n hb => hpl.signalAt hb
      shared := fun id id' s s' a hne hs hs' hb hb' => by
        have := hpl.sameConstant (bound?_of_binding hs hb) (bound?_of_binding hs' hb') hne rfl
        exact ⟨this.left, this.right, this.dataType, this.initial⟩
      building := fun hp => by
        have hin := hpr hp
        exact ⟨hin.slots_eq_nil .wordReg rfl, hin.slots_eq_nil .constant rfl,
          hin.closed .builtin0 rfl, hin.closed .builtin1 rfl, hin.closed .builtinFFFF rfl,
          fun id n hb => hin.signalAt hb, fun id id' n hb hb' => hin.isBoundAt_inj hb hb'⟩ }

/-- Two equal constants, the second of which shares the word input of the first. -/
def equalConstants : Alu :=
  (create "alu" .standard).run
    [.declare "a" .constant .word, .declare "b" .constant .word, .declare "r" .register .word,
      .edit (.setInitial ⟨7⟩ 5), .edit (.setInitial ⟨8⟩ 5), .edit (.bitSlice ⟨9⟩ 2), .assign,
      .declare "late" .wire .bit]

theorem consistentPlacement_equalConstants :
    Reachable equalConstants ∧ equalConstants.phase = .bound ∧
      equalConstants.IsBoundAt ⟨7⟩ 30 ∧ equalConstants.IsBoundAt ⟨8⟩ 30 ∧
      equalConstants.IsBoundAt ⟨9⟩ 10 ∧ equalConstants.ConsistentPlacement := by
  have h : Reachable equalConstants := (Reachable.new (.standard "alu")).run _
  exact ⟨h, by decide +kernel, ⟨_, rfl, by decide +kernel⟩, ⟨_, rfl, by decide +kernel⟩,
    ⟨_, rfl, by decide +kernel⟩, h.consistentPlacement⟩

end AluPlacement.Alu
