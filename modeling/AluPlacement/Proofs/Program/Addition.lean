import AluPlacement.Proofs.Placement.Reachable

/-! # What adding an instruction does

`Admits` lists everything a unit asks of an instruction, and `newInputs` are the signals that are
bound with it: the operands that are wires or delayed and have no binding, then the latches without
one, each where it first occurs. The check of an instruction says nothing else
(`checkInstruction_eq_ok_iff`), so the call is settled for every unit and every instruction: it adds
the instruction with these inputs (`Adds`) or changes nothing. -/

namespace AluPlacement

/-! ### The inputs that an instruction brings -/

namespace Registry

variable {r : Registry} {id : SignalId}

/-- The signal is a wire or delayed and has no binding. -/
def isFreeInput (r : Registry) (id : SignalId) : Bool :=
  (r.get? id).any fun s => (s.behavior == .wire || s.behavior == .delayed) && !s.isBound

theorem isFreeInput_iff :
    r.isFreeInput id = true ↔ ∃ s, r.get? id = some s ∧ s.IsInput ∧ s.binding = none := by
  unfold isFreeInput Signal.isBound Signal.IsInput
  cases r.get? id <;> simp

end Registry

namespace Alu

/-- The inputs that are bound with an instruction: operands in order, then latches in order, each
once. -/
def newInputs (u : Alu) (i : Instruction) : List SignalId :=
  (i.operandSignals.filter u.signals.isFreeInput ++
    i.latches.entries.filter u.signals.isFree).eraseDups

/-- Those of one type. -/
def newInputsOf (u : Alu) (i : Instruction) (d : DataType) : List SignalId :=
  (u.newInputs i).filter (hasType u.signals d)

variable {u u' : Alu} {i : Instruction} {id : SignalId} {s : Signal} {pending : List SignalId}

theorem addOperand_eq {r : Registry} (hs : r.get? id = some s) (pending : List SignalId) :
    addOperand r pending id =
      .ok (if r.isFreeInput id then insertNew pending id else pending) := by
  refine Checked.bind_eq_ok.mpr ⟨s, Registry.get_eq_ok.mpr hs, congrArg Except.ok ?_⟩
  unfold Registry.isFreeInput insertNew
  rw [hs, Option.any_some]
  cases pending.contains id with
  | true => simp
  | false => simp

/-- A latch that is bound must stand at a word input. -/
def IsLatchable (s : Signal) : Prop := ∀ a, s.binding = some a → a.isIn .wordIn = true

theorem addLatch_eq {r : Registry} (hs : r.get? id = some s) (hl : IsLatchable s)
    (pending : List SignalId) :
    addLatch r pending id = .ok (if r.isFree id then insertNew pending id else pending) := by
  refine Checked.bind_eq_ok.mpr ⟨s, Registry.get_eq_ok.mpr hs, ?_⟩
  cases hb : s.binding with
  | some a =>
    have hbound : ¬ r.isFree id = true := by
      rw [Registry.isFree_iff, hs]
      simp [hb]
    rw [if_neg hbound]
    exact Checked.bind_eq_ok.mpr ⟨(), Checked.require_eq_ok.mpr (hl a hb), rfl⟩
  | none =>
    rw [if_pos (Registry.isFree_iff.mpr ⟨s, hs, hb⟩)]
    rfl

theorem pendingInputs_eq (hops : ∀ id ∈ i.operandSignals, u.signals.contains id = true)
    (hls : ∀ id ∈ i.latches.entries, ∃ s, u.signals.get? id = some s ∧ IsLatchable s) :
    pendingInputs u.signals i = .ok (u.newInputs i) := by
  have hoperands : i.operandSignals.foldlM (addOperand u.signals) [] =
      .ok ((i.operandSignals.filter u.signals.isFreeInput).foldl insertNew []) :=
    Checked.foldlM_eq_foldl_filter [] fun id hid pending => by
      obtain ⟨s, hs⟩ := Registry.contains_iff.mp (hops id hid)
      exact addOperand_eq hs pending
  have hlatches : ∀ id ∈ i.latches.entries, ∀ pending, addLatch u.signals pending id =
      .ok (if u.signals.isFree id then insertNew pending id else pending) := by
    intro id hid pending
    obtain ⟨s, hs, hlatch⟩ := hls id hid
    exact addLatch_eq hs hlatch pending
  refine Checked.bind_eq_ok.mpr ⟨_, hoperands, ?_⟩
  rw [Checked.foldlM_eq_foldl_filter _ hlatches]
  unfold newInputs
  rw [← List.foldl_append, foldl_insertNew]

/-! ### When an instruction is added -/

/-- Everything a unit asks of an instruction. -/
structure Admits (u : Alu) (i : Instruction) : Prop where
  building : u.phase = .building
  room : u.instructions.entries.length < u.instructions.capacity
  label : ∀ name, i.label = some name →
    name = "" ∨ ∀ j ∈ u.instructions.entries, j.label ≠ some name
  destinations : ∀ d ∈ i.destinations.entries,
    ∃ s, u.signals.get? d = some s ∧ s.behavior = .register ∧ s.dataType = .word
  overrides : ∀ o ∈ i.overrides.entries,
    ∃ s, u.signals.get? o.1 = some s ∧ s.behavior = .register ∧ s.dataType = .bit
  latches : ∀ l ∈ i.latches.entries,
    ∃ s, u.signals.get? l = some s ∧ s.dataType = .word ∧ IsLatchable s
  operands : ∀ id ∈ i.operandSignals, u.signals.contains id = true
  conditions : ∀ c ∈ i.branch.conditions, u.signals.contains c = true
  inputs : ∀ d : DataType, (u.slots d.inputFamily).length + (u.newInputsOf i d).length ≤
    u.capacityOf d.inputFamily

theorem requireNewLabel_eq_ok {label : Option String} {a : Unit} :
    u.requireNewLabel label = .ok a ↔ ∀ name, label = some name →
      name = "" ∨ ∀ j ∈ u.instructions.entries, j.label ≠ some name := by
  cases label with
  | none => simp [requireNewLabel]
  | some name =>
    unfold requireNewLabel
    rw [Checked.require_eq_ok]
    simp

theorem requireDeclared_eq_ok {a : Unit} :
    u.requireDeclared id = .ok a ↔ u.signals.contains id = true := Checked.require_eq_ok

theorem requireOf_eq_ok_iff {behavior : Behavior} {dataType : DataType} {expected : String}
    {a : Unit} : u.requireOf behavior dataType expected id = .ok a ↔
      ∃ s, u.signals.get? id = some s ∧ s.behavior = behavior ∧ s.dataType = dataType := by
  refine ⟨requireOf_eq_ok, fun ⟨s, hs, hb, hd⟩ => ?_⟩
  have hdeclared := Registry.contains_iff.mpr ⟨s, hs⟩
  refine Checked.bind_eq_ok.mpr ⟨(), requireDeclared_eq_ok.mpr hdeclared, ?_⟩
  refine Checked.bind_eq_ok.mpr ⟨s, Registry.get_eq_ok.mpr hs, Checked.require_eq_ok.mpr ?_⟩
  simp [Signal.isOf, hb, hd]

theorem requireWord_eq_ok_iff {a : Unit} : u.requireWord id = .ok a ↔
    ∃ s, u.signals.get? id = some s ∧ s.dataType = .word := by
  refine ⟨requireWord_eq_ok, fun ⟨s, hs, hd⟩ => ?_⟩
  have hdeclared := Registry.contains_iff.mpr ⟨s, hs⟩
  refine Checked.bind_eq_ok.mpr ⟨(), requireDeclared_eq_ok.mpr hdeclared, ?_⟩
  exact Checked.bind_eq_ok.mpr ⟨s, Registry.get_eq_ok.mpr hs, Checked.require_eq_ok.mpr hd⟩

theorem checkSignals_eq_ok_iff {a : Unit} : u.checkSignals i = .ok a ↔
    (∀ d ∈ i.destinations.entries,
      ∃ s, u.signals.get? d = some s ∧ s.behavior = .register ∧ s.dataType = .word) ∧
    (∀ o ∈ i.overrides.entries,
      ∃ s, u.signals.get? o.1 = some s ∧ s.behavior = .register ∧ s.dataType = .bit) ∧
    (∀ l ∈ i.latches.entries, ∃ s, u.signals.get? l = some s ∧ s.dataType = .word) ∧
    (∀ id ∈ i.operandSignals, u.signals.contains id = true) ∧
    ∀ c ∈ i.branch.conditions, u.signals.contains c = true := by
  unfold checkSignals
  simp only [Checked.bind_eq_ok, Checked.forM_eq_ok_iff, requireOf_eq_ok_iff, requireWord_eq_ok_iff,
    requireDeclared_eq_ok, exists_and_left, exists_const]

/-- The inputs that need a slot of a type are counted by type. -/
theorem requireRoom_eq_ok_iff (h : ∀ id ∈ pending, u.signals.contains id = true) {a : Unit} :
    u.requireRoom pending = .ok a ↔ ∀ d : DataType,
      (u.slots d.inputFamily).length + (pending.filter (hasType u.signals d)).length ≤
        u.capacityOf d.inputFamily := by
  refine ⟨fun hroom d => ?_, fun hroom => ?_⟩
  · rw [← List.countP_eq_length_filter]
    exact requireRoom_eq_ok hroom d
  · have htypes : (pending.mapM (dataTypeOf u.signals) : Checked Error _) =
        .ok (pending.map fun id => ((u.signals.get? id).map Signal.dataType).getD .bit) := by
      refine Checked.mapM_eq_ok fun id hid => ?_
      obtain ⟨s, hs⟩ := Registry.contains_iff.mp (h id hid)
      refine Checked.bind_eq_ok.mpr ⟨s, Registry.get_eq_ok.mpr hs, ?_⟩
      rw [hs]
      rfl
    have hword := hroom .word
    have hbit := hroom .bit
    rw [← List.countP_eq_length_filter, ← count_dataTypes htypes] at hword hbit
    refine Checked.bind_eq_ok.mpr ⟨_, htypes, ?_⟩
    exact Checked.bind_eq_ok.mpr
      ⟨(), Checked.require_eq_ok.mpr hword, Checked.require_eq_ok.mpr hbit⟩

theorem mem_newInputs : id ∈ u.newInputs i ↔
    (id ∈ i.operandSignals ∧ u.signals.isFreeInput id = true) ∨
      id ∈ i.latches.entries ∧ u.signals.isFree id = true := by
  simp [newInputs]

theorem contains_of_mem_newInputs (h : id ∈ u.newInputs i) : u.signals.contains id = true := by
  rw [Registry.contains_iff]
  rcases mem_newInputs.mp h with ⟨-, hfree⟩ | ⟨-, hfree⟩
  · obtain ⟨s, hs, -⟩ := Registry.isFreeInput_iff.mp hfree
    exact ⟨s, hs⟩
  · obtain ⟨s, hs, -⟩ := Registry.isFree_iff.mp hfree
    exact ⟨s, hs⟩

/-- **The check of an instruction asks for `Admits` and nothing else.** -/
theorem checkInstruction_eq_ok_iff :
    u.checkInstruction i = .ok pending ↔ u.Admits i ∧ pending = u.newInputs i := by
  constructor
  · intro h
    have haccepts := checkInstruction_eq_ok h
    obtain ⟨_, -, h⟩ := Checked.bind_eq_ok.mp h
    obtain ⟨_, -, h⟩ := Checked.bind_eq_ok.mp h
    obtain ⟨_, hlabel, h⟩ := Checked.bind_eq_ok.mp h
    obtain ⟨_, hsignals, h⟩ := Checked.bind_eq_ok.mp h
    obtain ⟨pending', hpending, h⟩ := Checked.bind_eq_ok.mp h
    obtain ⟨_, hroom, h⟩ := Checked.bind_eq_ok.mp h
    cases h
    obtain ⟨hdests, hoverrides, hwords, hoperands, hconds⟩ := checkSignals_eq_ok_iff.mp hsignals
    have hlatches : ∀ l ∈ i.latches.entries,
        ∃ s, u.signals.get? l = some s ∧ s.dataType = .word ∧ IsLatchable s := by
      intro l hl
      obtain ⟨s, hs, hd⟩ := hwords l hl
      refine ⟨s, hs, hd, fun a ha => ?_⟩
      rcases haccepts.inputs.latches l hl with hnew | ⟨t, b, ht, hb, hin⟩
      · obtain ⟨t, ht, hnone⟩ := haccepts.supply.unbound l hnew
        rw [hs] at ht
        cases ht
        rw [ha] at hnone
        cases hnone
      · rw [hs] at ht
        cases ht
        rw [ha] at hb
        cases hb
        exact hin
    have hnew := pendingInputs_eq hoperands fun l hl =>
      (hlatches l hl).imp fun s hs => ⟨hs.1, hs.2.2⟩
    rw [hpending] at hnew
    cases hnew
    have hinputs := (requireRoom_eq_ok_iff fun _ => contains_of_mem_newInputs).mp hroom
    exact ⟨⟨haccepts.building, haccepts.room, requireNewLabel_eq_ok.mp hlabel, hdests, hoverrides,
      hlatches, hoperands, hconds, hinputs⟩, rfl⟩
  · rintro ⟨h, rfl⟩
    have hfull : u.instructions.isFull = false := by simpa [Pool.isFull] using h.room
    have hsignals : u.checkSignals i = .ok () := checkSignals_eq_ok_iff.mpr ⟨h.destinations,
      h.overrides, fun l hl => (h.latches l hl).imp fun s hs => ⟨hs.1, hs.2.1⟩, h.operands,
      h.conditions⟩
    have hpending := pendingInputs_eq h.operands fun l hl =>
      (h.latches l hl).imp fun s hs => ⟨hs.1, hs.2.2⟩
    have hroom : u.requireRoom (u.newInputs i) = .ok () :=
      (requireRoom_eq_ok_iff fun _ => contains_of_mem_newInputs).mpr h.inputs
    refine Checked.bind_eq_ok.mpr ⟨(), Checked.require_eq_ok.mpr h.building, ?_⟩
    refine Checked.bind_eq_ok.mpr ⟨(), Checked.require_eq_ok.mpr hfull, ?_⟩
    refine Checked.bind_eq_ok.mpr ⟨(), requireNewLabel_eq_ok.mpr h.label, ?_⟩
    refine Checked.bind_eq_ok.mpr ⟨(), hsignals, ?_⟩
    refine Checked.bind_eq_ok.mpr ⟨_, hpending, ?_⟩
    exact Checked.bind_eq_ok.mpr ⟨(), hroom, rfl⟩

theorem Admits.supply (h : u.Admits i) : u.Suppliable (u.newInputs i) :=
  (checkInstruction_eq_ok (checkInstruction_eq_ok_iff.mpr ⟨h, rfl⟩)).supply

/-- What is admitted is added. -/
theorem addInstruction_of_admits (h : u.Admits i) :
    addInstruction i u = .ok u.instructions.size (u.added i (u.newInputs i)) :=
  addInstruction_of_ok (checkInstruction_eq_ok_iff.mpr ⟨h, rfl⟩)

/-- What is not admitted is refused, and the unit stays as it is. -/
theorem addInstruction_of_not_admits (h : ¬ u.Admits i) : ∃ e, addInstruction i u = .error e u := by
  cases hcheck : u.checkInstruction i with
  | error e =>
    exact ⟨_, Edit.locatedAt_ask_of_error (q := fun u : Alu => u.checkInstruction i) hcheck _⟩
  | ok pending => exact absurd (checkInstruction_eq_ok_iff.mp hcheck).1 h

/-! ### What it does -/

/-- `u'` is `u` with the instruction at the end of its program and its new inputs bound, those of
each type to the next slots for it. -/
structure Adds (u : Alu) (i : Instruction) (u' : Alu) : Prop where
  program : u'.instructions.entries =
    u.instructions.entries ++ [{ i.finalize with index := some u.instructions.size }]
  wordIns : u'.wordIns.entries = u.wordIns.entries ++ u.newInputsOf i .word
  carryIns : u'.carryIns.entries = u.carryIns.entries ++ u.newInputsOf i .bit
  /-- The `k`-th new input of a type stands `k` slots behind those that were taken. -/
  bound : ∀ d k id, (u.newInputsOf i d)[k]? = some id →
    ∃ s, u.signals.get? id = some s ∧ s.dataType = d ∧ s.binding = none ∧
      u'.signals.get? id = some { s with
        binding := some (Address.ofSlot d.inputFamily ((u.slots d.inputFamily).length + k)) }
  others : ∀ id, id ∉ u.newInputs i → u'.signals.get? id = u.signals.get? id
  /-- Nothing else is changed, the kinds and capacities of the pools included. -/
  rest : u' = { u with
    signals := u'.signals
    instructions := { u.instructions with entries := u'.instructions.entries }
    wordIns := { u.wordIns with entries := u'.wordIns.entries }
    carryIns := { u.carryIns with entries := u'.carryIns.entries } }

theorem get?_withInputs_of_not_mem (h : id ∉ pending) :
    (u.withInputs pending).signals.get? id = u.signals.get? id := by
  induction pending generalizing u with
  | nil => rfl
  | cons j pending ih =>
    obtain ⟨hne, hrest⟩ := not_or.mp fun hor => h (List.mem_cons.mpr hor)
    exact (ih hrest).trans (get?_takeInput_of_ne hne)

/-- Where the `k`-th input of a type is bound. -/
theorem Suppliable.get?_withInputs (h : u.Suppliable pending) {d : DataType} {k : Nat}
    (hk : (pending.filter (hasType u.signals d))[k]? = some id) :
    ∃ s, u.signals.get? id = some s ∧ s.dataType = d ∧ s.binding = none ∧
      (u.withInputs pending).signals.get? id = some { s with
        binding := some (Address.ofSlot d.inputFamily ((u.slots d.inputFamily).length + k)) } := by
  induction pending generalizing u k with
  | nil => cases hk
  | cons j pending ih =>
    obtain ⟨t, ht, hb, -⟩ := h.head
    have hnew : j ∉ pending := (List.nodup_cons.mp h.nodup).1
    -- the inputs behind the first are bound in the unit that has the first
    have hrest : ∀ n, (pending.filter (hasType u.signals d))[n]? = some id →
        ∃ s, u.signals.get? id = some s ∧ s.dataType = d ∧ s.binding = none ∧
          (u.withInputs (j :: pending)).signals.get? id = some { s with
            binding := some (Address.ofSlot d.inputFamily
              (((u.takeInput j).slots d.inputFamily).length + n)) } := by
      intro n hn
      have hne : id ≠ j := by
        rintro rfl
        exact hnew (List.mem_filter.mp (List.mem_of_getElem? hn)).1
      rw [← hasType_takeInput u j d] at hn
      obtain ⟨s, hs, hbound⟩ := ih h.tail hn
      rw [get?_takeInput_of_ne hne] at hs
      exact ⟨s, hs, hbound⟩
    by_cases hd : t.dataType = d
    · subst hd
      have hslots : ((u.takeInput j).slots t.dataType.inputFamily).length =
          (u.slots t.dataType.inputFamily).length + 1 := by
        rw [slots_takeInput ht, if_pos rfl, List.length_append, List.length_singleton]
      rw [List.filter_cons_of_pos ((hasType_iff ht).mpr rfl)] at hk
      cases k with
      | zero =>
        obtain rfl : j = id := Option.some.inj hk
        refine ⟨t, ht, rfl, hb, (get?_withInputs_of_not_mem hnew).trans ?_⟩
        rw [takeInput_eq ht]
        show (u.signals.place j _).get? j = _
        rw [Registry.get?_place, if_pos rfl, ht]
        rfl
      | succ k =>
        obtain ⟨s, hs, htype, hnone, hbound⟩ := hrest k hk
        rw [hslots, Nat.add_assoc, Nat.add_comm 1 k] at hbound
        exact ⟨s, hs, htype, hnone, hbound⟩
    · have hslots : (u.takeInput j).slots d.inputFamily = u.slots d.inputFamily := by
        rw [slots_takeInput ht, if_neg fun he => hd (DataType.inputFamily_inj he).symm]
      rw [List.filter_cons_of_neg fun he => hd ((hasType_iff ht).mp he)] at hk
      rw [← hslots]
      exact hrest k hk

theorem hasType_eq_inputFamily (r : Registry) (d : DataType) :
    (fun i => (r.get? i).any fun s => decide (s.dataType.inputFamily = d.inputFamily)) =
      hasType r d := by
  funext i
  unfold hasType
  cases r.get? i with
  | none => rfl
  | some s => cases hs : s.dataType <;> cases d <;> simp [DataType.inputFamily, hs]

theorem Admits.adds (h : u.Admits i) : u.Adds i (u.added i (u.newInputs i)) := by
  have hslots : ∀ d : DataType, (u.withInputs (u.newInputs i)).slots d.inputFamily =
      u.slots d.inputFamily ++ u.newInputsOf i d := by
    intro d
    rw [h.supply.slots, hasType_eq_inputFamily]
    rfl
  exact
    { program := rfl
      wordIns := hslots .word
      carryIns := hslots .bit
      bound := fun d k id hk => h.supply.get?_withInputs hk
      others := fun id hid => get?_withInputs_of_not_mem hid
      rest := by
        have hrest := keepsRest_withInputs u (u.newInputs i)
        unfold added
        rw [hrest]
        rfl }

/-- **Adding an instruction is all or nothing.** A call that fails leaves the unit as it was; a call
that answers gives the old length of the program, and the unit has the instruction and its new
inputs and no other change. It answers if and only if the instruction is admitted. -/
theorem addInstruction_all_or_nothing (u : Alu) (i : Instruction) :
    (∀ e u', addInstruction i u = .error e u' → u' = u) ∧
      (∀ n u', addInstruction i u = .ok n u' → n = u.instructions.size ∧ u.Adds i u') ∧
      ((∃ n u', addInstruction i u = .ok n u') ↔ u.Admits i) := by
  by_cases h : u.Admits i
  · have hok := addInstruction_of_admits h
    refine ⟨fun e u' he => ?_, fun n u' hn => ?_, fun _ => h, fun _ => ⟨_, _, hok⟩⟩
    · rw [hok] at he
      cases he
    · obtain ⟨rfl, rfl⟩ := EStateM.Result.ok.inj (hok.symm.trans hn)
      exact ⟨rfl, h.adds⟩
  · obtain ⟨e, hfails⟩ := addInstruction_of_not_admits h
    refine ⟨fun e' u' he => ?_, fun n u' hn => ?_, fun ⟨n, u', hn⟩ => ?_, fun h' => absurd h' h⟩
    · obtain ⟨-, rfl⟩ := EStateM.Result.error.inj (hfails.symm.trans he)
      rfl
    · rw [hfails] at hn
      cases hn
    · rw [hfails] at hn
      cases hn

/-- A unit with two words and a delayed bit, all without an input. -/
def readingUnit : Alu :=
  (create "alu" .standard).run
    [.declare "x" .wire .word, .declare "y" .wire .word, .declare "c" .delayed .bit]

/-- An instruction that names its inputs several times, as operands and as latches. -/
def readingInstruction : Instruction where
  operation := some { name := "add", operands := [.signal ⟨8⟩, .signal ⟨9⟩, .signal ⟨8⟩] }
  latches := { kind := .latches, capacity := 13, entries := [⟨7⟩, ⟨8⟩, ⟨7⟩] }

theorem addInstruction_all_or_nothing_repeated :
    (∃ n u', addInstruction readingInstruction readingUnit = .ok n u' ∧
      readingUnit.Adds readingInstruction u') ∧
    readingUnit.newInputsOf readingInstruction .word = [⟨8⟩, ⟨7⟩] ∧
    readingUnit.newInputsOf readingInstruction .bit = [⟨9⟩] := by
  have hok : addInstruction readingInstruction readingUnit =
      .ok 0 ((addInstruction readingInstruction).after readingUnit) := rfl
  obtain ⟨-, hadds, -⟩ := addInstruction_all_or_nothing readingUnit readingInstruction
  exact ⟨⟨_, _, hok, (hadds _ _ hok).2⟩, by decide +kernel, by decide +kernel⟩

end Alu

end AluPlacement
