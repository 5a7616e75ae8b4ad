import AluPlacement.Proofs.Admission.Demand

/-! # The visits get through exactly if the demand fits

`Fits u l` compares what the signals `l` ask for with the room in `u`. A visit that answers moves
one signal from the demand into the pools, so it keeps `Fits` (`Outcome.fits_iff`); a visit that is
refused shows that the demand did not fit (`Outcome.not_fits`). Over a whole list of visits: nothing
is reported exactly if the demand fits (`collect_eq_nil_iff`). The same bookkeeping gives the number
of word registers that need a nearest neighbor in the end (`neighborTotal_of_collect`). -/

namespace AluPlacement

/-! ### What a visited signal asked for -/

/-- The demand in `r` of the signals from `id` on is the demand in `r'` of the others and, on top,
so many word registers, fresh values, bits and registers with a nearest neighbor. -/
structure Registry.Asks (r r' : Registry) (id : SignalId) (l : List SignalId)
    (words values bits neighbors : Nat) : Prop where
  words : r.registers .word (id :: l) = r'.registers .word l + words
  values : r.fresh (id :: l) = r'.fresh l + values
  bits : r.bits (id :: l) = r'.bits l + bits
  neighbors : r.neighborRegisters (id :: l) = r'.neighborRegisters l + neighbors

namespace Alu

variable {u u' : Alu} {id : SignalId} {s : Signal} {l : List SignalId}

theorem asks_skip (hs : u.signals.get? id = some s)
    (h : s.binding ≠ none ∨ s.behavior.isStateful = false) (l : List SignalId) :
    u.signals.Asks u.signals id l 0 0 0 0 := by
  obtain ⟨h1, h2, h3, h4⟩ := Registry.demand_cons_of_skip hs h l
  exact ⟨h1, h2, h3, h4⟩

theorem asks_wordReg (hs : u.signals.get? id = some s) (hl : id ∉ l) (hb : s.binding = none)
    (hr : s.behavior = .register) (hd : s.dataType = .word) (a : Address) :
    u.signals.Asks (u.signals.place id a) id l 1 0 0
      (if needsNeighbor u.signals id then 1 else 0) := by
  have hreg : s.isOf .register .word = true := by simp [Signal.isOf, hr, hd]
  have hconst : ∀ d, s.isOf .constant d = false := by simp [Signal.isOf, hr]
  have hbit : s.isOf .register .bit = false := by simp [Signal.isOf, hd]
  refine ⟨?_, Registry.fresh_cons_of_old hs hb hl (fun hc => ?_) a,
    Registry.bits_cons_of_other hs hb hl hbit (fun hc => ?_) a, ?_⟩
  · rw [Registry.registers_cons hs hb hl a, hreg]
    rfl
  · rw [hconst] at hc
    cases hc
  · rw [hconst] at hc
    cases hc
  · rw [Registry.neighborRegisters_cons hs hb hl a, hreg, Bool.true_and]

/-- Only word registers ask for word registers. -/
theorem registers_cons_of_other (hs : u.signals.get? id = some s) (hl : id ∉ l)
    (hb : s.binding = none) (hw : s.isOf .register .word = false) (a : Address) :
    u.signals.registers .word (id :: l) = (u.signals.place id a).registers .word l ∧
      u.signals.neighborRegisters (id :: l) = (u.signals.place id a).neighborRegisters l := by
  rw [Registry.registers_cons hs hb hl a, Registry.neighborRegisters_cons hs hb hl a, hw]
  exact ⟨rfl, rfl⟩

theorem asks_newConstant (hs : u.signals.get? id = some s) (hl : id ∉ l) (hd : s.dataType = .word)
    (hn : u.IsNewConstant s) (hv : s.initial.bind Resource.ofBuiltinValue? = none)
    (a : Address) : u.signals.Asks (u.signals.place id a) id l 0 1 0 0 := by
  obtain ⟨hb, hc, hnot⟩ := hn
  rw [hd] at hnot
  have hreg : ∀ d, s.isOf .register d = false := by simp [Signal.isOf, hc]
  obtain ⟨h1, h4⟩ := registers_cons_of_other hs hl hb (hreg .word) a
  refine ⟨h1, ?_, Registry.bits_cons_of_other hs hb hl (hreg .bit) (fun hbit => ?_) a, h4⟩
  · refine Registry.fresh_cons_of_new hs hb hl (by simp [Signal.isOf, hc, hd]) hnot ?_ a
    rw [Resource.mem_builtinValues, hv]
    exact fun h => h rfl
  · simp [Signal.isOf, hd] at hbit

theorem asks_hold (hs : u.signals.get? id = some s) (hl : id ∉ l) (hd : s.dataType = .bit)
    (hn : (s.binding = none ∧ s.behavior = .register) ∨ u.IsNewConstant s) (a : Address) :
    u.signals.Asks (u.signals.place id a) id l 0 0 1 0 := by
  have hb : s.binding = none := hn.elim And.left IsNewConstant.unbound
  have hword : ∀ b, s.isOf b .word = false := by simp [Signal.isOf, hd]
  obtain ⟨h1, h4⟩ := registers_cons_of_other hs hl hb (hword .register) a
  refine ⟨h1, Registry.fresh_cons_of_old hs hb hl (fun hw => ?_) a, ?_, h4⟩
  · rw [hword] at hw
    cases hw
  · refine Registry.bits_cons_of_hold hs hb hl hd (hn.imp And.right fun hc => ⟨hc.behavior, ?_⟩) a
    rw [← hd]
    exact hc.notBound

/-- A constant that shares an address, or takes a built-in one, asks for nothing. -/
theorem asks_shared (hs : u.signals.get? id = some s) (hl : id ∉ l) (hb : s.binding = none)
    (hc : s.behavior = .constant)
    (hold : u.signals.HasConstant s.dataType s.initial ∨
      (s.dataType = .word ∧ s.initial.bind Resource.ofBuiltinValue? ≠ none)) (a : Address) :
    u.signals.Asks (u.signals.place id a) id l 0 0 0 0 := by
  have hreg : ∀ d, s.isOf .register d = false := by simp [Signal.isOf, hc]
  obtain ⟨h1, h4⟩ := registers_cons_of_other hs hl hb (hreg .word) a
  refine ⟨h1, Registry.fresh_cons_of_old hs hb hl (fun hw => ?_) a,
    Registry.bits_cons_of_other hs hb hl (hreg .bit) (fun hbit => ?_) a, h4⟩
  · have hd : s.dataType = .word := by simpa [Signal.isOf, hc] using hw
    rw [hd] at hold
    exact hold.imp (fun h => h) fun h => Resource.mem_builtinValues.mpr h.2
  · have hd : s.dataType = .bit := by simpa [Signal.isOf, hc] using hbit
    rw [hd] at hold
    exact hold.resolve_right fun h => by cases h.1

theorem hasConstant_of_address {d : DataType} {v : Option Word} {a : Address}
    (h : u.signals.constantAddress? d v = some a) : u.signals.HasConstant d v := by
  obtain ⟨i, p, hp, -, hrest⟩ := Registry.constantAddress?_eq_some h
  exact ⟨i, p, hp, hrest⟩

/-! ### Room -/

/-- The number of slots of a family that are taken. -/
def used (u : Alu) (family : Family) : Nat := (u.slots family).length

theorem used_takeSlot (u : Alu) (family g : Family) (id : SignalId) (f : TruthFn) :
    (u.takeSlot family id f).used g = u.used g + if g = family then 1 else 0 := by
  have hslots : (u.takeSlot family id f).slots g = (u.appendSlot family id f).slots g := by
    cases g <;> rfl
  unfold used
  rw [hslots, slots_appendSlot]
  split_ifs with h
  · rw [h, List.length_append, List.length_singleton]
  · rfl

theorem used_takeConstant (u : Alu) (g : Family) (id : SignalId) :
    (u.takeConstant id).used g = u.used g + if g = .wordIn ∨ g = .constant then 1 else 0 := by
  cases g <;> simp [used, takeConstant, takeSlot, appendSlot, slots, Pool.append]

theorem used_takeBuiltin (u : Alu) (g : Family) (id : SignalId) (r : Resource) :
    (u.takeBuiltin id r).used g = u.used g := by
  cases r <;> rfl

theorem signals_takeBuiltin (u : Alu) (id : SignalId) (r : Resource) :
    (u.takeBuiltin id r).signals = u.signals.place id r.address := by
  cases r <;> rfl

theorem wordRegs_takeBuiltin (u : Alu) (id : SignalId) (r : Resource) :
    (u.takeBuiltin id r).wordRegs = u.wordRegs := by
  cases r <;> rfl

/-- What the signals ask for fits into the room that is left. Constants with fresh values go through
word inputs while one of the two constant slots is free, and to word registers then. -/
structure Fits (u : Alu) (l : List SignalId) : Prop where
  wordIns : u.used .wordIn + min (u.signals.fresh l) (2 - u.used .constant) ≤ 13
  wordRegs : u.used .wordReg + u.signals.registers .word l +
    (u.signals.fresh l - (2 - u.used .constant)) ≤ 9
  logic : u.used .conditionLogic + u.signals.bits l ≤ 4

theorem fits_iff : u.Fits l ↔
    u.used .wordIn + min (u.signals.fresh l) (2 - u.used .constant) ≤ 13 ∧
      u.used .wordReg + u.signals.registers .word l +
        (u.signals.fresh l - (2 - u.used .constant)) ≤ 9 ∧
      u.used .conditionLogic + u.signals.bits l ≤ 4 :=
  ⟨fun h => ⟨h.wordIns, h.wordRegs, h.logic⟩, fun h => ⟨h.1, h.2.1, h.2.2⟩⟩

/-- A visit that answers keeps `Fits`. -/
theorem Outcome.fits_iff (hcap : u.capacityOf = Family.capacity) (hs : u.signals.get? id = some s)
    (hl : id ∉ l) {x : Unit} (ho : Outcome u id s (.ok x u')) : u.Fits (id :: l) ↔ u'.Fits l := by
  have hconstants : u.constants.capacity = 2 := congrFun hcap .constant
  rw [Alu.fits_iff, Alu.fits_iff]
  cases ho with
  | skip h =>
    obtain ⟨h1, h2, h3, -⟩ := asks_skip hs h l
    rw [h1, h2, h3]
    exact Iff.rfl
  | wordReg hb hr hd hroom =>
    obtain ⟨h1, h2, h3, -⟩ : u.signals.Asks (u.takeSlot .wordReg id).signals id l 1 0 0 _ :=
      asks_wordReg hs hl hb hr hd _
    simp only [used_takeSlot, h1, h2, h3, reduceCtorEq, if_false, if_true]
    omega
  | hold hd hn hroom =>
    obtain ⟨h1, h2, h3, -⟩ : u.signals.Asks (u.takeSlot .conditionLogic id).signals id l 0 0 1 0 :=
      asks_hold hs hl hd hn _
    simp only [used_takeSlot, h1, h2, h3, reduceCtorEq, if_false, if_true]
    omega
  | @shared a hb hc ha =>
    obtain ⟨h1, h2, h3, -⟩ := asks_shared hs hl hb hc (Or.inl (hasConstant_of_address ha)) a
    rw [h1, h2, h3]
    exact Iff.rfl
  | @builtin r hd hn hr =>
    obtain ⟨h1, h2, h3, -⟩ := asks_shared hs hl hn.unbound hn.behavior
      (Or.inr ⟨hd, by rw [hr]; exact Option.some_ne_none r⟩) r.address
    simp only [used_takeBuiltin, signals_takeBuiltin, h1, h2, h3, Nat.add_zero]
  | constant hd hn hr hconst hroom =>
    obtain ⟨h1, h2, h3, -⟩ : u.signals.Asks (u.takeConstant id).signals id l 0 1 0 0 :=
      asks_newConstant hs hl hd hn hr _
    have hfree : u.used .constant < 2 := hconstants ▸ hconst
    simp only [used_takeConstant, h1, h2, h3, reduceCtorEq, or_false, or_true, if_false, if_true]
    omega
  | spill hd hn hr hconst hroom =>
    obtain ⟨h1, h2, h3, -⟩ : u.signals.Asks (u.takeSlot .wordReg id).signals id l 0 1 0 0 :=
      asks_newConstant hs hl hd hn hr _
    have hfull : 2 ≤ u.used .constant := hconstants ▸ hconst
    simp only [used_takeSlot, h1, h2, h3, reduceCtorEq, if_false, if_true]
    omega

/-- A visit that is refused shows that the demand does not fit. -/
theorem Outcome.not_fits (hcap : u.capacityOf = Family.capacity) (hs : u.signals.get? id = some s)
    (hl : id ∉ l) {e : Fault Diagnostic} (ho : Outcome u id s (.error e u')) :
    ¬u.Fits (id :: l) := by
  have hconstants : u.constants.capacity = 2 := congrFun hcap .constant
  have hwordRegs : u.wordRegs.capacity = 9 := congrFun hcap .wordReg
  have hwordIns : u.wordIns.capacity = 13 := congrFun hcap .wordIn
  have hlogic : u.logic.capacity = 4 := congrFun hcap .conditionLogic
  rw [Alu.fits_iff]
  -- any address shows what the refused signal asked for
  cases ho with
  | wordRegFull hb hr hd hfull =>
    have hused : 9 ≤ u.used .wordReg := hwordRegs ▸ hfull
    have := (asks_wordReg hs hl hb hr hd ⟨0⟩).words
    omega
  | holdFull hd hn hfull =>
    have hused : 4 ≤ u.used .conditionLogic := by
      unfold used
      rw [length_slots_conditionLogic]
      omega
    have := (asks_hold hs hl hd hn ⟨0⟩).bits
    omega
  | inputFull hd hn hr hconst hfull =>
    have hused : 13 ≤ u.used .wordIn := hwordIns ▸ hfull
    have hfree : u.used .constant < 2 := hconstants ▸ hconst
    have := (asks_newConstant hs hl hd hn hr ⟨0⟩).values
    omega
  | spillFull hd hn hr hconst hfull =>
    have hused : 9 ≤ u.used .wordReg := hwordRegs ▸ hfull
    have htaken : 2 ≤ u.used .constant := hconstants ▸ hconst
    have := (asks_newConstant hs hl hd hn hr ⟨0⟩).values
    omega

/-! ### All visits -/

/-- **Nothing is reported exactly if the demand fits.** -/
theorem collect_eq_nil_iff {ε : Type} : ∀ {l : List SignalId} {u : Alu}, u.Placed → l.Nodup →
    (∀ id ∈ l, u.signals.contains id = true) →
      ((∃ t, (Edit.collect bindRemaining l : Edit Alu ε _) u = .ok [] t) ↔ u.Fits l)
  | [], u, h, _, _ => by
    refine ⟨fun _ => ?_, fun _ => ⟨u, rfl⟩⟩
    have hin := h.slots_length .wordIn
    have hreg := h.slots_length .wordReg
    have hlog := h.slots_length .conditionLogic
    refine ⟨?_, ?_, ?_⟩ <;> simpa [Registry.fresh, Registry.newValues, Registry.pendingValues,
      Registry.registers, Registry.bits, used] using ‹_›
  | id :: l, u, h, hnodup, hin => by
    obtain ⟨hl, hnodup⟩ := List.nodup_cons.mp hnodup
    obtain ⟨s, hs⟩ := Registry.contains_iff.mp (hin id List.mem_cons_self)
    have ho := bindRemaining_outcome hs
    simp only [Edit.collect_cons_eq_nil]
    cases hr : bindRemaining id u with
    | ok x v =>
      rw [hr] at ho
      have hstep := ho.step h hs
      have ih := collect_eq_nil_iff (ε := ε) (hstep.placed h) hnodup fun i hi => by
        rw [ho.frame.contains]
        exact hin i (List.mem_cons_of_mem id hi)
      rw [ho.fits_iff h.capacity hs hl, ← ih]
      constructor
      · rintro ⟨t, y, v', hv, ht⟩
        cases hv
        exact ⟨t, ht⟩
      · rintro ⟨t, ht⟩
        exact ⟨t, x, v, rfl, ht⟩
    | error e v =>
      rw [hr] at ho
      refine ⟨?_, fun hf => absurd hf (ho.not_fits h.capacity hs hl)⟩
      rintro ⟨t, y, v', hv, -⟩
      cases hv

/-! ### Nearest neighbors -/

/-- The number of word registers that need a nearest neighbor once the signals are visited. -/
def neighborTotal (u : Alu) (l : List SignalId) : Nat :=
  u.wordRegs.entries.countP (needsNeighbor u.signals) + u.signals.neighborRegisters l +
    (u.signals.fresh l - (2 - u.used .constant))

theorem needsNeighbor_place_eq (r : Registry) (id : SignalId) (a : Address) :
    needsNeighbor (r.place id a) = needsNeighbor r :=
  funext (Registry.needsNeighbor_place a)

/-- A signal that gets no word register leaves the neighbors of the others as they are. -/
theorem countP_needsNeighbor_place (u u' : Alu) {a : Address}
    (hregs : u'.wordRegs = u.wordRegs) (hsig : u'.signals = u.signals.place id a) :
    u'.wordRegs.entries.countP (needsNeighbor u'.signals) =
      u.wordRegs.entries.countP (needsNeighbor u.signals) := by
  rw [hregs, hsig, needsNeighbor_place_eq]

/-- A constant that is given a word register does not have the value 0. -/
theorem needsNeighbor_of_spill (hs : u.signals.get? id = some s) (hi : s.initial ≠ none)
    (hr : s.initial.bind Resource.ofBuiltinValue? = none) :
    needsNeighbor u.signals id = true := by
  obtain ⟨w, hw⟩ := Option.ne_none_iff_exists'.mp hi
  have hne : w ≠ 0#16 := by
    rintro rfl
    rw [hw] at hr
    revert hr
    decide
  simp [needsNeighbor, hs, hw, hne]

theorem Outcome.neighborTotal_eq (hcap : u.capacityOf = Family.capacity)
    (hs : u.signals.get? id = some s) (hi : s.behavior = .constant → s.initial ≠ none)
    (hl : id ∉ l) {x : Unit} (ho : Outcome u id s (.ok x u')) :
    u.neighborTotal (id :: l) = u'.neighborTotal l := by
  have hconstants : u.constants.capacity = 2 := congrFun hcap .constant
  have happend : (u.takeSlot .wordReg id).wordRegs.entries.countP
      (needsNeighbor (u.takeSlot .wordReg id).signals) =
      u.wordRegs.entries.countP (needsNeighbor u.signals) +
        if needsNeighbor u.signals id then 1 else 0 := by
    show (u.wordRegs.entries ++ [id]).countP (needsNeighbor (u.signals.place id _)) = _
    rw [needsNeighbor_place_eq, List.countP_append, List.countP_singleton]
  unfold neighborTotal
  cases ho with
  | skip h =>
    obtain ⟨-, h2, -, h4⟩ := asks_skip hs h l
    rw [h2, h4]
    rfl
  | wordReg hb hr hd hroom =>
    obtain ⟨-, h2, -, h4⟩ : u.signals.Asks (u.takeSlot .wordReg id).signals id l 1 0 0 _ :=
      asks_wordReg hs hl hb hr hd _
    simp only [happend, used_takeSlot, h2, h4, reduceCtorEq, if_false]
    omega
  | hold hd hn hroom =>
    obtain ⟨-, h2, -, h4⟩ : u.signals.Asks (u.takeSlot .conditionLogic id).signals id l 0 0 1 0 :=
      asks_hold hs hl hd hn _
    have hsame := countP_needsNeighbor_place u (u.takeSlot .conditionLogic id) rfl rfl
    simp only [hsame, used_takeSlot, h2, h4, reduceCtorEq, if_false, Nat.add_zero]
  | @shared a hb hc ha =>
    obtain ⟨-, h2, -, h4⟩ := asks_shared hs hl hb hc (Or.inl (hasConstant_of_address ha)) a
    have hsame := countP_needsNeighbor_place u (u.takeShared id a) rfl rfl
    rw [hsame, h2, h4]
    rfl
  | @builtin r hd hn hr =>
    obtain ⟨-, h2, -, h4⟩ := asks_shared hs hl hn.unbound hn.behavior
      (Or.inr ⟨hd, by rw [hr]; exact Option.some_ne_none r⟩) r.address
    have hsame := countP_needsNeighbor_place u (u.takeBuiltin id r) (wordRegs_takeBuiltin u id r)
      (signals_takeBuiltin u id r)
    rw [hsame, signals_takeBuiltin, used_takeBuiltin, h2, h4]
    rfl
  | constant hd hn hr hconst hroom =>
    obtain ⟨-, h2, -, h4⟩ : u.signals.Asks (u.takeConstant id).signals id l 0 1 0 0 :=
      asks_newConstant hs hl hd hn hr _
    have hfree : u.used .constant < 2 := hconstants ▸ hconst
    have hsame := countP_needsNeighbor_place u (u.takeConstant id) rfl rfl
    simp only [hsame, used_takeConstant, h2, h4, or_true, if_true]
    omega
  | spill hd hn hr hconst hroom =>
    obtain ⟨-, h2, -, h4⟩ : u.signals.Asks (u.takeSlot .wordReg id).signals id l 0 1 0 0 :=
      asks_newConstant hs hl hd hn hr _
    have hfull : 2 ≤ u.used .constant := hconstants ▸ hconst
    simp only [happend, needsNeighbor_of_spill hs (hi hn.behavior) hr, used_takeSlot, h2, h4,
      reduceCtorEq, if_false, if_true]
    omega

/-- Every register and every constant has a value. -/
def IsInitialized (u : Alu) : Prop :=
  ∀ id s, u.signals.get? id = some s → s.behavior.isStateful = true → s.initial ≠ none

theorem isInitialized_place (h : u.IsInitialized) {a : Address}
    (hsig : u'.signals = u.signals.place id a) : u'.IsInitialized := by
  intro i s hs
  rw [hsig, Registry.get?_place] at hs
  split_ifs at hs
  · obtain ⟨s', hs', rfl⟩ := Option.map_eq_some_iff.mp hs
    exact h i s' hs'
  · exact h i s hs

theorem Step.isInitialized (hstep : Step u u') (h : u.IsInitialized) : u'.IsInitialized := by
  cases hstep with
  | stay => exact h
  | take _ _ _ _ _ _ ht => exact isInitialized_place h ht.signals
  | share => exact isInitialized_place h rfl

/-- **The nearest neighbors needed after all visits**, if nothing is reported. -/
theorem neighborTotal_of_collect {ε : Type} : ∀ {l : List SignalId} {u t : Alu}, u.Placed →
    u.IsInitialized → l.Nodup → (∀ id ∈ l, u.signals.contains id = true) →
      (Edit.collect bindRemaining l : Edit Alu ε _) u = .ok [] t →
        t.wordRegs.entries.countP (needsNeighbor t.signals) = u.neighborTotal l
  | [], u, t, _, _, _, _, hc => by
    cases hc
    simp [neighborTotal, Registry.neighborRegisters, Registry.fresh, Registry.newValues,
      Registry.pendingValues]
  | id :: l, u, t, h, hinit, hnodup, hin, hc => by
    obtain ⟨hl, hnodup⟩ := List.nodup_cons.mp hnodup
    obtain ⟨s, hs⟩ := Registry.contains_iff.mp (hin id List.mem_cons_self)
    obtain ⟨x, v, hv, hc⟩ := Edit.collect_cons_eq_nil.mp hc
    have ho := bindRemaining_outcome hs
    rw [hv] at ho
    have hstep := ho.step h hs
    rw [ho.neighborTotal_eq h.capacity hs (fun hb => hinit id s hs (by rw [hb]; rfl)) hl]
    refine neighborTotal_of_collect (hstep.placed h) (hstep.isInitialized hinit) hnodup ?_ hc
    intro i hi
    rw [ho.frame.contains]
    exact hin i (List.mem_cons_of_mem id hi)

end Alu

end AluPlacement
