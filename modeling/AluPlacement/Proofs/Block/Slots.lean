import AluPlacement.Proofs.Block.Pass

/-! # The slots of a block

The addresses of the signals of a block and the slots of its condition logic say the same: a signal
has the address of a slot exactly if it stands in that slot (`Placed`). Every call keeps this, so it
holds of every block that calls lead to (`Placed.run`). What it says of entries, bindings and
addresses is `Consistent`.

Since every signal with a binding is a bit, the pass answers exactly if all registers and constants
are bits and there is a slot for each of them (`Placed.assign_answers_iff`). -/

namespace AluPlacement

namespace Registry

/-- The address of a signal, if it is bound. -/
def address? (r : Registry) (id : SignalId) : Option Address :=
  (r.bound? id).map BoundSignal.address

variable {r r' : Registry} {id : SignalId} {s : Signal} {a : Address}

theorem address?_of_get? (hs : r.get? id = some s) : r.address? id = s.binding := by
  unfold address?
  rw [bound?_of_get? hs]
  unfold Signal.bound?
  cases s.binding <;> rfl

theorem address?_eq_some :
    r.address? id = some a ↔ ∃ s, r.get? id = some s ∧ s.binding = some a := by
  constructor
  · intro h
    obtain ⟨p, hp, rfl⟩ := Option.map_eq_some_iff.mp h
    obtain ⟨s, hs, hb, -⟩ := bound?_eq_some.mp hp
    exact ⟨s, hs, hb⟩
  · rintro ⟨s, hs, hb⟩
    rw [address?_of_get? hs, hb]

theorem address?_place (hs : r.get? id = some s) (a : Address) (i : SignalId) :
    (r.place id a).address? i = if i = id then some a else r.address? i := by
  unfold address?
  rw [bound?_place hs]
  split <;> rfl

theorem address?_of_extends (h : r.Extends r') : r'.address? = r.address? := by
  unfold address?
  rw [bound?_eq_of_extends h]

theorem address?_applyDefaults (r : Registry) : r.applyDefaults.address? = r.address? := by
  funext id
  unfold address?
  rw [bound?_applyDefaults, Option.map_map]
  congr 1
  funext p
  exact p.address_withDefault

end Registry

namespace Block

variable {b : Block} {id : SignalId} {s : Signal}

/-! ### The invariant -/

/-- The addresses of signals and the slots of the condition logic agree. -/
structure Placed (b : Block) : Prop where
  capacity : b.logic.capacity = Family.conditionLogic.capacity
  room : b.logic.entries.length ≤ b.logic.capacity
  address : ∀ id a, b.signals.address? id = some a ↔
    ∃ i, b.logicSignal? i = some id ∧ a = Address.ofSlot .conditionLogic i
  bit : ∀ id p, b.signals.bound? id = some p → p.dataType = .bit

theorem placed_new (name : String) : Placed { name := name } := by
  refine ⟨rfl, Nat.zero_le _, fun id a => ?_, fun id p hp => ?_⟩
  · simp [Registry.address?, Registry.bound?, Registry.get?, logicSignal?, Pool.get?]
  · simp [Registry.bound?, Registry.get?] at hp

theorem logicSignal?_takeLogic (b : Block) (id : SignalId) (f : TruthFn) (i : Nat) :
    (b.takeLogic id f).logicSignal? i =
      if i = b.logic.entries.length then some id else b.logicSignal? i := by
  show ((b.logic.entries ++ [_])[i]?).map DrivenSignal.signal = _
  rw [getElem?_append_singleton]
  split <;> rfl

theorem Placed.withSignals (h : b.Placed) {r : Registry}
    (haddress : r.address? = b.signals.address?)
    (hbit : ∀ id p, r.bound? id = some p → p.dataType = .bit) :
    Placed { b with signals := r } := by
  refine ⟨h.capacity, h.room, fun id a => ?_, hbit⟩
  show r.address? id = some a ↔ _
  rw [haddress]
  exact h.address id a

theorem Placed.extend (h : b.Placed) {r : Registry} (hr : b.signals.Extends r) :
    Placed { b with signals := r } := by
  refine h.withSignals (Registry.address?_of_extends hr) ?_
  rw [Registry.bound?_eq_of_extends hr]
  exact h.bit

theorem Placed.prepared (h : b.Placed) : b.prepared.Placed := by
  refine h.withSignals (Registry.address?_applyDefaults _) fun id p hp => ?_
  rw [Registry.bound?_applyDefaults] at hp
  obtain ⟨q, hq, rfl⟩ := Option.map_eq_some_iff.mp hp
  rw [q.dataType_withDefault]
  exact h.bit id q hq

/-- A bit without a binding may take the next slot. -/
theorem Placed.takeLogic (h : b.Placed) (hs : b.signals.get? id = some s) (hb : s.binding = none)
    (hd : s.dataType = .bit) (hroom : b.logic.entries.length < b.logic.capacity) (f : TruthFn) :
    (b.takeLogic id f).Placed := by
  refine ⟨h.capacity, ?_, fun j a => ?_, fun j p hp => ?_⟩
  · rw [length_takeLogic]
    exact hroom
  · have haddress : (b.takeLogic id f).signals.address? j = _ := Registry.address?_place hs _ j
    simp only [haddress, logicSignal?_takeLogic]
    by_cases hj : j = id
    · subst hj
      have hfree : ∀ i, b.logicSignal? i ≠ some j := by
        intro i hi
        have hbound := (h.address j _).mpr ⟨i, hi, rfl⟩
        rw [Registry.address?_of_get? hs, hb] at hbound
        cases hbound
      rw [if_pos rfl, Option.some.injEq]
      constructor
      · rintro rfl
        exact ⟨_, if_pos rfl, rfl⟩
      · rintro ⟨i, hi, rfl⟩
        split_ifs at hi with hlast
        · rw [hlast]
        · exact absurd hi (hfree i)
    · rw [if_neg hj, h.address]
      refine exists_congr fun i => and_congr_left fun _ => ?_
      split_ifs with hlast
      · -- the next slot was empty
        have hnone : b.logicSignal? i = none := by
          unfold logicSignal? Pool.get?
          rw [hlast, List.getElem?_eq_none (Nat.le_refl _)]
          rfl
        rw [hnone]
        simp [Ne.symm hj]
      · exact Iff.rfl
  · have hbound : (b.takeLogic id f).signals.bound? j = _ := Registry.bound?_place hs _ j
    rw [hbound] at hp
    split_ifs at hp with hj
    · cases hp
      exact hd
    · exact h.bit j p hp

theorem Placed.hold (h : b.Placed) (hs : b.signals.get? id = some s) (hneeds : s.needsSlot = true)
    (hd : s.dataType = .bit) (hroom : b.logic.entries.length < b.logic.capacity) :
    (b.takeLogic id (.ofSignal id)).Placed :=
  h.takeLogic hs (Signal.needsSlot_iff.mp hneeds).2 hd hroom _

/-- Every call keeps the invariant. -/
theorem Placed.apply (h : b.Placed) (c : Call) : (c.apply b).Placed := by
  cases c with
  | setLocation location => exact ⟨h.capacity, h.room, h.address, h.bit⟩
  | declare name behavior dataType =>
    show Placed ((Block.declare name behavior dataType).after b)
    rw [after_declare]
    exact h.extend (Registry.extends_apply (.declare name behavior dataType) b.signals)
  | edit call => exact h.extend (Registry.extends_apply call b.signals)
  | addRegister id f =>
    show Placed ((Block.addRegister id f).after b)
    rcases addRegister_result b id f with ⟨e, he⟩ | ⟨a, s, hdrive, -, hroom, hok⟩
    · rw [Edit.after_of_error he]
      exact h
    · rw [Edit.after_of_ok hok]
      exact h.takeLogic hdrive.declared hdrive.unbound hdrive.dataType hroom f
  | assign =>
    refine after_assign h (fun _ => h.prepared)
      (fun v id s hs hneeds hd hroom hv => hv.hold hs hneeds hd hroom) fun t phase _ ht => ?_
    exact ⟨ht.capacity, ht.room, ht.address, ht.bit⟩

/-- **Every block that calls lead to is placed.** -/
theorem Placed.run (h : b.Placed) : ∀ calls, (b.run calls).Placed := by
  intro calls
  induction calls generalizing b with
  | nil => exact h
  | cons c calls ih => exact ih (h.apply c)

/-! ### Entries, bindings and addresses -/

/-- Entries, bindings and addresses agree. -/
structure Consistent (b : Block) : Prop where
  size : b.logic.size ≤ 4
  entry : ∀ i e, b.logic.get? i = some e →
    ∃ s, b.signals.get? e.signal = some s ∧ s.binding = some ⟨i⟩
  bound_iff : ∀ id s, b.signals.get? id = some s →
    (s.isBound = true ↔ ∃ e ∈ b.logic.entries, e.signal = id)
  alone : ∀ id id' s s' a, b.signals.get? id = some s → b.signals.get? id' = some s' →
    s.binding = some a → s'.binding = some a → id = id'
  signalAt : ∀ id s a, b.signals.get? id = some s → s.binding = some a → b.signalAt? a = some id

theorem ofSlot_conditionLogic (i : Nat) : Address.ofSlot .conditionLogic i = ⟨i⟩ :=
  congrArg Address.mk (Nat.zero_add i)

theorem logicSignal?_eq_some {i : Nat} :
    b.logicSignal? i = some id ↔ ∃ e, b.logic.entries[i]? = some e ∧ e.signal = id :=
  Option.map_eq_some_iff

theorem mem_entries_iff :
    (∃ e ∈ b.logic.entries, e.signal = id) ↔ ∃ i, b.logicSignal? i = some id := by
  simp only [logicSignal?_eq_some, List.mem_iff_getElem?]
  constructor
  · rintro ⟨e, ⟨i, hi⟩, he⟩
    exact ⟨i, e, hi, he⟩
  · rintro ⟨i, e, hi, he⟩
    exact ⟨e, ⟨i, hi⟩, he⟩

/-- A signal is bound if it stands in a slot. -/
theorem Placed.address?_eq_none (h : b.Placed) (id : SignalId) :
    b.signals.address? id = none ↔ ∀ e ∈ b.logic.entries, e.signal ≠ id := by
  rw [Option.eq_none_iff_forall_ne_some]
  constructor
  · intro hnone e he hid
    obtain ⟨i, hi⟩ := mem_entries_iff.mp ⟨e, he, hid⟩
    exact hnone _ ((h.address id _).mpr ⟨i, hi, rfl⟩)
  · intro hno a ha
    obtain ⟨i, hi, -⟩ := (h.address id a).mp ha
    obtain ⟨e, he, hid⟩ := mem_entries_iff.mpr ⟨i, hi⟩
    exact hno e he hid

theorem Placed.consistent (h : b.Placed) : b.Consistent := by
  have hslot : ∀ id s a, b.signals.get? id = some s → s.binding = some a →
      ∃ i, b.logicSignal? i = some id ∧ a = Address.ofSlot .conditionLogic i := by
    intro id s a hs ha
    rw [← h.address, Registry.address?_of_get? hs, ha]
  refine ⟨Nat.le_trans h.room (Nat.le_of_eq h.capacity), fun i e he => ?_, fun id s hs => ?_,
    fun id id' s s' a hs hs' ha ha' => ?_, fun id s a hs ha => ?_⟩
  · have haddress := (h.address e.signal _).mpr ⟨i, logicSignal?_eq_some.mpr ⟨e, he, rfl⟩, rfl⟩
    rw [ofSlot_conditionLogic] at haddress
    exact Registry.address?_eq_some.mp haddress
  · have hnone := h.address?_eq_none id
    rw [Registry.address?_of_get? hs] at hnone
    rw [Signal.isBound, ← Option.not_isNone, Bool.not_eq_true', ← Bool.not_eq_true,
      Option.isNone_iff_eq_none, hnone]
    simp
  · obtain ⟨i, hi, rfl⟩ := hslot id s a hs ha
    obtain ⟨j, hj, hij⟩ := hslot id' s' _ hs' ha'
    rw [ofSlot_conditionLogic, ofSlot_conditionLogic, Address.mk.injEq] at hij
    subst hij
    rw [hi] at hj
    exact Option.some.inj hj
  · obtain ⟨i, hi, rfl⟩ := hslot id s a hs ha
    obtain ⟨e, he, -⟩ := logicSignal?_eq_some.mp hi
    have hlt : i < Family.conditionLogic.capacity := by
      have hlen := (List.getElem?_eq_some_iff.mp he).1
      have hroom := h.room
      rw [h.capacity] at hroom
      omega
    have hresource :
        (Address.ofSlot .conditionLogic i).resource? = some (.slot .conditionLogic i) :=
      Resource.resource?_address (by simpa [Resource.inRange] using hlt)
    unfold signalAt?
    rw [hresource]
    exact hi

/-! ### When the pass answers -/

theorem exists_assign_eq_ok_iff (hp : b.phase = .building) :
    (∃ t, assign b = .ok () t) ↔ ∃ t, (Edit.collect bindRemaining b.prepared.signals.ids :
      Edit Block (List Diagnostic) _) b.prepared = .ok [] t := by
  obtain ⟨ds, t, hcollect, -, hassign⟩ := assign_eq (P := fun _ => True) hp trivial
    fun _ _ _ _ _ _ _ _ => trivial
  rw [hassign, hcollect]
  unfold close
  constructor
  · rintro ⟨t', ht'⟩
    split_ifs at ht' with hds
    exact ⟨t, by rw [hds]⟩
  · rintro ⟨t', ht'⟩
    cases ht'
    exact ⟨_, if_pos rfl⟩

/-- **When the pass on a block that is being built answers.** -/
theorem Placed.assign_answers_iff (h : b.Placed) (hp : b.phase = .building) :
    (∃ t, assign b = .ok () t) ↔
      (∀ s ∈ b.signals.signals, s.behavior.isStateful = true → s.dataType = .bit) ∧
        b.logic.size + b.signals.signals.countP (fun s => s.needsSlot && s.dataType == .bit) ≤
          4 := by
  have hleft : ∀ d, b.prepared.signals.isLeft d = b.signals.isLeft d :=
    fun d => funext fun id => Registry.isLeft_applyDefaults b.signals d id
  rw [exists_assign_eq_ok_iff hp, collect_eq_nil_iff (Registry.nodup_ids _)
    (fun id hid => contains_of_mem_ids hid) h.room, hleft, hleft]
  have hids : b.prepared.signals.ids = b.signals.ids := Registry.ids_applyDefaults _
  have hcount : b.signals.ids.countP (b.signals.isLeft .bit) = _ := Registry.countP_ids b.signals _
  have hcap : b.prepared.logic.capacity = 4 := h.capacity
  rw [hids, hcount, hcap]
  refine and_congr_left fun _ => ⟨fun hno s hs hstate => ?_, fun hbits id hid => ?_⟩
  · obtain ⟨id, hid⟩ := Registry.mem_signals_iff.mp hs
    cases hb : s.binding with
    | some a =>
      exact h.bit id ⟨a, s.dataType, s.behavior, s.initial⟩
        (Registry.bound?_eq_some.mpr ⟨s, hid, hb, rfl, rfl, rfl⟩)
    | none =>
      have hword := hno id (Registry.mem_ids.mpr (Registry.contains_iff.mpr ⟨s, hid⟩))
      rw [Registry.isLeft_eq hid, Signal.needsSlot_iff.mpr ⟨hstate, hb⟩, Bool.true_and] at hword
      cases hd : s.dataType with
      | bit => rfl
      | word =>
        rw [hd] at hword
        cases hword
  · obtain ⟨s, hs⟩ := Registry.contains_iff.mp (Registry.mem_ids.mp hid)
    rw [Registry.isLeft_eq hs, Bool.and_eq_false_iff]
    by_cases hstate : s.behavior.isStateful = true
    · right
      rw [hbits s (Registry.mem_signals_iff.mpr ⟨id, hs⟩) hstate]
      rfl
    · left
      unfold Signal.needsSlot
      rw [Bool.not_eq_true] at hstate
      rw [hstate, Bool.false_and]

end Block

end AluPlacement
