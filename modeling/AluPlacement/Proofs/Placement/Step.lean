import AluPlacement.Proofs.Placement.View

/-! # The ways of binding a signal

There are many routes by which a signal is bound: inputs when an instruction is added, branch and
condition slots, and the routes of the final pass. `Step u u'` says once what all of them do to a
unit: nothing, or a signal without a binding takes a free resource of its type (`Takes`), or a
constant gets the address of an equal constant. While a unit is being built fewer things can happen
(`BuildStep`): the resource is no word register and no built-in constant, and no constant of type
bit is bound. -/

namespace AluPlacement

/-- The resources that are given out while a unit is being built. -/
def Resource.isOpen : Resource → Bool
  | slot .wordReg _ => false
  | slot .constant _ => false
  | builtin0 => false
  | builtin1 => false
  | builtinFFFF => false
  | _ => true

theorem Resource.builtinValue?_of_isOpen {r : Resource} (h : r.isOpen = true) :
    r.builtinValue? = none := by
  cases r <;> first | rfl | cases h

namespace Alu

/-- The signal `id` takes the resource `r`. A shared constant takes a slot of the constants too. -/
structure Takes (u : Alu) (id : SignalId) (r : Resource) (u' : Alu) : Prop where
  signals : u'.signals = u.signals.place id r.address
  holder : ∀ r' : Resource, r'.dataType? ≠ none →
    u'.holder? r' = if r' = r then some id else u.holder? r'
  constants : u'.constants = u.constants ∨ ((∃ i, r = .slot .wordIn i) ∧
    u.constants.entries.length < u.constants.capacity ∧ u'.constants = u.constants.append id)
  capacityOf : u'.capacityOf = u.capacityOf
  instructions : u'.instructions = u.instructions
  definition : u'.definition = u.definition
  phase : u'.phase = u.phase

/-- At most one signal is bound. -/
inductive Step (u : Alu) : Alu → Prop
  | stay : Step u u
  | take {id : SignalId} {s : Signal} {r : Resource} {u' : Alu}
      (hs : u.signals.get? id = some s) (hb : s.binding = none) (hr : r.inRange = true)
      (hd : r.dataType? = some s.dataType) (hfree : u.holder? r = none)
      (hv : ∀ v, r.builtinValue? = some v → s.behavior = .constant ∧ s.initial = some v)
      (h : Takes u id r u') : Step u u'
  | share {id i : SignalId} {s : Signal} {q : BoundSignal}
      (hs : u.signals.get? id = some s) (hb : s.binding = none)
      (hq : u.signals.bound? i = some q) (hc : s.behavior = .constant)
      (hqc : q.behavior = .constant) (hd : q.dataType = s.dataType)
      (hi : q.initial = s.initial) :
      Step u { u with signals := u.signals.place id q.address }

/-- At most one signal is bound, as it may be while the unit is being built. -/
inductive BuildStep (u : Alu) : Alu → Prop
  | stay : BuildStep u u
  | take {id : SignalId} {s : Signal} {r : Resource} {u' : Alu}
      (hs : u.signals.get? id = some s) (hb : s.binding = none) (hr : r.inRange = true)
      (hd : r.dataType? = some s.dataType) (hfree : u.holder? r = none) (ho : r.isOpen = true)
      (hnc : s.dataType = .bit → s.behavior ≠ .constant) (hc : u'.constants = u.constants)
      (h : Takes u id r u') : BuildStep u u'

theorem BuildStep.step {u u' : Alu} (h : BuildStep u u') : Step u u' := by
  cases h with
  | stay => exact .stay
  | take hs hb hr hd hfree ho hnc hc h =>
    refine .take hs hb hr hd hfree (fun v hv => ?_) h
    rw [Resource.builtinValue?_of_isOpen ho] at hv
    cases hv

/-! ### Taking the next slot of a family -/

/-- Put a signal into the next slot of a family, with the function that drives it where the family
keeps one. -/
def appendSlot (u : Alu) (family : Family) (id : SignalId) (f : TruthFn) : Alu :=
  match family with
  | .conditionLogic => { u with logic := u.logic.append ⟨id, f⟩ }
  | .wordReg => { u with wordRegs := u.wordRegs.append id }
  | .branch => { u with branches := u.branches.append ⟨id, f⟩ }
  | .wordIn => { u with wordIns := u.wordIns.append id }
  | .carryIn => { u with carryIns := u.carryIns.append id }
  | .constant => { u with constants := u.constants.append id }

/-- Bind a signal to the next slot of a family. -/
def takeSlot (u : Alu) (family : Family) (id : SignalId) (f : TruthFn := TruthFn.ofSignal id) :
    Alu :=
  { u.appendSlot family id f with
    signals := u.signals.place id (Address.ofSlot family (u.slots family).length) }

/-- Bind a word constant to the next word input and put it into the next slot of the constants. -/
def takeConstant (u : Alu) (id : SignalId) : Alu :=
  (u.takeSlot .wordIn id).appendSlot .constant id (TruthFn.ofSignal id)

/-- Bind a signal to an address that others may have too. -/
def takeShared (u : Alu) (id : SignalId) (a : Address) : Alu :=
  { u with signals := u.signals.place id a }

/-- Bind a signal to a built-in constant. -/
def takeBuiltin (u : Alu) (id : SignalId) (r : Resource) : Alu :=
  (u.takeShared id r.address).recordBuiltin id r

theorem slots_appendSlot (u : Alu) (family g : Family) (id : SignalId) (f : TruthFn) :
    (u.appendSlot family id f).slots g =
      if g = family then u.slots family ++ [id] else u.slots g := by
  cases family <;> cases g <;> simp [appendSlot, slots, Pool.append]

theorem capacityOf_appendSlot (u : Alu) (family : Family) (id : SignalId) (f : TruthFn) :
    (u.appendSlot family id f).capacityOf = u.capacityOf := by
  funext g
  cases family <;> cases g <;> rfl

theorem holder?_appendSlot (u : Alu) (family : Family) (id : SignalId) (f : TruthFn)
    (r : Resource) : (u.appendSlot family id f).holder? r =
      if r = .slot family (u.slots family).length then some id else u.holder? r := by
  cases r with
  | slot g i =>
    show ((u.appendSlot family id f).slots g)[i]? = _
    rw [slots_appendSlot]
    by_cases hg : g = family
    · subst hg
      rw [if_pos rfl, getElem?_append_singleton]
      simp only [Resource.slot.injEq, true_and]
      rfl
    · rw [if_neg hg, if_neg (fun h => hg (Resource.slot.inj h).1)]
      rfl
  | _ => cases family <;> rfl

theorem constants_appendSlot (u : Alu) {family : Family} (h : family ≠ .constant) (id : SignalId)
    (f : TruthFn) : (u.appendSlot family id f).constants = u.constants := by
  cases family <;> first | rfl | exact absurd rfl h

theorem instructions_appendSlot (u : Alu) (family : Family) (id : SignalId) (f : TruthFn) :
    (u.appendSlot family id f).instructions = u.instructions := by
  cases family <;> rfl

theorem definition_appendSlot (u : Alu) (family : Family) (id : SignalId) (f : TruthFn) :
    (u.appendSlot family id f).definition = u.definition := by
  cases family <;> rfl

theorem phase_appendSlot (u : Alu) (family : Family) (id : SignalId) (f : TruthFn) :
    (u.appendSlot family id f).phase = u.phase := by
  cases family <;> rfl

theorem takes_takeSlot (u : Alu) {family : Family} (h : family ≠ .constant) (id : SignalId)
    (f : TruthFn) :
    Takes u id (.slot family (u.slots family).length) (u.takeSlot family id f) :=
  ⟨rfl, fun r _ => holder?_appendSlot u family id f r, Or.inl (constants_appendSlot u h id f),
    capacityOf_appendSlot u family id f, instructions_appendSlot u family id f,
    definition_appendSlot u family id f, phase_appendSlot u family id f⟩

theorem takes_takeConstant (u : Alu) (id : SignalId)
    (h : u.constants.entries.length < u.constants.capacity) :
    Takes u id (.slot .wordIn (u.slots .wordIn).length) (u.takeConstant id) := by
  refine ⟨rfl, fun r hd => ?_, Or.inr ⟨⟨_, rfl⟩, h, rfl⟩, ?_, rfl, rfl, rfl⟩
  · have hne : r ≠ .slot .constant ((u.takeSlot .wordIn id).slots .constant).length := by
      rintro rfl
      exact hd rfl
    unfold takeConstant
    rw [holder?_appendSlot, if_neg hne]
    exact holder?_appendSlot u .wordIn id _ r
  · unfold takeConstant
    rw [capacityOf_appendSlot]
    exact capacityOf_appendSlot u .wordIn id _

theorem holder?_next_slot (u : Alu) (family : Family) :
    u.holder? (.slot family (u.slots family).length) = none :=
  List.getElem?_eq_none (Nat.le_refl _)

/-- Only a single resource changes its holder. -/
theorem takes_single {u u' : Alu} {id : SignalId} {r : Resource} (hr : r ∈ Resource.singles)
    (hs : u'.signals = u.signals.place id r.address) (hslots : u'.slots = u.slots)
    (hsingle : ∀ r' ∈ Resource.singles, u'.holder? r' = if r' = r then some id else u.holder? r')
    (hcap : u'.capacityOf = u.capacityOf) (hc : u'.constants = u.constants)
    (hi : u'.instructions = u.instructions) (hdef : u'.definition = u.definition)
    (hp : u'.phase = u.phase) : Takes u id r u' := by
  refine ⟨hs, fun r' _ => ?_, Or.inl hc, hcap, hi, hdef, hp⟩
  cases r' with
  | slot f i =>
    have hne : Resource.slot f i ≠ r := by
      rintro rfl
      simp [Resource.singles] at hr
    rw [if_neg hne]
    show (u'.slots f)[i]? = _
    rw [hslots]
    rfl
  | _ => exact hsingle _ (by decide)

/-! ### Steps while the unit is being built -/

variable {u : Alu} {id : SignalId} {s : Signal}

/-- A signal in the next slot of an open family. -/
theorem buildStep_takeSlot (family : Family) (ho : (Resource.slot family 0).isOpen = true)
    (hcap : u.capacityOf = Family.capacity) (hroom : (u.slots family).length < u.capacityOf family)
    (hs : u.signals.get? id = some s) (hb : s.binding = none)
    (hd : (Resource.slot family 0).dataType? = some s.dataType)
    (hnc : s.dataType = .bit → s.behavior ≠ .constant) (f : TruthFn) :
    BuildStep u (u.takeSlot family id f) := by
  have hne : family ≠ .constant := by
    rintro rfl
    cases ho
  refine .take hs hb ?_ ?_ (holder?_next_slot u family) ?_ hnc (constants_appendSlot u hne id f)
    (takes_takeSlot u hne id f)
  · simpa [Resource.inRange, hcap] using hroom
  · rw [← hd]
    cases family <;> rfl
  · rw [← ho]
    cases family <;> rfl

/-- What the routes that use a slot have in common: an entry is put into a pool and its signal is
bound. -/
theorem push_bind_eq_ok {α β : Type} {pool : Pool α} {entry : α} {r : Registry} {id : SignalId}
    {a : Address} {k : Pool α → Registry → β} {b : β} :
    (do let p ← pool.push entry
        let r' ← r.bind id a
        return k p r' : Checked Error β) = .ok b ↔
      pool.entries.length < pool.capacity ∧ (∃ s, r.get? id = some s ∧ s.binding = none) ∧
        b = k (pool.append entry) (r.place id a) := by
  simp only [Checked.bind_eq_ok, Pool.push_eq_ok, Registry.bind_eq_ok, pure, Except.pure,
    Except.ok.injEq]
  constructor
  · rintro ⟨p, ⟨hroom, rfl⟩, r', ⟨hs, rfl⟩, rfl⟩
    exact ⟨hroom, hs, rfl⟩
  · rintro ⟨hroom, hs, rfl⟩
    exact ⟨_, ⟨hroom, rfl⟩, _, ⟨hs, rfl⟩, rfl⟩

theorem length_slots_conditionLogic (u : Alu) :
    (u.slots .conditionLogic).length = u.logic.entries.length := List.length_map _

theorem length_slots_branch (u : Alu) :
    (u.slots .branch).length = u.branches.entries.length := List.length_map _

/-- What binding to the condition logic does to the unit. -/
theorem onBlock_bindLogic_eq_ok {f : TruthFn} {a : Address} {u' : Alu} :
    (onBlock (Block.bindLogic id f)) u = .ok a u' ↔
      u.logic.entries.length < u.logic.capacity ∧
        (∃ s, u.signals.get? id = some s ∧ s.binding = none) ∧
        a = Address.ofSlot .conditionLogic u.logic.entries.length ∧
        u' = u.takeSlot .conditionLogic id f := by
  unfold onBlock Block.bindLogic
  rw [Edit.zoom_eq_ok]
  simp only [Edit.attempt_eq_ok, push_bind_eq_ok, Prod.mk.injEq, takeSlot,
    length_slots_conditionLogic]
  constructor
  · rintro ⟨b, ⟨hroom, hs, rfl, rfl⟩, rfl⟩
    exact ⟨hroom, hs, rfl, rfl⟩
  · rintro ⟨hroom, hs, rfl, rfl⟩
    exact ⟨_, ⟨hroom, hs, rfl, rfl⟩, rfl⟩

end Alu

end AluPlacement
