import AluPlacement.Alu.Assign
import AluPlacement.Proofs.Resource.Address
import AluPlacement.Proofs.Signal.Extension

/-! # Two views of the placement

A unit records where its signals are in two ways: each bound signal has an address, and each
resource has a holder. All statements about the placement are made through these two views.

* `Registry.bound? r id`: the address of a signal and what else is fixed once it is bound.
* `Alu.holder? u r`: the signal that holds a resource; `Alu.signalAt?` is the holder of the resource
  at an address (`signalAt?_eq`).

Each step of the placement has one equation for the first view (`bound?_place`, `bound?_promote`,
`bound?_applyDefaults`, `bound?_eq_of_extends`). -/

namespace AluPlacement

/-! ### Resources and addresses -/

namespace Resource

/-- The type of the signals that a resource takes. No signal has the address of a constant slot. -/
def dataType? : Resource → Option DataType
  | slot .conditionLogic _ => some .bit
  | slot .wordReg _ => some .word
  | slot .branch _ => some .bit
  | slot .wordIn _ => some .word
  | slot .carryIn _ => some .bit
  | slot .constant _ => none
  | condBypass => some .bit
  | condUpdate => some .bit
  | builtin0 => some .word
  | builtin1 => some .word
  | builtinFFFF => some .word

/-- A signal of this type can be bound to the address with this number. -/
def HasNumber : DataType → Nat → Prop
  | .word, n => (10 ≤ n ∧ n ≤ 18) ∨ (30 ≤ n ∧ n ≤ 42) ∨ (80 ≤ n ∧ n ≤ 82)
  | .bit, n => n ≤ 3 ∨ (20 ≤ n ∧ n ≤ 23) ∨ (50 ≤ n ∧ n ≤ 62)

theorem hasNumber_of_dataType? {r : Resource} {d : DataType} (h : r.inRange = true)
    (hd : r.dataType? = some d) : HasNumber d r.address.number := by
  cases r with
  | slot family index =>
    have hlt : index < family.capacity := by simpa [inRange] using h
    cases family <;> cases hd <;> simp only [HasNumber, address, Family.offset] <;>
      simp only [Family.capacity] at hlt <;> omega
  | _ =>
    cases hd
    simp [HasNumber, address]

/-- The resources with the numbers of word inputs. -/
theorem eq_wordIn_slot {r : Resource} (h : r.inRange = true) (hlo : 30 ≤ r.address.number)
    (hhi : r.address.number ≤ 42) : ∃ k, r = .slot .wordIn k := by
  cases r with
  | slot family index =>
    have hlt : index < family.capacity := by simpa [inRange] using h
    cases family <;> simp only [address, Family.offset, Family.capacity] at hlo hhi hlt <;>
      first | exact ⟨index, rfl⟩ | omega
  | _ => simp [address] at hlo hhi

end Resource

/-! ### Bound signals -/

/-- What is fixed about a signal once it is bound. -/
structure BoundSignal where
  address : Address
  dataType : DataType
  behavior : Behavior
  initial : Option Word
  deriving DecidableEq, Repr

namespace BoundSignal

/-- Two constants of the same type and value. -/
structure SameConstant (p q : BoundSignal) : Prop where
  left : p.behavior = .constant
  right : q.behavior = .constant
  dataType : p.dataType = q.dataType
  initial : p.initial = q.initial

theorem SameConstant.symm {p q : BoundSignal} (h : p.SameConstant q) : q.SameConstant p :=
  ⟨h.right, h.left, h.dataType.symm, h.initial.symm⟩

theorem SameConstant.trans {p q s : BoundSignal} (h : p.SameConstant q) (h' : q.SameConstant s) :
    p.SameConstant s :=
  ⟨h.left, h'.right, h.dataType.trans h'.dataType, h.initial.trans h'.initial⟩

/-- The value 0 for a register or a constant that has none. -/
def withDefault (p : BoundSignal) : BoundSignal :=
  if p.behavior.isStateful && p.initial.isNone then { p with initial := some 0#16 } else p

theorem address_withDefault (p : BoundSignal) : p.withDefault.address = p.address := by
  unfold withDefault
  split <;> rfl

theorem dataType_withDefault (p : BoundSignal) : p.withDefault.dataType = p.dataType := by
  unfold withDefault
  split <;> rfl

theorem behavior_withDefault (p : BoundSignal) : p.withDefault.behavior = p.behavior := by
  unfold withDefault
  split <;> rfl

theorem SameConstant.withDefault {p q : BoundSignal} (h : p.SameConstant q) :
    p.withDefault.SameConstant q.withDefault := by
  refine ⟨by rw [behavior_withDefault, h.left], by rw [behavior_withDefault, h.right],
    by rw [dataType_withDefault, dataType_withDefault, h.dataType], ?_⟩
  unfold BoundSignal.withDefault
  rw [h.left, h.right, h.initial]
  split
  · rfl
  · exact h.initial

end BoundSignal

/-- The signal, as far as it is fixed, at its address. -/
def Signal.bound? (s : Signal) : Option BoundSignal :=
  s.binding.map fun a => ⟨a, s.dataType, s.behavior, s.initial⟩

theorem Signal.bound?_eq_none {s : Signal} : s.bound? = none ↔ s.binding = none := by
  simp [bound?]

theorem Signal.bound?_withDefault (s : Signal) :
    (Registry.withDefault s).bound? = s.bound?.map BoundSignal.withDefault := by
  unfold bound? Registry.withDefault
  cases hb : s.binding with
  | none => split <;> simp [hb]
  | some a =>
    simp only [Option.map_some, BoundSignal.withDefault]
    split <;> simp [hb]

namespace Registry

/-- A signal, as far as it is fixed, if it is bound. -/
def bound? (r : Registry) (id : SignalId) : Option BoundSignal := (r.get? id).bind Signal.bound?

/-- The signal is declared and has no binding. -/
def isFree (r : Registry) (id : SignalId) : Bool := (r.get? id).any fun s => !s.isBound

theorem isFree_iff {r : Registry} {id : SignalId} :
    r.isFree id = true ↔ ∃ s, r.get? id = some s ∧ s.binding = none := by
  unfold isFree Signal.isBound
  cases r.get? id <;> simp

/-- Give a signal an address. -/
def place (r : Registry) (id : SignalId) (a : Address) : Registry :=
  r.modify id fun s => { s with binding := some a }

theorem bound?_eq_some {r : Registry} {id : SignalId} {p : BoundSignal} :
    r.bound? id = some p ↔ ∃ s, r.get? id = some s ∧ s.binding = some p.address ∧
      s.dataType = p.dataType ∧ s.behavior = p.behavior ∧ s.initial = p.initial := by
  unfold bound? Signal.bound?
  simp only [Option.bind_eq_some_iff, Option.map_eq_some_iff]
  constructor
  · rintro ⟨s, hs, a, ha, rfl⟩
    exact ⟨s, hs, ha, rfl, rfl, rfl⟩
  · rintro ⟨s, hs, ha, h1, h2, h3⟩
    refine ⟨s, hs, p.address, ha, ?_⟩
    rw [h1, h2, h3]

theorem bound?_of_get? {r : Registry} {id : SignalId} {s : Signal} (h : r.get? id = some s) :
    r.bound? id = s.bound? := by
  unfold bound?
  rw [h]
  rfl

theorem bind_eq_ok {r r' : Registry} {id : SignalId} {a : Address} :
    r.bind id a = .ok r' ↔ (∃ s, r.get? id = some s ∧ s.binding = none) ∧ r' = r.place id a := by
  unfold Registry.bind
  rw [Checked.bind_eq_ok]
  simp only [requireUnbound_eq_ok, pure, Except.pure, Except.ok.injEq]
  constructor
  · rintro ⟨-, h, rfl⟩
    exact ⟨h, rfl⟩
  · rintro ⟨h, rfl⟩
    exact ⟨(), h, rfl⟩

theorem contains_place (r : Registry) (id i : SignalId) (a : Address) :
    (r.place id a).contains i = r.contains i := by
  unfold contains place
  rw [size_modify]

theorem get?_place (r : Registry) (id i : SignalId) (a : Address) :
    (r.place id a).get? i =
      if id = i then (r.get? i).map fun s => { s with binding := some a } else r.get? i :=
  get?_modify r id i _

theorem bound?_place {r : Registry} {id : SignalId} {s : Signal} (hs : r.get? id = some s)
    (a : Address) (i : SignalId) :
    (r.place id a).bound? i =
      if i = id then some ⟨a, s.dataType, s.behavior, s.initial⟩ else r.bound? i := by
  unfold bound?
  rw [get?_place]
  by_cases h : i = id
  · subst h
    simp [hs, Signal.bound?]
  · rw [if_neg (Ne.symm h), if_neg h]

/-- Calls of the front end leave the bound signals as they are. -/
theorem bound?_eq_of_extends {r r' : Registry} (h : r.Extends r') : r'.bound? = r.bound? := by
  funext id
  cases hs : r.get? id with
  | none =>
    cases hs' : r'.get? id with
    | none => simp [bound?, hs, hs']
    | some s' =>
      rw [bound?_of_get? hs', Signal.bound?_eq_none.mpr (h.fresh id s' hs' hs)]
      simp [bound?, hs]
  | some s =>
    obtain ⟨s', hs', hk⟩ := h.kept id s hs
    rw [bound?_of_get? hs', bound?_of_get? hs]
    unfold Signal.bound?
    cases hb : s.binding with
    | none => rw [hk.binding, hb]; rfl
    | some a =>
      obtain ⟨hi, -, -⟩ := hk.bound (by rw [hb]; exact Option.some_ne_none a)
      rw [hk.binding, hb, hk.dataType, hk.behavior, hi]

/-- `r'` differs from `r` only in that signals without a binding may have one. -/
structure Advances (r r' : Registry) : Prop where
  size : r'.size = r.size
  get : ∀ id s, r.get? id = some s →
    ∃ b, r'.get? id = some { s with binding := b } ∧ (s.binding ≠ none → b = s.binding)

theorem Advances.refl (r : Registry) : r.Advances r :=
  ⟨rfl, fun _ s hs => ⟨s.binding, hs, fun _ => rfl⟩⟩

theorem Advances.trans {r r' r'' : Registry} (h : r.Advances r') (h' : r'.Advances r'') :
    r.Advances r'' := by
  refine ⟨h'.size.trans h.size, fun id s hs => ?_⟩
  obtain ⟨b, hs', hb⟩ := h.get id s hs
  obtain ⟨b', hs'', hb'⟩ := h'.get id _ hs'
  refine ⟨b', hs'', fun hne => ?_⟩
  have hkept := hb hne
  subst hkept
  exact hb' hne

theorem Advances.contains {r r' : Registry} (h : r.Advances r') (id : SignalId) :
    r'.contains id = r.contains id := by
  unfold Registry.contains
  rw [h.size]

/-- A signal of the later registry is one of the earlier. -/
theorem Advances.of_get? {r r' : Registry} (h : r.Advances r') {id : SignalId} {s' : Signal}
    (hs' : r'.get? id = some s') :
    ∃ s, r.get? id = some s ∧ s' = { s with binding := s'.binding } ∧
      (s.binding ≠ none → s'.binding = s.binding) := by
  have hmem : r.contains id = true := by
    rw [← h.contains]
    exact contains_iff.mpr ⟨s', hs'⟩
  obtain ⟨s, hs⟩ := contains_iff.mp hmem
  obtain ⟨b, hb, hkept⟩ := h.get id s hs
  rw [hs'] at hb
  cases hb
  exact ⟨s, hs, rfl, hkept⟩

theorem advances_place {r : Registry} {id : SignalId} {s : Signal} (hs : r.get? id = some s)
    (hb : s.binding = none) (a : Address) : r.Advances (r.place id a) := by
  refine ⟨size_modify r id _, fun i t ht => ?_⟩
  rw [get?_place]
  split_ifs with hi
  · subst hi
    rw [hs] at ht
    cases ht
    exact ⟨some a, by rw [hs]; rfl, fun hne => absurd hb hne⟩
  · exact ⟨t.binding, ht, fun _ => rfl⟩

theorem get?_applyDefaults (r : Registry) (id : SignalId) :
    r.applyDefaults.get? id = (r.get? id).map withDefault := by
  simp [applyDefaults, get?]

theorem bound?_applyDefaults (r : Registry) (id : SignalId) :
    r.applyDefaults.bound? id = (r.bound? id).map BoundSignal.withDefault := by
  unfold bound?
  rw [get?_applyDefaults]
  cases r.get? id with
  | none => rfl
  | some s => exact s.bound?_withDefault

/-- A register made a constant. -/
def promoted (s : Signal) : Signal := { s with behavior := .constant, warmReset := false }

theorem get?_promote : ∀ (ids : List SignalId) (r : Registry) (i : SignalId),
    (r.promote ids).get? i = if i ∈ ids then (r.get? i).map promoted else r.get? i
  | [], r, i => rfl
  | id :: ids, r, i => by
    have hstep : r.promote (id :: ids) = (r.modify id promoted).promote ids := rfl
    rw [hstep, get?_promote ids, get?_modify]
    by_cases hi : id = i
    · subst hi
      -- promoting a signal twice is promoting it once
      have htwice : promoted ∘ promoted = promoted := rfl
      simp [htwice]
    · simp [hi, Ne.symm hi]

/-- Making constants of registers without a binding leaves the bound signals as they are. -/
theorem bound?_promote {r : Registry} {ids : List SignalId} (h : ∀ id ∈ ids, r.bound? id = none) :
    (r.promote ids).bound? = r.bound? := by
  funext i
  by_cases hi : i ∈ ids
  · have hb := h i hi
    rw [hb]
    unfold bound? at hb ⊢
    rw [get?_promote, if_pos hi]
    cases hs : r.get? i with
    | none => rfl
    | some s =>
      rw [hs] at hb
      have hnone : s.binding = none := Signal.bound?_eq_none.mp hb
      exact Signal.bound?_eq_none.mpr hnone
  · unfold bound?
    rw [get?_promote, if_neg hi]

end Registry

/-! ### Holders -/

namespace Alu

/-- The signals in the slots of a family. -/
def slots (u : Alu) : Family → List SignalId
  | .conditionLogic => u.logic.entries.map DrivenSignal.signal
  | .wordReg => u.wordRegs.entries
  | .branch => u.branches.entries.map DrivenSignal.signal
  | .wordIn => u.wordIns.entries
  | .carryIn => u.carryIns.entries
  | .constant => u.constants.entries

/-- The number of slots that the pool of a family has. -/
def capacityOf (u : Alu) : Family → Nat
  | .conditionLogic => u.logic.capacity
  | .wordReg => u.wordRegs.capacity
  | .branch => u.branches.capacity
  | .wordIn => u.wordIns.capacity
  | .carryIn => u.carryIns.capacity
  | .constant => u.constants.capacity

/-- The signal that holds a resource. -/
def holder? (u : Alu) : Resource → Option SignalId
  | .slot family index => (u.slots family)[index]?
  | .condBypass => u.condBypass.map DrivenSignal.signal
  | .condUpdate => u.condUpdate.map DrivenSignal.signal
  | .builtin0 => u.builtin0
  | .builtin1 => u.builtin1
  | .builtinFFFF => u.builtinFFFF

theorem signalAt?_eq (u : Alu) (a : Address) : u.signalAt? a = a.resource?.bind u.holder? := by
  unfold signalAt?
  cases a.resource? with
  | none => rfl
  | some r =>
    cases r with
    | slot family index =>
      cases family <;>
        simp [holder?, slots, Block.logicSignal?, Pool.get?]
    | _ => rfl

theorem signalAt?_address (u : Alu) {r : Resource} (h : r.inRange = true) :
    u.signalAt? r.address = u.holder? r := by
  rw [signalAt?_eq, Resource.resource?_address h]
  rfl

end Alu

end AluPlacement
