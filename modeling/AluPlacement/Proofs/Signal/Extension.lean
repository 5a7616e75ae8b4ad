import AluPlacement.Proofs.Edit
import AluPlacement.Proofs.List
import AluPlacement.Signal.Derived
import Mathlib.Tactic.SplitIfs

/-! # What the front end can do to a registry

The calls that the front end makes on the signals of a unit, as data: `Registry.Call`. Whatever they
do, the registry after a call *extends* the one before it: every signal keeps its name, type,
behavior, origin and binding, a bound signal keeps its value, its reset and its direction too, and a
new signal has no binding. Extension is a preorder, so the same holds of any number of calls. -/

namespace AluPlacement

/-- How a signal may change under the calls of the front end. -/
structure Signal.Kept (s s' : Signal) : Prop where
  name : s'.name = s.name
  dataType : s'.dataType = s.dataType
  behavior : s'.behavior = s.behavior
  origin : s'.origin = s.origin
  binding : s'.binding = s.binding
  bound : s.binding ≠ none →
    s'.initial = s.initial ∧ s'.warmReset = s.warmReset ∧ s'.direction = s.direction

theorem Signal.Kept.refl (s : Signal) : s.Kept s :=
  ⟨rfl, rfl, rfl, rfl, rfl, fun _ => ⟨rfl, rfl, rfl⟩⟩

theorem Signal.Kept.trans {s s' s'' : Signal} (h : s.Kept s') (h' : s'.Kept s'') : s.Kept s'' := by
  refine ⟨h'.name.trans h.name, h'.dataType.trans h.dataType, h'.behavior.trans h.behavior,
    h'.origin.trans h.origin, h'.binding.trans h.binding, fun hb => ?_⟩
  obtain ⟨h1, h2, h3⟩ := h.bound hb
  obtain ⟨h1', h2', h3'⟩ := h'.bound (by rwa [h.binding])
  exact ⟨h1'.trans h1, h2'.trans h2, h3'.trans h3⟩

/-- A signal without a binding may change in what only bound signals keep. -/
theorem Signal.Kept.of_unbound {s s' : Signal} (hb : s.binding = none) (h1 : s'.name = s.name)
    (h2 : s'.dataType = s.dataType) (h3 : s'.behavior = s.behavior) (h4 : s'.origin = s.origin)
    (h5 : s'.binding = s.binding) : s.Kept s' :=
  ⟨h1, h2, h3, h4, h5, fun hne => absurd hb hne⟩

namespace Registry

/-- `r'` has the signals of `r`, kept, and further ones without a binding. -/
structure Extends (r r' : Registry) : Prop where
  kept : ∀ id s, r.get? id = some s → ∃ s', r'.get? id = some s' ∧ s.Kept s'
  fresh : ∀ id s', r'.get? id = some s' → r.get? id = none → s'.binding = none

theorem Extends.refl (r : Registry) : r.Extends r := by
  refine ⟨fun id s h => ⟨s, h, .refl s⟩, fun id s' h h' => ?_⟩
  rw [h] at h'
  cases h'

theorem Extends.trans {r r' r'' : Registry} (h : r.Extends r') (h' : r'.Extends r'') :
    r.Extends r'' := by
  refine ⟨fun id s hs => ?_, fun id s'' hs'' hn => ?_⟩
  · obtain ⟨s', hs', hk⟩ := h.kept id s hs
    obtain ⟨s'', hs'', hk'⟩ := h'.kept id s' hs'
    exact ⟨s'', hs'', hk.trans hk'⟩
  · cases hs' : r'.get? id with
    | none => exact h'.fresh id s'' hs'' hs'
    | some s' =>
      obtain ⟨t, ht, hk⟩ := h'.kept id s' hs'
      rw [hs''] at ht
      cases ht
      rw [hk.binding]
      exact h.fresh id s' hs' hn

theorem Extends.contains {r r' : Registry} (h : r.Extends r') {id : SignalId}
    (hid : r.contains id = true) : r'.contains id = true := by
  obtain ⟨s, hs⟩ := contains_iff.mp hid
  obtain ⟨s', hs', -⟩ := h.kept id s hs
  exact contains_iff.mpr ⟨s', hs'⟩

/-! ### Primitive steps -/

theorem get?_append (r : Registry) (s : Signal) (id : SignalId) :
    (⟨r.signals ++ [s]⟩ : Registry).get? id =
      if id.index = r.size then some s else r.get? id :=
  getElem?_append_singleton r.signals s id.index

theorem get?_eq_none_iff {r : Registry} {id : SignalId} : r.get? id = none ↔ r.size ≤ id.index :=
  List.getElem?_eq_none_iff

theorem extends_append (r : Registry) {s : Signal} (hs : s.binding = none) :
    r.Extends ⟨r.signals ++ [s]⟩ := by
  refine ⟨fun id t ht => ⟨t, ?_, .refl t⟩, fun id s' hs' hn => ?_⟩
  · rw [get?_append, if_neg, ht]
    intro he
    have : r.get? id = none := get?_eq_none_iff.mpr (Nat.le_of_eq he.symm)
    rw [ht] at this
    cases this
  · rw [get?_append] at hs'
    split_ifs at hs' with h
    · cases hs'
      exact hs
    · rw [hn] at hs'
      cases hs'

theorem extends_modify (r : Registry) (id : SignalId) {f : Signal → Signal}
    (hf : ∀ s, r.get? id = some s → s.Kept (f s)) : r.Extends (r.modify id f) := by
  refine ⟨fun i s hs => ?_, fun i s' hs' hn => ?_⟩
  · rw [get?_modify]
    split_ifs with h
    · subst h
      exact ⟨f s, by rw [hs]; rfl, hf s hs⟩
    · exact ⟨s, hs, .refl s⟩
  · rw [get?_modify, hn] at hs'
    split_ifs at hs'
    cases hs'

theorem requireUnbound_eq_ok {r : Registry} {id : SignalId} {a : Unit} :
    r.requireUnbound id = .ok a ↔ ∃ s, r.get? id = some s ∧ s.binding = none := by
  unfold requireUnbound
  rw [Checked.bind_eq_ok]
  simp only [get_eq_ok, Checked.require_eq_ok]

/-! ### Calls -/

section Calls

variable {r₀ : Registry}

theorem preserves_insert {ε : Type} {s : Signal} (hs : s.binding = none) :
    Edit.Preserves r₀.Extends (insert s : Edit Registry ε SignalId) :=
  fun r h => h.trans (extends_append r hs)

theorem preserves_declare (name : String) (behavior : Behavior) (dataType : DataType) :
    Edit.Preserves r₀.Extends (declare name behavior dataType) :=
  Edit.preserves_bind (Edit.preserves_ask _) fun _ => preserves_insert rfl

theorem preserves_modifyUnbound (id : SignalId) {f : Signal → Signal}
    (hf : ∀ s : Signal, s.binding = none → s.Kept (f s)) :
    Edit.Preserves r₀.Extends (modifyUnbound id f) := by
  intro r h
  refine Edit.after_ask_bind h fun a ha => ?_
  rw [Edit.after_update]
  obtain ⟨s, hs, hb⟩ := requireUnbound_eq_ok.mp ha
  refine h.trans (extends_modify r id fun t ht => hf t ?_)
  rw [hs] at ht
  cases ht
  exact hb

theorem preserves_setLocation (id : SignalId) (l : Location) :
    Edit.Preserves r₀.Extends (setLocation id l) := by
  intro r h
  refine Edit.after_ask_bind h fun a _ => ?_
  rw [Edit.after_update]
  exact h.trans (extends_modify r id fun s _ => ⟨rfl, rfl, rfl, rfl, rfl, fun _ => ⟨rfl, rfl, rfl⟩⟩)

theorem preserves_lookupOrInsert {s : Signal} (hs : s.binding = none) :
    Edit.Preserves r₀.Extends (lookupOrInsert s) := by
  refine Edit.preserves_bind (Edit.preserves_ask _) fun found => ?_
  cases found with
  | none => exact preserves_insert hs
  | some id => exact Edit.preserves_pure id

theorem preserves_sliceOf (base : SignalId) (index : Nat) :
    Edit.Preserves r₀.Extends (sliceOf base index) :=
  Edit.preserves_bind (Edit.preserves_ask _) fun _ => preserves_lookupOrInsert rfl

theorem preserves_bitSlice (base : SignalId) (index : Nat) :
    Edit.Preserves r₀.Extends (bitSlice base index) :=
  Edit.preserves_bind (Edit.preserves_ask _) fun _ =>
    Edit.preserves_bind (Edit.preserves_ask _) fun _ => preserves_sliceOf base index

theorem preserves_vBit (base : SignalId) : Edit.Preserves r₀.Extends (vBit base) :=
  Edit.preserves_bind (Edit.preserves_ask _) fun _ =>
    Edit.preserves_bind (Edit.preserves_ask _) fun _ => preserves_sliceOf base vBitIndex

theorem preserves_delayWithin : ∀ (depth : Nat) (base : SignalId) (count : Nat),
    Edit.Preserves r₀.Extends (delayWithin depth base count)
  | 0, _, _ => Edit.preserves_ask _
  | depth + 1, base, count => by
    refine Edit.preserves_bind (Edit.preserves_ask _) fun s =>
      Edit.preserves_bind (Edit.preserves_ask _) fun _ => ?_
    cases s.origin with
    | declared =>
      exact Edit.preserves_bind (Edit.preserves_ask _) fun _ => preserves_lookupOrInsert rfl
    | slice inner index =>
      exact Edit.preserves_bind (preserves_delayWithin depth inner count) fun delayed =>
        preserves_sliceOf delayed index
    | delay inner earlier => exact preserves_delayWithin depth inner (earlier + count)

end Calls

/-- A call of the front end on the signals of a unit. -/
inductive Call where
  | declare (name : String) (behavior : Behavior) (dataType : DataType)
  | setInitial (id : SignalId) (value : Nat)
  | setWarmReset (id : SignalId) (value : Bool)
  | setDirection (id : SignalId) (direction : Direction)
  | setLocation (id : SignalId) (location : Location)
  | bitSlice (base : SignalId) (index : Nat)
  | vBit (base : SignalId)
  | delay (base : SignalId) (count : Nat)
  deriving DecidableEq, Repr

/-- The registry after a call, whether it answered or not. -/
def Call.apply : Call → Registry → Registry
  | .declare name behavior dataType => (Registry.declare name behavior dataType).after
  | .setInitial id value => (Registry.setInitial id value).after
  | .setWarmReset id value => (Registry.setWarmReset id value).after
  | .setDirection id direction => (Registry.setDirection id direction).after
  | .setLocation id location => (Registry.setLocation id location).after
  | .bitSlice base index => (Registry.bitSlice base index).after
  | .vBit base => (Registry.vBit base).after
  | .delay base count => (Registry.delay base count).after

/-- **A call of the front end extends the registry.** -/
theorem extends_apply (c : Call) (r : Registry) : r.Extends (c.apply r) := by
  have h := Extends.refl r
  cases c with
  | declare name behavior dataType => exact preserves_declare name behavior dataType r h
  | setInitial id value =>
    refine preserves_modifyUnbound id
      (f := fun s => { s with initial := some (BitVec.ofNat 16 value) }) (fun s hb => ?_) r h
    exact .of_unbound hb rfl rfl rfl rfl rfl
  | setWarmReset id value =>
    refine preserves_modifyUnbound id (f := fun s => { s with warmReset := value })
      (fun s hb => ?_) r h
    exact .of_unbound hb rfl rfl rfl rfl rfl
  | setDirection id direction =>
    refine preserves_modifyUnbound id (f := fun s => { s with direction := direction })
      (fun s hb => ?_) r h
    exact .of_unbound hb rfl rfl rfl rfl rfl
  | setLocation id location => exact preserves_setLocation id location r h
  | bitSlice base index => exact preserves_bitSlice base index r h
  | vBit base => exact preserves_vBit base r h
  | delay base count => exact preserves_delayWithin maxDerivation base count r h

end Registry

end AluPlacement
