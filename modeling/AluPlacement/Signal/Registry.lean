import AluPlacement.Error

/-! # The registry of signals

The signals of a unit in declaration order. Signals are never removed, so an identifier keeps its
meaning; names are pairwise different. A binding is written once, and a bound signal changes only in
its location.

* `Registry.lookup`, `Registry.get`: a signal by name and by identifier.
* `Registry.declare` and the setters: the calls that the front end makes.
* `Registry.bind`, `Registry.promote`, `Registry.applyDefaults`: what the placement does. -/

namespace AluPlacement

/-- The signals of a unit, in declaration order. -/
structure Registry where
  signals : List Signal := []
  deriving DecidableEq, Repr

namespace Registry

variable {ε : Type}

/-- The number of signals. -/
def size (r : Registry) : Nat := r.signals.length

/-- The identifiers, in declaration order. -/
def ids (r : Registry) : List SignalId := (List.range r.size).map SignalId.mk

/-- The identifier was handed out by this registry. -/
def contains (r : Registry) (id : SignalId) : Bool := id.index < r.size

/-- The signal with an identifier. -/
def get? (r : Registry) (id : SignalId) : Option Signal := r.signals[id.index]?

/-- The signal with an identifier of this registry. -/
def get (r : Registry) (id : SignalId) : Checked ε Signal :=
  match r.get? id with
  | some s => .ok s
  | none => .misuse (.foreignSignal id)

/-- The name of a signal of this registry. -/
def name (r : Registry) (id : SignalId) : Checked ε String := do
  let s ← r.get id
  return s.name

/-- The name of a signal, if it belongs to this registry. -/
def name? (r : Registry) (id : SignalId) : Option String := (r.get? id).map Signal.name

/-- The signal with a name. -/
def lookup (r : Registry) (name : String) : Option SignalId :=
  (r.signals.findIdx? fun s => s.name == name).map SignalId.mk

/-- Change one signal. -/
def modify (r : Registry) (id : SignalId) (f : Signal → Signal) : Registry :=
  ⟨r.signals.modify id.index f⟩

theorem contains_iff {r : Registry} {id : SignalId} :
    r.contains id = true ↔ ∃ s, r.get? id = some s := by
  unfold contains get? size
  rw [decide_eq_true_iff]
  constructor
  · intro h
    exact ⟨_, List.getElem?_eq_getElem h⟩
  · rintro ⟨s, h⟩
    exact (List.getElem?_eq_some_iff.mp h).1

theorem get_eq_ok {r : Registry} {id : SignalId} {s : Signal} :
    (r.get id : Checked ε Signal) = .ok s ↔ r.get? id = some s := by
  unfold get
  cases r.get? id <;> simp [Checked.misuse]

theorem size_modify (r : Registry) (id : SignalId) (f : Signal → Signal) :
    (r.modify id f).size = r.size := by
  simp [modify, size]

theorem get?_modify (r : Registry) (id i : SignalId) (f : Signal → Signal) :
    (r.modify id f).get? i = if id = i then (r.get? i).map f else r.get? i := by
  cases id; cases i
  simp [modify, get?, List.getElem?_modify, SignalId.mk.injEq]
  split <;> simp_all

/-- Refuse a signal that has a resource. -/
def requireUnbound (r : Registry) (id : SignalId) : Checked Error Unit := do
  let s ← r.get id
  Checked.require (s.binding = none) (.alreadyBound s.name)

/-- Refuse an identifier that was not handed out for this unit. -/
def requireDeclared (r : Registry) (id : SignalId) (unit : String) : Checked Error Unit :=
  Checked.require (r.contains id) (.undeclaredSignal ("#" ++ toString id.index) unit)

/-! ### Calls of the front end -/

/-- Put a signal at the end. -/
def insert (s : Signal) : Edit Registry ε SignalId := fun r =>
  .ok ⟨r.size⟩ ⟨r.signals ++ [s]⟩

/-- Declare a signal with a new name. -/
def declare (name : String) (behavior : Behavior) (dataType : DataType) :
    Edit Registry Error SignalId := do
  Edit.ask fun r => Checked.require (r.lookup name = none) (.duplicateSignal name)
  insert { name := name, behavior := behavior, dataType := dataType }

/-- Change a signal that has no resource yet. -/
def modifyUnbound (id : SignalId) (f : Signal → Signal) : Edit Registry Error Unit := do
  Edit.ask fun r => r.requireUnbound id
  Edit.update fun r => r.modify id f

/-- Set the value at power-on, of which 16 bits are kept. -/
def setInitial (id : SignalId) (value : Nat) : Edit Registry Error Unit :=
  modifyUnbound id fun s => { s with initial := some (BitVec.ofNat 16 value) }

/-- Say whether the signal is reset without a power cycle. -/
def setWarmReset (id : SignalId) (value : Bool) : Edit Registry Error Unit :=
  modifyUnbound id fun s => { s with warmReset := value }

/-- Set the direction of a signal. -/
def setDirection (id : SignalId) (direction : Direction) : Edit Registry Error Unit :=
  modifyUnbound id fun s => { s with direction := direction }

/-- Set the location of a signal, bound or not. -/
def setLocation (id : SignalId) (location : Location) : Edit Registry Error Unit := do
  let _ ← Edit.ask fun r => r.get id
  Edit.update fun r => r.modify id fun s => { s with location := location }

/-! ### Placement -/

/-- Give a signal its resource. -/
def bind (r : Registry) (id : SignalId) (address : Address) : Checked Error Registry := do
  r.requireUnbound id
  return r.modify id fun s => { s with binding := some address }

/-- Make constants of the given registers. -/
def promote (r : Registry) (ids : List SignalId) : Registry :=
  ids.foldl
    (fun r id => r.modify id fun s => { s with behavior := .constant, warmReset := false }) r

/-- The signal, with the value 0 if it needs one and has none. -/
def withDefault (s : Signal) : Signal :=
  if s.behavior.isStateful && s.initial.isNone then { s with initial := some 0#16 } else s

/-- Registers and constants without a value start at 0. -/
def applyDefaults (r : Registry) : Registry := ⟨r.signals.map withDefault⟩

/-- The last bit of a word register that may be sliced. -/
def lastSliceIndex : Nat := 3

/-- Some slice of the signal takes one of the bits of a register. -/
def hasRegisterSlice (r : Registry) (id : SignalId) : Bool :=
  r.signals.any fun s =>
    s.behavior == .bitSlice &&
      match s.origin with
      | .slice base index => base == id && index ≤ lastSliceIndex
      | _ => false

/-- The address of the first bound constant of this type and this value. -/
def constantAddress? (r : Registry) (dataType : DataType) (value : Option Word) : Option Address :=
  r.signals.findSome? fun s =>
    if s.isOf .constant dataType && s.initial == value then s.binding else none

end Registry

end AluPlacement
