import AluPlacement.Signal.Registry

/-! # Slices and delays

A slice or a delay of a signal is a signal too. It is found again by its name: bit `i` of `x` is
called `x[i]`, and `x` after `n` clocks is called `x$n`. Whatever signal has that name is taken.

Delays add up, so that no delayed signal is the base of another one, and a slice is delayed by
slicing its delayed base. -/

namespace AluPlacement.Registry

/-- The number of the v-bit. -/
def vBitIndex : Nat := 16

/-- The longest delay. -/
def maxDelay : Nat := 30

/-- How deep the calls of `delay` nest: a slice of a delayed signal. -/
def maxDerivation : Nat := 3

/-- The name of bit `index` of a signal. -/
def sliceName (base : String) (index : Nat) : String := base ++ "[" ++ toString index ++ "]"

/-- The name of a delayed signal. -/
def delayName (base : String) (count : Nat) : String := base ++ "$" ++ toString count

/-- The signal with the name of `s`, or `s` itself as a new signal. -/
def lookupOrInsert (s : Signal) : Edit Registry Error SignalId := do
  let found ← Edit.ask fun r => .ok (r.lookup s.name)
  match found with
  | some id => return id
  | none => insert s

/-- Bit `index` of a signal. -/
def sliceOf (base : SignalId) (index : Nat) : Edit Registry Error SignalId := do
  let name ← Edit.ask fun r => r.name base
  lookupOrInsert
    { name := sliceName name index, behavior := .bitSlice, dataType := .bit,
      origin := .slice base index }

/-- Bit `index` of a word register, one of the bits 0 to 3. -/
def bitSlice (base : SignalId) (index : Nat) : Edit Registry Error SignalId := do
  let s ← Edit.ask fun r => r.get base
  Edit.ask fun _ => Checked.require (s.isOf .register .word ∧ index ≤ lastSliceIndex)
    (.illegalBitSlice s.name)
  sliceOf base index

/-- The v-bit of a word signal that is no constant and can be seen from outside. -/
def vBit (base : SignalId) : Edit Registry Error SignalId := do
  let s ← Edit.ask fun r => r.get base
  Edit.ask fun _ => Checked.require
    (s.dataType = .word ∧ s.behavior ≠ .constant ∧ s.isInternalBuiltin = false)
    (.illegalVBit s.name)
  sliceOf base vBitIndex

/-- A signal `count` clocks later, derived through at most `depth` signals. -/
def delayWithin : Nat → SignalId → Nat → Edit Registry Error SignalId
  | 0, base, _ => Edit.ask fun _ => .misuse (.deepDerivation base)
  | depth + 1, base, count => do
    let s ← Edit.ask fun r => r.get base
    Edit.ask fun _ => Checked.require (1 ≤ count ∧ count ≤ maxDelay)
      (.illegalDelay s.name count maxDelay)
    match s.origin with
    | .slice inner index => do
      let delayed ← delayWithin depth inner count
      sliceOf delayed index
    | .delay inner earlier => delayWithin depth inner (earlier + count)
    | .declared => do
      Edit.ask fun _ => Checked.require (s.isInternalBuiltin = false)
        (.illegalDelay s.name count maxDelay)
      lookupOrInsert
        { name := delayName s.name count, behavior := .delayed, dataType := s.dataType,
          origin := .delay base count }

/-- A signal `count` clocks later. -/
def delay (base : SignalId) (count : Nat) : Edit Registry Error SignalId :=
  delayWithin maxDerivation base count

end AluPlacement.Registry
