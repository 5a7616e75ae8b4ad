import AluPlacement.Error

/-! # Pools

A pool is a list of entries with a capacity. An entry keeps the slot it was given when it was put
in. -/

namespace AluPlacement

/-- A store of at most `capacity` entries; entry `i` stands in slot `i`. -/
structure Pool (α : Type) where
  kind : PoolKind
  capacity : Nat
  entries : List α := []
  deriving DecidableEq, Repr

namespace Pool

variable {α β : Type}

/-- The number of entries. -/
def size (p : Pool α) : Nat := p.entries.length

/-- No slot is left. -/
def isFull (p : Pool α) : Bool := p.capacity ≤ p.entries.length

theorem isFull_eq_true {p : Pool α} : p.isFull = true ↔ p.capacity ≤ p.entries.length := by
  simp [isFull]

theorem isFull_eq_false {p : Pool α} : p.isFull = false ↔ p.entries.length < p.capacity := by
  simp [isFull]

/-- The error for a pool without a free slot. -/
def exhausted (p : Pool α) : Error := .poolExhausted p.kind p.capacity

/-- Put an entry into the next slot, whether or not there is one. -/
def append (p : Pool α) (a : α) : Pool α := { p with entries := p.entries ++ [a] }

/-- Put an entry into the next slot. -/
def push (p : Pool α) (a : α) : Checked Error (Pool α) :=
  if p.isFull then .refuse p.exhausted else .ok (p.append a)

theorem push_eq_ok {p q : Pool α} {a : α} :
    p.push a = .ok q ↔ p.entries.length < p.capacity ∧ q = p.append a := by
  unfold push isFull Checked.refuse
  split <;> grind

theorem push_eq_error {p : Pool α} {a : α} {e : Fault Error} :
    p.push a = .error e ↔ p.capacity ≤ p.entries.length ∧ e = .refused p.exhausted := by
  unfold push isFull Checked.refuse
  split <;> grind

/-- The entry in a slot. -/
def get? (p : Pool α) (slot : Nat) : Option α := p.entries[slot]?

/-- Replace the entry in a slot, if there is one. -/
def set (p : Pool α) (slot : Nat) (a : α) : Pool α := { p with entries := p.entries.set slot a }

/-- Change every entry. -/
def map (f : α → α) (p : Pool α) : Pool α := { p with entries := p.entries.map f }

/-- Turn the order of the entries round. -/
def reverse (p : Pool α) : Pool α := { p with entries := p.entries.reverse }

/-- The entry is in the pool. -/
def contains [BEq α] (p : Pool α) (a : α) : Bool := p.entries.contains a

/-- The slot of the first entry that satisfies `p`. -/
def findSlot? (p : Pool α) (test : α → Bool) : Option Nat := p.entries.findIdx? test

end Pool

end AluPlacement
