import AluPlacement.Signal.Id

/-! # Branch targets

An instruction continues at one of four targets, chosen by two condition bits. A `Quad` holds one
entry for each value of the bits; the entry at `2 * bit1 + bit0` is the one for these bits. -/

namespace AluPlacement

/-- Where an instruction may continue. -/
inductive Target where
  /-- At the next instruction. -/
  | next
  | label (name : String)
  | index (i : Nat)
  /-- The label does not exist. -/
  | invalid
  deriving DecidableEq, Repr

namespace Target

/-- The target for a label, or the next instruction without one. -/
def ofLabel? : Option String → Target
  | some name => label name
  | none => next

/-- The index of a target that is known. -/
def index? : Target → Option Nat
  | index i => some i
  | _ => none

/-- The text of a target. -/
def text : Target → String
  | next => "next"
  | label name => "'" ++ name ++ "'"
  | index i => toString i
  | invalid => "-1"

end Target

/-- One entry for each value of two bits. -/
structure Quad (α : Type) where
  t0 : α
  t1 : α
  t2 : α
  t3 : α
  deriving DecidableEq, Repr

namespace Quad

variable {α β : Type}

/-- The entry for two bits. -/
def get (q : Quad α) : Bool → Bool → α
  | false, false => q.t0
  | false, true => q.t1
  | true, false => q.t2
  | true, true => q.t3

/-- The entries given by a function of two bits. -/
def ofFn (f : Bool → Bool → α) : Quad α :=
  ⟨f false false, f false true, f true false, f true true⟩

/-- Four times the same entry. -/
def const (a : α) : Quad α := ⟨a, a, a, a⟩

/-- Change every entry. -/
def map (f : α → β) (q : Quad α) : Quad β := ⟨f q.t0, f q.t1, f q.t2, f q.t3⟩

/-- The entries in order. -/
def toList (q : Quad α) : List α := [q.t0, q.t1, q.t2, q.t3]

/-- The entries with the two bits exchanged. -/
def swapBits (q : Quad α) : Quad α := ⟨q.t0, q.t2, q.t1, q.t3⟩

theorem get_ofFn (f : Bool → Bool → α) (a b : Bool) : (ofFn f).get a b = f a b := by
  cases a <;> cases b <;> rfl

theorem get_const (x : α) (a b : Bool) : (const x).get a b = x := by
  cases a <;> cases b <;> rfl

theorem get_map (f : α → β) (q : Quad α) (a b : Bool) : (q.map f).get a b = f (q.get a b) := by
  cases a <;> cases b <;> rfl

theorem get_swapBits (q : Quad α) (a b : Bool) : q.swapBits.get a b = q.get b a := by
  cases a <;> cases b <;> rfl

/-- All four entries, if each is there. -/
def sequence? (q : Quad (Option α)) : Option (Quad α) :=
  match q.t0, q.t1, q.t2, q.t3 with
  | some a, some b, some c, some d => some ⟨a, b, c, d⟩
  | _, _, _, _ => none

end Quad

/-- The branch of an instruction: the signals of the two condition bits, if there are any, and the
targets. -/
structure Branch where
  cond0 : Option SignalId := none
  cond1 : Option SignalId := none
  targets : Quad Target := .const .next
  deriving DecidableEq, Repr

namespace Branch

/-- The conditions of a branch, the first one before the second. -/
def conditions (b : Branch) : List SignalId := b.cond0.toList ++ b.cond1.toList

/-- The same branch with the conditions in the other order. -/
def swapped (b : Branch) : Branch := ⟨b.cond1, b.cond0, b.targets.swapBits⟩

/-- The indexes of the targets, if all are known. -/
def targetIndexes? (b : Branch) : Option (Quad Nat) := (b.targets.map Target.index?).sequence?

end Branch

end AluPlacement
