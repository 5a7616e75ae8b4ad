import AluPlacement.Alu.Basic
import AluPlacement.Resource.Name

/-! # Reports on an ALU

The mapping of signals to resources, and a listing of the signals, the condition logic and the
program. -/

namespace AluPlacement

/-- Where a signal was placed. -/
structure Placement where
  signal : SignalId
  name : String
  resource : Option Address
  deriving DecidableEq, Repr

namespace Placement

/-- The line of a signal. -/
def text (e : Placement) : String :=
  let resource := match e.resource with
    | some a => a.name
    | none => "none"
  e.name ++ "\t\t" ++ resource ++ "\n"

end Placement

namespace Registry

/-- The placement of every signal that is not built in, in declaration order. -/
def placements (r : Registry) : List Placement :=
  r.signals.zipIdx.filterMap fun p =>
    if p.1.behavior = .builtin then none else some ⟨⟨p.2⟩, p.1.name, p.1.binding⟩

/-- The placement of the signal with a name. -/
def placementOf? (r : Registry) (name : String) : Option Placement :=
  r.placements.find? fun e => e.name == name

/-- The text of the mapping. -/
def placementsText (r : Registry) : String := String.join (r.placements.map Placement.text)

end Registry

namespace Alu

variable {ε : Type}

/-- The line of a signal that a function drives. -/
def logicText (signals : Registry) (e : DrivenSignal) : Checked ε String := do
  let name ← signals.name e.signal
  return "\t\t" ++ name ++ " = " ++ e.logic.formulaText signals.name? ++ "\n"

/-- The line of an instruction. -/
def instructionText (signals : Registry) (i : Instruction) : Checked ε String := do
  let text ← i.text signals
  return "\t\t" ++ text ++ "\n"

/-- Lines in braces under a title; nothing if there are none. -/
def sectionText (title : String) (lines : List String) : String :=
  if lines.isEmpty then "" else "\t" ++ title ++ "\n\t\x7b\n" ++ String.join lines ++ "\t\x7d\n"

/-- The functions that drive branch registers and the two signals on conditions. -/
def drivers (u : Alu) : List DrivenSignal :=
  u.branches.entries ++ u.condBypass.toList ++ u.condUpdate.toList

/-- The listing of an ALU. -/
def listing (u : Alu) : Checked ε String := do
  let registers ← u.logic.entries.mapM (logicText u.signals)
  let drivers ← u.drivers.mapM (logicText u.signals)
  let program ← u.instructions.entries.mapM (instructionText u.signals)
  return u.name ++ " : alu\n"
    ++ String.join (u.signals.signals.map fun s => "\t" ++ s.text ++ "\n")
    ++ sectionText "TF" registers ++ sectionText "TFA" drivers ++ sectionText "inst" program

end Alu

end AluPlacement
