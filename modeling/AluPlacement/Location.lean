/-! # Source locations

A place in the description of a unit, as the front end supplies it. It is carried along and shown. -/

namespace AluPlacement

/-- A file, if known, and a line; line 0 without a file is no location at all. -/
structure Location where
  file : Option String := none
  line : Nat := 0
  deriving DecidableEq, Repr

/-- The text of a location. -/
def Location.text (l : Location) : String :=
  match l.file with
  | some file => file ++ ":" ++ toString l.line
  | none => if 0 < l.line then "line " ++ toString l.line else "<unknown>"

end AluPlacement
