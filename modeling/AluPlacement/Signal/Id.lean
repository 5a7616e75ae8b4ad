/-! # Signal identifiers

A unit keeps its signals in declaration order. A `SignalId` is a position in that order; it means
something only together with the registry that handed it out. -/

namespace AluPlacement

/-- A signal, named by its position in declaration order. -/
structure SignalId where
  index : Nat
  deriving DecidableEq, Repr

end AluPlacement
