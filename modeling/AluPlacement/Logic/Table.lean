import AluPlacement.Fault

/-! # Truth tables of four arguments

A table has 16 rows. Row `r` gives the value of the function where the argument at position `p` has
the value of bit `p` of `r`. A function of fewer arguments ignores the positions beyond its own.

Exchanging the arguments at positions `i` and `j` moves only the rows in which these two bits
differ; `exchanged i j` lists them in pairs, and `transpose` swaps each pair. -/

namespace AluPlacement

/-- A truth table; row `r` is bit `r`. -/
abbrev Table := BitVec 16

namespace Table

/-- The number of argument positions of a table. -/
def positions : Nat := 4

/-- The table that is false in every row. -/
def never : Table := 0x0000#16

/-- The table that is true in every row. -/
def always : Table := 0xFFFF#16

/-- The table of the argument at position 0. -/
def first : Table := 0xAAAA#16

/-- Exchange rows `a` and `b`. -/
def swapRows (t : Table) (a b : Nat) : Table :=
  if t.getLsbD a = t.getLsbD b then t else t ^^^ (1#16 <<< a ||| 1#16 <<< b)

/-- The pairs of rows that differ in exactly the bits `i` and `j`, bit `i` being set in the first
row of a pair and bit `j` in the second. -/
def exchanged (i j : Nat) : List (Nat × Nat) :=
  ((List.range 16).filter fun r => r.testBit i && !r.testBit j).map fun r =>
    (r, r ^^^ (1 <<< i ||| 1 <<< j))

/-- Exchange the arguments at positions `i` and `j`. -/
def transpose {ε : Type} (t : Table) (i j : Nat) : Checked ε Table :=
  if i = j then .ok t
  else if i < positions ∧ j < positions then
    .ok ((exchanged i j).foldl (fun t pair => swapRows t pair.1 pair.2) t)
  else .misuse (.positionsOutOfRange i j)

end Table

end AluPlacement
