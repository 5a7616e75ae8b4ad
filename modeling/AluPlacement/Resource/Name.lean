import AluPlacement.Resource.Basic

/-! # Names of resources

The name of a slot is the stem of its family, its index and the tail of the family, as in
`word3_reg`; single resources have fixed names. A name is read with any number of leading zeros in
its index.

* `Resource.name`: the name of a resource.
* `Resource.ofName?`: the resource with a name, if its index is within its family.
* `lookup`: an address for a name and a name for an address. -/

namespace AluPlacement

/-- What stands before the index in the name of a slot. -/
def Family.stem : Family → String
  | .conditionLogic => "tf"
  | .wordReg => "word"
  | .branch => "branch"
  | .wordIn => "word"
  | .carryIn => "carry"
  | .constant => "const"

/-- What stands after the index in the name of a slot. -/
def Family.tail : Family → String
  | .conditionLogic => "_reg"
  | .wordReg => "_reg"
  | .branch => ""
  | .wordIn => "_in"
  | .carryIn => "_in"
  | .constant => ""

/-- The name of a resource. -/
def Resource.name : Resource → String
  | .slot family index => family.stem ++ toString index ++ family.tail
  | .condBypass => "cond_bypass"
  | .condUpdate => "cond_update"
  | .builtin0 => "builtin0"
  | .builtin1 => "builtin1"
  | .builtinFFFF => "builtinFFFF"

/-- The name of the resource at an address. -/
def Address.name (a : Address) : String :=
  match a.resource? with
  | some r => r.name
  | none => "unknown" ++ toString a.number

/-! ### Reading -/

/-- The number that decimal digits write. -/
def decimalValue (digits : List Char) : Nat :=
  digits.foldl (fun n c => 10 * n + (c.toNat - '0'.toNat)) 0

/-- The number that a text writes, if it consists of decimal digits, at least one. -/
def decimal? (text : List Char) : Option Nat :=
  if text ≠ [] ∧ text.all Char.isDigit then some (decimalValue text) else none

/-- What stands between `stem` and `tail` in a text that starts and ends with them. -/
def between? (stem tail text : List Char) : Option (List Char) :=
  let rest := text.drop stem.length
  if stem.isPrefixOf text && tail.isSuffixOf rest then some (rest.take (rest.length - tail.length))
  else none

/-- The index in the name of a slot of the family. -/
def Family.index? (family : Family) (name : String) : Option Nat :=
  (between? family.stem.toList family.tail.toList name.toList).bind decimal?

/-- The slot of the family with a name. -/
def Family.ofName? (family : Family) (name : String) : Option Resource :=
  match family.index? name with
  | some index => if index < family.capacity then some (.slot family index) else none
  | none => none

/-- The resource with a name. -/
def Resource.ofName? (name : String) : Option Resource :=
  match Resource.singles.find? fun r => r.name = name with
  | some r => some r
  | none => Family.all.findSome? fun family => family.ofName? name

/-- The address of the resource with a name. -/
def Address.ofName? (name : String) : Option Address := (Resource.ofName? name).map Resource.address

/-- The number of at most eight bits that a text writes; a plus sign may stand before it. -/
def byte? (text : String) : Option Nat :=
  let digits := match text.toList with
    | '+' :: rest => rest
    | other => other
  (decimal? digits).filter fun n => n < 256

/-- The answer to a query: the name of the resource at a number, or the number of the resource with
a name. A query that reads as a number is never taken for a name. -/
def lookup (query : String) : Option String :=
  match byte? query with
  | some n => (Address.ofNumber? n).map Address.name
  | none => (Address.ofName? query).map fun a => toString a.number

end AluPlacement
