import AluPlacement.Resource.Name

/-! # The command line

The command answers queries for resources, each with a name or a number, and may list all of them.
Options stand anywhere before `--`; everything after it is a query. -/

namespace AluPlacement.CommandLine

/-- What the command was asked for. -/
structure Request where
  table : Bool := false
  queries : List String := []
  deriving DecidableEq, Repr

/-- Read the arguments after what was read already. The option for the table may occur once, and
there are no others; a single hyphen is a query. -/
def readFrom (r : Request) : List String → Option Request
  | [] => some r
  | arg :: rest =>
    if arg = "--" then some { r with queries := r.queries ++ rest }
    else if arg = "--table" then
      if r.table then none else readFrom { r with table := true } rest
    else if arg.startsWith "-" && arg ≠ "-" then none
    else readFrom { r with queries := r.queries ++ [arg] } rest

/-- Read the arguments; they must ask for something. -/
def read? (args : List String) : Option Request :=
  (readFrom {} args).filter fun r => r.table || !r.queries.isEmpty

/-- What the command does: an exit code, the text on standard output and the errors. -/
structure Outcome where
  code : Nat := 0
  output : String := ""
  errors : List String := []
  deriving DecidableEq, Repr

/-- A number in a column of three places. -/
def column (n : Nat) : String :=
  let digits := toString n
  String.ofList (List.replicate (3 - digits.length) ' ') ++ digits

/-- The list of all resources. -/
def tableText : String :=
  String.join (Address.all.map fun a => column a.number ++ "  " ++ a.name ++ "\n")

/-- The line that answers a query, if it has an answer. -/
def answer? (query : String) : Option String :=
  (lookup query).map fun answer => query ++ "\t" ++ answer ++ "\n"

/-- The error for a query without an answer. -/
def noAnswer (query : String) : String :=
  "'" ++ query ++ "' is not a valid resource address or name"

/-- Do what was asked for. -/
def answer (r : Request) : Outcome :=
  let failed := r.queries.filter fun q => (lookup q).isNone
  { code := if failed.isEmpty then 0 else 1
    output := (if r.table then tableText else "") ++ String.join (r.queries.filterMap answer?)
    errors := failed.map noAnswer }

/-- Run the command; arguments that cannot be read give exit code 2. -/
def run (args : List String) : Outcome :=
  match read? args with
  | some r => answer r
  | none => { code := 2 }

end AluPlacement.CommandLine
