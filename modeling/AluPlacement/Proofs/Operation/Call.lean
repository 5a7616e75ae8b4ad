import AluPlacement.Operation.Table
import AluPlacement.Proofs.List
import Mathlib.Data.List.Forall2
import Mathlib.Tactic.SplitIfs

/-! # What a call of an operation comes to

A table of operations is known by its history, the signatures that were inserted with their names:
the overloads of a name are those inserted under it, each once, in the order of their first insertion
(`Inserted.overloads_eq`). What was inserted under other names does not matter.

A call looks at the overloads alone. It takes the earliest one with as many positions as there are
operands, and it does not go on to another one if an operand does not fit (`Outcome`). The operands
are checked from left to right, and the first one that does not fit is reported
(`checkOperands_of_misfit`). -/

namespace AluPlacement

variable {signals : Registry} {kind : OperandKind} {operand : Operand} {name : String}

/-! ### Operands -/

namespace OperandKind

/-- What a position of this kind takes. -/
inductive Fits (signals : Registry) : OperandKind → Operand → Prop
  | wordSignal {id : SignalId} {s : Signal} (hs : signals.get? id = some s)
      (hword : s.dataType = .word) : Fits signals .word (.signal id)
  | wordNumber {value : Nat} (h : value ≤ 0xFFFF) : Fits signals .word (.immediate value)
  | bitSignal {id : SignalId} {s : Signal} (hs : signals.get? id = some s)
      (hbit : s.dataType = .bit) : Fits signals .bit (.signal id)
  | bitNumber {value : Nat} (h : value ≤ 1) : Fits signals .bit (.immediate value)
  | nibble {value : Nat} (h : value ≤ 15) : Fits signals .nibble (.immediate value)

/-- What is said of an operand that does not fit. An undeclared signal has no type. -/
def complaint (signals : Registry) (kind : OperandKind) (operand : Operand) : String :=
  if operand.signal?.all signals.contains then kind.requirement else "is not a declared signal"

theorem Fits.declared (h : kind.Fits signals operand) :
    operand.signal?.all signals.contains = true := by
  cases h with
  | wordSignal hs | bitSignal hs => exact Registry.contains_iff.mpr ⟨_, hs⟩
  | wordNumber | bitNumber | nibble => rfl

theorem fits_immediate {ε : Type} (kind : OperandKind) (value : Nat) :
    ∃ b, (kind.fits signals (.immediate value) : Checked ε Bool) = .ok b ∧
      (b = true ↔ kind.Fits signals (.immediate value)) := by
  cases kind with
  | word =>
    refine ⟨_, rfl, fun h => .wordNumber (of_decide_eq_true h), fun h => ?_⟩
    cases h with
    | wordNumber h => exact decide_eq_true h
  | bit =>
    refine ⟨_, rfl, fun h => .bitNumber (of_decide_eq_true h), fun h => ?_⟩
    cases h with
    | bitNumber h => exact decide_eq_true h
  | nibble =>
    refine ⟨_, rfl, fun h => .nibble (of_decide_eq_true h), fun h => ?_⟩
    cases h with
    | nibble h => exact decide_eq_true h

theorem fits_signal {ε : Type} {id : SignalId} {s : Signal} (hs : signals.get? id = some s)
    (kind : OperandKind) :
    ∃ b, (kind.fits signals (.signal id) : Checked ε Bool) = .ok b ∧
      (b = true ↔ kind.Fits signals (.signal id)) := by
  have hget : (signals.get id : Checked ε Signal) = .ok s := Registry.get_eq_ok.mpr hs
  cases kind with
  | word =>
    refine ⟨s.dataType == .word, Checked.bind_eq_ok.mpr ⟨s, hget, rfl⟩,
      fun h => .wordSignal hs (eq_of_beq h), fun h => ?_⟩
    cases h with
    | wordSignal hs' hword =>
      rw [hs] at hs'
      cases hs'
      exact beq_iff_eq.mpr hword
  | bit =>
    refine ⟨s.dataType == .bit, Checked.bind_eq_ok.mpr ⟨s, hget, rfl⟩,
      fun h => .bitSignal hs (eq_of_beq h), fun h => ?_⟩
    cases h with
    | bitSignal hs' hbit =>
      rw [hs] at hs'
      cases hs'
      exact beq_iff_eq.mpr hbit
  | nibble => exact ⟨false, rfl, nofun, nofun⟩

/-- The test answers for numbers and for declared signals, and it says what fits. -/
theorem fits_result (ε : Type) (kind : OperandKind)
    (hdeclared : operand.signal?.all signals.contains = true) :
    ∃ b, (kind.fits signals operand : Checked ε Bool) = .ok b ∧
      (b = true ↔ kind.Fits signals operand) := by
  cases operand with
  | immediate value => exact fits_immediate kind value
  | signal id =>
    obtain ⟨s, hs⟩ := Registry.contains_iff.mp hdeclared
    exact fits_signal hs kind

end OperandKind

namespace OperationTable

open OperandKind (Fits complaint)

variable {position : Nat} {kinds : Signature} {operands : List Operand}

theorem checkOperand_of_fits (h : kind.Fits signals operand) :
    checkOperand signals name position kind operand = .ok () := by
  obtain ⟨b, hb, hfits⟩ := OperandKind.fits_result Error kind h.declared
  refine Checked.bind_eq_ok.mpr ⟨(), Checked.require_eq_ok.mpr h.declared, ?_⟩
  exact Checked.bind_eq_ok.mpr ⟨b, hb, Checked.require_eq_ok.mpr (hfits.mpr h)⟩

theorem checkOperand_of_not_fits (h : ¬kind.Fits signals operand) :
    checkOperand signals name position kind operand =
      .error (.refused (.invalidOperand name position (complaint signals kind operand))) := by
  unfold complaint
  split_ifs with hdeclared
  · obtain ⟨b, hb, hfits⟩ := OperandKind.fits_result Error kind hdeclared
    have hfalse : ¬b = true := fun hb => h (hfits.mp hb)
    refine Checked.bind_eq_error.mpr (Or.inr ⟨(), Checked.require_eq_ok.mpr hdeclared, ?_⟩)
    exact Checked.bind_eq_error.mpr (Or.inr ⟨b, hb, Checked.require_eq_error.mpr ⟨hfalse, rfl⟩⟩)
  · exact Checked.bind_eq_error.mpr (Or.inl (Checked.require_eq_error.mpr ⟨hdeclared, rfl⟩))

/-- The operand at position `p` does not fit, and those before it do. -/
structure IsFirstMisfit (signals : Registry) (kinds : Signature) (operands : List Operand)
    (p : Nat) (kind : OperandKind) (operand : Operand) : Prop where
  kind_eq : kinds[p]? = some kind
  operand_eq : operands[p]? = some operand
  misfit : ¬kind.Fits signals operand
  earlier : ∀ i < p, ∀ k o, kinds[i]? = some k → operands[i]? = some o → k.Fits signals o

theorem checkOperands_of_fits (h : List.Forall₂ (Fits signals) kinds operands) :
    checkOperands signals name position kinds operands = .ok () := by
  induction h generalizing position with
  | nil => rfl
  | cons hfirst _ ih => exact Checked.bind_eq_ok.mpr ⟨(), checkOperand_of_fits hfirst, ih⟩

/-- **The leftmost operand that does not fit is reported.** -/
theorem checkOperands_of_misfit {p : Nat}
    (h : IsFirstMisfit signals kinds operands p kind operand) :
    checkOperands signals name position kinds operands =
      .error (.refused (.invalidOperand name (position + p) (complaint signals kind operand))) := by
  induction p generalizing position kinds operands with
  | zero =>
    match kinds, operands, h with
    | k :: kinds, o :: operands, h =>
      cases h.kind_eq
      cases h.operand_eq
      exact Checked.bind_eq_error.mpr (Or.inl (checkOperand_of_not_fits h.misfit))
  | succ p ih =>
    match kinds, operands, h with
    | k :: kinds, o :: operands, h =>
      have hfirst := h.earlier 0 (by omega) k o rfl rfl
      have hrest : IsFirstMisfit signals kinds operands p kind operand :=
        ⟨h.kind_eq, h.operand_eq, h.misfit, fun i hi => h.earlier (i + 1) (by omega)⟩
      rw [show position + (p + 1) = position + 1 + p by omega]
      exact Checked.bind_eq_error.mpr (Or.inr ⟨(), checkOperand_of_fits hfirst, ih hrest⟩)

/-- If there are as many operands as positions, they all fit or there is a leftmost one that does
not. -/
theorem fits_or_misfit (signals : Registry) (hlen : kinds.length = operands.length) :
    List.Forall₂ (Fits signals) kinds operands ∨
      ∃ p kind operand, IsFirstMisfit signals kinds operands p kind operand := by
  induction kinds generalizing operands with
  | nil =>
    rw [List.eq_nil_of_length_eq_zero hlen.symm]
    exact Or.inl .nil
  | cons k kinds ih =>
    match operands, hlen with
    | o :: operands, hlen =>
      by_cases hfirst : k.Fits signals o
      · rcases ih (Nat.succ.inj hlen) with hall | ⟨p, kind, operand, hp⟩
        · exact Or.inl (.cons hfirst hall)
        · refine Or.inr ⟨p + 1, kind, operand, hp.kind_eq, hp.operand_eq, hp.misfit, ?_⟩
          intro i hi k' o' hk ho
          cases i with
          | zero =>
            cases hk
            cases ho
            exact hfirst
          | succ i => exact hp.earlier i (by omega) k' o' hk ho
      · exact Or.inr ⟨0, k, o, rfl, rfl, hfirst, fun i hi => absurd hi (by omega)⟩

/-! ### Overloads -/

/-- The signatures that were inserted under a name, in the order of their first insertion. -/
def signaturesOf (history : List (String × Signature)) (name : String) : List Signature :=
  ((history.filter fun e => e.1 = name).map Prod.snd).eraseDups

/-- The table comes from an empty one or from that of the standard operations, and `history` is what
was inserted into it. The signatures of the standard operations are given by their letters. -/
inductive Inserted : OperationTable → List (String × Signature) → Prop
  | new : Inserted {} []
  | standard {history : List (String × Signature)}
      (h : history.map (fun e => (e.1, e.2.text)) = standardOps) : Inserted standard history
  | insert {t : OperationTable} {history : List (String × Signature)} (h : Inserted t history)
      (name : String) (signature : Signature) :
      Inserted (t.insert name signature) (history ++ [(name, signature)])

variable {t : OperationTable} {history : List (String × Signature)} {signature : Signature}
variable {other : String}

/-- **One insertion** adds the signature to the overloads of its name if it is new there. -/
theorem overloads_insert (t : OperationTable) (name : String) (signature : Signature)
    (other : String) :
    (t.insert name signature).overloads other =
      if name = other ∧ signature ∉ t.overloads other then t.overloads other ++ [signature]
      else t.overloads other := by
  have hmem : (name, signature) ∈ t.entries ↔ signature ∈ t.overloads name := by
    simp [overloads]
  unfold insert
  by_cases hold : signature ∈ t.overloads name
  · rw [if_pos (List.contains_iff_mem.mpr (hmem.mpr hold)), if_neg]
    rintro ⟨rfl, hnew⟩
    exact hnew hold
  · rw [if_neg fun h => hold (hmem.mp (List.contains_iff_mem.mp h))]
    by_cases hname : name = other
    · subst hname
      rw [if_pos ⟨rfl, hold⟩]
      simp [overloads]
    · simp [overloads, hname]

theorem signaturesOf_concat (history : List (String × Signature)) (name : String)
    (signature : Signature) (other : String) :
    signaturesOf (history ++ [(name, signature)]) other =
      if name = other ∧ signature ∉ signaturesOf history other then
        signaturesOf history other ++ [signature]
      else signaturesOf history other := by
  unfold signaturesOf
  by_cases hname : name = other
  · subst hname
    simp only [List.filter_append, List.map_append, List.mem_eraseDups, decide_true,
      List.filter_cons_of_pos, List.filter_nil, List.map_cons, List.map_nil, true_and]
    rw [eraseDups_concat, insertNew]
    simp only [List.contains_iff_mem, List.mem_eraseDups]
    split_ifs <;> rfl
  · simp [hname]

/-- **Any number of insertions** adds what is new, in order. -/
theorem overloads_foldl_insert (ops : List (String × Signature))
    (h : t.overloads other = signaturesOf history other) :
    (ops.foldl (fun t op => t.insert op.1 op.2) t).overloads other =
      signaturesOf (history ++ ops) other := by
  induction ops generalizing t history with
  | nil => simpa using h
  | cons op ops ih =>
    have hstep : (t.insert op.1 op.2).overloads other = signaturesOf (history ++ [op]) other := by
      rw [overloads_insert, signaturesOf_concat, h]
    simpa using ih hstep

/-- The standard operations with their signatures. -/
def standardInsertions : List (String × Signature) :=
  standardOps.filterMap fun op => (Signature.ofString? op.2).map fun s => (op.1, s)

theorem standard_eq : standard = standardInsertions.foldl (fun t op => t.insert op.1 op.2) {} := by
  unfold standard standardInsertions
  rw [List.foldl_filterMap]
  congr 1
  funext t op
  cases Signature.ofString? op.2 <;> rfl

theorem text_injective : Function.Injective Signature.text := by
  intro s s' h
  have hchars : s.map OperandKind.char = s'.map OperandKind.char := String.ofList_injective h
  refine List.map_injective_iff.mpr (fun k k' hk => ?_) hchars
  revert hk
  cases k <;> cases k' <;> decide

/-- The letters of the standard operations give all of their signatures. -/
theorem eq_standardInsertions (h : history.map (fun e => (e.1, e.2.text)) = standardOps) :
    history = standardInsertions := by
  have hall : standardInsertions.map (fun e => (e.1, e.2.text)) = standardOps := by decide
  refine List.map_injective_iff.mpr (fun e e' he => ?_) (h.trans hall.symm)
  exact Prod.ext (Prod.ext_iff.mp he).1 (text_injective (Prod.ext_iff.mp he).2)

theorem Inserted.overloads_eq (h : Inserted t history) (name : String) :
    t.overloads name = signaturesOf history name := by
  induction h with
  | new => rfl
  | standard h =>
    rw [eq_standardInsertions h, standard_eq]
    have hempty : ({} : OperationTable).overloads name = signaturesOf [] name := rfl
    exact overloads_foldl_insert standardInsertions hempty
  | insert _ n s ih => rw [overloads_insert, signaturesOf_concat, ih]

/-! ### Calls -/

/-- The earliest of the overloads with this number of positions. -/
structure IsEarliest (overloads : List Signature) (arity : Nat) (signature : Signature) : Prop where
  length_eq : signature.length = arity
  split : ∃ before after, overloads = before ++ signature :: after ∧ ∀ s ∈ before, s.length ≠ arity

/-- What the call of an operation with these overloads comes to. -/
inductive Outcome (overloads : List Signature) (signals : Registry) (name : String)
    (operands : List Operand) : Checked Error OperationCall → Prop
  | unknown (h : ∀ s ∈ overloads, s.length ≠ operands.length) :
      Outcome overloads signals name operands
        (.error (.refused (.unknownOperation name operands.length)))
  | accepted {signature : Signature} (hs : IsEarliest overloads operands.length signature)
      (hfits : List.Forall₂ (Fits signals) signature operands) :
      Outcome overloads signals name operands (.ok ⟨name, operands⟩)
  | invalid {signature : Signature} (hs : IsEarliest overloads operands.length signature)
      {p : Nat} {kind : OperandKind} {operand : Operand}
      (hp : IsFirstMisfit signals signature operands p kind operand) :
      Outcome overloads signals name operands
        (.error (.refused (.invalidOperand name p (complaint signals kind operand))))

theorem find?_eq_none_iff {overloads : List Signature} {arity : Nat} :
    overloads.find? (fun s => s.length == arity) = none ↔ ∀ s ∈ overloads, s.length ≠ arity := by
  simp [List.find?_eq_none]

theorem find?_eq_some_iff {overloads : List Signature} {arity : Nat} :
    overloads.find? (fun s => s.length == arity) = some signature ↔
      IsEarliest overloads arity signature := by
  rw [List.find?_eq_some_iff_append]
  constructor
  · rintro ⟨hlen, before, after, hsplit, hbefore⟩
    exact ⟨by simpa using hlen, before, after, hsplit, fun s hs => by simpa using hbefore s hs⟩
  · rintro ⟨hlen, before, after, hsplit, hbefore⟩
    exact ⟨by simpa using hlen, before, after, hsplit, fun s hs => by simpa using hbefore s hs⟩

theorem call_of_unknown (h : ∀ s ∈ t.overloads name, s.length ≠ operands.length) :
    t.call name operands signals =
      .error (.refused (.unknownOperation name operands.length)) := by
  unfold call
  rw [find?_eq_none_iff.mpr h]
  rfl

theorem call_of_earliest (hs : IsEarliest (t.overloads name) operands.length signature) :
    t.call name operands signals = do
      checkOperands signals name 0 signature operands
      return ⟨name, operands⟩ := by
  unfold call
  rw [find?_eq_some_iff.mpr hs]

theorem call_of_fits (hs : IsEarliest (t.overloads name) operands.length signature)
    (hfits : List.Forall₂ (Fits signals) signature operands) :
    t.call name operands signals = .ok ⟨name, operands⟩ := by
  rw [call_of_earliest hs, checkOperands_of_fits hfits]
  rfl

theorem call_of_misfit (hs : IsEarliest (t.overloads name) operands.length signature) {p : Nat}
    (hp : IsFirstMisfit signals signature operands p kind operand) :
    t.call name operands signals =
      .error (.refused (.invalidOperand name p (complaint signals kind operand))) := by
  rw [call_of_earliest hs, checkOperands_of_misfit hp, Nat.zero_add]
  rfl

theorem exists_outcome (overloads : List Signature) (signals : Registry) (name : String)
    (operands : List Operand) : ∃ result, Outcome overloads signals name operands result := by
  cases hfind : overloads.find? fun s => s.length == operands.length with
  | none => exact ⟨_, .unknown (find?_eq_none_iff.mp hfind)⟩
  | some signature =>
    have hs := find?_eq_some_iff.mp hfind
    rcases fits_or_misfit signals hs.length_eq with hfits | ⟨p, kind, operand, hp⟩
    · exact ⟨_, .accepted hs hfits⟩
    · exact ⟨_, .invalid hs hp⟩

/-- **A call comes to what its overloads say**, and to nothing else. -/
theorem call_eq_iff {result : Checked Error OperationCall} :
    t.call name operands signals = result ↔
      Outcome (t.overloads name) signals name operands result := by
  have hcall : ∀ {result}, Outcome (t.overloads name) signals name operands result →
      t.call name operands signals = result := by
    intro result h
    cases h with
    | unknown h => exact call_of_unknown h
    | accepted hs hfits => exact call_of_fits hs hfits
    | invalid hs hp => exact call_of_misfit hs hp
  refine ⟨?_, hcall⟩
  rintro rfl
  obtain ⟨result, hresult⟩ := exists_outcome (t.overloads name) signals name operands
  rwa [hcall hresult]

/-- **Calls and the history of the table.** The overloads of a name are what was inserted under it,
and they decide what a call comes to. -/
theorem Inserted.calls (h : Inserted t history) (name : String) (operands : List Operand)
    (signals : Registry) :
    t.overloads name = ((history.filter fun e => e.1 = name).map Prod.snd).eraseDups ∧
      ∀ result, t.call name operands signals = result ↔
        Outcome (t.overloads name) signals name operands result :=
  ⟨h.overloads_eq name, fun _ => call_eq_iff⟩

/-- What was inserted into the standard table for an operation with two signatures of one length. -/
def mixedHistory : List (String × Signature) :=
  standardInsertions ++ [("mix", [.word, .bit])] ++ [("mix", [.bit, .word])] ++
    [("add", [.word])] ++ [("mix", [.word, .bit])]

/-- The standard table with the operation `mix`. -/
def mixedTable : OperationTable :=
  (((standard.insert "mix" [.word, .bit]).insert "mix" [.bit, .word]).insert "add" [.word]).insert
    "mix" [.word, .bit]

/-- A word and a bit. -/
def mixedSignals : Registry :=
  ⟨[{ name := "w", dataType := .word, behavior := .wire },
    { name := "b", dataType := .bit, behavior := .wire }]⟩

/-- The later signature would take the operands, but the earlier one is asked. -/
theorem calls_mixed :
    Inserted mixedTable mixedHistory ∧
      mixedTable.overloads "mix" = [[.word, .bit], [.bit, .word]] ∧
      mixedTable.call "mix" [.signal ⟨1⟩, .signal ⟨0⟩] mixedSignals =
        .error (.refused
          (.invalidOperand "mix" 0 "must be a word signal or 16-bit immediate")) := by
  have hinserted : Inserted mixedTable mixedHistory :=
    ((((Inserted.standard (by decide)).insert _ _).insert _ _).insert _ _).insert _ _
  obtain ⟨hoverloads, hcall⟩ := hinserted.calls "mix" [.signal ⟨1⟩, .signal ⟨0⟩] mixedSignals
  have hmix : mixedTable.overloads "mix" = [[.word, .bit], [.bit, .word]] := by
    rw [hoverloads]
    decide
  refine ⟨hinserted, hmix, (hcall _).mpr ?_⟩
  rw [hmix]
  have hfirst : IsFirstMisfit mixedSignals [.word, .bit] [.signal ⟨1⟩, .signal ⟨0⟩] 0 .word
      (.signal ⟨1⟩) := by
    refine ⟨rfl, rfl, fun h => ?_, fun i hi => absurd hi (by omega)⟩
    cases h with
    | wordSignal hs hword =>
      cases hs
      cases hword
  exact .invalid ⟨rfl, [], [[.bit, .word]], rfl, nofun⟩ hfirst

end OperationTable

end AluPlacement
