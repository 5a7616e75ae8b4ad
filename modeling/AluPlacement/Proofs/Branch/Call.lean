import AluPlacement.Instruction.Build
import AluPlacement.Proofs.Edit

/-! # What a branch call denotes

`BranchCall` are the calls that give an instruction its branch. `BranchCall.label call value` is the
label that a call denotes where the signals have these values; no label stands for the next
instruction. A branch *means* a choice of labels if its entry for the values of its conditions is
the chosen one, whatever a bit without a condition reads (`Branch.Means`).

An instruction is built by calls of the front end, answered or refused. Its branch means what the
first branch call denotes, and the next instruction if there was none
(`Instruction.hasBranch_built`). -/

namespace AluPlacement

/-- The condition holds for these values of the signals. -/
def BranchCondition.holds (value : SignalId → Bool) : BranchCondition → Bool
  | always => true
  | never => false
  | signal s inverted => value s ^^ inverted

/-- A call that gives an instruction its branch. -/
inductive BranchCall where
  | goTo (label : String)
  | ifThen (cond : SignalId) (label : String)
  | ifNot (cond : SignalId) (label : String)
  | ifElse (cond : SignalId) (yes no : Option String)
  | caseOf (cond1 cond0 : SignalId) (labels : Quad (Option String))
  | branchWhen (cond : BranchCondition) (yes no : Option String)
  | branchCase (cond1 cond0 : BranchCondition) (labels : Quad (Option String))
  deriving DecidableEq, Repr

namespace BranchCall

/-- The call on an instruction. -/
def run : BranchCall → Edit Instruction Error Unit
  | goTo label => Instruction.goTo label
  | ifThen cond label => Instruction.ifThen cond label
  | ifNot cond label => Instruction.ifNot cond label
  | ifElse cond yes no => Instruction.ifElse cond yes no
  | caseOf cond1 cond0 labels => Instruction.caseOf cond1 cond0 labels
  | branchWhen cond yes no => Instruction.branchWhen cond yes no
  | branchCase cond1 cond0 labels => Instruction.branchCase cond1 cond0 labels

/-- The label that the call denotes for these values of the signals. -/
def label (value : SignalId → Bool) : BranchCall → Option String
  | goTo label => some label
  | ifThen cond label => if value cond then some label else none
  | ifNot cond label => if value cond then none else some label
  | ifElse cond yes no => if value cond then yes else no
  | caseOf cond1 cond0 labels => labels.get (value cond1) (value cond0)
  | branchWhen cond yes no => if cond.holds value then yes else no
  | branchCase cond1 cond0 labels => labels.get (cond1.holds value) (cond0.holds value)

/-- The signal of the first condition that the call names. -/
def cond0? : BranchCall → Option SignalId
  | goTo _ => none
  | ifThen cond _ | ifNot cond _ | ifElse cond _ _ => some cond
  | caseOf _ cond0 _ => some cond0
  | branchWhen cond _ _ => cond.signal?
  | branchCase _ cond0 _ => cond0.signal?

/-- The signal of the second condition that the call names. -/
def cond1? : BranchCall → Option SignalId
  | caseOf cond1 _ _ => some cond1
  | branchCase cond1 _ _ => cond1.signal?
  | _ => none

/-- The call names two different signals, or at most one. -/
def IsDistinct (call : BranchCall) : Prop := ∀ s, call.cond0? = some s → call.cond1? ≠ some s

end BranchCall

/-! ### The meaning of a branch -/

/-- The bit reads the condition; without one it reads anything. -/
def Reads (value : SignalId → Bool) (cond : Option SignalId) (bit : Bool) : Prop :=
  ∀ s, cond = some s → bit = value s

/-- The branch has labels for targets, and its entry for the values of its conditions is the one
that is chosen for them. -/
structure Branch.Means (label : (SignalId → Bool) → Option String) (b : Branch) : Prop where
  ofLabels : ∃ labels : Quad (Option String), b.targets = labels.map Target.ofLabel?
  get : ∀ value bit1 bit0, Reads value b.cond1 bit1 → Reads value b.cond0 bit0 →
    b.targets.get bit1 bit0 = Target.ofLabel? (label value)

/-- A condition has the value that its register gives it. -/
theorem BranchCondition.value_of_reads {value : SignalId → Bool} {cond : BranchCondition}
    {bit : Bool} (h : Reads value cond.signal? bit) : cond.value bit = cond.holds value := by
  cases cond with
  | signal s inverted => rw [h s rfl]; rfl
  | _ => rfl

/-- **Every branch call sets a table with the meaning of the call.** -/
theorem BranchCall.run_eq (call : BranchCall) :
    ∃ labels, call.run = Instruction.setBranch call.cond0? call.cond1? labels ∧
      ∀ value bit1 bit0, Reads value call.cond1? bit1 → Reads value call.cond0? bit0 →
        labels.get bit1 bit0 = call.label value := by
  cases call with
  | goTo label => exact ⟨_, rfl, fun value bit1 bit0 _ _ => Quad.get_const _ bit1 bit0⟩
  | ifThen cond label | ifNot cond label | ifElse cond yes no =>
    refine ⟨_, rfl, fun value bit1 bit0 _ h0 => ?_⟩
    rw [Quad.get_ofFn, h0 cond rfl]
    rfl
  | caseOf cond1 cond0 labels =>
    refine ⟨_, rfl, fun value bit1 bit0 h1 h0 => ?_⟩
    rw [h1 cond1 rfl, h0 cond0 rfl]
    rfl
  | branchWhen cond yes no =>
    refine ⟨_, rfl, fun value bit1 bit0 _ h0 => ?_⟩
    rw [Quad.get_ofFn, BranchCondition.value_of_reads h0]
    rfl
  | branchCase cond1 cond0 labels =>
    refine ⟨_, rfl, fun value bit1 bit0 h1 h0 => ?_⟩
    rw [Quad.get_ofFn, BranchCondition.value_of_reads h1, BranchCondition.value_of_reads h0]
    rfl

/-! ### Instructions that are built by calls -/

namespace Instruction

/-- A call of the front end on an instruction. -/
inductive Call where
  | setOperation (call : OperationCall)
  | addDestination (signals : Registry) (id : SignalId)
  | addOverride (signals : Registry) (id : SignalId) (value : Bool)
  | addLatch (signals : Registry) (id : SignalId)
  | setFlag (flag : Flag)
  | setOutputBit (output : OutputBit)
  | branch (call : BranchCall)
  | setLocation (location : Location)
  | finalize
  /-- The instruction gets its position in a program. -/
  | setIndex (index : Nat)

/-- The instruction after a call, whether it answered or not. -/
def Call.apply : Call → Instruction → Instruction
  | .setOperation call => (Instruction.setOperation call).after
  | .addDestination signals id => (Instruction.addDestination signals id).after
  | .addOverride signals id value => (Instruction.addOverride signals id value).after
  | .addLatch signals id => (Instruction.addLatch signals id).after
  | .setFlag flag => (Instruction.setFlag flag).after
  | .setOutputBit output => (Instruction.setOutputBit output).after
  | .branch call => call.run.after
  | .setLocation location => fun i => { i with location := location }
  | .finalize => Instruction.finalize
  | .setIndex index => fun i => { i with index := some index }

/-- The branch call, if the call is one. -/
def Call.branch? : Call → Option BranchCall
  | .branch call => some call
  | _ => none

/-- The instruction that calls make of a new one. -/
def built (label : Option String) (calls : List Call) : Instruction :=
  calls.foldl (fun i c => c.apply i) { label := label }

/-- The branch call that counts: the first one, since later ones are refused. -/
def branchOf? (calls : List Call) : Option BranchCall := calls.findSome? Call.branch?

theorem branchOf?_cons (c : Call) (calls : List Call) :
    branchOf? (c :: calls) = c.branch?.or (branchOf? calls) := by
  unfold branchOf?
  rw [List.findSome?_cons]
  cases c.branch? <;> rfl

/-- The label that an instruction with this branch call, or none, denotes. -/
def labelOf (call? : Option BranchCall) (value : SignalId → Bool) : Option String :=
  call?.bind (BranchCall.label value)

/-- The branch of the instruction is the one of the branch call, if there was one. -/
structure HasBranch (call? : Option BranchCall) (i : Instruction) : Prop where
  isSet : i.branchSet = call?.isSome
  cond0 : i.branch.cond0 = call?.bind BranchCall.cond0?
  cond1 : i.branch.cond1 = call?.bind BranchCall.cond1?
  means : i.branch.Means (labelOf call?)

theorem hasBranch_new (label : Option String) : HasBranch none { label := label } where
  isSet := rfl
  cond0 := rfl
  cond1 := rfl
  means := ⟨⟨.const none, rfl⟩, fun _ bit1 bit0 _ _ => Quad.get_const _ bit1 bit0⟩

variable {call? : Option BranchCall}

theorem HasBranch.distinct {i : Instruction} (h : HasBranch call? i)
    (hcall : ∀ call, call? = some call → call.IsDistinct) :
    ∀ s, i.branch.cond0 = some s → i.branch.cond1 ≠ some s := by
  rw [h.cond0, h.cond1]
  cases call? with
  | none => nofun
  | some call => exact hcall call rfl

theorem after_setBranch {i : Instruction} (h : i.branchSet = false) (cond0 cond1 : Option SignalId)
    (labels : Quad (Option String)) :
    (setBranch cond0 cond1 labels).after i =
      { i with branchSet := true, branch := ⟨cond0, cond1, labels.map Target.ofLabel?⟩ } := by
  have hask : Edit.ask (fun i : Instruction =>
      Checked.require (i.branchSet = false) Error.branchAlreadySet) i = .ok () i :=
    Edit.ask_eq_ok.mpr ⟨Checked.require_eq_ok.mpr h, rfl⟩
  exact Edit.after_of_ok (Edit.bind_of_ok hask _)

/-- The first branch call sets the branch, and later ones are refused. -/
theorem HasBranch.branchCall {i : Instruction} (h : HasBranch call? i) (call : BranchCall) :
    HasBranch (call?.or (some call)) (call.run.after i) := by
  obtain ⟨labels, hrun, hlabels⟩ := call.run_eq
  rw [hrun]
  cases call? with
  | some first =>
    refine Edit.after_ask_bind h fun _ hunset => ?_
    have hset : i.branchSet = true := h.isSet
    rw [hset] at hunset
    exact absurd (Checked.require_eq_ok.mp hunset) (by decide)
  | none =>
    rw [after_setBranch h.isSet]
    refine ⟨rfl, rfl, rfl, ⟨labels, rfl⟩, fun value bit1 bit0 h1 h0 => ?_⟩
    rw [Quad.get_map, hlabels value bit1 bit0 h1 h0]
    rfl

/-- A call that is no branch call keeps the branch. -/
theorem HasBranch.apply {i : Instruction} (h : HasBranch call? i) (c : Call) :
    HasBranch (call?.or c.branch?) (c.apply i) := by
  -- An edit of another part has the same fields that `HasBranch` reads.
  have hkeep : ∀ {j : Instruction}, j.branchSet = i.branchSet → j.branch = i.branch →
      HasBranch (call?.or none) j := by
    intro j hset hbranch
    rw [Option.or_none]
    exact ⟨hset ▸ h.isSet, hbranch ▸ h.cond0, hbranch ▸ h.cond1, hbranch ▸ h.means⟩
  cases c with
  | branch call => exact h.branchCall call
  | setLocation _ | finalize | setIndex _ => exact hkeep rfl rfl
  | _ => exact Edit.after_ask_bind (hkeep rfl rfl) fun _ _ => hkeep rfl rfl

theorem HasBranch.foldl {i : Instruction} (h : HasBranch call? i) (calls : List Call) :
    HasBranch (call?.or (branchOf? calls)) (calls.foldl (fun i c => c.apply i) i) := by
  induction calls generalizing call? i with
  | nil => simpa [branchOf?] using h
  | cons c calls ih =>
    have hstep := ih (h.apply c)
    rwa [Option.or_assoc, ← branchOf?_cons] at hstep

/-- **The branch of a built instruction is that of the first branch call.** -/
theorem hasBranch_built (label : Option String) (calls : List Call) :
    HasBranch (branchOf? calls) (built label calls) :=
  (hasBranch_new label).foldl calls

end Instruction

end AluPlacement
