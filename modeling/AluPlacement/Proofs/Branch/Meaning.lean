import AluPlacement.Proofs.Branch.Call
import AluPlacement.Proofs.Branch.Resolved

/-! # Branches keep their meaning

From a branch call to the hardware a branch goes through three forms: the table that the call sets,
the table of indexes after resolution, and the shape that encodes it. Turning a branch round keeps
what it means (`Branch.Means.align`) and puts its conditions into the order of the slots
(`Branch.align_inOrder`), so the entry of the resolved table for what the branch registers read is
the index that the call denotes. A shape decodes to the table it was made for, and no other shape
with that table tests fewer registers (`BranchShape.decode_classify`,
`BranchShape.tested_classify_le`). -/

namespace AluPlacement

/-! ### The order of the conditions -/

namespace Branch

variable {label : (SignalId → Bool) → Option String} {slots : List SignalId} {b : Branch}

/-- Every target is a label or the next instruction. -/
def IsUnresolved (b : Branch) : Prop :=
  ∃ labels : Quad (Option String), b.targets = labels.map Target.ofLabel?

theorem IsUnresolved.swapped (h : b.IsUnresolved) : b.swapped.IsUnresolved := by
  obtain ⟨labels, hlabels⟩ := h
  refine ⟨labels.swapBits, ?_⟩
  show b.targets.swapBits = _
  rw [hlabels]
  rfl

theorem IsUnresolved.align (h : b.IsUnresolved) (slots : List SignalId) :
    (b.align slots).IsUnresolved := by
  unfold Branch.align
  split_ifs
  · exact h.swapped
  · exact h

theorem Means.swapped (h : b.Means label) : b.swapped.Means label := by
  refine ⟨IsUnresolved.swapped h.ofLabels, fun value bit1 bit0 h1 h0 => ?_⟩
  show b.targets.swapBits.get bit1 bit0 = _
  rw [Quad.get_swapBits]
  exact h.get value bit0 bit1 h0 h1

theorem Means.align (h : b.Means label) (slots : List SignalId) : (b.align slots).Means label := by
  unfold Branch.align
  split_ifs
  · exact h.swapped
  · exact h

/-- The slot of a condition among at most two. -/
theorem slot?_eq {s : SignalId} (hslots : slots.length ≤ 2) (hs : s ∈ slots) :
    slot? slots (some s) = some 0 ∧ slots[0]? = some s ∨
      slot? slots (some s) = some 1 ∧ slots[1]? = some s := by
  obtain ⟨k, hk⟩ := Option.isSome_iff_exists.mp (List.isSome_idxOf?.mpr hs)
  obtain ⟨hlt, hget, -⟩ := List.idxOf?_eq_some_iff.mp hk
  have hsome : slots[k]? = some s := by rw [List.getElem?_eq_getElem hlt, hget]
  have hk2 : k = 0 ∨ k = 1 := by omega
  rcases hk2 with rfl | rfl
  · exact Or.inl ⟨hk, hsome⟩
  · exact Or.inr ⟨hk, hsome⟩

/-- **The conditions of an aligned branch are in the order of the slots.** -/
theorem align_inOrder (hslots : slots.length ≤ 2) (hmem : ∀ s ∈ b.conditions, s ∈ slots)
    (hdistinct : ∀ s, b.cond0 = some s → b.cond1 ≠ some s) :
    (∀ s, (b.align slots).cond0 = some s → slots[0]? = some s) ∧
      ∀ s, (b.align slots).cond1 = some s → slots[1]? = some s := by
  obtain ⟨cond0, cond1, targets⟩ := b
  simp only [conditions, List.mem_append, Option.mem_toList] at hmem hdistinct
  have hnone : slot? slots none = none := rfl
  -- Of two conditions one is in each slot, so the branch is in order or reversed.
  cases cond0 with
  | none =>
    cases cond1 with
    | none => simp [align, isReversed, hnone]
    | some s1 =>
      rcases slot?_eq hslots (hmem s1 (by simp)) with ⟨h1, hs1⟩ | ⟨h1, hs1⟩ <;>
        simp [align, isReversed, hnone, h1, hs1, swapped]
  | some s0 =>
    cases cond1 with
    | none =>
      rcases slot?_eq hslots (hmem s0 (by simp)) with ⟨h0, hs0⟩ | ⟨h0, hs0⟩ <;>
        simp [align, isReversed, hnone, h0, hs0, swapped]
    | some s1 =>
      have hne : s0 ≠ s1 := fun h => hdistinct s0 rfl (h ▸ rfl)
      rcases slot?_eq hslots (hmem s0 (by simp)) with ⟨h0, hs0⟩ | ⟨h0, hs0⟩ <;>
        rcases slot?_eq hslots (hmem s1 (by simp)) with ⟨h1, hs1⟩ | ⟨h1, hs1⟩
      · exact absurd (Option.some.inj (hs0.symm.trans hs1)) hne
      · simp [align, isReversed, h0, h1, hs0, hs1]
      · simp [align, isReversed, h0, h1, hs0, hs1, swapped]
      · exact absurd (Option.some.inj (hs0.symm.trans hs1)) hne

end Branch

/-! ### Targets as indexes -/

namespace Quad

variable {α : Type}

theorem get_mem_toList (q : Quad α) (bit1 bit0 : Bool) : q.get bit1 bit0 ∈ q.toList := by
  cases bit1 <;> cases bit0 <;> simp [get, toList]

theorem sequence?_eq_some {q : Quad (Option α)} {r : Quad α}
    (h : ∀ bit1 bit0, q.get bit1 bit0 = some (r.get bit1 bit0)) : q.sequence? = some r := by
  obtain ⟨q0, q1, q2, q3⟩ := q
  have h0 : q0 = some r.t0 := h false false
  have h1 : q1 = some r.t1 := h false true
  have h2 : q2 = some r.t2 := h true false
  have h3 : q3 = some r.t3 := h true true
  rw [h0, h1, h2, h3]
  rfl

end Quad

/-- The instruction at which instruction `i` continues if it chooses this label: the first one that
carries it, and the next one, round the end of the program, without a label. -/
def destination (program : List Instruction) (i : Nat) : Option String → Nat
  | none => (i + 1) % program.length
  | some name => program.findIdx fun inst => inst.label == some name

namespace Target

theorem ofLabel?_inj {l l' : Option String} (h : ofLabel? l = ofLabel? l') : l = l' := by
  cases l <;> cases l' <;> simp_all [ofLabel?]

theorem resolve_ofLabel? {program : List Instruction} {label : Option String}
    (h : ∀ name, label = some name → some name ∈ program.map Instruction.label) (i : Nat) :
    (ofLabel? label).resolve (program.map Instruction.label) i =
      .index (destination program i label) := by
  cases label with
  | none => simp [ofLabel?, resolve, destination]
  | some name =>
    obtain ⟨k, hk⟩ := Option.isSome_iff_exists.mp (List.isSome_idxOf?.mpr (h name rfl))
    have hfind : program.findIdx? ((· == some name) ∘ Instruction.label) = some k := by
      rw [← List.findIdx?_map]
      exact hk
    have hindex : destination program i (some name) = k :=
      (List.findIdx?_eq_some_iff_findIdx_eq.mp hfind).2
    rw [hindex]
    simp only [ofLabel?, resolve, indexOfLabel?, hk]

end Target

theorem destination_lt {program : List Instruction} {i : Nat} {label : Option String}
    (hi : i < program.length)
    (h : ∀ name, label = some name → some name ∈ program.map Instruction.label) :
    destination program i label < program.length := by
  cases label with
  | none => exact Nat.mod_lt _ (by omega)
  | some name =>
    obtain ⟨inst, hinst, hlabel⟩ := List.mem_map.mp (h name rfl)
    exact List.findIdx_lt_length_of_exists ⟨inst, hinst, by simp [hlabel]⟩

namespace Instruction

variable {slots : List SignalId} {program : List Instruction} {inst : Instruction}

/-- **The indexes of a resolved branch.** Every entry is the destination of the label that stood in
its place. -/
theorem targetIndexes?_of_unresolved (i : Nat)
    (hres : inst.IsResolvable slots (program.map Instruction.label))
    (hlabels : inst.branch.IsUnresolved) :
    ∃ t, (inst.resolved slots (program.map Instruction.label) i).branch.targetIndexes? = some t ∧
      ∀ bit1 bit0, ∃ l, (inst.branch.align slots).targets.get bit1 bit0 = Target.ofLabel? l ∧
        (∀ name, l = some name → some name ∈ program.map Instruction.label) ∧
        t.get bit1 bit0 = destination program i l := by
  obtain ⟨labels, hlabels⟩ := hlabels.align slots
  have hget : ∀ bit1 bit0, (inst.branch.align slots).targets.get bit1 bit0 =
      Target.ofLabel? (labels.get bit1 bit0) := fun bit1 bit0 => by rw [hlabels, Quad.get_map]
  have hcarried : ∀ bit1 bit0 name, labels.get bit1 bit0 = some name →
      some name ∈ program.map Instruction.label := by
    intro bit1 bit0 name hname
    refine hres.labels name ((Branch.mem_targets_align slots _ _).mp ?_)
    have hentry := Quad.get_mem_toList (inst.branch.align slots).targets bit1 bit0
    rwa [hget, hname] at hentry
  refine ⟨labels.map (destination program i), Quad.sequence?_eq_some fun bit1 bit0 => ?_,
    fun bit1 bit0 =>
      ⟨labels.get bit1 bit0, hget bit1 bit0, hcarried bit1 bit0, Quad.get_map _ _ _ _⟩⟩
  simp only [Instruction.resolved, Quad.get_map, hget,
    Target.resolve_ofLabel? (hcarried bit1 bit0)]
  rfl

/-- The indexes of a resolved branch, where the branch means a choice of labels. -/
theorem targetIndexes?_resolved (i : Nat) {label : (SignalId → Bool) → Option String}
    (hres : inst.IsResolvable slots (program.map Instruction.label))
    (hmeans : inst.branch.Means label) :
    ∃ t, (inst.resolved slots (program.map Instruction.label) i).branch.targetIndexes? = some t ∧
      ∀ bit1 bit0 l, (inst.branch.align slots).targets.get bit1 bit0 = Target.ofLabel? l →
        t.get bit1 bit0 = destination program i l := by
  obtain ⟨t, ht, hget⟩ := targetIndexes?_of_unresolved i hres hmeans.ofLabels
  refine ⟨t, ht, fun bit1 bit0 l hl => ?_⟩
  obtain ⟨l', hl', -, hdest⟩ := hget bit1 bit0
  rw [hdest, Target.ofLabel?_inj (hl'.symm.trans hl)]

end Instruction

/-! ### Shapes -/

namespace BranchShape

/-- The targets of instruction `index` that a shape encodes. -/
def decode (index : Nat) : BranchShape → Quad Nat
  | fallthrough => .const (index + 1)
  | jump target => .const target
  | single register taken notTaken =>
    .ofFn fun bit1 bit0 => if (if register.val = 0 then bit0 else bit1) then taken else notTaken
  | case targets => targets

/-- The number of branch registers that a shape tests. -/
def tested : BranchShape → Nat
  | fallthrough | jump _ => 0
  | single _ _ _ => 1
  | case _ => 2

theorem tested_le_two (shape : BranchShape) : shape.tested ≤ 2 := by
  cases shape <;> simp [tested]

theorem decode_classify (index : Nat) (t : Quad Nat) : (classify index t).decode index = t := by
  obtain ⟨t0, t1, t2, t3⟩ := t
  simp only [classify]
  split_ifs with hall hnext h0 h1
  · obtain ⟨rfl, rfl, rfl⟩ := hall
    rw [hnext]
    rfl
  · obtain ⟨rfl, rfl, rfl⟩ := hall
    rfl
  · obtain ⟨rfl, rfl⟩ := h0
    rfl
  · obtain ⟨rfl, rfl⟩ := h1
    rfl
  · rfl

/-- Four equal entries need no test. -/
theorem tested_classify_const (index target : Nat) :
    (classify index (.const target)).tested = 0 := by
  simp only [classify, Quad.const, and_self, if_true]
  by_cases h : target = index + 1 <;> simp [h, tested]

/-- **No shape with the same targets tests fewer registers.** -/
theorem tested_classify_le (index : Nat) (shape : BranchShape) :
    (classify index (shape.decode index)).tested ≤ shape.tested := by
  cases shape with
  | fallthrough => exact Nat.le_of_eq (tested_classify_const index (index + 1))
  | jump target => exact Nat.le_of_eq (tested_classify_const index target)
  | single register taken notTaken =>
    match register with
    | 0 =>
      simp only [decode, classify, Quad.ofFn]
      split_ifs <;> simp_all [tested]
    | 1 =>
      simp only [decode, classify, Quad.ofFn]
      split_ifs <;> simp_all [tested]
  | case targets => exact tested_le_two _

end BranchShape

/-! ### From the call to the shape -/

/-- **A branch keeps its meaning from the call to the shape.** -/
theorem resolveBranches_meaning {ε : Type} {signals : Registry} {slots : List SignalId}
    {program program' : List Instruction} (hslots : slots.length ≤ 2)
    (hok : (resolveBranches signals slots program : Checked ε _) = .ok (program', []))
    {i : Nat} {label : Option String} {calls : List Instruction.Call}
    (hi : program[i]? = some (.built label calls))
    (hdistinct : ∀ call, Instruction.branchOf? calls = some call → call.IsDistinct) :
    ∃ inst t, program'[i]? = some inst ∧ inst.branch.targetIndexes? = some t ∧
      (∀ value bit1 bit0, Reads value slots[1]? bit1 → Reads value slots[0]? bit0 →
        t.get bit1 bit0 =
          destination program i (Instruction.labelOf (Instruction.branchOf? calls) value)) ∧
      ∀ index, (Instruction.built label calls).index = some index →
        ∃ shape, inst.branchShape? = some shape ∧ shape.decode index = t ∧
          ∀ other : BranchShape, other.decode index = t → shape.tested ≤ other.tested := by
  obtain ⟨hres, rfl⟩ := resolveBranches_eq_nil.mp hok
  have hbuilt := Instruction.hasBranch_built label calls
  have hinst := hres _ (List.mem_of_getElem? hi)
  obtain ⟨t, ht, hget⟩ := Instruction.targetIndexes?_resolved i hinst hbuilt.means
  refine ⟨_, t, by simp [hi], ht, fun value bit1 bit0 h1 h0 => ?_, fun index hindex => ?_⟩
  · obtain ⟨horder0, horder1⟩ := Branch.align_inOrder hslots hinst.conditions
      (hbuilt.distinct hdistinct)
    exact hget bit1 bit0 _ ((hbuilt.means.align slots).get value bit1 bit0
      (fun s hs => h1 s (horder1 s hs)) fun s hs => h0 s (horder0 s hs))
  · refine ⟨BranchShape.classify index t, ?_, BranchShape.decode_classify index t, ?_⟩
    · have hkept : (Instruction.resolved slots (program.map Instruction.label) i
          (.built label calls)).index = some index := hindex
      simp [Instruction.branchShape?, hkept, ht]
    · rintro other rfl
      exact BranchShape.tested_classify_le index other

/-- Calls that give a branch on signals 0 and 1, the first of them inverted. -/
def crossedCalls : List Instruction.Call :=
  [.branch (.branchCase (.signal ⟨0⟩ true) (.signal ⟨1⟩ false)
    ⟨none, some "end", some "start", some "end"⟩), .setIndex 0]

/-- A program with the branch of `crossedCalls`. -/
def crossedProgram : List Instruction :=
  [.built (some "start") crossedCalls, .built none [], .built (some "end") []]

/-- A branch whose conditions are in the slots in the other order. -/
theorem resolveBranches_meaning_crossed :
    ∃ program', (resolveBranches {} [⟨0⟩, ⟨1⟩] crossedProgram : Checked Error _) =
        .ok (program', []) ∧
      ∃ inst t, program'[0]? = some inst ∧ inst.branch.targetIndexes? = some t ∧
        (∀ value, t.get (value ⟨1⟩) (value ⟨0⟩) = destination crossedProgram 0
          (Instruction.labelOf (Instruction.branchOf? crossedCalls) value)) ∧
        ∃ shape, inst.branchShape? = some shape ∧ shape.decode 0 = t ∧
          ∀ other : BranchShape, other.decode 0 = t → shape.tested ≤ other.tested := by
  have hok : (resolveBranches {} [⟨0⟩, ⟨1⟩] crossedProgram : Checked Error _) = .ok (_, []) := rfl
  have hi : crossedProgram[0]? = some (.built (some "start") crossedCalls) := rfl
  have hdistinct : ∀ call, Instruction.branchOf? crossedCalls = some call → call.IsDistinct := by
    rintro _ ⟨⟩ s hs hs'
    have hsame : (⟨1⟩ : SignalId) = ⟨0⟩ := Option.some.inj (hs.trans hs'.symm)
    exact absurd hsame (by decide)
  obtain ⟨inst, t, hinst, ht, hget, hshape⟩ :=
    resolveBranches_meaning (by decide) hok hi hdistinct
  refine ⟨_, hok, inst, t, hinst, ht, fun value => ?_, hshape 0 rfl⟩
  refine hget value _ _ ?_ ?_ <;> (rintro s ⟨⟩; rfl)

end AluPlacement
