import AluPlacement.Proofs.Branch.Call
import AluPlacement.Proofs.Branch.Resolved
import Mathlib.Data.List.Nodup

/-! # What calls make of an instruction

Whatever calls build an instruction, answered or refused:

* its stores have no more entries than there is room for, and no signal twice (`hasSets_built`);
* one branch call at most answers (`Answers.unique`), and the conditions of the instruction are the
  signals that it names (`exists_answers`);
* a bit without a condition makes no difference to the targets, and resolution keeps this
  (`Branch.IgnoresAbsent`). -/

namespace AluPlacement

/-! ### Stores without repetition -/

/-- The store has room for `n` entries, which have different keys. -/
structure Pool.IsSet {α : Type} (p : Pool α) (n : Nat) (key : α → SignalId) : Prop where
  capacity : p.capacity = n
  room : p.entries.length ≤ n
  nodup : (p.entries.map key).Nodup

theorem Pool.IsSet.append {α : Type} {p : Pool α} {n : Nat} {key : α → SignalId} (h : p.IsSet n key)
    {a : α} (hroom : p.entries.length < p.capacity) (hnew : key a ∉ p.entries.map key) :
    (p.append a).IsSet n key := by
  have hlen : p.entries.length < n := h.capacity ▸ hroom
  refine ⟨h.capacity, ?_, ?_⟩
  · show (p.entries ++ [a]).length ≤ n
    rw [List.length_append, List.length_singleton]
    omega
  · show ((p.entries ++ [a]).map key).Nodup
    rw [List.map_append, List.map_singleton]
    refine List.nodup_append.mpr ⟨h.nodup, List.nodup_singleton _, fun x hx y hy => ?_⟩
    rw [List.mem_singleton.mp hy]
    rintro rfl
    exact hnew hx

namespace Instruction

theorem requireNew_eq_ok {α : Type} {pool : Pool α} {isPresent : Bool} {signals : Registry}
    {id : SignalId} {repeated : String → Error} {a : Unit}
    (h : requireNew pool isPresent signals id repeated = .ok a) :
    pool.entries.length < pool.capacity ∧ isPresent = false := by
  unfold requireNew at h
  split_ifs at h with hfull hpresent
  · cases h
  · obtain ⟨name, -, h⟩ := Checked.bind_eq_ok.mp h
    cases h
  · refine ⟨?_, by simpa using hpresent⟩
    simpa [Pool.isFull] using hfull

/-- The stores of the instruction have no more entries than there is room for, and none twice. -/
structure HasSets (i : Instruction) : Prop where
  destinations : i.destinations.IsSet 9 id
  overrides : i.overrides.IsSet 4 Prod.fst
  latches : i.latches.IsSet 13 id

/-- What one call keeps. -/
theorem HasSets.apply {i : Instruction} (h : i.HasSets) (c : Call) : (c.apply i).HasSets := by
  cases c with
  | addDestination signals d =>
    refine Edit.after_ask_bind h fun _ hnew => ?_
    obtain ⟨hroom, hfresh⟩ := requireNew_eq_ok hnew
    refine ⟨h.destinations.append hroom ?_, h.overrides, h.latches⟩
    simpa [Pool.contains] using hfresh
  | addOverride signals o value =>
    refine Edit.after_ask_bind h fun _ hnew => ?_
    obtain ⟨hroom, hfresh⟩ := requireNew_eq_ok hnew
    refine ⟨h.destinations, h.overrides.append hroom fun hmem => ?_, h.latches⟩
    obtain ⟨p, hp, hpo⟩ := List.mem_map.mp hmem
    exact List.any_eq_false.mp hfresh p hp (by simpa using hpo)
  | addLatch signals l =>
    refine Edit.after_ask_bind h fun _ hnew => ?_
    obtain ⟨hroom, hfresh⟩ := requireNew_eq_ok hnew
    refine ⟨h.destinations, h.overrides, h.latches.append hroom ?_⟩
    simpa [Pool.contains] using hfresh
  | branch call =>
    obtain ⟨labels, hrun, -⟩ := call.run_eq
    show (call.run.after i).HasSets
    rw [hrun]
    exact Edit.after_ask_bind h fun _ _ => ⟨h.destinations, h.overrides, h.latches⟩
  | setLocation _ | finalize | setIndex _ => exact ⟨h.destinations, h.overrides, h.latches⟩
  | _ => exact Edit.after_ask_bind h fun _ _ => ⟨h.destinations, h.overrides, h.latches⟩

/-- **No calls fill a store beyond its room or put a signal into it twice.** -/
theorem hasSets_built (label : Option String) (calls : List Call) :
    (built label calls).HasSets := by
  have hall : ∀ i : Instruction, i.HasSets → (calls.foldl (fun i c => c.apply i) i).HasSets := by
    induction calls with
    | nil => exact fun i hi => hi
    | cons c calls ih => exact fun i hi => ih (c.apply i) (hi.apply c)
  refine hall _ ⟨⟨rfl, ?_, ?_⟩, ⟨rfl, ?_, ?_⟩, ⟨rfl, ?_, ?_⟩⟩ <;> simp

/-! ### The branch call that answers -/

/-- The branch call behind the calls `earlier` answers. -/
structure Answers (label : Option String) (calls earlier : List Call) (call : BranchCall) :
    Prop where
  place : ∃ later, calls = earlier ++ .branch call :: later
  answer : ∃ i, call.run (built label earlier) = .ok () i

variable {label : Option String} {calls earlier earlier' : List Call} {call call' : BranchCall}

theorem branchOf?_eq_none : branchOf? calls = none ↔ ∀ c ∈ calls, c.branch?.isNone = true := by
  simp [branchOf?, List.findSome?_eq_none_iff]

theorem setBranch_eq_ok {cond0 cond1 : Option SignalId} {labels : Quad (Option String)}
    {i j : Instruction} (h : setBranch cond0 cond1 labels i = .ok () j) : i.branchSet = false := by
  obtain ⟨_, _, hask, -⟩ := Edit.bind_eq_ok.mp h
  exact Checked.require_eq_ok.mp (Edit.ask_eq_ok.mp hask).1

/-- A branch call answers only if there was no branch call before it. -/
theorem Answers.earlier_eq (h : Answers label calls earlier call) :
    earlier = calls.takeWhile fun c => c.branch?.isNone := by
  obtain ⟨later, rfl⟩ := h.place
  obtain ⟨i, hi⟩ := h.answer
  obtain ⟨labels, hrun, -⟩ := call.run_eq
  rw [hrun] at hi
  have hnone : branchOf? earlier = none := by
    have hset := (hasBranch_built label earlier).isSet
    rw [setBranch_eq_ok hi] at hset
    exact Option.isSome_eq_false_iff.mp hset.symm |> Option.isNone_iff_eq_none.mp
  rw [List.takeWhile_append_of_pos (branchOf?_eq_none.mp hnone), List.takeWhile_cons_of_neg,
    List.append_nil]
  exact nofun

/-- **One branch call at most answers.** -/
theorem Answers.unique (h : Answers label calls earlier call)
    (h' : Answers label calls earlier' call') : earlier = earlier' ∧ call = call' := by
  have heq : earlier = earlier' := h.earlier_eq.trans h'.earlier_eq.symm
  subst heq
  obtain ⟨later, hcalls⟩ := h.place
  obtain ⟨later', hcalls'⟩ := h'.place
  have hrest := List.append_cancel_left (hcalls.symm.trans hcalls')
  exact ⟨rfl, Call.branch.inj (List.cons.inj hrest).1⟩

/-- The first branch call answers. -/
theorem exists_answers (label : Option String) (h : branchOf? calls = some call) :
    ∃ earlier, Answers label calls earlier call := by
  obtain ⟨earlier, c, later, hcalls, hc, hearlier⟩ := List.findSome?_eq_some_iff.mp h
  have hbranch : c = .branch call := by
    cases c with
    | branch call' => exact congrArg Call.branch (Option.some.inj hc)
    | _ => cases hc
  subst hbranch
  refine ⟨earlier, ⟨later, hcalls⟩, ?_⟩
  have hset : (built label earlier).branchSet = false := by
    rw [(hasBranch_built label earlier).isSet]
    have hnone : branchOf? earlier = none := by simpa [branchOf?] using hearlier
    rw [hnone]
    rfl
  obtain ⟨labels, hrun, -⟩ := call.run_eq
  rw [hrun]
  have hask : Edit.ask (fun i : Instruction =>
      Checked.require (i.branchSet = false) Error.branchAlreadySet) (built label earlier) =
        .ok () (built label earlier) := Edit.ask_eq_ok.mpr ⟨Checked.require_eq_ok.mpr hset, rfl⟩
  exact ⟨_, Edit.bind_of_ok hask _⟩

/-- **The conditions of a built instruction are those of the branch call that answers.** -/
theorem answers_of_condition {c : SignalId} (h : c ∈ (built label calls).branch.conditions) :
    ∃ earlier call, Answers label calls earlier call ∧
      (call.cond0? = some c ∨ call.cond1? = some c) := by
  have hbranch := hasBranch_built label calls
  have hcond : (built label calls).branch.cond0 = some c ∨
      (built label calls).branch.cond1 = some c := by
    simpa [Branch.conditions, Option.mem_toList] using h
  rw [hbranch.cond0, hbranch.cond1] at hcond
  cases hcall : branchOf? calls with
  | none =>
    rw [hcall] at hcond
    simp at hcond
  | some call =>
    rw [hcall] at hcond
    obtain ⟨earlier, hearlier⟩ := exists_answers label hcall
    exact ⟨earlier, call, hearlier, hcond⟩

end Instruction

/-! ### Bits without a condition -/

namespace Branch

/-- A bit without a condition makes no difference to the targets. -/
structure IgnoresAbsent (b : Branch) : Prop where
  bit0 : b.cond0 = none → ∀ bit1, b.targets.get bit1 false = b.targets.get bit1 true
  bit1 : b.cond1 = none → ∀ bit0, b.targets.get false bit0 = b.targets.get true bit0

variable {b : Branch}

theorem Means.ignoresAbsent {label : (SignalId → Bool) → Option String} (h : b.Means label) :
    b.IgnoresAbsent := by
  have hreads : ∀ (cond : Option SignalId) (bit : Bool), Reads (fun _ => bit) cond bit :=
    fun _ _ _ _ => rfl
  have hanything : ∀ {cond : Option SignalId}, cond = none → ∀ value bit, Reads value cond bit := by
    rintro _ rfl value bit s hs
    cases hs
  refine ⟨fun h0 bit1 => ?_, fun h1 bit0 => ?_⟩
  · have hget := fun bit0 => h.get (fun _ => bit1) bit1 bit0 (hreads _ _) (hanything h0 _ _)
    rw [hget, hget]
  · have hget := fun bit1 => h.get (fun _ => bit0) bit1 bit0 (hanything h1 _ _) (hreads _ _)
    rw [hget, hget]

theorem IgnoresAbsent.swapped (h : b.IgnoresAbsent) : b.swapped.IgnoresAbsent := by
  refine ⟨fun h0 bit1 => ?_, fun h1 bit0 => ?_⟩
  · show b.targets.swapBits.get _ _ = b.targets.swapBits.get _ _
    rw [Quad.get_swapBits, Quad.get_swapBits]
    exact h.bit1 h0 bit1
  · show b.targets.swapBits.get _ _ = b.targets.swapBits.get _ _
    rw [Quad.get_swapBits, Quad.get_swapBits]
    exact h.bit0 h1 bit0

theorem IgnoresAbsent.align (h : b.IgnoresAbsent) (slots : List SignalId) :
    (b.align slots).IgnoresAbsent := by
  unfold Branch.align
  split_ifs
  · exact h.swapped
  · exact h

theorem mem_conditions_align (slots : List SignalId) {c : SignalId} :
    c ∈ (b.align slots).conditions ↔ c ∈ b.conditions := by
  unfold Branch.align
  split_ifs
  · simp only [conditions, swapped, List.mem_append]
    exact or_comm
  · exact Iff.rfl

end Branch

theorem Instruction.ignoresAbsent_resolved {i : Instruction} (h : i.branch.IgnoresAbsent)
    (slots : List SignalId) (labels : List (Option String)) (n : Nat) :
    (i.resolved slots labels n).branch.IgnoresAbsent := by
  have haligned := h.align slots
  refine ⟨fun h0 bit1 => ?_, fun h1 bit0 => ?_⟩
  · show ((i.branch.align slots).targets.map _).get _ _ = _
    rw [Quad.get_map, haligned.bit0 h0 bit1]
    exact (Quad.get_map _ _ _ _).symm
  · show ((i.branch.align slots).targets.map _).get _ _ = _
    rw [Quad.get_map, haligned.bit1 h1 bit0]
    exact (Quad.get_map _ _ _ _).symm

end AluPlacement
