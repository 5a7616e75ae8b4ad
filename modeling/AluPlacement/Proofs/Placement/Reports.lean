import AluPlacement.Proofs.Block.Pass
import AluPlacement.Proofs.Placement.Sharing

/-! # What the final pass reports

The reports of the final pass can be read off the unit that it leaves. Each register and each
constant without a binding is reported once, in the order of declaration: `lacking` is the family in
which it found no place, and `refusal` is the error. This is so of the unit that a refused visit
finds (`Outcome.report_eq`), and the later visits change neither the signal nor what decides on the
error, since full pools stay full (`reports_of_collect`). Then comes the report of too many nearest
neighbors, and then the faults of the branches (`Reports`).

The errors name pools by their kinds, so the kinds are an invariant of the calls
(`Reachable.kindOf_eq`). -/

namespace AluPlacement

/-! ### The kinds of the pools -/

/-- The kind of the pool of a family. -/
def Family.poolKind : Family → PoolKind
  | .conditionLogic => .conditionLogic
  | .wordReg => .wordRegisters
  | .branch => .branchRegisters
  | .wordIn => .wordInputs
  | .carryIn => .carryInputs
  | .constant => .constants

theorem Registry.Advances.isFree {r r' : Registry} {id : SignalId} (h : r.Advances r')
    (hfree : r'.isFree id = true) : r.isFree id = true := by
  obtain ⟨s', hs', hb'⟩ := Registry.isFree_iff.mp hfree
  obtain ⟨s, hs, -, hkept⟩ := h.of_get? hs'
  refine Registry.isFree_iff.mpr ⟨s, hs, ?_⟩
  by_contra hb
  exact hb ((hkept hb).symm.trans hb')

namespace Alu

variable {ε : Type} {u u' t : Alu} {id : SignalId} {s : Signal} {l : List SignalId}
  {ds : List Diagnostic}

/-- The kind that the pool of a family has. -/
def kindOf (u : Alu) : Family → PoolKind
  | .conditionLogic => u.logic.kind
  | .wordReg => u.wordRegs.kind
  | .branch => u.branches.kind
  | .wordIn => u.wordIns.kind
  | .carryIn => u.carryIns.kind
  | .constant => u.constants.kind

theorem kindOf_appendSlot (u : Alu) (family : Family) (id : SignalId) (f : TruthFn) :
    (u.appendSlot family id f).kindOf = u.kindOf := by
  funext g
  cases family <;> cases g <;> rfl

theorem Outcome.kindOf {x : Unit} (ho : Outcome u id s (.ok x u')) : u'.kindOf = u.kindOf := by
  cases ho with
  | skip => rfl
  | wordReg => exact kindOf_appendSlot u .wordReg id _
  | hold => exact kindOf_appendSlot u .conditionLogic id _
  | shared => rfl
  | @builtin r => cases r <;> rfl
  | constant =>
    exact (kindOf_appendSlot _ .constant id _).trans (kindOf_appendSlot u .wordIn id _)
  | spill => exact kindOf_appendSlot u .wordReg id _

/-- No call changes the kind of a pool. -/
theorem Sound.kindOf_apply (h : u.Sound) (c : Call) : (c.apply u).kindOf = u.kindOf := by
  cases c with
  | setLocation location => rfl
  | declare name behavior dataType =>
    show ((Alu.declare name behavior dataType).after u).kindOf = u.kindOf
    rw [after_declare]
    rfl
  | edit call => rfl
  | addInstruction i =>
    show ((Alu.addInstruction i).after u).kindOf = u.kindOf
    rcases addInstruction_result u i with ⟨e, he⟩ | ⟨pending, hi, hok⟩
    · rw [Edit.after_of_error he]
    · rw [Edit.after_of_ok hok]
      exact hi.supply.induction (P := fun v => v.kindOf = u.kindOf) rfl fun v id _ _ _ _ _ hv =>
        (kindOf_appendSlot v _ id _).trans hv
  | addConditionLogic id f =>
    show ((Alu.addConditionLogic id f).after u).kindOf = u.kindOf
    rcases addConditionLogic_result u id f with ⟨e, he⟩ | ⟨a, s, t, -, -, hdrives, hok⟩
    · rw [Edit.after_of_error he]
    · rw [Edit.after_of_ok hok]
      cases hdrives with
      | branch => exact kindOf_appendSlot u .branch id f
      | condBypass => rfl
      | condUpdate => rfl
  | addRegister id f =>
    show ((Alu.addRegister id f).after u).kindOf = u.kindOf
    rcases addRegister_result u id f with ⟨e, he⟩ | ⟨a, s, -, -, -, hok⟩
    · rw [Edit.after_of_error he]
    · rw [Edit.after_of_ok hok]
      exact kindOf_appendSlot u .conditionLogic id f
  | assign =>
    refine after_assign (P := fun v => v.kindOf = u.kindOf) h.ready rfl
      fun _ t phase hcollect _ => ?_
    have hvisits : t.kindOf = u.kindOf :=
      visits_induction (P := fun v => v.kindOf = u.kindOf) hcollect rfl
        fun _ _ _ _ _ ho hv => ho.kindOf.trans hv
    exact hvisits

theorem Reachable.kindOf_eq (h : Reachable u) : u.kindOf = Family.poolKind := by
  induction h with
  | new h =>
    obtain ⟨name, definition, rfl⟩ := h.eq_create
    funext family
    cases family <;> rfl
  | call h c ih => exact (h.sound.kindOf_apply c).trans ih

/-! ### The error of a refused visit -/

/-- The family in which a register or a constant finds no place. A word constant needs a slot of the
constants and a word input, or a word register once the constants are full. -/
def lacking (u : Alu) (s : Signal) : Family :=
  match s.dataType, s.behavior with
  | .bit, _ => .conditionLogic
  | .word, .constant =>
    if u.constants.size < Family.constant.capacity then .wordIn else .wordReg
  | .word, _ => .wordReg

/-- The error for a register or a constant that finds no place. -/
def refusal (u : Alu) (s : Signal) : Error :=
  match s.dataType, s.behavior with
  | .bit, _ => .poolExhausted .conditionLogic Family.conditionLogic.capacity
  | .word, .constant =>
    if u.constants.size < Family.constant.capacity then
      .constantInput s.name Family.wordIn.capacity
    else .constantSpill s.name Family.wordReg.capacity
  | .word, _ => .poolExhausted .wordRegisters Family.wordReg.capacity

theorem kind_refusal (u : Alu) (s : Signal) : (u.refusal s).kind = .capacity := by
  unfold refusal
  split
  · rfl
  · split_ifs <;> rfl
  · rfl

/-- The slots of the constants decide. -/
theorem refusal_congr (h : s.dataType = .word → s.behavior = .constant →
    t.constants.entries = u.constants.entries) :
    t.refusal s = u.refusal s ∧ t.lacking s = u.lacking s := by
  unfold refusal lacking
  split
  · exact ⟨rfl, rfl⟩
  · rename_i hd hc
    unfold Pool.size
    rw [h hd hc]
    exact ⟨rfl, rfl⟩
  · exact ⟨rfl, rfl⟩

theorem needsSlot_of_register (hr : s.behavior = .register) (hb : s.binding = none) :
    s.needsSlot = true :=
  Signal.needsSlot_iff.mpr ⟨by rw [hr]; rfl, hb⟩

theorem IsNewConstant.needsSlot (h : u.IsNewConstant s) : s.needsSlot = true :=
  Signal.needsSlot_iff.mpr ⟨by rw [h.behavior]; rfl, h.unbound⟩

/-- A visit is refused for the family that lacks room. -/
theorem Outcome.report_eq (hcap : u.capacityOf = Family.capacity)
    (hkind : u.kindOf = Family.poolKind) {d : Diagnostic}
    (ho : Outcome u id s (.error (.refused d) u')) :
    s.needsSlot = true ∧ d = (u.refusal s).located s.location ∧
      (u.lacking s).capacity ≤ (u.slots (u.lacking s)).length := by
  rw [← hcap]
  cases ho with
  | wordRegFull hb hr hd hfull =>
    have hexhausted : u.wordRegs.exhausted = .poolExhausted .wordRegisters 9 :=
      congrArg₂ Error.poolExhausted (congrFun hkind .wordReg) (congrFun hcap .wordReg)
    have hlacking : u.lacking s = .wordReg := by simp only [lacking, hd, hr]
    refine ⟨needsSlot_of_register hr hb, ?_, ?_⟩
    · simp only [refusal, hd, hr, hexhausted, Family.capacity]
    · rw [hlacking]
      exact hfull
  | holdFull hd hn hfull =>
    have hexhausted : u.logic.exhausted = .poolExhausted .conditionLogic 4 :=
      congrArg₂ Error.poolExhausted (congrFun hkind .conditionLogic)
        (congrFun hcap .conditionLogic)
    have hlacking : u.lacking s = .conditionLogic := by simp only [lacking, hd]
    refine ⟨?_, ?_, ?_⟩
    · exact hn.elim (fun hr => needsSlot_of_register hr.2 hr.1) IsNewConstant.needsSlot
    · simp only [refusal, hd, hexhausted, Family.capacity]
    · rw [hlacking, length_slots_conditionLogic]
      exact hfull
  | inputFull hd hn hr hconst hfull =>
    have hroom : u.constants.size < Family.constant.capacity := by
      rwa [← hcap]
    have hlacking : u.lacking s = .wordIn := by
      simp only [lacking, hd, hn.behavior, if_pos hroom]
    refine ⟨hn.needsSlot, ?_, ?_⟩
    · simp only [refusal, hd, hn.behavior, if_pos hroom]
    · rw [hlacking]
      exact hfull
  | spillFull hd hn hr hconst hfull =>
    have hnone : ¬ u.constants.size < Family.constant.capacity := by
      rw [← hcap]
      exact Nat.not_lt.mpr hconst
    have hlacking : u.lacking s = .wordReg := by
      simp only [lacking, hd, hn.behavior, if_neg hnone]
    refine ⟨hn.needsSlot, ?_, ?_⟩
    · simp only [refusal, hd, hn.behavior, if_neg hnone]
    · rw [hlacking]
      exact hfull

/-- A word constant lacks a place only if the word inputs or the constants are full. -/
theorem full_of_lacking (hd : s.dataType = .word) (hc : s.behavior = .constant)
    (h : (u.lacking s).capacity ≤ (u.slots (u.lacking s)).length) :
    13 ≤ u.wordIns.entries.length ∨ 2 ≤ u.constants.entries.length := by
  by_cases hroom : u.constants.size < Family.constant.capacity
  · have hlacking : u.lacking s = .wordIn := by simp only [lacking, hd, hc, if_pos hroom]
    rw [hlacking] at h
    exact Or.inl h
  · exact Or.inr (Nat.not_lt.mp hroom)

/-! ### The slots that visits take -/

/-- A visit that fails changes nothing. -/
theorem isAtomic_bindRemaining (id : SignalId) : (bindRemaining id).IsAtomic := by
  intro u e t he
  cases hs : u.signals.get? id with
  | none =>
    have hafter : (bindRemaining id).after u = u :=
      after_bindRemaining (P := fun v => v = u) rfl fun s u' hs' _ => by
        rw [hs] at hs'
        cases hs'
    rwa [Edit.after_of_error he] at hafter
  | some s =>
    have ho := bindRemaining_outcome hs
    rw [he] at ho
    exact ho.refused.1

/-- A visit puts nothing but its signal into a slot, and only a signal that needs one. -/
theorem Outcome.slots {x : Unit} (ho : Outcome u id s (.ok x u')) (family : Family) :
    u'.slots family = u.slots family ∨
      u'.slots family = u.slots family ++ [id] ∧ s.needsSlot = true := by
  have htake : ∀ g f, s.needsSlot = true → (u.takeSlot g id f).slots family = u.slots family ∨
      (u.takeSlot g id f).slots family = u.slots family ++ [id] ∧ s.needsSlot = true := by
    intro g f hneeds
    have hslots : (u.takeSlot g id f).slots family =
        if family = g then u.slots g ++ [id] else u.slots family := slots_appendSlot u g family id f
    rw [hslots]
    split_ifs with heq
    · exact Or.inr ⟨by rw [heq], hneeds⟩
    · exact Or.inl rfl
  cases ho with
  | skip => exact Or.inl rfl
  | wordReg hb hr => exact htake .wordReg _ (needsSlot_of_register hr hb)
  | hold _ hn =>
    exact htake .conditionLogic _
      (hn.elim (fun hr => needsSlot_of_register hr.2 hr.1) IsNewConstant.needsSlot)
  | shared => exact Or.inl rfl
  | @builtin r => exact Or.inl (by cases r <;> rfl)
  | constant _ hn =>
    cases family with
    | wordIn => exact Or.inr ⟨rfl, hn.needsSlot⟩
    | constant => exact Or.inr ⟨rfl, hn.needsSlot⟩
    | _ => exact Or.inl rfl
  | spill _ hn => exact htake .wordReg _ (hn.needsSlot)

/-- The slots that the visits fill hold signals that they bind. -/
theorem slots_of_collect (h : (Edit.collect bindRemaining l : Edit Alu ε _) u = .ok ds t)
    (family : Family) : ∃ new, t.slots family = u.slots family ++ new ∧
      ∀ i ∈ new, u.signals.isFree i = true ∧ t.signals.isFree i = false := by
  refine (visits_induction (P := fun v => u.signals.Advances v.signals ∧
    ∃ new, v.slots family = u.slots family ++ new ∧
      ∀ i ∈ new, u.signals.isFree i = true ∧ v.signals.isFree i = false) h
    ⟨.refl _, [], (List.append_nil _).symm, nofun⟩ ?_).2
  rintro v v' id s hs ho ⟨hadvances, new, hslots, hnew⟩
  have hstep := ho.advances hs
  have hnew' : ∀ i ∈ new, u.signals.isFree i = true ∧ v'.signals.isFree i = false := by
    intro i hi
    obtain ⟨hfree, hbound⟩ := hnew i hi
    refine ⟨hfree, Bool.eq_false_iff.mpr fun hfree' => ?_⟩
    rw [hstep.isFree hfree'] at hbound
    cases hbound
  refine ⟨hadvances.trans hstep, ?_⟩
  rcases ho.slots family with hsame | ⟨happend, hneeds⟩
  · exact ⟨new, by rw [hsame, hslots], hnew'⟩
  · obtain ⟨hstate, hb⟩ := Signal.needsSlot_iff.mp hneeds
    refine ⟨new ++ [id], by rw [happend, hslots, List.append_assoc], fun i hi => ?_⟩
    rcases List.mem_append.mp hi with hi | hi
    · exact hnew' i hi
    · rw [List.mem_singleton.mp hi]
      have hfree : v.signals.isFree id = true := Registry.isFree_iff.mpr ⟨s, hs, hb⟩
      refine ⟨hadvances.isFree hfree, Bool.eq_false_iff.mpr fun hfree' => ?_⟩
      obtain ⟨s', hs', hbound⟩ := ho.bound hs hstate
      obtain ⟨s'', hs'', hb''⟩ := Registry.isFree_iff.mp hfree'
      rw [hs'] at hs''
      cases hs''
      exact hbound hb''

theorem isFree_prepared (u : Alu) (id : SignalId) :
    u.prepared.signals.isFree id = u.signals.isFree id := by
  unfold Registry.isFree Signal.isBound
  rw [get?_prepared]
  cases u.signals.get? id with
  | none => rfl
  | some s => simp only [Option.map_some, Option.any_some, binding_prepare]

/-! ### All visits -/

/-- Once the word inputs or the constants are full, the visits put nothing into the constants. -/
theorem constants_of_full (ht : t.Placed)
    (h : (Edit.collect bindRemaining l : Edit Alu ε _) u = .ok ds t)
    (hfull : 13 ≤ u.wordIns.entries.length ∨ 2 ≤ u.constants.entries.length) :
    t.constants.entries = u.constants.entries := by
  obtain ⟨new, hins, hconsts⟩ := inputs_of_collect h
  have hin : t.wordIns.entries.length ≤ 13 := ht.slots_length .wordIn
  have hconst : t.constants.entries.length ≤ 2 := ht.slots_length .constant
  rw [hins, List.length_append] at hin
  rw [hconsts, List.length_append] at hconst
  have hnew : new = [] := by
    refine List.eq_nil_of_length_eq_zero ?_
    omega
  rw [hconsts, hnew, List.append_nil]

/-- A signal changes by its own visit only. -/
theorem get?_of_not_visited (h : (Edit.collect bindRemaining l : Edit Alu ε _) u = .ok ds t)
    (hid : id ∉ l) : t.signals.get? id = u.signals.get? id := by
  have hvisit : ∀ i ∈ l, Edit.Preserves (fun v => v.signals.get? id = u.signals.get? id)
      (bindRemaining i) := by
    intro i hi v hv
    have hne : i ≠ id := fun heq => hid (heq ▸ hi)
    refine after_bindRemaining (P := fun v => v.signals.get? id = u.signals.get? id) hv
      fun s v' hs ho => ?_
    rcases ho.signals with ⟨heq, -⟩ | ⟨-, a, heq⟩
    · rw [heq, hv]
    · rw [heq, Registry.get?_place, if_neg hne, hv]
  rw [← Edit.after_of_ok h]
  exact Edit.preserves_collect hvisit u rfl

/-- The report of a signal that is left without a binding. -/
def report? (u : Alu) (id : SignalId) : Option Diagnostic :=
  (u.signals.get? id).bind fun s =>
    if s.needsSlot then some ((u.refusal s).located s.location) else none

/-- A visit that answers leaves nothing to report of its signal. -/
theorem report?_of_ok {x : Unit} {v : Alu} (hs : u.signals.get? id = some s)
    (ho : Outcome u id s (.ok x v))
    (h : (Edit.collect bindRemaining l : Edit Alu ε _) v = .ok ds t) :
    t.report? id = none := by
  have hadvances := advances_of_collect h
  obtain ⟨b, hb, -⟩ := ((ho.advances hs).trans hadvances).get id s hs
  have hneeds : ({ s with binding := b } : Signal).needsSlot ≠ true := by
    intro hneeds
    obtain ⟨hstate, hnone⟩ := Signal.needsSlot_iff.mp hneeds
    obtain ⟨s', hs', hbound⟩ := ho.bound hs hstate
    obtain ⟨b', hb', hkept⟩ := hadvances.get id s' hs'
    have heq := Option.some.inj (hb.symm.trans hb')
    have hbinding : b = b' := congrArg Signal.binding heq
    rw [hkept hbound] at hbinding
    exact hbound (hbinding.symm.trans hnone)
  rw [report?, hb, Option.bind_some, if_neg hneeds]

/-- **The visits report exactly the signals that they leave without a binding**, in their order, and
there is no room left for these. -/
theorem reports_of_collect (hu : u.Placed) (ht : t.Placed) (hkind : u.kindOf = Family.poolKind)
    (hnodup : l.Nodup) (hin : ∀ id ∈ l, u.signals.contains id = true)
    (h : (Edit.collect bindRemaining l : Edit Alu ε _) u = .ok ds t) :
    ds = l.filterMap t.report? ∧ ∀ id ∈ l, ∀ s, t.signals.get? id = some s →
      s.needsSlot = true → (t.lacking s).capacity ≤ (t.slots (t.lacking s)).length := by
  induction l generalizing u ds with
  | nil =>
    cases h
    exact ⟨rfl, nofun⟩
  | cons id l ih =>
    obtain ⟨hl, hnodup⟩ := List.nodup_cons.mp hnodup
    obtain ⟨s, hs⟩ := Registry.contains_iff.mp (hin id List.mem_cons_self)
    have hin' : ∀ i ∈ l, u.signals.contains i = true :=
      fun i hi => hin i (List.mem_cons_of_mem id hi)
    have ho := bindRemaining_outcome hs
    rcases Edit.collect_cons_eq_ok.mp h with ⟨x, v, hvisit, hrest⟩ | ⟨d, v, ds', hvisit, hrest, rfl⟩
    · -- bound, or not in need of a slot, and so it stays
      rw [hvisit] at ho
      have hstep := ho.step hu hs
      obtain ⟨hreports, hfull⟩ := ih (hstep.placed hu) (ho.kindOf.trans hkind) hnodup
        (fun i hi => by rw [ho.frame.contains]; exact hin' i hi) hrest
      have hnone := report?_of_ok hs ho hrest
      refine ⟨by rw [List.filterMap_cons_none hnone, ← hreports], fun i hi s' hs' hneeds => ?_⟩
      rcases List.mem_cons.mp hi with rfl | hi
      · rw [report?, hs', Option.bind_some, if_pos hneeds] at hnone
        cases hnone
      · exact hfull i hi s' hs' hneeds
    · -- refused, and the later visits change neither the signal nor the constants
      rw [hvisit] at ho
      obtain rfl := ho.refused.1
      obtain ⟨hneeds, hd, hlacking⟩ := ho.report_eq hu.capacity hkind
      obtain ⟨hreports, hfull⟩ := ih hu hkind hnodup hin' hrest
      obtain ⟨hrefusal, hsame⟩ : t.refusal s = v.refusal s ∧ t.lacking s = v.lacking s :=
        refusal_congr fun hd hc => constants_of_full ht hrest (full_of_lacking hd hc hlacking)
      have hkept : t.signals.get? id = some s := (get?_of_not_visited hrest hl).trans hs
      have hreport : t.report? id = some d := by
        rw [report?, hkept, Option.bind_some, if_pos hneeds, hrefusal, hd]
      refine ⟨by rw [List.filterMap_cons_some hreport, ← hreports], fun i hi s' hs' hneeds' => ?_⟩
      rcases List.mem_cons.mp hi with rfl | hi
      · obtain rfl : s = s' := Option.some.inj (hkept.symm.trans hs')
        obtain ⟨new, hslots, -⟩ := slots_of_collect hrest (v.lacking s)
        rw [hsame, hslots, List.length_append]
        omega
      · exact hfull i hi s' hs' hneeds'

/-- The reports in terms of the signals. -/
theorem filterMap_report? (u : Alu) : u.signals.ids.filterMap u.report? =
    (u.signals.signals.filter Signal.needsSlot).map fun s =>
      (u.refusal s).located s.location := by
  let report (s : Signal) : Option Diagnostic :=
    if s.needsSlot then some ((u.refusal s).located s.location) else none
  have hreport : ∀ signals : List Signal, signals.filterMap report =
      (signals.filter Signal.needsSlot).map fun s => (u.refusal s).located s.location := by
    intro signals
    induction signals with
    | nil => rfl
    | cons s signals ih => cases hs : s.needsSlot <;> simp [report, hs, ih]
  calc u.signals.ids.filterMap u.report?
      = (u.signals.ids.map u.signals.get?).filterMap fun o => o.bind report := by
        rw [List.filterMap_map]
        rfl
    _ = (u.signals.signals.map some).filterMap fun o => o.bind report := by
        rw [Registry.map_get?_ids]
    _ = u.signals.signals.filterMap report := by
        rw [List.filterMap_map]
        rfl
    _ = _ := hreport _

/-! ### Nearest neighbors and branches -/

/-- The word registers that need a nearest neighbor have names. -/
theorem map_some_neighbors (u : Alu) : u.neighbors.map some =
    (u.wordRegs.entries.filter (needsNeighbor u.signals)).map u.signals.name? := by
  unfold neighbors
  rw [List.map_map]
  refine List.map_congr_left fun id hid => ?_
  have hneeds := (List.mem_filter.mp hid).2
  unfold needsNeighbor at hneeds
  cases hs : u.signals.get? id with
  | none =>
    rw [hs] at hneeds
    cases hneeds
  | some s =>
    simp only [Function.comp_apply, Registry.name?, hs, Option.map_some, Option.getD_some]

theorem kind_of_mem_branchFaults {d : Diagnostic} (h : d ∈ u.branchFaults) :
    d.kind = .resolution := by
  obtain ⟨p, -, hd⟩ := List.mem_flatMap.mp h
  obtain ⟨e, he, rfl⟩ := List.mem_map.mp hd
  unfold Instruction.faults at he
  rcases List.mem_append.mp he with he | he
  · obtain ⟨c, -, rfl⟩ := List.mem_map.mp he
    rfl
  · obtain ⟨label, -, rfl⟩ := List.mem_map.mp he
    rfl

/-- What the visits do not touch. -/
theorem location_of_collect (h : (Edit.collect bindRemaining l : Edit Alu ε _) u = .ok ds t) :
    t.location = u.location := by
  refine visits_induction (P := fun v => v.location = u.location) h rfl fun v v' id s _ ho hv => ?_
  rw [← hv]
  cases ho with
  | @builtin r => cases r <;> rfl
  | _ => rfl

/-! ### The whole pass -/

/-- What the pass on `u` reports, of signals, of nearest neighbors and of branches, and the unit
`u'` that it leaves behind. -/
structure Reports (u u' : Alu) (ofSignals ofNeighbors ofBranches : List Diagnostic) : Prop where
  /-- One report for each register and each constant without a binding, in declaration order. -/
  signals : ofSignals = (u'.signals.signals.filter Signal.needsSlot).map fun s =>
    (u'.refusal s).located s.location
  /-- For these signals there is no room. -/
  full : ∀ s ∈ u'.signals.signals, s.needsSlot = true →
    (u'.slots (u'.lacking s)).length = (u'.lacking s).capacity
  /-- These are errors of capacity, and the branches have none. -/
  kinds : (∀ d ∈ ofSignals, d.kind = .capacity) ∧ ∀ d ∈ ofBranches, d.kind = .resolution
  /-- The two errors of word constants exclude each other. -/
  exclusive : ∀ d ∈ ofSignals ++ ofNeighbors ++ ofBranches,
    ∀ d' ∈ ofSignals ++ ofNeighbors ++ ofBranches, ∀ name name' n n',
      d.error = .constantInput name n → d'.error ≠ .constantSpill name' n'
  /-- One report if more word registers need a nearest neighbor than the budget allows, with the
  names of these registers in the order of their slots. -/
  neighbors : ∃ names : List String, names.map some =
      (u'.wordRegs.entries.filter (needsNeighbor u'.signals)).map u'.signals.name? ∧
    ofNeighbors = if names.length ≤ u.definition.limits.nnBudget then []
      else [(Error.nearestNeighborBudget u.definition.limits.nnBudget names).located u.location]
  /-- The reports of the branches are those of their resolution. -/
  branches : (resolveBranches u'.signals u.branchSlots u.instructions.entries : Checked Error _) =
    .ok (u'.instructions.entries, ofBranches)
  phase : u'.phase = if ofSignals ++ ofNeighbors ++ ofBranches = [] then .bound else .failed
  /-- A slot is taken only for a signal that the pass binds. -/
  slots : ∀ family, ∃ new, u'.slots family = u.slots family ++ new ∧
    ∀ id ∈ new, u.signals.isFree id = true ∧ u'.signals.isFree id = false

theorem room_of_constantInput {name : String} {n : Nat}
    (h : u.refusal s = .constantInput name n) : u.constants.size < Family.constant.capacity := by
  unfold refusal at h
  split at h
  · cases h
  · split_ifs at h with hroom
    exact hroom
  · cases h

theorem full_of_constantSpill {name : String} {n : Nat}
    (h : u.refusal s = .constantSpill name n) :
    ¬ u.constants.size < Family.constant.capacity := by
  unfold refusal at h
  split at h
  · cases h
  · split_ifs at h with hroom
    exact hroom
  · cases h

/-- A capacity error of the pass is that of a signal, or of the nearest neighbors. -/
theorem mem_reports_cases {d : Diagnostic}
    (h : d ∈ (u.signals.ids.filterMap u.report?) ++ u.neighborFaults ++ u.branchFaults) :
    (∃ s, d.error = u.refusal s) ∨ (∃ n names, d.error = .nearestNeighborBudget n names) ∨
      d.kind = .resolution := by
  rcases List.mem_append.mp h with h | h
  · rcases List.mem_append.mp h with h | h
    · rw [filterMap_report?] at h
      obtain ⟨s, -, rfl⟩ := List.mem_map.mp h
      exact Or.inl ⟨s, rfl⟩
    · simp only [neighborFaults] at h
      split_ifs at h
      · cases h
      · rw [List.mem_singleton.mp h]
        exact Or.inr (Or.inl ⟨_, _, rfl⟩)
  · exact Or.inr (Or.inr (kind_of_mem_branchFaults h))

theorem not_constantSpill_of_constantInput {d d' : Diagnostic} {name name' : String} {n n' : Nat}
    (h : d ∈ (u.signals.ids.filterMap u.report?) ++ u.neighborFaults ++ u.branchFaults)
    (h' : d' ∈ (u.signals.ids.filterMap u.report?) ++ u.neighborFaults ++ u.branchFaults)
    (hd : d.error = .constantInput name n) : d'.error ≠ .constantSpill name' n' := by
  intro hd'
  have hroom : u.constants.size < Family.constant.capacity := by
    rcases mem_reports_cases h with ⟨s, hs⟩ | ⟨_, _, hs⟩ | hs
    · exact room_of_constantInput (hs.symm.trans hd)
    · rw [hd] at hs
      cases hs
    · rw [Diagnostic.kind, hd] at hs
      cases hs
  rcases mem_reports_cases h' with ⟨s, hs⟩ | ⟨_, _, hs⟩ | hs
  · exact full_of_constantSpill (hs.symm.trans hd') hroom
  · rw [hd'] at hs
    cases hs
  · rw [Diagnostic.kind, hd'] at hs
    cases hs

theorem slots_resolved (u : Alu) (phase : Phase) (family : Family) :
    ({ u.resolved with phase := phase } : Alu).slots family = u.slots family := by
  cases family <;> rfl

/-- **The reports of the final pass.** A visit that is refused changes nothing, and the reports of
all visits, of the nearest neighbors and of the branches can be read off the unit that is left. -/
theorem Reachable.assign_reports (h : Reachable u) (hp : u.phase = .building) :
    (∀ id, (bindRemaining id).IsAtomic) ∧
      ∃ u' ofSignals ofNeighbors ofBranches, Reports u u' ofSignals ofNeighbors ofBranches ∧
        assign u = if ofSignals ++ ofNeighbors ++ ofBranches = [] then .ok () u'
          else .error (.refused (ofSignals ++ ofNeighbors ++ ofBranches)) u' := by
  refine ⟨isAtomic_bindRemaining, ?_⟩
  obtain ⟨unbound, t, hcollect, hf, hassign⟩ := assign_eq (h.sound.ready hp) hp
  have ht := h.sound.placed.prepared.of_collect hcollect
  have hids : u.prepared.signals.ids = t.signals.ids := by
    unfold Registry.ids
    rw [(frame_prepared u).size, hf.size]
  obtain ⟨hunbound, hfull⟩ := reports_of_collect h.sound.placed.prepared ht h.kindOf_eq
    u.prepared.signals.nodup_ids (fun id hid => Registry.mem_ids.mp hid) hcollect
  rw [hids] at hunbound hfull
  subst hunbound
  have hbranches : t.branches = u.branches := (branches_of_collect hcollect).trans rfl
  have hlocation : t.location = u.location := (location_of_collect hcollect).trans rfl
  refine ⟨{ t.resolved with phase := if t.signals.ids.filterMap t.report? ++ t.neighborFaults ++
      t.branchFaults = [] then .bound else .failed }, t.signals.ids.filterMap t.report?,
      t.neighborFaults, t.branchFaults, ?_, ?_⟩
  · refine
      { signals := filterMap_report? t
        full := fun s hs hneeds => ?_
        kinds := ⟨fun d hd => ?_, fun d hd => kind_of_mem_branchFaults hd⟩
        exclusive := fun d hd d' hd' name name' n n' => not_constantSpill_of_constantInput hd hd'
        neighbors := ⟨t.neighbors, map_some_neighbors t, ?_⟩
        branches := ?_
        phase := rfl
        slots := fun family => ?_ }
    · obtain ⟨id, hid⟩ := Registry.mem_signals_iff.mp hs
      have hmem : id ∈ t.signals.ids :=
        Registry.mem_ids.mpr (Registry.contains_iff.mpr ⟨s, hid⟩)
      rw [slots_resolved]
      exact Nat.le_antisymm (ht.slots_length _) (hfull id hmem s hid hneeds)
    · rw [filterMap_report?] at hd
      obtain ⟨s, -, rfl⟩ := List.mem_map.mp hd
      exact kind_refusal t s
    · rw [← hf.definition, ← hlocation]
      rfl
    · have hslots : u.branchSlots = t.branchSlots := by
        unfold branchSlots
        rw [hbranches]
      rw [hslots, ← hf.instructions]
      exact resolveBranches_eq_resolved (h.sound.ready hp) hf
    · obtain ⟨new, hslots, hnew⟩ := slots_of_collect hcollect family
      refine ⟨new, ?_, fun id hid => ?_⟩
      · rw [slots_resolved]
        exact hslots
      · rw [← isFree_prepared]
        exact hnew id hid
  · rw [hassign]
    unfold close
    split_ifs <;> rfl

/-- Five bit registers, three word constants with no nearest neighbor for the third one, and a
branch to a label that no instruction carries. -/
def crowdedUnit : Alu :=
  (create "alu" { Definition.standard with limits := ⟨8, 0⟩ }).run
    [.declare "a" .register .bit, .declare "k" .constant .word, .declare "b" .register .bit,
      .declare "l" .constant .word, .declare "c" .register .bit, .declare "m" .constant .word,
      .declare "d" .register .bit, .declare "e" .register .bit,
      .edit (.setLocation ⟨14⟩ ⟨none, 3⟩), .edit (.setInitial ⟨8⟩ 5), .edit (.setInitial ⟨10⟩ 6),
      .edit (.setInitial ⟨12⟩ 7),
      .addInstruction
        { location := ⟨none, 5⟩
          branchSet := true
          branch := ⟨none, none, ⟨.label "gone", .next, .next, .next⟩⟩ }]

/-- All three kinds of faults are reported, each one once. -/
theorem assign_reports_crowdedUnit :
    Reachable crowdedUnit ∧ crowdedUnit.phase = .building ∧
      Reports crowdedUnit (assign.after crowdedUnit)
        [⟨⟨none, 3⟩, .poolExhausted .conditionLogic 4⟩] [⟨{}, .nearestNeighborBudget 0 ["m"]⟩]
        [⟨⟨none, 5⟩, .unknownLabel "gone"⟩] := by
  have hlimits : Definition.withLimits ⟨8, 0⟩ =
      .ok { Definition.standard with limits := ⟨8, 0⟩ } := rfl
  have h : Reachable crowdedUnit := (Reachable.new (.limited "alu" hlimits)).run _
  have hp : crowdedUnit.phase = .building := by decide +kernel
  obtain ⟨-, u', ofSignals, ofNeighbors, ofBranches, hreports, hassign⟩ := h.assign_reports hp
  have hafter : u' = assign.after crowdedUnit := by
    split_ifs at hassign
    · exact (Edit.after_of_ok hassign).symm
    · exact (Edit.after_of_error hassign).symm
  rw [hafter] at hreports
  have hsignals : ofSignals = [⟨⟨none, 3⟩, .poolExhausted .conditionLogic 4⟩] :=
    hreports.signals.trans (by decide +kernel)
  have hneighbors : ofNeighbors = [⟨{}, .nearestNeighborBudget 0 ["m"]⟩] := by
    obtain ⟨names, hnames, hneighbors⟩ := hreports.neighbors
    have hm : names.map some = ["m"].map some := hnames.trans (by decide +kernel)
    rw [List.map_injective_iff.mpr (Option.some_injective String) hm] at hneighbors
    exact hneighbors.trans (by decide +kernel)
  have hbranches : ofBranches = [⟨⟨none, 5⟩, .unknownLabel "gone"⟩] := by
    have hresolve := congrArg (fun r => r.toOption.map Prod.snd) hreports.branches
    exact Option.some.inj (hresolve.symm.trans (by decide +kernel))
  rw [hsignals, hneighbors, hbranches] at hreports
  exact ⟨h, hp, hreports⟩

end Alu

end AluPlacement
