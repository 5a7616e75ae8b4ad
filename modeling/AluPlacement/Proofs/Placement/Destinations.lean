import AluPlacement.Proofs.Placement.Consistency
import AluPlacement.Proofs.Placement.Supplied

/-! # Where destinations end up

A destination is a word register that some instruction writes, so the pass makes no constant of it
and gives it a word register of its own. The only way for it to be bound before the pass is to be
latched: a destination that is a latch too has a word input of its own
(`Reachable.destination_address`). -/

namespace AluPlacement.Alu

variable {u u' t : Alu} {id : SignalId} {s : Signal}

/-! ### Latches -/

/-- Some instruction latches the signal. -/
def IsLatched (u : Alu) (id : SignalId) : Prop :=
  ∃ i ∈ u.instructions.entries, id ∈ i.latches.entries

theorem isLatched_of_assign (h : u.Sound) (hok : assign u = .ok () u') :
    u'.IsLatched id ↔ u.IsLatched id := by
  constructor
  · rintro ⟨i, hi, hl⟩
    obtain ⟨n, inst, hinst, rfl⟩ := mem_of_assign h hok hi
    exact ⟨inst, List.mem_of_getElem? hinst, hl⟩
  · rintro ⟨i, hi, hl⟩
    obtain ⟨n, hn⟩ := List.mem_iff_getElem?.mp hi
    refine ⟨i.resolved u.branchSlots u.labels n, List.mem_of_getElem? (i := n) ?_, hl⟩
    rw [getElem?_of_assign h hok, hn]
    rfl

/-- Latches are word inputs. -/
theorem Supplied.latch_address (h : u.Supplied) (hu : u.Placed) (hid : u.IsLatched id) :
    ∃ n, 30 ≤ n ∧ n ≤ 42 ∧ u.IsBoundAt id n := by
  obtain ⟨i, hi, hl⟩ := hid
  have hmem : id ∈ u.slots .wordIn := h.latches i hi id hl
  obtain ⟨k, hk⟩ := mem_slots_iff.mp hmem
  have hlt : k < 13 := of_decide_eq_true (hu.inRange _ id hk)
  exact ⟨30 + k, by omega, by omega, hu.isBoundAt (.slot .wordIn k) (Option.some_ne_none _) hk⟩

/-- Whoever was bound before the pass is bound to the same address after it. -/
theorem isBoundAt_of_assign (h : u.Sound) (hok : assign u = .ok () u') {n : Nat}
    (hb : u.IsBoundAt id n) : u'.IsBoundAt id n := by
  obtain ⟨s, hs, hn⟩ := hb
  obtain ⟨b, hb, hkept, -⟩ := get?_of_assign h hok hs
  refine ⟨_, hb, ?_⟩
  rw [← hn]
  exact hkept (by rw [hn]; exact Option.some_ne_none _)

/-! ### Registers -/

/-- The word inputs that the pass adds are constants. -/
theorem wordIns_of_collect {ε : Type} {l : List SignalId} {ds : List Diagnostic}
    (h : (Edit.collect bindRemaining l : Edit Alu ε _) u = .ok ds t) :
    ∀ id ∈ t.wordIns.entries, id ∈ u.wordIns.entries ∨
      ∃ s, t.signals.get? id = some s ∧ s.behavior = .constant := by
  refine visits_induction (P := fun v => ∀ id ∈ v.wordIns.entries, id ∈ u.wordIns.entries ∨
    ∃ s, v.signals.get? id = some s ∧ s.behavior = .constant) h (fun id hid => Or.inl hid)
    fun v v' i s hs ho hv id hid => ?_
  have hadv := ho.advances hs
  have hsource : id ∈ u.wordIns.entries ∨
      ∃ s, v.signals.get? id = some s ∧ s.behavior = .constant := by
    cases ho with
    | constant hd hn =>
      rcases List.mem_append.mp hid with hid | hid
      · exact hv id hid
      · rw [List.mem_singleton.mp hid]
        exact Or.inr ⟨s, hs, hn.behavior⟩
    | @builtin r => cases r <;> exact hv id hid
    | _ => exact hv id hid
  refine hsource.imp_right fun ⟨s, hs, hc⟩ => ?_
  obtain ⟨b, hb, -⟩ := hadv.get id s hs
  exact ⟨_, hb, hc⟩

/-- No other signal has the address of a signal that is no constant. -/
theorem Placed.alone (h : u.Placed) (hs : u.signals.get? id = some s) {n : Nat}
    (hb : s.binding = some ⟨n⟩) (hnc : s.behavior ≠ .constant) :
    ∀ id', id' ≠ id → ¬u.IsBoundAt id' n := by
  intro id' hne hbound
  obtain ⟨q, hq, ha⟩ := isBoundAt_iff.mp hbound
  exact hnc (h.sameConstant (bound?_of_binding hs hb) hq (Ne.symm hne) ha.symm).left

/-- A word that is no constant has a word register or is a word input. -/
theorem Placed.address_of_not_constant (h : u.Placed) (hs : u.signals.get? id = some s) {n : Nat}
    (hb : s.binding = some ⟨n⟩) (hword : s.dataType = .word) (hnc : s.behavior ≠ .constant) :
    (10 ≤ n ∧ n ≤ 18) ∨ (30 ≤ n ∧ n ≤ 42 ∧ id ∈ u.wordIns.entries) := by
  have hp := bound?_of_binding hs hb
  have hnumber := h.hasNumber hs hb
  rw [hword] at hnumber
  rcases hnumber with hreg | hin | hbuiltin
  · exact Or.inl hreg
  · refine Or.inr ⟨hin.1, hin.2, ?_⟩
    obtain ⟨r, holder, q, -, har, hholder, -, hsame⟩ := h.bound id _ hp
    have hn : r.address = ⟨n⟩ := har.symm
    obtain ⟨k, rfl⟩ := Resource.eq_wordIn_slot (h.inRange r holder hholder)
      (by rw [hn]; exact hin.1) (by rw [hn]; exact hin.2)
    rcases hsame with rfl | hsame
    · exact List.mem_of_getElem? hholder
    · exact absurd hsame.left hnc
  · -- a built-in constant is the address of constants only
    have hvalue : ∃ r : Resource, ∃ v, r.builtinValue? = some v ∧ r.address = ⟨n⟩ := by
      have hn : n = 80 ∨ n = 81 ∨ n = 82 := by omega
      rcases hn with rfl | rfl | rfl
      · exact ⟨.builtin0, _, rfl, rfl⟩
      · exact ⟨.builtin1, _, rfl, rfl⟩
      · exact ⟨.builtinFFFF, _, rfl, rfl⟩
    obtain ⟨r, v, hv, hr⟩ := hvalue
    exact absurd (h.builtin id _ r v hp hv hr.symm).1 hnc

/-- A destination is not dead, so the pass leaves it a register. -/
theorem behavior_prepare_of_destination {i : Instruction} (hi : i ∈ u.instructions.entries)
    (hd : id ∈ i.destinations.entries) :
    (u.prepare id s).behavior = s.behavior ∧ (u.prepare id s).dataType = s.dataType := by
  have hwritten : u.isWritten id = true :=
    List.any_eq_true.mpr ⟨i, hi, List.contains_iff_mem.mpr hd⟩
  have hlive : u.isDead id s = false := by
    simp [isDead, isLive, hwritten]
  rw [prepare_of_not_dead hlive, withDefault_eq]
  exact ⟨rfl, rfl⟩

/-- A word register that an instruction writes, right after the pass. -/
theorem Reachable.destination_of_assign (h : Reachable u) (hok : assign u = .ok () u')
    {i : Instruction} (hi : i ∈ u.instructions.entries) (hd : id ∈ i.destinations.entries) :
    ∃ s n, u'.signals.get? id = some s ∧ s.behavior = .register ∧ s.binding = some ⟨n⟩ ∧
      (u.IsLatched id → 30 ≤ n ∧ n ≤ 42) ∧ (¬u.IsLatched id → 10 ≤ n ∧ n ≤ 18) := by
  have hsound := h.sound
  have hsupplied := h.supplied (assign_eq_ok hsound hok).1
  have hplaced := placed_of_assign hsound hok
  obtain ⟨s, hs, hreg, hword⟩ := hsupplied.destinations i hi id hd
  obtain ⟨hbeh, hdata⟩ := behavior_prepare_of_destination (s := s) hi hd
  obtain ⟨b, hs', -, hbound⟩ := get?_of_assign hsound hok hs
  rw [hbeh, hreg] at hbound
  obtain ⟨⟨n⟩, rfl⟩ := Option.ne_none_iff_exists'.mp (hbound rfl)
  have hreg' : (u.prepare id s).behavior = .register := hbeh.trans hreg
  refine ⟨_, n, hs', hreg', rfl, fun hlatch => ?_, fun hlatch => ?_⟩
  · obtain ⟨m, hlo, hhi, hm⟩ := hsupplied.latch_address hsound.placed hlatch
    obtain ⟨s'', hs'', hm'⟩ := isBoundAt_of_assign hsound hok hm
    rw [hs'] at hs''
    cases hs''
    cases hm'
    exact ⟨hlo, hhi⟩
  · rcases hplaced.address_of_not_constant hs' rfl (hdata.trans hword)
      (fun hc => by rw [hreg'] at hc; cases hc) with hrange | ⟨-, -, hin⟩
    · exact hrange
    · -- a word input was one before the pass, and then it is a latch or no register
      obtain ⟨-, t, hcollect, -, -, -, -, -, rfl⟩ := assign_eq_ok hsound hok
      rcases wordIns_of_collect hcollect id hin with hbefore | ⟨s'', hs'', hc⟩
      · rcases hsupplied.inputs id hbefore with hl | ⟨s'', hs'', hinput⟩
        · exact absurd hl hlatch
        · rw [hs] at hs''
          cases hs''
          rcases hinput with hinput | hinput <;> rw [hreg] at hinput <;> cases hinput
      · have hs' : t.signals.get? id = some { u.prepare id s with binding := some ⟨n⟩ } := hs'
        rw [hs'] at hs''
        cases hs''
        rw [hreg'] at hc
        cases hc

theorem Keeps.isBoundAt_iff (h : Keeps u u') {n : Nat} : u'.IsBoundAt id n ↔ u.IsBoundAt id n := by
  rw [Alu.isBoundAt_iff, Alu.isBoundAt_iff, Registry.bound?_eq_of_extends h.signals]

/-- **Every destination has a word register of its own, or a word input if it is latched.** -/
theorem Reachable.destination_address (h : Reachable u) (hok : assign u = .ok () u')
    (calls : List Call) {i : Instruction} (hi : i ∈ (u'.run calls).instructions.entries)
    {d : SignalId} (hd : d ∈ i.destinations.entries) :
    ∃ s n, (u'.run calls).signals.get? d = some s ∧ s.behavior = .register ∧
      s.binding = some ⟨n⟩ ∧ ((u'.run calls).IsLatched d → 30 ≤ n ∧ n ≤ 42) ∧
      (¬(u'.run calls).IsLatched d → 10 ≤ n ∧ n ≤ 18) ∧
      ∀ d', d' ≠ d → ¬(u'.run calls).IsBoundAt d' n := by
  have hsound := h.sound
  have hkeeps := keeps_of_assign hsound hok calls
  have hlatched : (u'.run calls).IsLatched d ↔ u.IsLatched d := by
    unfold IsLatched
    rw [hkeeps.instructions]
    exact isLatched_of_assign hsound hok
  rw [hkeeps.instructions] at hi
  obtain ⟨k, inst, hinst, rfl⟩ := mem_of_assign hsound hok hi
  obtain ⟨s, n, hs, hreg, hb, hin, hout⟩ :=
    h.destination_of_assign hok (List.mem_of_getElem? hinst) hd
  obtain ⟨s', hs', hkept⟩ := hkeeps.signals.kept d s hs
  refine ⟨s', n, hs', hkept.behavior.trans hreg, hkept.binding.trans hb, ?_, ?_, ?_⟩
  · exact fun hl => hin (hlatched.mp hl)
  · exact fun hl => hout fun hl' => hl (hlatched.mpr hl')
  · intro d' hne
    rw [hkeeps.isBoundAt_iff]
    exact (placed_of_assign hsound hok).alone hs hb (by rw [hreg]; exact nofun) d' hne

/-- A unit whose instruction writes two registers, the second of which it latches too. -/
def writingUnit : Alu :=
  (create "alu" .standard).run
    [.declare "a" .register .word, .declare "b" .register .word,
      .addInstruction
        { destinations := { kind := .destinations, capacity := 9, entries := [⟨7⟩, ⟨8⟩] }
          latches := { kind := .latches, capacity := 13, entries := [⟨8⟩] } }]

theorem reachable_writingUnit : Reachable writingUnit := (Reachable.new (.standard "alu")).run _

theorem assign_writingUnit : assign writingUnit = .ok () (assign.after writingUnit) :=
  assign_of_phase reachable_writingUnit.sound (by decide +kernel) (by decide +kernel)

/-- The destinations and the latches of the first instruction. -/
def firstTargets (u : Alu) : Option (List SignalId × List SignalId) :=
  (u.instructions.get? 0).map fun i => (i.destinations.entries, i.latches.entries)

/-- The destination that is not latched has a word register of its own. -/
theorem destination_address_writingUnit :
    ∃ u', assign writingUnit = .ok () u' ∧
      (u'.run [.declare "late" .wire .bit]).firstTargets = some ([⟨7⟩, ⟨8⟩], [⟨8⟩]) ∧
      ∃ n, 10 ≤ n ∧ n ≤ 18 ∧ (u'.run [.declare "late" .wire .bit]).IsBoundAt ⟨7⟩ n ∧
        ∀ d', d' ≠ ⟨7⟩ → ¬(u'.run [.declare "late" .wire .bit]).IsBoundAt d' n := by
  have htargets : ((assign.after writingUnit).run [.declare "late" .wire .bit]).firstTargets =
      some ([⟨7⟩, ⟨8⟩], [⟨8⟩]) := by decide +kernel
  have hlatches :
      ((assign.after writingUnit).run [.declare "late" .wire .bit]).instructions.entries.map
        (fun i => i.latches.entries) = [[⟨8⟩]] := by decide +kernel
  obtain ⟨i, hi, heq⟩ := Option.map_eq_some_iff.mp htargets
  obtain ⟨hdest, -⟩ := Prod.mk.inj heq
  obtain ⟨s, n, hs, -, hb, -, hout, halone⟩ := reachable_writingUnit.destination_address
    assign_writingUnit [.declare "late" .wire .bit] (List.mem_of_getElem? hi) (d := ⟨7⟩)
    (by rw [hdest]; decide)
  have hfree : ¬((assign.after writingUnit).run [.declare "late" .wire .bit]).IsLatched ⟨7⟩ := by
    rintro ⟨j, hj, hl⟩
    have hmem := List.mem_map_of_mem (f := fun i => i.latches.entries) hj
    rw [hlatches, List.mem_singleton] at hmem
    rw [hmem] at hl
    exact absurd hl (by decide)
  exact ⟨_, assign_writingUnit, htargets, n, (hout hfree).1, (hout hfree).2, ⟨s, hs, hb⟩, halone⟩

/-- A destination that is latched too has no word register. -/
theorem destination_not_in_wordReg :
    ∃ u', assign writingUnit = .ok () u' ∧ u'.firstTargets = some ([⟨7⟩, ⟨8⟩], [⟨8⟩]) ∧
      u'.IsBoundAt ⟨8⟩ 30 ∧ u'.wordRegs.entries = [⟨7⟩] := by
  have hbound : ((assign.after writingUnit).signals.get? ⟨8⟩).bind Signal.binding = some ⟨30⟩ := by
    decide +kernel
  obtain ⟨s, hs, hb⟩ := Option.bind_eq_some_iff.mp hbound
  exact ⟨_, assign_writingUnit, by decide +kernel, ⟨s, hs, hb⟩, by decide +kernel⟩

end AluPlacement.Alu
