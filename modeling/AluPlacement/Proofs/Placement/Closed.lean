import AluPlacement.Proofs.Admission.Counts
import AluPlacement.Proofs.Placement.Reachable

/-! # Units after the final pass

If the pass answered, every signal is prepared, keeps its binding, and has one if it is a register
or a constant (`get?_of_assign`); the instruction in each place of the program is the one that was
there before, resolved (`getElem?_of_assign`).

Once the pass was made, the calls of the front end add signals without a binding and change
locations; everything else stays as it is (`keeps_run`). -/

namespace AluPlacement.Alu

variable {u u' u'' : Alu} {id : SignalId} {s : Signal}

/-- `u'` is `u` with further signals and another location. -/
structure Keeps (u u' : Alu) : Prop where
  signals : u.signals.Extends u'.signals
  rest : u' = { u with signals := u'.signals, location := u'.location }

theorem Keeps.refl (u : Alu) : Keeps u u := ⟨.refl _, rfl⟩

theorem Keeps.trans (h : Keeps u u') (h' : Keeps u' u'') : Keeps u u'' := by
  refine ⟨h.signals.trans h'.signals, h'.rest.trans ?_⟩
  rw [h.rest]

theorem Keeps.phase (h : Keeps u u') : u'.phase = u.phase := by rw [h.rest]

theorem Keeps.instructions (h : Keeps u u') : u'.instructions = u.instructions := by rw [h.rest]

theorem Keeps.branchSlots (h : Keeps u u') : u'.branchSlots = u.branchSlots := by
  rw [h.rest]
  rfl

/-- **A call on a closed unit changes nothing but its location and its signals.** -/
theorem keeps_apply (h : u.phase ≠ .building) (c : Call) : Keeps u (c.apply u) := by
  have hrefused : ∀ {t : Alu}, t = u → Keeps u t := by
    rintro t rfl
    exact .refl t
  cases c with
  | setLocation location => exact ⟨.refl _, rfl⟩
  | declare name behavior dataType =>
    show Keeps u ((Alu.declare name behavior dataType).after u)
    rw [after_declare]
    exact ⟨Registry.extends_apply (.declare name behavior dataType) u.signals, rfl⟩
  | edit call => exact ⟨Registry.extends_apply call u.signals, rfl⟩
  | addInstruction i =>
    rcases addInstruction_result u i with ⟨e, he⟩ | ⟨pending, hi, -⟩
    · exact hrefused (Edit.after_of_error he)
    · exact absurd hi.building h
  | addConditionLogic id f =>
    rcases addConditionLogic_result u id f with ⟨e, he⟩ | ⟨a, s, t, hdrive, -⟩
    · exact hrefused (Edit.after_of_error he)
    · exact absurd hdrive.building h
  | addRegister id f =>
    rcases addRegister_result u id f with ⟨e, he⟩ | ⟨a, s, hdrive, -⟩
    · exact hrefused (Edit.after_of_error he)
    · exact absurd hdrive.building h
  | assign => exact hrefused (Edit.after_of_error (assign_of_closed h))

theorem keeps_run (h : u.phase ≠ .building) (calls : List Call) : Keeps u (u.run calls) := by
  induction calls generalizing u with
  | nil => exact .refl u
  | cons c calls ih =>
    have hc := keeps_apply h c
    exact hc.trans (ih (by rwa [hc.phase]))

/-! ### The program after the pass -/

/-- The pass closes the unit, so every later call keeps it. -/
theorem keeps_of_assign (h : u.Sound) (hok : assign u = .ok () u') (calls : List Call) :
    Keeps u' (u'.run calls) := by
  obtain ⟨-, t, -, -, -, -, -, -, rfl⟩ := assign_eq_ok h hok
  refine keeps_run (fun hp => ?_) calls
  cases hp

/-- A pass that leaves a bound unit behind answered. -/
theorem assign_of_phase (h : u.Sound) (hp : u.phase = .building)
    (hbound : (assign.after u).phase = .bound) : assign u = .ok () (assign.after u) := by
  obtain ⟨unbound, t, -, -, hassign⟩ := assign_eq (h.ready hp) hp
  unfold close at hassign
  split_ifs at hassign
  · rw [Edit.after_of_ok hassign, hassign]
  · rw [Edit.after_of_error hassign] at hbound
    cases hbound

theorem branchSlots_of_assign (h : u.Sound) (hok : assign u = .ok () u') :
    u'.branchSlots = u.branchSlots := by
  obtain ⟨-, t, -, -, -, hbranches, -, -, rfl⟩ := assign_eq_ok h hok
  show t.branches.entries.map _ = _
  rw [hbranches]
  rfl

/-- Every instruction that the pass accepts is resolvable. -/
theorem isResolvable_of_assign (h : u.Sound) (hok : assign u = .ok () u') :
    ∀ i ∈ u.instructions.entries, i.IsResolvable u.branchSlots u.labels := by
  obtain ⟨-, t, -, -, hf, hbranches, -, hfaults, -⟩ := assign_eq_ok h hok
  have hresolvable := branchFaults_eq_nil_iff_isResolvable.mp hfaults
  unfold branchSlots labels at hresolvable
  rwa [hbranches, hf.instructions] at hresolvable

/-- **The program after the pass is the program before it, resolved.** -/
theorem getElem?_of_assign (h : u.Sound) (hok : assign u = .ok () u') (n : Nat) :
    u'.instructions.entries[n]? =
      u.instructions.entries[n]?.map fun i => i.resolved u.branchSlots u.labels n := by
  obtain ⟨-, t, -, -, hf, hbranches, -, -, rfl⟩ := assign_eq_ok h hok
  show t.resolved.instructions.entries[n]? = _
  rw [getElem?_resolved]
  unfold branchSlots labels
  rw [hbranches, hf.instructions]

/-- An instruction of a bound unit is one that was added, resolved. -/
theorem mem_of_assign (h : u.Sound) (hok : assign u = .ok () u') {i : Instruction}
    (hi : i ∈ u'.instructions.entries) :
    ∃ (n : Nat) (inst : Instruction), u.instructions.entries[n]? = some inst ∧
      i = inst.resolved u.branchSlots u.labels n := by
  obtain ⟨n, hn⟩ := List.mem_iff_getElem?.mp hi
  rw [getElem?_of_assign h hok] at hn
  obtain ⟨inst, hinst, rfl⟩ := Option.map_eq_some_iff.mp hn
  exact ⟨n, inst, hinst, rfl⟩

/-! ### Signals after the pass -/

theorem binding_prepare : (u.prepare id s).binding = s.binding := by
  cases h : u.isDead id s with
  | true => rw [prepare_of_dead h]
  | false => rw [prepare_of_not_dead h, withDefault_eq]

/-- A signal after the visits: it is prepared, and keeps its binding. -/
theorem get?_of_collect {ε : Type} {ds : List Diagnostic} {t : Alu}
    (h : (Edit.collect bindRemaining u.prepared.signals.ids : Edit Alu ε _) u.prepared = .ok ds t)
    (hs : u.signals.get? id = some s) :
    ∃ b, t.signals.get? id = some { u.prepare id s with binding := b } ∧
      (s.binding ≠ none → b = s.binding) := by
  obtain ⟨b, hb, hkept⟩ := (advances_of_collect h).get id _ (get?_prepared_of_some hs)
  rw [binding_prepare] at hkept
  exact ⟨b, hb, hkept⟩

/-- A signal after the pass that answered: it is prepared, and bound if it needs to be. -/
theorem get?_of_assign (h : u.Sound) (hok : assign u = .ok () u')
    (hs : u.signals.get? id = some s) :
    ∃ b, u'.signals.get? id = some { u.prepare id s with binding := b } ∧
      (s.binding ≠ none → b = s.binding) ∧
      ((u.prepare id s).behavior.isStateful = true → b ≠ none) := by
  obtain ⟨-, t, hcollect, -, -, -, -, -, rfl⟩ := assign_eq_ok h hok
  have hprepared := get?_prepared_of_some hs
  obtain ⟨b, hb, hkept⟩ := get?_of_collect hcollect hs
  refine ⟨b, hb, hkept, fun hstate => ?_⟩
  have hmem : id ∈ u.prepared.signals.ids :=
    Registry.mem_ids.mpr (Registry.contains_iff.mpr ⟨_, hprepared⟩)
  obtain ⟨s', hs', hbound⟩ := bound_of_collect hcollect hmem hprepared hstate
  have hb : t.signals.get? id = some { u.prepare id s with binding := b } := hb
  rw [hb] at hs'
  cases hs'
  exact hbound

theorem exists_of_assign (h : u.Sound) (hok : assign u = .ok () u') {s' : Signal}
    (hs' : u'.signals.get? id = some s') : ∃ s, u.signals.get? id = some s := by
  obtain ⟨-, t, -, -, hf, -, -, -, rfl⟩ := assign_eq_ok h hok
  have hmem : t.signals.contains id = true := Registry.contains_iff.mpr ⟨s', hs'⟩
  rw [hf.contains] at hmem
  exact Registry.contains_iff.mp hmem

theorem placed_of_assign (h : u.Sound) (hok : assign u = .ok () u') : u'.Placed := by
  have hsound := h.assign
  rw [Edit.after_of_ok hok] at hsound
  exact hsound.placed

end AluPlacement.Alu
