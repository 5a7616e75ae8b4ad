import AluPlacement.Proofs.Placement.Reachable

/-! # The final pass over a block

The pass over a block visits every signal once. A visit skips the signal, puts it into the next slot
of the condition logic, or is refused for want of a slot or because the signal is a word
(`bindRemaining_visit`). No visit is a misuse, so the pass prepares the block, makes all visits and
closes the block with what they refused (`assign_eq`).

The visits refuse nothing exactly if no word is left over and there is a slot for every bit that is
(`collect_eq_nil_iff`). -/

namespace AluPlacement

/-- The signal is a register or a constant and has no binding. -/
def Signal.needsSlot (s : Signal) : Bool := s.behavior.isStateful && s.binding.isNone

theorem Signal.needsSlot_iff {s : Signal} :
    s.needsSlot = true ↔ s.behavior.isStateful = true ∧ s.binding = none := by
  simp [needsSlot]

theorem Signal.needsSlot_withDefault (s : Signal) :
    (Registry.withDefault s).needsSlot = s.needsSlot := by
  unfold Registry.withDefault needsSlot
  split <;> rfl

namespace Registry

/-- The signal is of this type and needs a slot. -/
def isLeft (r : Registry) (d : DataType) (id : SignalId) : Bool :=
  (r.get? id).any fun s => s.needsSlot && s.dataType == d

variable {r : Registry} {id : SignalId} {s : Signal} {d : DataType}

theorem isLeft_eq (hs : r.get? id = some s) (d : DataType) :
    r.isLeft d id = (s.needsSlot && s.dataType == d) := by
  simp [isLeft, hs]

theorem isLeft_place_of_ne {i : SignalId} (h : i ≠ id) (a : Address) (d : DataType) :
    (r.place id a).isLeft d i = r.isLeft d i := by
  unfold isLeft
  rw [get?_place, if_neg (Ne.symm h)]

theorem isLeft_applyDefaults (r : Registry) (d : DataType) (id : SignalId) :
    r.applyDefaults.isLeft d id = r.isLeft d id := by
  unfold isLeft
  rw [get?_applyDefaults]
  cases r.get? id with
  | none => rfl
  | some s =>
    have hd : (withDefault s).dataType = s.dataType := by
      unfold withDefault
      split <;> rfl
    simp [Signal.needsSlot_withDefault, hd]

theorem ids_applyDefaults (r : Registry) : r.applyDefaults.ids = r.ids := by
  unfold ids
  rw [size_applyDefaults]

/-- The signals of the identifiers, in order. -/
theorem map_get?_ids (r : Registry) : r.ids.map r.get? = r.signals.map some := by
  refine List.ext_getElem? fun i => ?_
  unfold ids size get?
  rw [List.map_map, List.getElem?_map, List.getElem?_map]
  rcases Nat.lt_or_ge i r.signals.length with hi | hi
  · simp [hi]
  · simp [hi]

/-- Counting identifiers is counting signals. -/
theorem countP_ids (r : Registry) (p : Signal → Bool) :
    r.ids.countP (fun id => (r.get? id).any p) = r.signals.countP p := by
  calc r.ids.countP (fun id => (r.get? id).any p)
      = (r.ids.map r.get?).countP fun s => s.any p := by rw [List.countP_map]; rfl
    _ = (r.signals.map some).countP fun s => s.any p := by rw [map_get?_ids]
    _ = r.signals.countP p := by rw [List.countP_map]; rfl

end Registry

namespace Block

variable {b t : Block} {id : SignalId} {s : Signal}

/-! ### One visit -/

/-- What a visit of the signal `s` can come to. -/
inductive Visit (b : Block) (id : SignalId) (s : Signal) :
    EStateM.Result (Fault Diagnostic) Block Unit → Prop
  | skip (hs : s.needsSlot = false) : Visit b id s (.ok () b)
  | hold (hs : s.needsSlot = true) (hd : s.dataType = .bit)
      (hroom : b.logic.entries.length < b.logic.capacity) :
      Visit b id s (.ok () (b.takeLogic id (.ofSignal id)))
  | full (hs : s.needsSlot = true) (hd : s.dataType = .bit)
      (hfull : b.logic.capacity ≤ b.logic.entries.length) :
      Visit b id s (.error (.refused (b.logic.exhausted.located s.location)) b)
  | word (hs : s.needsSlot = true) (hd : s.dataType = .word) :
      Visit b id s (.error (.refused ((Error.wrongDataType s.name .bit).located s.location)) b)

theorem bindHold_of_room (hs : b.signals.get? id = some s) (hb : s.binding = none)
    (hroom : b.logic.entries.length < b.logic.capacity) :
    bindHold id b = .ok () (b.takeLogic id (.ofSignal id)) := by
  have hbind : bindLogic id (.ofSignal id) b = .ok _ (b.takeLogic id (.ofSignal id)) :=
    Edit.attempt_eq_ok.mpr (Alu.push_bind_eq_ok.mpr ⟨hroom, ⟨s, hs, hb⟩, rfl⟩)
  exact Edit.bind_eq_ok.mpr ⟨_, _, hbind, rfl⟩

theorem bindHold_of_full (hfull : b.logic.capacity ≤ b.logic.entries.length) (id : SignalId) :
    bindHold id b = .error (.refused b.logic.exhausted) b := by
  refine Edit.bind_eq_error.mpr (Or.inl (Edit.attempt_eq_error.mpr ⟨?_, rfl⟩))
  exact Checked.bind_eq_error.mpr (Or.inl (Pool.push_eq_error.mpr ⟨hfull, rfl⟩))

/-- **What a visit of the pass can come to.** -/
theorem bindRemaining_visit (hs : b.signals.get? id = some s) :
    Visit b id s (bindRemaining id b) := by
  have hask : bindRemaining id b = _ :=
    Edit.bind_of_ok (Edit.ask_eq_ok (q := fun b : Block => b.signals.get id).mpr
      ⟨Registry.get_eq_ok.mpr hs, rfl⟩) _
  have htest : (s.isBound || !s.behavior.isStateful) = !s.needsSlot := by
    unfold Signal.isBound Signal.needsSlot
    cases s.binding <;> cases s.behavior.isStateful <;> rfl
  rw [hask]
  simp only [htest]
  by_cases hneeds : s.needsSlot = true
  · obtain ⟨-, hb⟩ := Signal.needsSlot_iff.mp hneeds
    simp only [hneeds, Bool.not_true, Bool.false_eq_true, if_false]
    cases hd : s.dataType with
    | word =>
      have hrefused : ∀ k : Unit → Edit Block Error Unit, Edit.locatedAt s.location
          (Edit.ask (fun _ => Checked.require (DataType.word = .bit) (.wrongDataType s.name .bit))
            >>= k) b =
          .error (.refused ((Error.wrongDataType s.name .bit).located s.location)) b := fun _ => rfl
      rw [hrefused]
      exact .word hneeds hd
    | bit =>
      have hbit : ∀ k : Unit → Edit Block Error Unit, Edit.locatedAt s.location
          (Edit.ask (fun _ => Checked.require (DataType.bit = .bit) (.wrongDataType s.name .bit))
            >>= k) b = Edit.locatedAt s.location (k ()) b := fun _ => rfl
      rw [hbit]
      rcases Nat.lt_or_ge b.logic.entries.length b.logic.capacity with hroom | hfull
      · have hok := Edit.mapReason_eq_ok (f := fun e => e.located s.location).mpr
          (bindHold_of_room hs hb hroom)
        unfold Edit.locatedAt
        rw [hok]
        exact .hold hneeds hd hroom
      · have herr := Edit.mapReason_eq_error (f := fun e => e.located s.location).mpr
          ⟨_, bindHold_of_full hfull id, rfl⟩
        unfold Edit.locatedAt
        rw [herr]
        exact .full hneeds hd hfull
  · rw [Bool.not_eq_true] at hneeds
    simp only [hneeds, Bool.not_false, if_true]
    exact .skip hneeds

theorem Visit.refused {e : Fault Diagnostic} (hv : Visit b id s (.error e t)) :
    t = b ∧ ∃ d, e = .refused d := by
  cases hv <;> exact ⟨rfl, _, rfl⟩

/-- A visit that answers leaves the block as it is, or the signal takes a slot. -/
theorem Visit.of_ok {a : Unit} (hv : Visit b id s (.ok a t)) : t = b ∨
    s.needsSlot = true ∧ s.dataType = .bit ∧ b.logic.entries.length < b.logic.capacity ∧
      t = b.takeLogic id (.ofSignal id) := by
  cases hv with
  | skip => exact Or.inl rfl
  | hold hs hd hroom => exact Or.inr ⟨hs, hd, hroom, rfl⟩

/-- What putting a signal into a slot preserves is preserved by a visit. -/
theorem after_bindRemaining {P : Block → Prop} (h : P b)
    (h' : ∀ s, b.signals.get? id = some s → s.needsSlot = true → s.dataType = .bit →
      b.logic.entries.length < b.logic.capacity → P (b.takeLogic id (.ofSignal id))) :
    P ((bindRemaining id).after b) := by
  refine Edit.after_ask_bind h fun s hget => ?_
  have hs := Registry.get_eq_ok.mp hget
  have hvisit := bindRemaining_visit hs
  have hask : bindRemaining id b = _ :=
    Edit.bind_of_ok (Edit.ask_eq_ok (q := fun b : Block => b.signals.get id).mpr ⟨hget, rfl⟩) _
  rw [hask] at hvisit
  unfold Edit.after
  split
  next a t hok =>
    rw [hok] at hvisit
    rcases hvisit.of_ok with rfl | ⟨hneeds, hd, hroom, rfl⟩
    · exact h
    · exact h' s hs hneeds hd hroom
  next e t herr =>
    rw [herr] at hvisit
    rw [hvisit.refused.1]
    exact h

/-! ### All visits -/

theorem size_takeLogic (b : Block) (id : SignalId) (f : TruthFn) :
    (b.takeLogic id f).signals.size = b.signals.size := Registry.size_modify _ _ _

theorem length_takeLogic (b : Block) (id : SignalId) (f : TruthFn) :
    (b.takeLogic id f).logic.entries.length = b.logic.entries.length + 1 :=
  List.length_append

/-- All signals can be visited, and what putting a signal into a slot preserves holds after the
visits. -/
theorem collect_induction {ε : Type} {P : Block → Prop} {l : List SignalId} (h : P b)
    (hl : ∀ id ∈ l, b.signals.contains id = true)
    (hstep : ∀ v id s, v.signals.get? id = some s → s.needsSlot = true → s.dataType = .bit →
      v.logic.entries.length < v.logic.capacity → P v → P (v.takeLogic id (.ofSignal id))) :
    ∃ ds t, (Edit.collect bindRemaining l : Edit Block ε _) b = .ok ds t ∧ P t := by
  have hvisits : ∃ ds t, (Edit.collect bindRemaining l : Edit Block ε _) b = .ok ds t ∧
      P t ∧ t.signals.size = b.signals.size := by
    refine Edit.collect_isOk (P := fun t => P t ∧ t.signals.size = b.signals.size) ⟨h, rfl⟩ ?_
    rintro id hid v ⟨hv, hsize⟩
    have hin : v.signals.contains id = true := by
      unfold Registry.contains
      rw [hsize]
      exact hl id hid
    obtain ⟨s, hs⟩ := Registry.contains_iff.mp hin
    refine ⟨fun c t hc => ?_, ?_⟩
    · have hvisit := bindRemaining_visit hs
      rw [hc] at hvisit
      obtain ⟨-, d, hd⟩ := hvisit.refused
      cases hd
    · refine after_bindRemaining (P := fun t => P t ∧ t.signals.size = b.signals.size)
        ⟨hv, hsize⟩ fun s hs hneeds hd hroom => ?_
      exact ⟨hstep v id s hs hneeds hd hroom hv, (size_takeLogic v id _).trans hsize⟩
  obtain ⟨ds, t, hcollect, ht, -⟩ := hvisits
  exact ⟨ds, t, hcollect, ht⟩

/-- **When the visits refuse nothing.** -/
theorem collect_eq_nil_iff {ε : Type} : ∀ {l : List SignalId} {b : Block}, l.Nodup →
    (∀ id ∈ l, b.signals.contains id = true) →
    b.logic.entries.length ≤ b.logic.capacity →
    ((∃ t, (Edit.collect bindRemaining l : Edit Block ε _) b = .ok [] t) ↔
      (∀ id ∈ l, b.signals.isLeft .word id = false) ∧
        b.logic.entries.length + l.countP (b.signals.isLeft .bit) ≤ b.logic.capacity)
  | [], b, _, _, hroom => by
    refine ⟨fun _ => ⟨nofun, ?_⟩, fun _ => ⟨b, rfl⟩⟩
    simpa using hroom
  | id :: l, b, hnodup, hl, hroom => by
    obtain ⟨hid, hnodup⟩ := List.nodup_cons.mp hnodup
    obtain ⟨s, hs⟩ := Registry.contains_iff.mp (hl id List.mem_cons_self)
    have hrest : ∀ i ∈ l, b.signals.contains i = true :=
      fun i hi => hl i (List.mem_cons_of_mem id hi)
    have hword := Registry.isLeft_eq hs .word
    have hbit := Registry.isLeft_eq hs .bit
    have hvisit := bindRemaining_visit hs
    rw [List.forall_mem_cons, List.countP_cons, hword, hbit]
    generalize hresult : bindRemaining id b = result at hvisit
    cases hvisit with
    | skip hneeds =>
      rw [Edit.exists_collect_nil_of_ok hresult, collect_eq_nil_iff (ε := ε) hnodup hrest hroom]
      simp [hneeds]
    | hold hneeds hd hfree =>
      -- the other signals need what they needed before
      have hother : ∀ d, ∀ i ∈ l,
          (b.takeLogic id (.ofSignal id)).signals.isLeft d i = b.signals.isLeft d i := by
        intro d i hi
        refine Registry.isLeft_place_of_ne ?_ _ d
        rintro rfl
        exact hid hi
      have hin : ∀ i ∈ l, (b.takeLogic id (.ofSignal id)).signals.contains i = true := by
        intro i hi
        unfold Registry.contains
        rw [size_takeLogic]
        exact hrest i hi
      have hlen := length_takeLogic b id (.ofSignal id)
      have hcap : (b.takeLogic id (.ofSignal id)).logic.capacity = b.logic.capacity := rfl
      have hwords : (∀ i ∈ l, (b.takeLogic id (.ofSignal id)).signals.isLeft .word i = false) ↔
          ∀ i ∈ l, b.signals.isLeft .word i = false :=
        forall₂_congr fun i hi => by rw [hother .word i hi]
      have hbits : l.countP ((b.takeLogic id (.ofSignal id)).signals.isLeft .bit) =
          l.countP (b.signals.isLeft .bit) :=
        List.countP_congr fun i hi => by rw [hother .bit i hi]
      rw [Edit.exists_collect_nil_of_ok hresult,
        collect_eq_nil_iff (ε := ε) hnodup hin (by rw [hlen, hcap]; exact hfree), hwords, hbits,
        hlen, hcap]
      have hne : (DataType.bit == DataType.word) = false := rfl
      simp only [hneeds, hd, hne, Bool.true_and, beq_self_eq_true, if_true, true_and]
      refine and_congr_right fun _ => ?_
      omega
    | full hneeds hd hfull =>
      refine iff_of_false (Edit.not_collect_nil_of_error hresult) ?_
      rintro ⟨-, hle⟩
      simp only [hneeds, hd, Bool.true_and, beq_self_eq_true, if_true] at hle
      omega
    | word hneeds hd =>
      refine iff_of_false (Edit.not_collect_nil_of_error hresult) ?_
      rintro ⟨⟨hfalse, -⟩, -⟩
      simp [hneeds, hd] at hfalse

/-! ### The pass -/

/-- The block as the visits find it: registers and constants have values. -/
def prepared (b : Block) : Block := { b with signals := b.signals.applyDefaults }

/-- The end of the pass. -/
def close (b : Block) (ds : List Diagnostic) :
    EStateM.Result (Fault (List Diagnostic)) Block Unit :=
  if ds = [] then .ok () { b with phase := .bound }
  else .error (.refused ds) { b with phase := .failed }

/-- The pass on a block that was closed is refused. -/
theorem assign_of_closed (h : b.phase ≠ .building) :
    assign b = .error (.refused [(Error.alreadyAssigned b.name).located b.location]) b := by
  refine Edit.bind_eq_error.mpr (Or.inl (Edit.bind_eq_error.mpr (Or.inl ?_)))
  refine Edit.ask_eq_error.mpr ⟨?_, rfl⟩
  rw [requireBuilding_of_closed h]
  rfl

theorem contains_of_mem_ids (h : id ∈ b.prepared.signals.ids) :
    b.prepared.signals.contains id = true := Registry.mem_ids.mp h

/-- **The pass on a block that is being built.** What putting a signal into a slot preserves holds
after the visits. -/
theorem assign_eq {P : Block → Prop} (hp : b.phase = .building) (h : P b.prepared)
    (hstep : ∀ v id s, v.signals.get? id = some s → s.needsSlot = true → s.dataType = .bit →
      v.logic.entries.length < v.logic.capacity → P v → P (v.takeLogic id (.ofSignal id))) :
    ∃ ds t, (Edit.collect bindRemaining b.prepared.signals.ids :
        Edit Block (List Diagnostic) _) b.prepared = .ok ds t ∧ P t ∧ assign b = t.close ds := by
  obtain ⟨ds, t, hcollect, ht⟩ := collect_induction (ε := List Diagnostic) h
    (fun id hid => contains_of_mem_ids hid) hstep
  refine ⟨ds, t, hcollect, ht, ?_⟩
  have hbegin : beginPass b = .ok () b.prepared := by
    refine Edit.ask_bind_eq_ok.mpr ⟨(), ?_, rfl⟩
    unfold requireBuilding Checked.require
    rw [if_pos hp]
    rfl
  have hids : (Edit.ask fun b => .ok b.signals.ids : Edit Block (List Diagnostic) _) b.prepared =
      .ok b.prepared.signals.ids b.prepared := rfl
  have hend : endPass ds t = t.close ds := by
    cases ds <;> rfl
  calc assign b
    _ = _ := Edit.bind_of_ok hbegin _
    _ = _ := Edit.bind_of_ok hids _
    _ = _ := Edit.bind_of_ok hcollect _
    _ = _ := hend

/-- What the pass leaves behind: a block that was closed before stays as it is. -/
theorem after_assign {P : Block → Prop} (h : P b) (hprepared : b.phase = .building → P b.prepared)
    (hstep : ∀ v id s, v.signals.get? id = some s → s.needsSlot = true → s.dataType = .bit →
      v.logic.entries.length < v.logic.capacity → P v → P (v.takeLogic id (.ofSignal id)))
    (hclose : ∀ t phase, phase ≠ .building → P t → P { t with phase := phase }) :
    P (assign.after b) := by
  by_cases hp : b.phase = .building
  · obtain ⟨ds, t, -, ht, hassign⟩ := assign_eq hp (hprepared hp) hstep
    unfold close at hassign
    split_ifs at hassign
    · rw [Edit.after_of_ok hassign]
      exact hclose t .bound nofun ht
    · rw [Edit.after_of_error hassign]
      exact hclose t .failed nofun ht
  · rw [Edit.after_of_error (assign_of_closed hp)]
    exact h

end Block

end AluPlacement
