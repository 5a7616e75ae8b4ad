import AluPlacement.Proofs.Branch.Resolved
import AluPlacement.Proofs.Placement.Invariant
import Mathlib.Data.List.Nodup

/-! # The final pass as a whole

Every visit of the pass is a step of the placement, so the pass preserves the invariant. The pass
looks up the word registers and the conditions of the branches. If these are declared (`Ready`), no
part of it is a misuse: it prepares the unit, visits every signal, and then reports what the visits
refused, too many nearest neighbors, and the faults of the branches (`assign_eq`). -/

namespace AluPlacement

namespace Registry

theorem size_applyDefaults (r : Registry) : r.applyDefaults.size = r.size := by
  simp [applyDefaults, size]

theorem size_promote (ids : List SignalId) (r : Registry) : (r.promote ids).size = r.size := by
  unfold promote
  induction ids generalizing r with
  | nil => rfl
  | cons id ids ih =>
    rw [List.foldl_cons, ih, size_modify]

theorem mem_ids {r : Registry} {id : SignalId} : id ∈ r.ids ↔ r.contains id = true := by
  unfold ids contains
  rw [List.mem_map, decide_eq_true_iff]
  constructor
  · rintro ⟨i, hi, rfl⟩
    exact List.mem_range.mp hi
  · intro h
    exact ⟨id.index, List.mem_range.mpr h, rfl⟩

theorem nodup_ids (r : Registry) : r.ids.Nodup := by
  unfold ids
  refine List.Nodup.map (fun i j h => ?_) List.nodup_range
  exact congrArg SignalId.index h

end Registry

namespace Alu

variable {u u' : Alu} {id : SignalId} {s : Signal}

/-! ### A visit is a step -/

theorem step_takeSlot (h : u.Placed) (family : Family) (hne : family ≠ .constant)
    (hroom : (u.slots family).length < u.capacityOf family) (hs : u.signals.get? id = some s)
    (hb : s.binding = none) (hd : ∀ i, (Resource.slot family i).dataType? = some s.dataType)
    (f : TruthFn) : Step u (u.takeSlot family id f) := by
  refine .take hs hb ?_ (hd _) (holder?_next_slot u family) (fun v hv => ?_)
    (takes_takeSlot u hne id f)
  · simpa [Resource.inRange, h.capacity] using hroom
  · cases hv

theorem takes_takeBuiltin {r : Resource} {v : Word} (hv : r.builtinValue? = some v)
    (hfree : u.holder? r = none) : Takes u id r (u.takeBuiltin id r) := by
  have hrecord : ∀ r' ∈ Resource.singles,
      (u.takeBuiltin id r).holder? r' = if r' = r then some id else u.holder? r' := by
    intro r' hr'
    have hor : (u.holder? r <|> some id) = some id := by
      rw [hfree]
      rfl
    simp only [Resource.singles, List.mem_cons, List.not_mem_nil, or_false] at hr'
    cases r with
    | builtin0 => rcases hr' with rfl | rfl | rfl | rfl | rfl <;> first | rfl | exact hor
    | builtin1 => rcases hr' with rfl | rfl | rfl | rfl | rfl <;> first | rfl | exact hor
    | builtinFFFF => rcases hr' with rfl | rfl | rfl | rfl | rfl <;> first | rfl | exact hor
    | _ => cases hv
  cases r with
  | builtin0 => exact takes_single (by decide) rfl rfl hrecord rfl rfl rfl rfl rfl
  | builtin1 => exact takes_single (by decide) rfl rfl hrecord rfl rfl rfl rfl rfl
  | builtinFFFF => exact takes_single (by decide) rfl rfl hrecord rfl rfl rfl rfl rfl
  | _ => cases hv

/-- The first constant with a built-in value takes the built-in constant. -/
theorem step_takeBuiltin (h : u.Placed) (hs : u.signals.get? id = some s) (hd : s.dataType = .word)
    (hn : u.IsNewConstant s) {r : Resource}
    (hr : s.initial.bind Resource.ofBuiltinValue? = some r) :
    Step u (u.takeBuiltin id r) := by
  obtain ⟨v, hi, hv⟩ := Option.bind_eq_some_iff.mp hr
  rw [Resource.ofBuiltinValue?_eq_some] at hv
  have hfree : u.holder? r = none := by
    cases ht : u.holder? r with
    | none => rfl
    | some t =>
      refine absurd (h.builtin_holder hv ht) ?_
      rw [← hi, ← hd]
      exact hn.notBound
  refine .take hs hn.unbound (Resource.inRange_of_builtinValue? hv) ?_ hfree (fun v' hv' => ?_)
    (takes_takeBuiltin hv hfree)
  · rw [hd]
    exact Resource.dataType?_of_builtinValue? hv
  · rw [hv] at hv'
    cases hv'
    exact ⟨hn.behavior, hi⟩

theorem Outcome.step (h : u.Placed) (hs : u.signals.get? id = some s) {a : Unit}
    (ho : Outcome u id s (.ok a u')) : Step u u' := by
  cases ho with
  | skip => exact .stay
  | wordReg hb hr hd hroom =>
    exact step_takeSlot h .wordReg (by decide) hroom hs hb (fun i => by rw [hd]; rfl) _
  | hold hd hn hroom =>
    have hb : s.binding = none := hn.elim And.left IsNewConstant.unbound
    refine step_takeSlot h .conditionLogic (by decide) ?_ hs hb (fun i => by rw [hd]; rfl) _
    rw [length_slots_conditionLogic]
    exact hroom
  | shared hb hc ha =>
    obtain ⟨i, p, hp, rfl, hpc, hpd, hpi⟩ := Registry.constantAddress?_eq_some ha
    exact .share hs hb hp hc hpc hpd hpi
  | builtin hd hn hr => exact step_takeBuiltin h hs hd hn hr
  | constant hd hn hr hconst hroom =>
    refine .take hs hn.unbound ?_ (by rw [hd]; rfl) (holder?_next_slot u .wordIn) (fun v hv => ?_)
      (takes_takeConstant u id hconst)
    · have : (u.slots .wordIn).length < u.capacityOf .wordIn := hroom
      simpa [Resource.inRange, h.capacity] using this
    · cases hv
  | spill hd hn hr hconst hroom =>
    exact step_takeSlot h .wordReg (by decide) hroom hs hn.unbound (fun i => by rw [hd]; rfl) _

theorem Outcome.refused {e : Fault Diagnostic} (ho : Outcome u id s (.error e u')) :
    u' = u ∧ ∃ d, e = .refused d := by
  cases ho <;> exact ⟨rfl, _, rfl⟩

/-- A visit has one of the outcomes or changes nothing. -/
theorem after_bindRemaining {P : Alu → Prop} (h : P u)
    (h' : ∀ s u', u.signals.get? id = some s → Outcome u id s (.ok () u') → P u') :
    P ((bindRemaining id).after u) := by
  cases hs : u.signals.get? id with
  | none =>
    have herr : bindRemaining id u = .error (.misuse (.foreignSignal id)) u := by
      refine Edit.bind_eq_error.mpr (Or.inl (Edit.ask_eq_error.mpr ⟨?_, rfl⟩))
      unfold Registry.get
      rw [hs]
      rfl
    rw [Edit.after_of_error herr]
    exact h
  | some s =>
    have ho := bindRemaining_outcome hs
    cases hr : bindRemaining id u with
    | ok a t =>
      rw [hr] at ho
      rw [Edit.after_of_ok hr]
      exact h' s t hs ho
    | error e t =>
      rw [hr] at ho
      rw [Edit.after_of_error hr, ho.refused.1]
      exact h

theorem bindRemaining_isOrderly (hs : u.signals.get? id = some s) :
    (bindRemaining id).IsOrderly u := by
  intro c t hr
  have ho := bindRemaining_outcome hs
  rw [hr] at ho
  obtain ⟨-, d, hd⟩ := ho.refused
  cases hd

/-! ### All visits -/

/-- What the visits leave as it is. -/
structure Frame (u u' : Alu) : Prop where
  size : u'.signals.size = u.signals.size
  instructions : u'.instructions = u.instructions
  definition : u'.definition = u.definition
  phase : u'.phase = u.phase

theorem Frame.trans {u₁ u₂ u₃ : Alu} (h : Frame u₁ u₂) (h' : Frame u₂ u₃) : Frame u₁ u₃ :=
  ⟨h'.size.trans h.size, h'.instructions.trans h.instructions, h'.definition.trans h.definition,
    h'.phase.trans h.phase⟩

theorem Frame.contains (h : Frame u u') : u'.signals.contains id = u.signals.contains id := by
  unfold Registry.contains
  rw [h.size]

/-- A visit binds the signal, or leaves all signals as they are. -/
theorem Outcome.signals {a : Unit} (h : Outcome u id s (.ok a u')) :
    (u'.signals = u.signals ∧ (s.binding ≠ none ∨ s.behavior.isStateful = false)) ∨
      s.binding = none ∧ ∃ a, u'.signals = u.signals.place id a := by
  cases h with
  | skip hskip => exact Or.inl ⟨rfl, hskip⟩
  | wordReg hb => exact Or.inr ⟨hb, _, rfl⟩
  | hold _ hn => exact Or.inr ⟨hn.elim And.left IsNewConstant.unbound, _, rfl⟩
  | shared hb => exact Or.inr ⟨hb, _, rfl⟩
  | @builtin r _ hn => exact Or.inr ⟨hn.unbound, r.address, by cases r <;> rfl⟩
  | constant _ hn => exact Or.inr ⟨hn.unbound, _, rfl⟩
  | spill _ hn => exact Or.inr ⟨hn.unbound, _, rfl⟩

theorem Outcome.frame {a : Unit} (h : Outcome u id s (.ok a u')) : Frame u u' := by
  have hsize : u'.signals.size = u.signals.size := by
    rcases h.signals with ⟨heq, -⟩ | ⟨-, a, heq⟩ <;> rw [heq]
    exact Registry.size_modify _ _ _
  cases h with
  | @builtin r => cases r <;> exact ⟨hsize, rfl, rfl, rfl⟩
  | _ => exact ⟨hsize, rfl, rfl, rfl⟩

/-- All signals can be visited. -/
theorem collect_bindRemaining {ε : Type} (u : Alu) :
    ∃ ds t, (Edit.collect bindRemaining u.signals.ids : Edit Alu ε _) u = .ok ds t ∧
      Frame u t := by
  refine Edit.collect_isOk (P := Frame u) ⟨rfl, rfl, rfl, rfl⟩ fun id hid t hf => ?_
  rw [Registry.mem_ids, ← hf.contains] at hid
  obtain ⟨s, hs⟩ := Registry.contains_iff.mp hid
  exact ⟨bindRemaining_isOrderly hs, after_bindRemaining hf fun _ _ _ ho => hf.trans ho.frame⟩

/-- What every outcome of a visit preserves holds after the visits. -/
theorem visits_induction {ε : Type} {P : Alu → Prop} {l : List SignalId} {ds : List Diagnostic}
    {t : Alu} (h : (Edit.collect bindRemaining l : Edit Alu ε _) u = .ok ds t) (hu : P u)
    (hstep : ∀ v v' id s, v.signals.get? id = some s → Outcome v id s (.ok () v') → P v → P v') :
    P t := by
  have hvisit : ∀ id ∈ l, Edit.Preserves P (bindRemaining id) := fun id _ v hv =>
    after_bindRemaining hv fun s v' hs ho => hstep v v' id s hs ho hv
  rw [← Edit.after_of_ok h]
  exact Edit.preserves_collect hvisit u hu

/-- The visits preserve the invariant. -/
theorem Placed.of_collect {ε : Type} {l : List SignalId} {ds : List Diagnostic} {t : Alu}
    (h : u.Placed) (hc : (Edit.collect bindRemaining l : Edit Alu ε _) u = .ok ds t) : t.Placed :=
  visits_induction (P := Placed) hc h fun _ _ _ _ hs ho hv => (ho.step hv hs).placed hv

/-- A visit makes a word register of no signal but its own. -/
theorem Outcome.mem_wordRegs {a : Unit} (h : Outcome u id s (.ok a u')) {i : SignalId}
    (hi : i ∈ u'.wordRegs.entries) : i ∈ u.wordRegs.entries ∨ i = id := by
  have happend : i ∈ u.wordRegs.entries ++ [id] → i ∈ u.wordRegs.entries ∨ i = id := by simp
  cases h with
  | wordReg => exact happend hi
  | spill => exact happend hi
  | @builtin r => cases r <;> exact Or.inl hi
  | _ => exact Or.inl hi

theorem wordRegs_of_collect {ε : Type} {l : List SignalId} {ds : List Diagnostic} {t : Alu}
    (hc : (Edit.collect bindRemaining l : Edit Alu ε _) u = .ok ds t)
    (h : ∀ id ∈ u.wordRegs.entries, u.signals.contains id = true) :
    ∀ id ∈ t.wordRegs.entries, t.signals.contains id = true := by
  refine visits_induction (P := fun v => ∀ id ∈ v.wordRegs.entries, v.signals.contains id = true)
    hc h fun v v' id s hs ho hv i hi => ?_
  rw [ho.frame.contains]
  rcases ho.mem_wordRegs hi with hi | rfl
  · exact hv i hi
  · exact Registry.contains_iff.mpr ⟨s, hs⟩

/-- The visits leave the branch registers as they are. -/
theorem branches_of_collect {ε : Type} {l : List SignalId} {ds : List Diagnostic}
    {t : Alu} (h : (Edit.collect bindRemaining l : Edit Alu ε _) u = .ok ds t) :
    t.branches = u.branches := by
  refine visits_induction (P := fun v => v.branches = u.branches) h rfl fun v v' id s _ ho hv => ?_
  rw [← hv]
  cases ho with
  | @builtin r => cases r <;> rfl
  | _ => rfl

theorem Outcome.advances {a : Unit} (hs : u.signals.get? id = some s)
    (h : Outcome u id s (.ok a u')) : u.signals.Advances u'.signals := by
  rcases h.signals with ⟨heq, -⟩ | ⟨hb, a, heq⟩ <;> rw [heq]
  · exact .refl _
  · exact Registry.advances_place hs hb a

theorem advances_of_collect {ε : Type} {l : List SignalId} {ds : List Diagnostic} {t : Alu}
    (h : (Edit.collect bindRemaining l : Edit Alu ε _) u = .ok ds t) :
    u.signals.Advances t.signals :=
  visits_induction (P := fun v => u.signals.Advances v.signals) h (.refl _)
    fun _ _ _ _ hs ho hv => hv.trans (ho.advances hs)

/-- A visit that reports nothing leaves a register or a constant bound. -/
theorem Outcome.bound {a : Unit} (hs : u.signals.get? id = some s)
    (hstate : s.behavior.isStateful = true) (h : Outcome u id s (.ok a u')) :
    ∃ s', u'.signals.get? id = some s' ∧ s'.binding ≠ none := by
  rcases h.signals with ⟨heq, hskip⟩ | ⟨-, a, heq⟩
  · refine ⟨s, by rw [heq, hs], hskip.resolve_right fun hfalse => ?_⟩
    rw [hstate] at hfalse
    cases hfalse
  · refine ⟨{ s with binding := some a }, ?_, Option.some_ne_none a⟩
    rw [heq, Registry.get?_place, if_pos rfl, hs]
    rfl

/-- Visits that report nothing leave every register and every constant bound. -/
theorem bound_of_collect {ε : Type} {l : List SignalId} {t : Alu}
    (h : (Edit.collect bindRemaining l : Edit Alu ε _) u = .ok [] t) (hid : id ∈ l)
    (hs : u.signals.get? id = some s) (hstate : s.behavior.isStateful = true) :
    ∃ s', t.signals.get? id = some s' ∧ s'.binding ≠ none := by
  induction l generalizing u s with
  | nil => cases hid
  | cons i l ih =>
    obtain ⟨a, v, hi, hrest⟩ := Edit.collect_cons_eq_nil.mp h
    rcases List.mem_cons.mp hid with rfl | hid
    · -- bound by its own visit, and kept by the later ones
      have ho := bindRemaining_outcome hs
      rw [hi] at ho
      obtain ⟨s', hs', hb⟩ := ho.bound hs hstate
      obtain ⟨b, ht, hkept⟩ := (advances_of_collect hrest).get id s' hs'
      exact ⟨_, ht, by rw [hkept hb]; exact hb⟩
    · have hadv : u.signals.Advances v.signals := by
        rw [← Edit.after_of_ok hi]
        exact after_bindRemaining (P := fun v => u.signals.Advances v.signals) (.refl _)
          fun _ _ hs ho => ho.advances hs
      obtain ⟨b, hv, -⟩ := hadv.get id s hs
      exact ih hrest hid hv hstate

/-! ### Nearest neighbors -/

/-- The register needs a nearest neighbor. -/
def needsNeighbor (signals : Registry) (id : SignalId) : Bool :=
  match signals.get? id with
  | some s => s.initial.getD 0#16 != 0#16 || s.warmReset || signals.hasRegisterSlice id
  | none => false

/-- The names of the word registers that need a nearest neighbor. -/
def neighbors (u : Alu) : List String :=
  (u.wordRegs.entries.filter (needsNeighbor u.signals)).map fun id => (u.signals.name? id).getD ""

/-- The diagnostic for too many nearest neighbors. -/
def neighborFaults (u : Alu) : List Diagnostic :=
  let budget := u.definition.limits.nnBudget
  if u.neighbors.length ≤ budget then []
  else [(Error.nearestNeighborBudget budget u.neighbors).located u.location]

theorem checkNeighbors_eq {ε : Type}
    (h : ∀ id ∈ u.wordRegs.entries, u.signals.contains id = true) :
    (checkNeighbors u : Checked ε _) = .ok u.neighborFaults := by
  have hnames : (u.wordRegs.entries.mapM (neighborName? u.signals) : Checked ε _) =
      .ok (u.wordRegs.entries.map fun id => if needsNeighbor u.signals id then
        some ((u.signals.name? id).getD "") else none) := by
    refine Checked.mapM_eq_ok fun id hid => ?_
    obtain ⟨s, hs⟩ := Registry.contains_iff.mp (h id hid)
    refine Checked.bind_eq_ok.mpr ⟨s, Registry.get_eq_ok.mpr hs, ?_⟩
    simp only [needsNeighbor, Registry.name?, hs, Option.map_some, Option.getD_some]
    rfl
  refine Checked.bind_eq_ok.mpr ⟨_, hnames, ?_⟩
  have hfilter : ∀ l : List SignalId, (l.map fun id => if needsNeighbor u.signals id then
      some ((u.signals.name? id).getD "") else none).filterMap (fun x => x) =
        (l.filter (needsNeighbor u.signals)).map fun id => (u.signals.name? id).getD "" := by
    intro l
    induction l with
    | nil => rfl
    | cons id l ih =>
      simp only [List.map_cons, List.filterMap_cons, List.filter_cons]
      cases needsNeighbor u.signals id <;> simp [ih]
  show Except.ok _ = _
  unfold neighborFaults neighbors
  rw [← hfilter]
  rfl

/-! ### The pass -/

/-- What the pass looks up is declared. -/
structure Ready (u : Alu) : Prop where
  wordRegs : ∀ id ∈ u.wordRegs.entries, u.signals.contains id = true
  conditions : ∀ i ∈ u.instructions.entries, ∀ c ∈ i.branch.conditions, u.signals.contains c = true

theorem Sound.ready (h : u.Sound) (hp : u.phase = .building) : u.Ready := by
  refine ⟨fun id hid => ?_, (h.inProgress hp).declared⟩
  obtain ⟨i, hi⟩ := mem_slots_iff.mp (show id ∈ u.slots .wordReg from hid)
  obtain ⟨p, hbound, -⟩ := h.placed.holder (.slot .wordReg i) id (Option.some_ne_none _) hi
  obtain ⟨s, hs, -⟩ := Registry.bound?_eq_some.mp hbound
  exact Registry.contains_iff.mpr ⟨s, hs⟩

/-- The unit as the visits find it: with default values and without dead registers. -/
def prepared (u : Alu) : Alu := promoteDead { u with signals := u.signals.applyDefaults }

theorem Placed.withSignals (h : u.Placed) {r : Registry} (hr : r.bound? = u.signals.bound?) :
    Placed { u with signals := r } := by
  refine ⟨h.capacity, h.inRange, ?_, ?_, ?_, h.constants, h.instructions, h.program⟩
  · intro r' t
    rw [hr]
    exact h.holder r' t
  · intro i p
    rw [hr]
    exact h.bound i p
  · intro i p r' v
    rw [hr]
    exact h.builtin i p r' v

theorem Placed.applyDefaults (h : u.Placed) :
    Placed { u with signals := u.signals.applyDefaults } := by
  have hbound : ∀ i, u.signals.applyDefaults.bound? i =
      (u.signals.bound? i).map BoundSignal.withDefault := Registry.bound?_applyDefaults u.signals
  refine ⟨h.capacity, h.inRange, ?_, ?_, ?_, h.constants, h.instructions, h.program⟩
  · intro r t hd ht
    obtain ⟨p, hp, ha⟩ := h.holder r t hd ht
    refine ⟨p.withDefault, ?_, by rw [BoundSignal.address_withDefault, ha]⟩
    rw [hbound, hp]
    rfl
  · intro i p' hp'
    rw [hbound] at hp'
    obtain ⟨p, hp, rfl⟩ := Option.map_eq_some_iff.mp hp'
    obtain ⟨r, t, q, hd, ha, ht, hq, hsame⟩ := h.bound i p hp
    refine ⟨r, t, q.withDefault, by rw [BoundSignal.dataType_withDefault, hd],
      by rw [BoundSignal.address_withDefault, ha], ht, ?_, hsame.imp id (·.withDefault)⟩
    rw [hbound, hq]
    rfl
  · intro i p' r v hp' hv ha
    rw [hbound] at hp'
    obtain ⟨p, hp, rfl⟩ := Option.map_eq_some_iff.mp hp'
    rw [BoundSignal.address_withDefault] at ha
    obtain ⟨hc, hi⟩ := h.builtin i p r v hp hv ha
    have : p.withDefault = p := by simp [BoundSignal.withDefault, hi]
    rw [this]
    exact ⟨hc, hi⟩

theorem register_of_mem_deadRegisters (h : id ∈ u.deadRegisters) :
    ∃ s, u.signals.get? id = some s ∧ s.behavior = .register ∧ s.binding = none := by
  have hdead := (List.mem_filter.mp h).2
  cases hs : u.signals.get? id with
  | none =>
    rw [hs] at hdead
    cases hdead
  | some s =>
    rw [hs] at hdead
    simp only [Signal.isOf, Signal.isBound, Bool.and_eq_true, beq_iff_eq, Bool.not_eq_true',
      Option.isSome_eq_false_iff, Option.isNone_iff_eq_none] at hdead
    obtain ⟨⟨⟨⟨hregister, -⟩, hunbound⟩, -⟩, -⟩ := hdead
    exact ⟨s, rfl, hregister, hunbound⟩

theorem bound?_of_mem_deadRegisters (h : id ∈ u.deadRegisters) : u.signals.bound? id = none := by
  obtain ⟨s, hs, -, hunbound⟩ := register_of_mem_deadRegisters h
  rw [Registry.bound?_of_get? hs, Signal.bound?_eq_none]
  exact hunbound

theorem Placed.prepared (h : u.Placed) : u.prepared.Placed :=
  h.applyDefaults.withSignals
    (Registry.bound?_promote fun _ hid => bound?_of_mem_deadRegisters hid)

theorem frame_prepared (u : Alu) : Frame u u.prepared := by
  refine ⟨?_, rfl, rfl, rfl⟩
  show ((u.signals.applyDefaults).promote _).size = u.signals.size
  rw [Registry.size_promote, Registry.size_applyDefaults]

/-- The registers in the branch slots. -/
def branchSlots (u : Alu) : List SignalId := u.branches.entries.map DrivenSignal.signal

/-- The labels of the program. -/
def labels (u : Alu) : List (Option String) := u.instructions.entries.map Instruction.label

/-- The faults of the branches. -/
def branchFaults (u : Alu) : List Diagnostic :=
  u.instructions.entries.zipIdx.flatMap fun p =>
    (p.1.faults u.signals u.branchSlots u.labels p.2).map fun e => e.located p.1.location

theorem branchFaults_eq_nil_iff_isResolvable : u.branchFaults = [] ↔
    ∀ i ∈ u.instructions.entries, i.IsResolvable u.branchSlots u.labels := by
  unfold branchFaults
  rw [List.flatMap_eq_nil_iff]
  simp only [List.map_eq_nil_iff, Instruction.faults_eq_nil]
  constructor
  · intro h i hi
    obtain ⟨n, hn⟩ := List.mem_iff_getElem?.mp hi
    exact h (i, n) (List.mk_mem_zipIdx_iff_getElem?.mpr hn)
  · intro h p hp
    exact h p.1 (List.fst_mem_of_mem_zipIdx hp)

/-- The unit with the branches of its program resolved. -/
def resolved (u : Alu) : Alu :=
  { u with instructions := { u.instructions with
      entries := u.instructions.entries.zipIdx.map
        fun p => p.1.resolved u.branchSlots u.labels p.2 } }

theorem getElem?_resolved (u : Alu) (n : Nat) : u.resolved.instructions.entries[n]? =
    u.instructions.entries[n]?.map fun i => i.resolved u.branchSlots u.labels n := by
  show (u.instructions.entries.zipIdx.map
    fun p => p.1.resolved u.branchSlots u.labels p.2)[n]? = _
  rw [List.getElem?_map, List.getElem?_zipIdx, Option.map_map, Nat.zero_add]
  rfl

/-- Whatever the visits bind, the branches can be resolved. -/
theorem resolveBranches_eq_resolved {ε : Type} (h : u.Ready) (hf : Frame u u') :
    (resolveBranches u'.signals u'.branchSlots u'.instructions.entries : Checked ε _) =
      .ok (u'.resolved.instructions.entries, u'.branchFaults) := by
  refine resolveBranches_eq fun inst hinst c hc => ?_
  rw [hf.instructions] at hinst
  rw [hf.contains]
  exact h.conditions inst hinst c (List.mem_filter.mp hc).1

/-- The end of the pass. -/
def close (u : Alu) (ds : List Diagnostic) : EStateM.Result (Fault (List Diagnostic)) Alu Unit :=
  if ds = [] then .ok () { u with phase := .bound }
  else .error (.refused ds) { u with phase := .failed }

theorem onBlock_endPass (u : Alu) (ds : List Diagnostic) :
    (onBlock (Block.endPass ds)) u = u.close ds := by
  cases ds <;> rfl

/-- The pass on a unit that was closed is refused. -/
theorem assign_of_closed (h : u.phase ≠ .building) :
    assign u = .error (.refused [(Error.alreadyAssigned u.name).located u.location]) u := by
  refine Edit.bind_eq_error.mpr (Or.inl (Edit.zoom_eq_error.mpr ⟨u.toBlock, ?_, rfl⟩))
  refine Edit.bind_eq_error.mpr (Or.inl (Edit.ask_eq_error.mpr ⟨?_, rfl⟩))
  unfold Block.requireBuilding Checked.require
  rw [if_neg h]
  rfl

/-- **The final pass on a unit that is being built.** -/
theorem assign_eq (h : u.Ready) (hp : u.phase = .building) :
    ∃ unbound t, (Edit.collect bindRemaining u.prepared.signals.ids :
        Edit Alu (List Diagnostic) _) u.prepared = .ok unbound t ∧ Frame u t ∧
      assign u = t.resolved.close (unbound ++ t.neighborFaults ++ t.branchFaults) := by
  obtain ⟨unbound, t, hcollect, hf⟩ := collect_bindRemaining (ε := List Diagnostic) u.prepared
  have hframe : Frame u t := (frame_prepared u).trans hf
  refine ⟨unbound, t, hcollect, hframe, ?_⟩
  have hbegin : (onBlock Block.beginPass) u =
      .ok () { u with signals := u.signals.applyDefaults } := by
    refine Edit.zoom_eq_ok.mpr ⟨_, Edit.bind_eq_ok.mpr ⟨(), u.toBlock, ?_, rfl⟩, rfl⟩
    refine Edit.ask_eq_ok.mpr ⟨?_, rfl⟩
    unfold Block.requireBuilding Checked.require
    rw [if_pos hp]
    rfl
  have hresolve : (resolveProgram : Edit Alu (List Diagnostic) _) t =
      .ok t.branchFaults t.resolved := by
    have hbranches := resolveBranches_eq_resolved (ε := List Diagnostic) h hframe
    exact Edit.attempt_eq_ok.mpr (Checked.bind_eq_ok.mpr ⟨_, hbranches, rfl⟩)
  have hids : (Edit.ask fun u => .ok u.signals.ids : Edit Alu (List Diagnostic) _) u.prepared =
      .ok u.prepared.signals.ids u.prepared := rfl
  have hwordRegs : ∀ id ∈ u.prepared.wordRegs.entries, u.prepared.signals.contains id = true := by
    intro id hid
    rw [(frame_prepared u).contains]
    exact h.wordRegs id hid
  have hneighbors : (Edit.ask checkNeighbors : Edit Alu (List Diagnostic) _) t =
      .ok t.neighborFaults t :=
    Edit.ask_eq_ok.mpr ⟨checkNeighbors_eq (wordRegs_of_collect hcollect hwordRegs), rfl⟩
  calc assign u
    _ = _ := Edit.bind_of_ok hbegin _
    _ = _ := Edit.bind_of_ok (Edit.update_eq promoteDead _) _
    _ = _ := Edit.bind_of_ok hids _
    _ = _ := Edit.bind_of_ok hcollect _
    _ = _ := Edit.bind_of_ok hneighbors _
    _ = _ := Edit.bind_of_ok hresolve _
    _ = _ := onBlock_endPass _ _

theorem Placed.resolved (h : u.Placed) : u.resolved.Placed := by
  refine ⟨h.capacity, h.inRange, h.holder, h.bound, h.builtin, h.constants, ?_, h.program⟩
  show (u.instructions.entries.zipIdx.map _).length ≤ _
  rw [List.length_map, List.length_zipIdx]
  exact h.instructions

theorem Placed.withPhase (h : u.Placed) (phase : Phase) : Placed { u with phase := phase } :=
  ⟨h.capacity, h.inRange, h.holder, h.bound, h.builtin, h.constants, h.instructions, h.program⟩

/-- What the pass leaves behind of a unit that is being built, whether it answers or not. -/
theorem exists_after_assign (h : u.Ready) (hp : u.phase = .building) :
    ∃ unbound t phase, (Edit.collect bindRemaining u.prepared.signals.ids :
        Edit Alu (List Diagnostic) _) u.prepared = .ok unbound t ∧ Frame u t ∧
      phase ≠ .building ∧ assign.after u = { t.resolved with phase := phase } := by
  obtain ⟨unbound, t, hcollect, hf, hassign⟩ := assign_eq h hp
  unfold close at hassign
  split_ifs at hassign
  · exact ⟨unbound, t, .bound, hcollect, hf, nofun, Edit.after_of_ok hassign⟩
  · exact ⟨unbound, t, .failed, hcollect, hf, nofun, Edit.after_of_error hassign⟩

/-- What the pass leaves behind: a unit that was closed before stays as it is. -/
theorem after_assign {P : Alu → Prop} (h : u.phase = .building → u.Ready) (hu : P u)
    (h' : ∀ unbound t phase, (Edit.collect bindRemaining u.prepared.signals.ids :
        Edit Alu (List Diagnostic) _) u.prepared = .ok unbound t → phase ≠ .building →
      P { t.resolved with phase := phase }) : P (assign.after u) := by
  by_cases hp : u.phase = .building
  · obtain ⟨unbound, t, phase, hcollect, -, hphase, hafter⟩ := exists_after_assign (h hp) hp
    rw [hafter]
    exact h' unbound t phase hcollect hphase
  · rw [Edit.after_of_error (assign_of_closed hp)]
    exact hu

/-- The pass answers: nothing was reported. -/
theorem assign_eq_ok (h : u.Sound) (hok : assign u = .ok () u') :
    u.phase = .building ∧ ∃ t, (Edit.collect bindRemaining u.prepared.signals.ids :
        Edit Alu (List Diagnostic) _) u.prepared = .ok [] t ∧ t.Placed ∧ Frame u t ∧
      t.branches = u.branches ∧ t.neighborFaults = [] ∧ t.branchFaults = [] ∧
      u' = { t.resolved with phase := .bound } := by
  by_cases hp : u.phase = .building
  · obtain ⟨unbound, t, hcollect, hf, hassign⟩ := assign_eq (h.ready hp) hp
    have ht := h.placed.prepared.of_collect hcollect
    rw [hok] at hassign
    unfold close at hassign
    split_ifs at hassign with hnil
    cases hassign
    obtain ⟨hnil, hbranch⟩ := List.append_eq_nil_iff.mp hnil
    obtain ⟨rfl, hneighbor⟩ := List.append_eq_nil_iff.mp hnil
    have hbranches : t.branches = u.prepared.branches := branches_of_collect hcollect
    exact ⟨hp, t, hcollect, ht, hf, hbranches, hneighbor, hbranch, rfl⟩
  · rw [assign_of_closed hp] at hok
    cases hok

/-- **The final pass preserves the invariant.** -/
theorem Sound.assign (h : u.Sound) : Sound (Alu.assign.after u) :=
  after_assign h.ready h fun _ _ phase hcollect hphase =>
    ⟨(h.placed.prepared.of_collect hcollect).resolved.withPhase phase,
      fun hb => absurd hb hphase⟩

end Alu

end AluPlacement
