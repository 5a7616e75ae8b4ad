import AluPlacement.Proofs.Placement.Plans

/-! # The calls that build commute

Instructions, condition logic and bit registers may be added in any order. Each of these calls binds
signals of its own kinds: an instruction binds words, wires and delayed signals, condition logic
binds branch, bypass and update signals, and a bit register is a register. A plan reads the bindings
of the kinds that its call binds, and of no other (`Agrees.checkTarget`, `instructionPlan_congr`).
So no call changes the plan of a call of another sort, and since they write different signals and
different pools, the plans can be carried out in either order (`drive_comm`, `added_drive`). -/

namespace AluPlacement

/-! ### Registries that differ in bindings -/

namespace Registry

variable {r r' r'' : Registry} {id : SignalId} {s : Signal} {ε α : Type}
  {P : DataType → Behavior → Prop}

/-- `r'` is `r`, except that signals of these kinds may have another binding. -/
def BindsOnly (P : DataType → Behavior → Prop) (r r' : Registry) : Prop :=
  ∀ id, r'.get? id = r.get? id ∨ ∃ s b, r.get? id = some s ∧ P s.dataType s.behavior ∧
    r'.get? id = some { s with binding := b }

theorem bindsOnly_place (hs : r.get? id = some s) (hP : P s.dataType s.behavior) (a : Address) :
    r.BindsOnly P (r.place id a) := by
  intro i
  rw [get?_place]
  split_ifs with hi
  · subst hi
    exact Or.inr ⟨s, some a, hs, hP, by rw [hs]; rfl⟩
  · exact Or.inl rfl

theorem BindsOnly.trans (h : r.BindsOnly P r') (h' : r'.BindsOnly P r'') : r.BindsOnly P r'' := by
  intro id
  rcases h' id with heq' | ⟨s', b', hs', hP', hnew'⟩
  · rw [heq']
    exact h id
  · rcases h id with heq | ⟨s, b, hs, hP, hnew⟩
    · exact Or.inr ⟨s', b', heq ▸ hs', hP', hnew'⟩
    · rw [hnew] at hs'
      cases hs'
      exact Or.inr ⟨s, b', hs, hP, hnew'⟩

/-- A signal has the same kind in both. -/
theorem BindsOnly.kind (h : r.BindsOnly P r') {s' : Signal} (hs : r.get? id = some s)
    (hs' : r'.get? id = some s') : s'.dataType = s.dataType ∧ s'.behavior = s.behavior := by
  rcases h id with heq | ⟨t, b, ht, -, hnew⟩
  · rw [hs', hs] at heq
    cases heq
    exact ⟨rfl, rfl⟩
  · rw [hs] at ht
    cases ht
    rw [hs'] at hnew
    cases hnew
    exact ⟨rfl, rfl⟩

theorem get_congr (h : r'.get? id = r.get? id) :
    (r'.get id : Checked ε Signal) = r.get id := by
  unfold get
  rw [h]

/-- A question about a signal has the same answer if it does not depend on bindings that differ. -/
theorem BindsOnly.get_bind (h : r.BindsOnly P r') {k : Signal → Checked ε α}
    (hk : ∀ s b, r.get? id = some s → P s.dataType s.behavior →
      k { s with binding := b } = k s) : (r'.get id >>= k) = (r.get id >>= k) := by
  rcases h id with heq | ⟨s, b, hs, hP, hnew⟩
  · rw [get_congr heq]
  · rw [get_eq_ok.mpr hs, get_eq_ok.mpr hnew]
    exact hk s b hs hP

theorem BindsOnly.contains (h : r.BindsOnly P r') (id : SignalId) :
    r'.contains id = r.contains id := by
  rw [Bool.eq_iff_iff, contains_iff, contains_iff]
  rcases h id with heq | ⟨s, b, hs, -, hnew⟩
  · rw [heq]
  · exact iff_of_true ⟨_, hnew⟩ ⟨s, hs⟩

theorem BindsOnly.name (h : r.BindsOnly P r') (id : SignalId) :
    (r'.name id : Checked ε String) = r.name id := h.get_bind fun _ _ _ _ => rfl

theorem place_comm {i : SignalId} (h : id ≠ i) (a a' : Address) :
    (r.place id a).place i a' = (r.place i a').place id a := by
  have hget : ∀ j, ((r.place id a).place i a').get? j = ((r.place i a').place id a).get? j := by
    intro j
    simp only [get?_place]
    by_cases hid : id = j
    · subst hid
      simp [Ne.symm h]
    · by_cases hi : i = j <;> simp [hid, hi]
  have hsignals : ((r.place id a).place i a').signals = ((r.place i a').place id a).signals :=
    List.ext_getElem? fun n => hget ⟨n⟩
  exact congrArg Registry.mk hsignals

end Registry

/-! ### Blocks that differ in bindings -/

namespace Block

variable {b b' : Block} {P : DataType → Behavior → Prop} {id : SignalId} {f : TruthFn}

/-- `b'` may have other bindings of signals of these kinds, and other condition logic. -/
structure Agrees (P : DataType → Behavior → Prop) (b b' : Block) : Prop where
  name : b'.name = b.name
  phase : b'.phase = b.phase
  signals : b.signals.BindsOnly P b'.signals

theorem Agrees.requireBuilding (h : Agrees P b b') : b'.requireBuilding = b.requireBuilding := by
  unfold Block.requireBuilding
  rw [h.name, h.phase]

theorem Agrees.requireDeclared (h : Agrees P b b') : b'.requireDeclared = b.requireDeclared := by
  funext id
  unfold Block.requireDeclared Registry.requireDeclared
  rw [h.name, h.signals.contains]

theorem Agrees.requireBit (h : Agrees P b b') : b'.requireBit = b.requireBit := by
  funext id
  unfold Block.requireBit
  rw [h.requireDeclared]
  exact Checked.bind_congr fun _ _ => h.signals.get_bind fun _ _ _ _ => rfl

theorem Agrees.requireBitArgs (h : Agrees P b b') : b'.requireBitArgs f = b.requireBitArgs f := by
  unfold Block.requireBitArgs
  rw [h.requireBit]

/-- The check of a driven signal reads the bindings of its own behaviors only. -/
theorem Agrees.checkTarget (h : Agrees P b b') {T : Behavior → Prop} [DecidablePred T]
    (hP : ∀ behavior, T behavior → ¬P .bit behavior) (expected : String) :
    b'.checkTarget T expected id f = b.checkTarget T expected id f := by
  unfold Block.checkTarget
  rw [h.requireBuilding, h.requireBit, h.requireBitArgs]
  refine Checked.bind_congr fun _ _ => Checked.bind_congr fun _ hbit => ?_
  obtain ⟨s, hs, hd⟩ := requireBit_eq_ok hbit
  rcases h.signals id with heq | ⟨s', a, hs', hkind, hnew⟩
  · have hunbound : b'.signals.requireUnbound id = b.signals.requireUnbound id := by
      unfold Registry.requireUnbound
      rw [Registry.get_congr heq]
    rw [Registry.get_congr heq, hunbound]
  · -- the binding may differ, but the check does not come to it
    rw [hs] at hs'
    cases hs'
    rw [hd] at hkind
    have hnot : ¬T s.behavior := fun hT => hP s.behavior hT hkind
    rw [Registry.get_eq_ok.mpr hs, Registry.get_eq_ok.mpr hnew]
    show (Checked.require (T s.behavior) _ >>= _) = (Checked.require (T s.behavior) _ >>= _)
    unfold Checked.require
    rw [if_neg hnot]
    rfl

theorem Agrees.checkRegister (h : Agrees P b b') (hP : ¬P .bit .register) :
    b'.checkRegister id f = b.checkRegister id f := by
  rw [checkRegister_eq, checkRegister_eq, h.checkTarget]
  rintro behavior rfl
  exact hP

end Block

namespace Alu

variable {u u' : Alu} {P : DataType → Behavior → Prop} {id : SignalId} {s : Signal} {f : TruthFn}
  {i : Instruction} {entry entry' : DrivenSignal} {r r' : Resource} {pending : List SignalId}

/-! ### Plans that stay -/

theorem checkConditionLogic_congr (h : u.Agrees P u'.toBlock)
    (hP : ∀ behavior, IsCondition behavior → ¬P .bit behavior) :
    u'.checkConditionLogic id f = u.checkConditionLogic id f := by
  rw [checkConditionLogic_eq, checkConditionLogic_eq]
  exact h.checkTarget hP _

theorem requireFree_congr (h : u.Agrees P u'.toBlock) (slot : Option DrivenSignal)
    (resource : String) : u'.requireFree slot resource id = u.requireFree slot resource id := by
  unfold requireFree
  rw [h.signals.name]

theorem logicPlan_congr (h : u.Agrees P u'.toBlock)
    (hP : ∀ behavior, IsCondition behavior → ¬P .bit behavior)
    (hbranches : u'.branches = u.branches) (hbypass : u'.condBypass = u.condBypass)
    (hupdate : u'.condUpdate = u.condUpdate) : u'.logicPlan id f = u.logicPlan id f := by
  have hsingle : ∀ slot resource r,
      u'.singleSlot slot resource id r = u.singleSlot slot resource id r := by
    intro slot resource r
    unfold singleSlot
    rw [requireFree_congr h]
  unfold logicPlan
  rw [checkConditionLogic_congr h hP, hbranches, hbypass, hupdate]
  simp only [hsingle]

theorem registerPlan_congr (h : u.Agrees P u'.toBlock) (hP : ¬P .bit .register)
    (hlogic : u'.logic = u.logic) : u'.registerPlan id f = u.registerPlan id f := by
  unfold registerPlan
  rw [h.checkRegister hP, hlogic]

/-- The kinds of signals that an instruction never binds. -/
def NeverInput (d : DataType) (behavior : Behavior) : Prop :=
  d = .bit ∧ behavior ≠ .wire ∧ behavior ≠ .delayed

theorem checkSignals_congr (h : u.Agrees P u'.toBlock) :
    u'.checkSignals i = u.checkSignals i := by
  have hof : u'.requireOf = u.requireOf := by
    funext behavior dataType expected id
    unfold requireOf
    rw [h.requireDeclared]
    exact Checked.bind_congr fun _ _ => h.signals.get_bind fun _ _ _ _ => rfl
  have hword : u'.requireWord = u.requireWord := by
    funext id
    unfold requireWord
    rw [h.requireDeclared]
    exact Checked.bind_congr fun _ _ => h.signals.get_bind fun _ _ _ _ => rfl
  unfold checkSignals
  rw [hof, hword, h.requireDeclared]

theorem latches_of_checkSignals {a : Unit} (h : u.checkSignals i = .ok a) :
    ∀ l ∈ i.latches.entries, ∃ s, u.signals.get? l = some s ∧ s.dataType = .word := by
  obtain ⟨_, -, h⟩ := Checked.bind_eq_ok.mp h
  obtain ⟨_, -, h⟩ := Checked.bind_eq_ok.mp h
  obtain ⟨_, hlatch, -⟩ := Checked.bind_eq_ok.mp h
  exact fun l hl => requireWord_eq_ok (Checked.forM_eq_ok hlatch l hl)

/-- The inputs to bind do not depend on bindings of signals that are never inputs. -/
theorem pendingInputs_congr {r r' : Registry} (h : r.BindsOnly NeverInput r')
    (hlatch : ∀ l ∈ i.latches.entries, ∃ s, r.get? l = some s ∧ s.dataType = .word) :
    pendingInputs r' i = pendingInputs r i := by
  have hoperand : ∀ pending id, addOperand r' pending id = addOperand r pending id := by
    intro pending id
    refine h.get_bind fun s b _ hnever => ?_
    obtain ⟨-, hwire, hdelayed⟩ := hnever
    simp [hwire, hdelayed]
  unfold pendingInputs
  rw [Checked.foldlM_congr fun id _ pending => hoperand pending id]
  refine Checked.bind_congr fun operands _ => Checked.foldlM_congr fun id hid pending => ?_
  obtain ⟨s, hs, hword⟩ := hlatch id hid
  refine h.get_bind fun s' b hs' hnever => ?_
  rw [hs] at hs'
  cases hs'
  rw [hword] at hnever
  cases hnever.1

theorem instructionPlan_congr (h : u.Agrees NeverInput u'.toBlock)
    (hinst : u'.instructions = u.instructions) (hword : u'.wordIns = u.wordIns)
    (hcarry : u'.carryIns = u.carryIns) : u'.instructionPlan i = u.instructionPlan i := by
  have htypes : (dataTypeOf u'.signals : SignalId → Checked Error DataType) =
      dataTypeOf u.signals := by
    funext id
    exact h.signals.get_bind fun _ _ _ _ => rfl
  have hcheck : u'.checkInstruction i = u.checkInstruction i := by
    unfold checkInstruction requireNewLabel
    rw [h.requireBuilding, hinst, checkSignals_congr h]
    refine Checked.bind_congr fun _ _ => Checked.bind_congr fun _ _ =>
      Checked.bind_congr fun _ _ => Checked.bind_congr fun _ hsignals => ?_
    rw [pendingInputs_congr h.signals (latches_of_checkSignals hsignals)]
    refine Checked.bind_congr fun pending _ => ?_
    unfold requireRoom
    rw [htypes, hword, hcarry]
  unfold instructionPlan
  rw [hcheck, hinst]

/-! ### What carrying out a plan changes -/

theorem agrees_drive (hs : u.signals.get? entry.signal = some s) (hP : P s.dataType s.behavior)
    (r : Resource) : u.Agrees P (u.drive entry r).toBlock := by
  have hsignals := Registry.bindsOnly_place hs hP r.address
  unfold drive put
  split <;> exact ⟨rfl, rfl, hsignals⟩

/-- The kinds of signals that an instruction may bind. -/
def MayBeInput (d : DataType) (behavior : Behavior) : Prop :=
  d = .word ∨ behavior = .wire ∨ behavior = .delayed

theorem Accepts.inputKind (h : u.Accepts i pending) (hid : id ∈ pending) :
    ∃ s, u.signals.get? id = some s ∧ MayBeInput s.dataType s.behavior := by
  rcases h.inputs.source id hid with hlatch | ⟨-, s, hs, hin⟩
  · obtain ⟨s, hs, hword⟩ := h.latches id hlatch
    exact ⟨s, hs, Or.inl hword⟩
  · exact ⟨s, hs, Or.inr hin⟩

/-- An added instruction leaves the condition logic and what stands beside it as they are. -/
theorem added_frame (u : Alu) (i : Instruction) (pending : List SignalId) :
    (u.added i pending).name = u.name ∧ (u.added i pending).phase = u.phase ∧
      (u.added i pending).location = u.location ∧ (u.added i pending).logic = u.logic ∧
      (u.added i pending).branches = u.branches ∧
      (u.added i pending).condBypass = u.condBypass ∧
      (u.added i pending).condUpdate = u.condUpdate := by
  have hrest := keepsRest_withInputs u pending
  unfold added
  rw [hrest]
  exact ⟨rfl, rfl, rfl, rfl, rfl, rfl, rfl⟩

theorem Accepts.bindsOnly (h : u.Accepts i pending) :
    u.signals.BindsOnly MayBeInput (u.added i pending).signals := by
  refine h.supply.induction (P := fun v => u.signals.BindsOnly MayBeInput v.signals)
    (fun _ => Or.inl rfl) fun v id s hid hs _ _ hv => ?_
  obtain ⟨s₀, hs₀, hkind⟩ := h.inputKind hid
  obtain ⟨hd, hb⟩ := hv.kind hs₀ hs
  rw [← hd, ← hb] at hkind
  exact hv.trans (Registry.bindsOnly_place hs hkind _)

theorem Accepts.agrees (h : u.Accepts i pending) :
    u.Agrees MayBeInput (u.added i pending).toBlock := by
  obtain ⟨hname, hphase, -⟩ := added_frame u i pending
  exact ⟨hname, hphase, h.bindsOnly⟩

/-! ### Plans in either order -/

theorem drive_comm (h : entry.signal ≠ entry'.signal) (hr : ∀ n, r ≠ .slot .conditionLogic n)
    (n : Nat) :
    (u.drive entry r).drive entry' (.slot .conditionLogic n) =
      (u.drive entry' (.slot .conditionLogic n)).drive entry r := by
  have hplace := Registry.place_comm (r := u.signals) h r.address
    (Resource.slot .conditionLogic n).address
  cases r with
  | slot family m =>
    cases family with
    | conditionLogic => exact absurd rfl (hr m)
    | _ =>
      unfold drive put
      simp only [hplace]
  | _ =>
    unfold drive put
    simp only [hplace]

theorem takeSlot_drive (h : id ≠ entry.signal) (d : DataType) (r : Resource) :
    (u.drive entry r).takeSlot d.inputFamily id = (u.takeSlot d.inputFamily id).drive entry r := by
  have hplace : ∀ a, (u.signals.place entry.signal r.address).place id a =
      (u.signals.place id a).place entry.signal r.address :=
    Registry.place_comm (Ne.symm h) r.address
  cases r with
  | slot family m =>
    cases family <;> cases d <;> simp only [drive, put, takeSlot, appendSlot, slots,
      DataType.inputFamily, hplace]
  | _ =>
    cases d <;> simp only [drive, put, takeSlot, appendSlot, slots, DataType.inputFamily, hplace]

theorem takeInput_drive (h : id ≠ entry.signal) (r : Resource) :
    (u.drive entry r).takeInput id = (u.takeInput id).drive entry r := by
  have hget : (u.drive entry r).signals.get? id = u.signals.get? id := by
    show (u.signals.place entry.signal r.address).get? id = _
    rw [Registry.get?_place, if_neg (Ne.symm h)]
  cases hs : u.signals.get? id with
  | none =>
    unfold takeInput
    rw [hget, hs]
  | some s => rw [takeInput_eq (hget.trans hs), takeInput_eq hs, takeSlot_drive h]

theorem withInputs_drive (h : entry.signal ∉ pending) (r : Resource) :
    (u.drive entry r).withInputs pending = (u.withInputs pending).drive entry r := by
  induction pending generalizing u with
  | nil => rfl
  | cons id pending ih =>
    have hne : entry.signal ≠ id := fun he => h (he ▸ List.mem_cons_self)
    have hrest : entry.signal ∉ pending := fun hmem => h (List.mem_cons_of_mem id hmem)
    show ((u.drive entry r).takeInput id).withInputs pending = _
    rw [takeInput_drive (Ne.symm hne), ih hrest]
    rfl

/-- Inputs and driven signals are bound in either order. -/
theorem added_drive (h : entry.signal ∉ pending) (r : Resource) :
    (u.drive entry r).added i pending = (u.added i pending).drive entry r := by
  have hinputs := withInputs_drive (u := u) h r
  unfold added
  rw [hinputs]
  cases r with
  | slot family m => cases family <;> rfl
  | _ => rfl

/-! ### The calls commute -/

theorem not_mem_of_neverInput (h : u.Accepts i pending) (hs : u.signals.get? id = some s)
    (hnever : NeverInput s.dataType s.behavior) : id ∉ pending := by
  intro hid
  obtain ⟨s', hs', hkind⟩ := h.inputKind hid
  rw [hs] at hs'
  cases hs'
  obtain ⟨hbit, hwire, hdelayed⟩ := hnever
  rcases hkind with hword | hin | hin
  · rw [hbit] at hword
    cases hword
  · exact hwire hin
  · exact hdelayed hin

/-- An instruction commutes with a call that drives a signal which is never an input. -/
theorem addInstruction_commute {y : Edit Alu Diagnostic Address}
    {plan : Alu → Checked Diagnostic Resource}
    (hy : y.Follows plan Resource.address fun r u => u.drive entry r)
    (hkind : ∀ r, plan u = .ok r →
      ∃ s, u.signals.get? entry.signal = some s ∧ NeverInput s.dataType s.behavior)
    (hstay : ∀ pending, u.Accepts i pending → plan (u.added i pending) = plan u) :
    Edit.Commute (addInstruction i) y u := by
  have haccepts : ∀ p, (u.instructionPlan i).mapReason (fun e => e.located i.location) = .ok p →
      u.Accepts i p.2 := by
    intro p hp
    obtain ⟨pending, hcheck, hpure⟩ := Checked.bind_eq_ok.mp (Checked.mapReason_eq_ok.mp hp)
    cases hpure
    exact checkInstruction_eq_ok hcheck
  refine (addInstruction_follows i).commute hy (fun r hr => ?_) (fun p hp => ?_)
    fun p r hp hr => ?_
  · obtain ⟨s, hs, hnever⟩ := hkind r hr
    obtain ⟨hinst, hword, hcarry, -⟩ := drive_frame u entry r
    rw [instructionPlan_congr (agrees_drive hs hnever r) hinst hword hcarry]
  · exact hstay p.2 (haccepts p hp)
  · obtain ⟨s, hs, hnever⟩ := hkind r hr
    exact (added_drive (not_mem_of_neverInput (haccepts p hp) hs hnever) r).symm

theorem addInstruction_commute_logic (u : Alu) (i : Instruction) (id : SignalId) (f : TruthFn) :
    Edit.Commute (addInstruction i) (addConditionLogic id f) u := by
  refine addInstruction_commute (addConditionLogic_follows id f) (fun r hr => ?_)
    fun pending hi => ?_
  · obtain ⟨s, hdrive, hcond, -⟩ := logicPlan_eq_ok (Checked.mapReason_eq_ok.mp hr)
    refine ⟨s, hdrive.declared, hdrive.dataType, ?_⟩
    rcases hcond with hb | hb | hb <;> simp [hb]
  · obtain ⟨-, -, hlocation, -, hbranches, hbypass, hupdate⟩ := added_frame u i pending
    rw [logicPlan_congr hi.agrees ?_ hbranches hbypass hupdate, hlocation]
    rintro behavior (rfl | rfl | rfl) hin <;> simp [MayBeInput] at hin

theorem addInstruction_commute_register (u : Alu) (i : Instruction) (id : SignalId) (f : TruthFn) :
    Edit.Commute (addInstruction i) (addRegister id f) u := by
  refine addInstruction_commute (addRegister_follows id f) (fun r hr => ?_) fun pending hi => ?_
  · obtain ⟨s, hdrive, hreg, -⟩ := registerPlan_eq_ok (Checked.mapReason_eq_ok.mp hr)
    exact ⟨s, hdrive.declared, hdrive.dataType, by rw [hreg]; decide, by rw [hreg]; decide⟩
  · obtain ⟨-, -, hlocation, hlogic, -⟩ := added_frame u i pending
    rw [registerPlan_congr hi.agrees (by simp [MayBeInput]) hlogic, hlocation]

theorem addConditionLogic_commute_register (u : Alu) (id id' : SignalId) (f f' : TruthFn) :
    Edit.Commute (addConditionLogic id f) (addRegister id' f') u := by
  refine (addConditionLogic_follows id f).commute (addRegister_follows id' f') (fun r hr => ?_)
    (fun r hr => ?_) fun r r' hr hr' => ?_
  · obtain ⟨s, hdrive, hreg, -, rfl⟩ := registerPlan_eq_ok (Checked.mapReason_eq_ok.mp hr)
    have hagrees : u.Agrees (fun _ behavior => behavior = .register)
        (u.drive ⟨id', f'⟩ (.slot .conditionLogic u.logic.size)).toBlock :=
      agrees_drive hdrive.declared hreg _
    rw [logicPlan_congr hagrees ?_ rfl rfl rfl]
    · rfl
    · rintro behavior (rfl | rfl | rfl) <;> decide
  · obtain ⟨s, hdrive, hcond, hother⟩ := logicPlan_eq_ok (Checked.mapReason_eq_ok.mp hr)
    have hagrees : u.Agrees (fun _ behavior => IsCondition behavior)
        (u.drive ⟨id, f⟩ r).toBlock := agrees_drive hdrive.declared hcond r
    have hlogic : (u.drive ⟨id, f⟩ r).logic = u.logic := by
      unfold drive put
      split
      next n => exact absurd rfl (hother n)
      all_goals rfl
    obtain ⟨-, -, -, hlocation⟩ := drive_frame u ⟨id, f⟩ r
    rw [registerPlan_congr hagrees (by decide) hlogic, hlocation]
  · obtain ⟨s, hdrive, hcond, hother⟩ := logicPlan_eq_ok (Checked.mapReason_eq_ok.mp hr)
    obtain ⟨s', hdrive', hreg, -, rfl⟩ := registerPlan_eq_ok (Checked.mapReason_eq_ok.mp hr')
    refine drive_comm (fun hid => ?_) hother _
    have hid : id = id' := hid
    subst hid
    have hsame := hdrive.declared.symm.trans hdrive'.declared
    cases hsame
    rw [hreg] at hcond
    simp [IsCondition] at hcond

/-- **Calls of different sorts commute.** On every unit, whether each call is answered or refused,
the order of an instruction, condition logic and a bit register makes no difference to the answers
and to the unit that is left. -/
theorem builds_commute (u : Alu) (i : Instruction) (id id' : SignalId) (f f' : TruthFn) :
    Edit.Commute (addInstruction i) (addConditionLogic id f) u ∧
      Edit.Commute (addInstruction i) (addRegister id' f') u ∧
      Edit.Commute (addConditionLogic id f) (addRegister id' f') u :=
  ⟨addInstruction_commute_logic u i id f, addInstruction_commute_register u i id' f',
    addConditionLogic_commute_register u id id' f f'⟩

end Alu

end AluPlacement
