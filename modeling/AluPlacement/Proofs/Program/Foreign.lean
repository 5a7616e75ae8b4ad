import AluPlacement.Proofs.Operation.Call
import AluPlacement.Proofs.Program.References

/-! # Identifiers of other registries

An identifier may have been handed out by another registry. Looking up such an identifier is a
misuse, so every call has to ask whether its identifiers are declared before it looks one up. The
calls that take identifiers do so: none of them is a misuse, whatever it is given, and one that is
given a foreign identifier is refused and changes nothing (`Guards`). The final pass and the listing
look up only identifiers that the unit refers to, and these are its own
(`Alu.Reachable.references_declared`). The pass goes round in the program only where there is one.

The one call that answers where a foreign identifier is given is the reduction of a function that is
constant: it does not look at the arguments. -/

namespace AluPlacement

variable {ε α σ : Type}

/-- One of the identifiers is not of the registry. -/
def Registry.IsForeign (r : Registry) (ids : List SignalId) : Prop :=
  ∃ id ∈ ids, r.contains id = false

/-- The question is no misuse, and it is refused if `foreign` holds. -/
structure Checked.Guards (x : Checked ε α) (foreign : Prop) : Prop where
  orderly : x.IsOrderly
  refused : foreign → ∃ reason, x = .error (.refused reason)

/-- The call is no misuse, and if `foreign` holds it is refused and changes nothing. -/
structure Edit.Guards (call : Edit σ ε α) (s : σ) (foreign : Prop) : Prop where
  orderly : call.IsOrderly s
  refused : foreign → ∃ reason, call s = .error (.refused reason) s

/-- A question that is answered only for declared identifiers. -/
theorem Checked.guards_of_ok {x : Checked ε α} {r : Registry} {ids : List SignalId}
    (h : x.IsOrderly) (hok : ∀ a, x = .ok a → ∀ id ∈ ids, r.contains id = true) :
    x.Guards (r.IsForeign ids) := by
  refine ⟨h, fun ⟨id, hid, hforeign⟩ => h.refused fun a ha => ?_⟩
  rw [hok a ha id hid] at hforeign
  cases hforeign

/-- A call that answers only for declared identifiers, and changes nothing if it fails. -/
theorem Edit.guards_of_ok {call : Edit σ ε α} {s : σ} {r : Registry} {ids : List SignalId}
    (h : call.IsOrderly s)
    (hresult : (∃ e, call s = .error e s) ∨ ∀ id ∈ ids, r.contains id = true) :
    call.Guards s (r.IsForeign ids) := by
  refine ⟨h, fun ⟨id, hid, hforeign⟩ => ?_⟩
  rcases hresult with ⟨e, he⟩ | hdeclared
  · cases e with
    | refused reason => exact ⟨reason, he⟩
    | misuse cause => exact absurd he (h cause s)
  · rw [hdeclared id hid] at hforeign
    cases hforeign

/-! ### Looking up declared signals -/

namespace Registry

variable {r : Registry} {id : SignalId}

theorem isOrderly_get (h : r.contains id = true) : (r.get id : Checked ε Signal).IsOrderly := by
  obtain ⟨s, hs⟩ := contains_iff.mp h
  rw [get_eq_ok.mpr hs]
  exact Checked.isOrderly_ok s

/-- Whoever asks first whether a signal is declared may look it up. -/
theorem isOrderly_get_of_declared (unit : String) {rest : Signal → Checked Error α}
    (h : ∀ s, (rest s).IsOrderly) :
    Checked.IsOrderly (do
      r.requireDeclared id unit
      let s ← r.get id
      rest s) :=
  Checked.isOrderly_require.bind fun _ hdeclared =>
    (isOrderly_get (Checked.require_eq_ok.mp hdeclared)).bind fun s _ => h s

theorem exists_name (h : r.contains id = true) :
    ∃ name, (r.name id : Checked ε String) = .ok name := by
  obtain ⟨s, hs⟩ := contains_iff.mp h
  exact ⟨s.name, Checked.bind_eq_ok.mpr ⟨s, get_eq_ok.mpr hs, rfl⟩⟩

theorem isOrderly_requireUnbound (h : r.contains id = true) : (r.requireUnbound id).IsOrderly :=
  (isOrderly_get h).bind fun _ _ => Checked.isOrderly_require

theorem isOrderly_bind (h : r.contains id = true) (a : Address) : (r.bind id a).IsOrderly :=
  (isOrderly_requireUnbound h).bind fun _ _ => Checked.isOrderly_ok _

/-- Every placement is of a signal of the registry. -/
theorem contains_of_placement {e : Placement} (he : e ∈ r.placements) :
    r.contains e.signal = true := by
  obtain ⟨⟨s, i⟩, hs, he⟩ := List.mem_filterMap.mp he
  split_ifs at he
  cases he
  exact contains_iff.mpr ⟨s, List.mk_mem_zipIdx_iff_getElem?.mp hs⟩

end Registry

theorem Pool.isOrderly_push (p : Pool α) (a : α) : (p.push a).IsOrderly := by
  intro c h
  cases (Pool.push_eq_error.mp h).2

/-! ### Operations and conditions -/

namespace OperationTable

/-- Operands that fit are declared. -/
theorem declared_of_fits {signals : Registry} {signature : Signature} {operands : List Operand}
    (h : List.Forall₂ (OperandKind.Fits signals) signature operands) :
    ∀ operand ∈ operands, operand.signal?.all signals.contains = true := by
  induction h with
  | nil => nofun
  | cons hfit _ ih => exact List.forall_mem_cons.mpr ⟨hfit.declared, ih⟩

theorem call_guards (t : OperationTable) (name : String) (operands : List Operand)
    (signals : Registry) :
    (t.call name operands signals).Guards
      (signals.IsForeign (operands.filterMap Operand.signal?)) := by
  have houtcome : Outcome (t.overloads name) signals name operands _ := call_eq_iff.mp rfl
  generalize t.call name operands signals = result at houtcome ⊢
  cases houtcome with
  | unknown | invalid => exact Checked.guards_of_ok (Checked.isOrderly_refuse _) nofun
  | accepted _ hfits =>
    refine Checked.guards_of_ok (Checked.isOrderly_ok _) fun _ _ id hid => ?_
    obtain ⟨operand, hmem, hid⟩ := List.mem_filterMap.mp hid
    have hdeclared := declared_of_fits hfits operand hmem
    rwa [hid] at hdeclared

end OperationTable

namespace BranchCondition

variable {f : TruthFn} {signals : Registry}

theorem isOrderly_ofTruthFn (f : TruthFn) (signals : Registry) :
    (ofTruthFn f signals).IsOrderly := by
  unfold ofTruthFn
  split_ifs
  · exact Checked.isOrderly_ok _
  · exact Checked.isOrderly_ok _
  · split
    · refine Checked.isOrderly_require.bind fun _ hdeclared => ?_
      refine (Registry.isOrderly_get (Checked.require_eq_ok.mp hdeclared)).bind fun _ _ => ?_
      exact Checked.isOrderly_require.bind fun _ _ => Checked.isOrderly_ok _
    · exact Checked.isOrderly_refuse _

/-- A function that is not constant is reduced only if its one argument is declared. -/
theorem contains_of_ofTruthFn (htrue : f.isTrue = false) (hfalse : f.isFalse = false)
    {c : BranchCondition} (h : ofTruthFn f signals = .ok c) :
    (∀ s ∈ f.args, signals.contains s = true) ∧ c.signal? = f.args.head? := by
  unfold ofTruthFn at h
  rw [if_neg (by simp [htrue]), if_neg (by simp [hfalse])] at h
  split at h
  · rename_i s inverted hargs _
    obtain ⟨_, hdeclared, h⟩ := Checked.bind_eq_ok.mp h
    obtain ⟨_, -, h⟩ := Checked.bind_eq_ok.mp h
    obtain ⟨_, -, h⟩ := Checked.bind_eq_ok.mp h
    cases h
    rw [hargs]
    refine ⟨fun s' hs' => ?_, rfl⟩
    rw [List.mem_singleton.mp hs']
    exact Checked.require_eq_ok.mp hdeclared
  · cases h

/-- A constant function is reduced to a condition without a signal, whatever its arguments. -/
theorem ofTruthFn_of_constant (h : f.isTrue = true ∨ f.isFalse = true) (signals : Registry) :
    ∃ c, ofTruthFn f signals = .ok c ∧ c.signal? = none := by
  unfold ofTruthFn
  split_ifs with htrue hfalse
  · exact ⟨always, rfl, rfl⟩
  · exact ⟨never, rfl, rfl⟩
  · exact absurd h (not_or.mpr ⟨htrue, hfalse⟩)

/-- A condition tests a declared signal only. -/
theorem contains_of_signal {c : BranchCondition} {s : SignalId}
    (h : ofTruthFn f signals = .ok c) (hs : c.signal? = some s) : signals.contains s = true := by
  by_cases hconstant : f.isTrue = true ∨ f.isFalse = true
  · obtain ⟨c', hc', hnone⟩ := ofTruthFn_of_constant hconstant signals
    rw [h] at hc'
    cases hc'
    rw [hs] at hnone
    cases hnone
  · obtain ⟨htrue, hfalse⟩ := not_or.mp hconstant
    obtain ⟨hargs, hc⟩ := contains_of_ofTruthFn (Bool.eq_false_iff.mpr htrue)
      (Bool.eq_false_iff.mpr hfalse) h
    rw [hc] at hs
    exact hargs s (List.mem_of_head? hs)

theorem ofTruthFn_guards (f : TruthFn) (signals : Registry) :
    (ofTruthFn f signals).Guards
      (f.isTrue = false ∧ f.isFalse = false ∧ signals.IsForeign f.args) := by
  have horderly := isOrderly_ofTruthFn f signals
  refine ⟨horderly, fun ⟨htrue, hfalse, hforeign⟩ => ?_⟩
  refine (Checked.guards_of_ok horderly fun c hc => ?_).refused hforeign
  exact (contains_of_ofTruthFn htrue hfalse hc).1

end BranchCondition

/-! ### Calls on blocks -/

namespace Block

variable {b : Block} {id : SignalId} {f : TruthFn}

theorem isOrderly_requireBit (b : Block) (id : SignalId) : (b.requireBit id).IsOrderly :=
  Registry.isOrderly_get_of_declared b.name fun _ => Checked.isOrderly_require

theorem isOrderly_checkTarget (T : Behavior → Prop) [DecidablePred T] (expected : String) :
    (b.checkTarget T expected id f).IsOrderly := by
  refine Checked.isOrderly_require.bind fun _ _ => ?_
  refine (isOrderly_requireBit b id).bind fun _ hbit => ?_
  obtain ⟨s, hs, -⟩ := requireBit_eq_ok hbit
  have hdeclared := Registry.contains_iff.mpr ⟨s, hs⟩
  refine (Registry.isOrderly_get hdeclared).bind fun _ _ => ?_
  refine Checked.isOrderly_require.bind fun _ _ => ?_
  refine (Registry.isOrderly_requireUnbound hdeclared).bind fun _ _ => ?_
  exact (Checked.isOrderly_forM fun a _ => isOrderly_requireBit b a).bind fun _ _ =>
    Checked.isOrderly_ok _

theorem isOrderly_bindLogic (h : b.signals.contains id = true) : (bindLogic id f).IsOrderly b :=
  Edit.isOrderly_attempt ((Pool.isOrderly_push _ _).bind fun _ _ =>
    (Registry.isOrderly_bind h _).bind fun _ _ => Checked.isOrderly_ok _)

theorem isOrderly_addRegister (b : Block) (id : SignalId) (f : TruthFn) :
    (addRegister id f).IsOrderly b := by
  refine Edit.IsOrderly.locatedAt (Edit.isOrderly_ask_bind ?_ fun _ hcheck => ?_) b.location
  · rw [checkRegister_eq]
    exact (isOrderly_checkTarget _ _).bind fun _ _ => Checked.isOrderly_ok _
  · obtain ⟨s, hdrive, -⟩ := checkRegister_eq_ok hcheck
    exact isOrderly_bindLogic (Registry.contains_iff.mpr ⟨s, hdrive.declared⟩)

/-- A signal and its function pass the checks only if they are declared. -/
theorem CanDrive.contains {s : Signal} (h : b.CanDrive id f s) :
    ∀ a ∈ id :: f.args, b.signals.contains a = true := by
  intro a ha
  rcases List.mem_cons.mp ha with rfl | ha
  · exact Registry.contains_iff.mpr ⟨s, h.declared⟩
  · exact h.args a ha

theorem addRegister_guards (b : Block) (id : SignalId) (f : TruthFn) :
    (addRegister id f).Guards b (b.signals.IsForeign (id :: f.args)) := by
  refine Edit.guards_of_ok (isOrderly_addRegister b id f) ?_
  rcases addRegister_result b id f with he | ⟨a, s, hdrive, -⟩
  · exact Or.inl he
  · exact Or.inr hdrive.contains

theorem isOrderly_assign (b : Block) : assign.IsOrderly b := by
  intro c t h
  by_cases hp : b.phase = .building
  · obtain ⟨ds, t', -, -, hassign⟩ := assign_eq (P := fun _ => True) hp trivial
      fun _ _ _ _ _ _ _ _ => trivial
    rw [hassign] at h
    unfold close at h
    split_ifs at h
    cases h
  · rw [assign_of_closed hp] at h
    cases h

/-- What the block does with identifiers, its own and foreign ones. -/
structure IsGuarded (b : Block) : Prop where
  addRegister : ∀ id f,
    (Block.addRegister id f).Guards b (b.signals.IsForeign (id :: f.args))
  assign : Block.assign.IsOrderly b
  placements : ∀ e ∈ b.signals.placements, b.signals.contains e.signal = true
  references : ∀ id ∈ b.references, b.signals.contains id = true

end Block

/-! ### Calls on units -/

namespace Alu

variable {u : Alu} {i : Instruction} {id : SignalId} {f : TruthFn}

theorem isOrderly_requireOf (u : Alu) (behavior : Behavior) (dataType : DataType)
    (expected : String) (id : SignalId) : (u.requireOf behavior dataType expected id).IsOrderly :=
  Registry.isOrderly_get_of_declared u.name fun _ => Checked.isOrderly_require

theorem isOrderly_requireWord (u : Alu) (id : SignalId) : (u.requireWord id).IsOrderly :=
  Registry.isOrderly_get_of_declared u.name fun _ => Checked.isOrderly_require

theorem isOrderly_requireNewLabel (u : Alu) (label : Option String) :
    (u.requireNewLabel label).IsOrderly := by
  cases label with
  | none => exact Checked.isOrderly_ok ()
  | some name => exact Checked.isOrderly_require

theorem isOrderly_checkSignals (u : Alu) (i : Instruction) : (u.checkSignals i).IsOrderly := by
  refine (Checked.isOrderly_forM fun d _ => isOrderly_requireOf u _ _ _ d).bind fun _ _ => ?_
  refine (Checked.isOrderly_forM fun o _ => isOrderly_requireOf u _ _ _ o.1).bind fun _ _ => ?_
  refine (Checked.isOrderly_forM fun l _ => isOrderly_requireWord u l).bind fun _ _ => ?_
  refine (Checked.isOrderly_forM fun _ _ => Checked.isOrderly_require).bind fun _ _ => ?_
  exact Checked.isOrderly_forM fun _ _ => Checked.isOrderly_require

theorem isOrderly_pendingInputs
    (hoperands : ∀ o ∈ i.operandSignals, u.signals.contains o = true)
    (hlatches : ∀ l ∈ i.latches.entries, u.signals.contains l = true) :
    (pendingInputs u.signals i).IsOrderly := by
  refine (Checked.isOrderly_foldlM fun pending o ho => ?_).bind fun _ _ =>
    Checked.isOrderly_foldlM fun pending l hl => ?_
  · exact (Registry.isOrderly_get (hoperands o ho)).bind fun _ _ => Checked.isOrderly_ok _
  · refine (Registry.isOrderly_get (hlatches l hl)).bind fun s _ => ?_
    cases s.binding with
    | none => exact Checked.isOrderly_ok _
    | some address => exact Checked.isOrderly_require.bind fun _ _ => Checked.isOrderly_ok _

/-- Once the signals are checked, every identifier that is looked up is declared. -/
theorem isOrderly_checkInstruction (u : Alu) (i : Instruction) :
    (u.checkInstruction i).IsOrderly := by
  refine Checked.isOrderly_require.bind fun _ _ => Checked.isOrderly_require.bind fun _ _ => ?_
  refine (isOrderly_requireNewLabel u i.label).bind fun _ _ => ?_
  refine (isOrderly_checkSignals u i).bind fun _ hsignals => ?_
  obtain ⟨-, -, hlatches, hoperands, -⟩ := checkSignals_eq_ok_iff.mp hsignals
  have hlatches : ∀ l ∈ i.latches.entries, u.signals.contains l = true :=
    fun l hl => Registry.contains_of_get? (hlatches l hl)
  refine (isOrderly_pendingInputs hoperands hlatches).bind fun pending hpending => ?_
  have htypes : ∀ id ∈ pending, ∃ d, (dataTypeOf u.signals id : Checked Error _) = .ok d := by
    intro id hid
    obtain ⟨s, hs, -⟩ := (pendingInputs_eq_ok hpending).unbound id hid
    exact ⟨s.dataType, Checked.bind_eq_ok.mpr ⟨s, Registry.get_eq_ok.mpr hs, rfl⟩⟩
  obtain ⟨types, htypes⟩ := Checked.exists_mapM htypes
  refine Checked.IsOrderly.bind ?_ fun _ _ => Checked.isOrderly_ok _
  unfold requireRoom
  rw [htypes]
  exact Checked.isOrderly_require.bind fun _ _ => Checked.isOrderly_require

theorem isOrderly_addInstruction (u : Alu) (i : Instruction) :
    (addInstruction i).IsOrderly u := by
  intro c t h
  cases hcheck : u.checkInstruction i with
  | ok pending =>
    rw [addInstruction_of_ok hcheck] at h
    cases h
  | error e =>
    have he : addInstruction i u = .error (e.map fun e => e.located i.location) u :=
      Edit.locatedAt_ask_of_error (q := fun u : Alu => u.checkInstruction i) hcheck _
    rw [he] at h
    cases e with
    | refused reason => cases h
    | misuse cause => exact isOrderly_checkInstruction u i cause hcheck

theorem Admits.contains (h : u.Admits i) : ∀ id ∈ i.references, u.signals.contains id = true :=
  Instruction.forall_references
    (fun d hd => Registry.contains_of_get? (h.destinations d hd))
    (fun o ho => Registry.contains_of_get? (h.overrides o ho))
    (fun l hl => Registry.contains_of_get? (h.latches l hl)) h.operands h.conditions

theorem addInstruction_guards (u : Alu) (i : Instruction) :
    (addInstruction i).Guards u (u.signals.IsForeign i.references) := by
  refine Edit.guards_of_ok (isOrderly_addInstruction u i) ?_
  by_cases hi : u.Admits i
  · exact Or.inr hi.contains
  · exact Or.inl (addInstruction_of_not_admits hi)

theorem isOrderly_requireFree (h : u.signals.contains id = true) (slot : Option DrivenSignal)
    (resource : String) : (u.requireFree slot resource id).IsOrderly := by
  obtain ⟨name, hname⟩ := Registry.exists_name (ε := Error) h
  unfold requireFree
  rw [hname]
  exact Checked.isOrderly_require

theorem isOrderly_addConditionLogic (u : Alu) (id : SignalId) (f : TruthFn) :
    (addConditionLogic id f).IsOrderly u := by
  refine Edit.IsOrderly.locatedAt (Edit.isOrderly_ask_bind ?_ fun behavior hcheck => ?_) u.location
  · rw [checkConditionLogic_eq]
    exact Block.isOrderly_checkTarget _ _
  · obtain ⟨s, hdrive, -⟩ := checkConditionLogic_eq_ok hcheck
    have hdeclared : u.signals.contains id = true := Registry.contains_iff.mpr ⟨s, hdrive.declared⟩
    have hbind : ∀ a, (u.signals.bind id a).IsOrderly := Registry.isOrderly_bind hdeclared
    -- a branch register, or one of the two single slots
    split
    · exact Edit.isOrderly_attempt ((Pool.isOrderly_push _ _).bind fun _ _ =>
        (hbind _).bind fun _ _ => Checked.isOrderly_ok _)
    · exact Edit.isOrderly_attempt ((isOrderly_requireFree hdeclared _ _).bind fun _ _ =>
        (hbind _).bind fun _ _ => Checked.isOrderly_ok _)
    · exact Edit.isOrderly_attempt ((isOrderly_requireFree hdeclared _ _).bind fun _ _ =>
        (hbind _).bind fun _ _ => Checked.isOrderly_ok _)

theorem addConditionLogic_guards (u : Alu) (id : SignalId) (f : TruthFn) :
    (addConditionLogic id f).Guards u (u.signals.IsForeign (id :: f.args)) := by
  refine Edit.guards_of_ok (isOrderly_addConditionLogic u id f) ?_
  rcases addConditionLogic_result u id f with he | ⟨a, s, t, hdrive, -⟩
  · exact Or.inl he
  · exact Or.inr hdrive.contains

theorem addRegister_guards (u : Alu) (id : SignalId) (f : TruthFn) :
    (addRegister id f).Guards u (u.signals.IsForeign (id :: f.args)) := by
  refine Edit.guards_of_ok (Block.isOrderly_addRegister u.toBlock id f).zoom ?_
  rcases addRegister_result u id f with he | ⟨a, s, hdrive, -⟩
  · exact Or.inl he
  · exact Or.inr hdrive.contains

theorem Sound.isOrderly_assign (h : u.Sound) : Alu.assign.IsOrderly u := by
  intro c t hc
  by_cases hp : u.phase = .building
  · obtain ⟨unbound, t', -, -, hassign⟩ := assign_eq (h.ready hp) hp
    rw [hassign] at hc
    unfold close at hc
    split_ifs at hc
    cases hc
  · rw [assign_of_closed hp] at hc
    cases hc

/-! ### The listing -/

theorem exists_logicText {e : DrivenSignal} (h : u.signals.contains e.signal = true) :
    ∃ text, (logicText u.signals e : Checked ε String) = .ok text := by
  obtain ⟨name, hname⟩ := Registry.exists_name (ε := ε) h
  exact ⟨_, Checked.bind_eq_ok.mpr ⟨name, hname, rfl⟩⟩

theorem exists_operandText {operand : Operand}
    (h : ∀ id, operand.signal? = some id → u.signals.contains id = true) :
    ∃ text, (OperationCall.operandText u.signals operand : Checked ε String) = .ok text := by
  cases operand with
  | immediate value => exact ⟨_, rfl⟩
  | signal id => exact Registry.exists_name (h id rfl)

theorem exists_operationText (h : ∀ id ∈ i.operandSignals, u.signals.contains id = true) :
    ∃ text, (i.operationText u.signals : Checked ε String) = .ok text := by
  unfold Instruction.operandSignals at h
  unfold Instruction.operationText
  cases hop : i.operation with
  | none => exact ⟨_, rfl⟩
  | some call =>
    rw [hop] at h
    have hall : ∀ operand ∈ call.operands,
        ∃ text, (OperationCall.operandText u.signals operand : Checked ε String) = .ok text :=
      fun operand hoperand => exists_operandText fun id hid =>
        h id (List.mem_filterMap.mpr ⟨operand, hoperand, hid⟩)
    obtain ⟨texts, htexts⟩ := Checked.exists_mapM hall
    exact ⟨_, Checked.bind_eq_ok.mpr ⟨texts, htexts, rfl⟩⟩

theorem exists_instructionText (h : u.Uses i) :
    ∃ text, (instructionText u.signals i : Checked ε String) = .ok text := by
  have hname : ∀ d ∈ i.destinations.entries,
      ∃ name, (u.signals.name d : Checked ε String) = .ok name := by
    intro d hd
    exact Registry.exists_name (Registry.contains_of_get? (h.destinations d hd))
  have hoverride : ∀ o ∈ i.overrides.entries,
      ∃ text, (Instruction.overrideText u.signals o : Checked ε String) = .ok text := by
    intro o ho
    obtain ⟨name, hname⟩ :=
      Registry.exists_name (ε := ε) (Registry.contains_of_get? (h.overrides o ho))
    exact ⟨_, Checked.bind_eq_ok.mpr ⟨name, hname, rfl⟩⟩
  obtain ⟨names, hnames⟩ := Checked.exists_mapM hname
  obtain ⟨operation, hoperation⟩ := exists_operationText (ε := ε) h.operands
  obtain ⟨overrides, hoverrides⟩ := Checked.exists_mapM hoverride
  have hdestinations : (i.destinationsText u.signals : Checked ε String) = .ok _ :=
    Checked.bind_eq_ok.mpr ⟨names, hnames, rfl⟩
  have hoverridesText : (i.overridesText u.signals : Checked ε String) = .ok _ :=
    Checked.bind_eq_ok.mpr ⟨overrides, hoverrides, rfl⟩
  have htext : (i.text u.signals : Checked ε String) = .ok _ :=
    Checked.bind_eq_ok.mpr ⟨_, hdestinations, Checked.bind_eq_ok.mpr ⟨operation, hoperation,
      Checked.bind_eq_ok.mpr ⟨_, hoverridesText, rfl⟩⟩⟩
  exact ⟨_, Checked.bind_eq_ok.mpr ⟨_, htext, rfl⟩⟩

/-- The listing of a unit can always be made. -/
theorem Reachable.exists_listing (h : Reachable u) (ε : Type) :
    ∃ text, (u.listing : Checked ε String) = .ok text := by
  have hlogic : ∀ e ∈ u.stored, ∃ text, (logicText u.signals e : Checked ε String) = .ok text :=
    fun e he => exists_logicText (h.sound.placed.contains_of_stored he)
  obtain ⟨registers, hregisters⟩ := Checked.exists_mapM (l := u.logic.entries) fun e he =>
    hlogic e (List.mem_append_left _ he)
  obtain ⟨drivers, hdrivers⟩ := Checked.exists_mapM (l := u.drivers) fun e he =>
    hlogic e (List.mem_append_right _ he)
  obtain ⟨program, hprogram⟩ := Checked.exists_mapM (l := u.instructions.entries) fun i hi =>
    exists_instructionText (ε := ε) (h.wellFormed.uses i hi)
  exact ⟨_, Checked.bind_eq_ok.mpr ⟨registers, hregisters, Checked.bind_eq_ok.mpr
    ⟨drivers, hdrivers, Checked.bind_eq_ok.mpr ⟨program, hprogram, rfl⟩⟩⟩⟩

/-- What the unit does with identifiers, its own and foreign ones. -/
structure IsGuarded (u : Alu) : Prop where
  operation : ∀ name operands, (u.operation name operands).Guards
    (u.signals.IsForeign (operands.filterMap Operand.signal?))
  addInstruction : ∀ i, (Alu.addInstruction i).Guards u (u.signals.IsForeign i.references)
  addConditionLogic : ∀ id f,
    (Alu.addConditionLogic id f).Guards u (u.signals.IsForeign (id :: f.args))
  addRegister : ∀ id f, (Alu.addRegister id f).Guards u (u.signals.IsForeign (id :: f.args))
  assign : Alu.assign.IsOrderly u
  placements : ∀ e ∈ u.signals.placements, u.signals.contains e.signal = true
  listing : ∀ ε : Type, ∃ text, (u.listing : Checked ε String) = .ok text
  references : ∀ id ∈ u.references, u.signals.contains id = true

theorem Reachable.isGuarded (h : Reachable u) : u.IsGuarded where
  operation := fun name operands => by
    have hcall := u.definition.ops.call_guards name operands u.signals
    refine ⟨hcall.orderly.mapReason _, fun hforeign => ?_⟩
    obtain ⟨reason, hreason⟩ := hcall.refused hforeign
    exact ⟨reason.located u.location, by rw [operation, hreason]; rfl⟩
  addInstruction := addInstruction_guards u
  addConditionLogic := addConditionLogic_guards u
  addRegister := addRegister_guards u
  assign := h.sound.isOrderly_assign
  placements := fun _ => Registry.contains_of_placement
  listing := h.exists_listing
  references := h.references_declared

end Alu

theorem Block.isGuarded_run (name : String) (calls : List Block.Call) :
    (Block.run { name := name } calls).IsGuarded where
  addRegister := Block.addRegister_guards _
  assign := Block.isOrderly_assign _
  placements := fun _ => Registry.contains_of_placement
  references := Block.references_declared name calls

/-! ### All calls -/

/-- **Foreign identifiers are refused and never stored.** -/
theorem foreign_signals_guarded :
    (∀ (t : OperationTable) (name : String) (operands : List Operand) (signals : Registry),
      (t.call name operands signals).Guards
        (signals.IsForeign (operands.filterMap Operand.signal?))) ∧
    (∀ (f : TruthFn) (signals : Registry),
      (BranchCondition.ofTruthFn f signals).Guards
        (f.isTrue = false ∧ f.isFalse = false ∧ signals.IsForeign f.args) ∧
      (f.isTrue = true ∨ f.isFalse = true →
        ∃ c, BranchCondition.ofTruthFn f signals = .ok c ∧ c.signal? = none) ∧
      ∀ c s, BranchCondition.ofTruthFn f signals = .ok c → c.signal? = some s →
        signals.contains s = true) ∧
    (∀ u : Alu, u.Reachable → u.IsGuarded) ∧
    ∀ (name : String) (calls : List Block.Call),
      (Block.run { name := name } calls).IsGuarded := by
  refine ⟨OperationTable.call_guards,
    fun f signals => ⟨?_, fun hconstant => ?_, fun c s hc hs => ?_⟩, fun u hu => hu.isGuarded,
    Block.isGuarded_run⟩
  · exact BranchCondition.ofTruthFn_guards f signals
  · exact BranchCondition.ofTruthFn_of_constant hconstant signals
  · exact BranchCondition.contains_of_signal hc hs

/-- A unit that was given a function of a foreign signal. -/
def guardingUnit : Alu :=
  (Alu.create "alu" .standard).run
    [.declare "r" .register .word, .declare "b" .branchCondition .bit,
      .addConditionLogic ⟨8⟩ (.ofSignal ⟨200⟩), .addConditionLogic ⟨8⟩ (.ofSignal ⟨2⟩)]

/-- An instruction whose operation was checked against another registry. -/
def foreignInstruction : Instruction where
  operation := some { name := "inc", operands := [.signal ⟨200⟩] }
  destinations := { kind := .destinations, capacity := 9, entries := [⟨7⟩] }

theorem foreign_signals_guarded_instruction :
    guardingUnit.phase = .building ∧ guardingUnit.references = [⟨8⟩, ⟨2⟩] ∧
      guardingUnit.IsGuarded ∧
      ∃ reason, Alu.addInstruction foreignInstruction guardingUnit =
        .error (.refused reason) guardingUnit := by
  have hreachable : guardingUnit.Reachable := (Alu.Reachable.new (.standard "alu")).run _
  have hguarded := foreign_signals_guarded.2.2.1 guardingUnit hreachable
  have hforeign : guardingUnit.signals.IsForeign foreignInstruction.references :=
    ⟨⟨200⟩, by decide +kernel, by decide +kernel⟩
  exact ⟨by decide +kernel, by decide +kernel, hguarded,
    (hguarded.addInstruction foreignInstruction).refused hforeign⟩

/-- The function "x and not x" of a signal that no new unit has. -/
def contradiction : TruthFn where
  args := [⟨200⟩]
  table := 0#16
  trace := [.arg 0, .not, .arg 0, .gate .and]

/-- A constant function is reduced without a look at its arguments. -/
theorem reduce_foreign_constant :
    (Expr.and (.signal ⟨200⟩) (.not (.signal ⟨200⟩))).build = .ok contradiction ∧
      (Alu.create "alu" .standard).signals.IsForeign contradiction.args ∧
      BranchCondition.ofTruthFn contradiction (Alu.create "alu" .standard).signals = .ok .never :=
  ⟨by decide +kernel, ⟨⟨200⟩, List.mem_singleton_self _, by decide +kernel⟩, by decide +kernel⟩

end AluPlacement
