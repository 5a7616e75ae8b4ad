import AluPlacement.Alu.Report
import AluPlacement.Proofs.Block.Pass
import AluPlacement.Proofs.Logic.Rendering
import AluPlacement.Proofs.Placement.Reachable

/-! # The functions that units store

A unit stores the functions that drive its condition-logic registers, its branch registers and the
two signals on conditions. Each of them was given by a call that checked its arguments, or holds the
value of a signal of the unit. So a unit stores functions of declared signals only, and functions of
some kind if the calls pass no others (`Block.Stores.apply`, `Alu.Stores.apply`).

If the calls pass functions that were built, the stored ones were built too. Hence what a unit shows
of its functions is always an expression with their values (`formulaText_faithful`). -/

namespace AluPlacement

/-- The function is one of these and reads declared signals only. -/
structure TruthFn.IsAmong (F : TruthFn → Prop) (r : Registry) (f : TruthFn) : Prop where
  given : F f
  declared : ∀ s ∈ f.args, r.contains s = true

namespace TruthFn

variable {F : TruthFn → Prop} {r r' : Registry} {f : TruthFn}

theorem IsAmong.mono (h : f.IsAmong F r)
    (hr : ∀ id, r.contains id = true → r'.contains id = true) : f.IsAmong F r' :=
  ⟨h.given, fun s hs => hr s (h.declared s hs)⟩

/-- The functions that hold a value, which a pass may add to those that were given. -/
theorem isAmong_ofSignal (hF : ∀ id, F (ofSignal id)) {id : SignalId} (h : r.contains id = true) :
    (ofSignal id).IsAmong F r := by
  refine ⟨hF id, fun s hs => ?_⟩
  have : s = id := List.mem_singleton.mp hs
  rw [this]
  exact h

theorem isBuilt_ofSignal (id : SignalId) : (ofSignal id).IsBuilt := ⟨.signal id, rfl⟩

theorem IsAmong.shown (h : f.IsAmong IsBuilt r) : ∃ t text, f.Denotes t ∧ f.ShownAs r t text := by
  obtain ⟨t, ht⟩ := h.given.denotes
  obtain ⟨text, htext⟩ := ht.shown h.declared
  exact ⟨t, text, ht, htext⟩

end TruthFn

/-! ### Blocks -/

namespace Block

/-- Every function that the block stores is one of these and reads declared signals only. -/
def Stores (F : TruthFn → Prop) (b : Block) : Prop :=
  ∀ e ∈ b.logic.entries, e.logic.IsAmong F b.signals

/-- The functions that the call passes are some of these. -/
def Call.Passes (F : TruthFn → Prop) : Call → Prop
  | .addRegister _ f => F f
  | _ => True

variable {F : TruthFn → Prop} {b : Block} {id : SignalId} {f : TruthFn}

theorem Stores.withSignals (h : b.Stores F) {r : Registry}
    (hr : ∀ id, b.signals.contains id = true → r.contains id = true) :
    Stores F { b with signals := r } :=
  fun e he => (h e he).mono hr

theorem Stores.takeLogic (h : b.Stores F) (hf : f.IsAmong F b.signals) :
    (b.takeLogic id f).Stores F := by
  intro e he
  have hmono : ∀ i, b.signals.contains i = true → (b.takeLogic id f).signals.contains i = true :=
    fun i hi => by rwa [Block.takeLogic, Registry.contains_place]
  rcases List.mem_append.mp he with he | he
  · exact (h e he).mono hmono
  · rw [List.mem_singleton.mp he]
    exact hf.mono hmono

theorem Stores.addRegister (h : b.Stores F) (id : SignalId) (hf : F f) :
    Stores F ((Block.addRegister id f).after b) := by
  rcases addRegister_result b id f with ⟨e, he⟩ | ⟨a, s, hdrive, -, -, hok⟩
  · rw [Edit.after_of_error he]
    exact h
  · rw [Edit.after_of_ok hok]
    exact h.takeLogic ⟨hf, hdrive.args⟩

theorem Stores.assign (h : b.Stores F) (hF : ∀ id, F (.ofSignal id)) :
    Stores F (Block.assign.after b) := by
  refine after_assign (P := Stores F) h (fun _ => ?_) ?_ fun _ _ _ ht => ht
  · refine h.withSignals fun id hid => ?_
    rwa [Registry.contains, Registry.size_applyDefaults]
  · -- a visit of the pass stores at most a function that holds a value
    intro v id s hs _ _ _ hv
    exact hv.takeLogic (TruthFn.isAmong_ofSignal hF (Registry.contains_iff.mpr ⟨s, hs⟩))

/-- A call that passes such functions keeps the stored functions such. -/
theorem Stores.apply (h : b.Stores F) (hF : ∀ id, F (.ofSignal id)) {c : Call}
    (hc : c.Passes F) : Stores F (c.apply b) := by
  cases c with
  | setLocation location => exact h
  | declare name behavior dataType =>
    show Stores F ((Block.declare name behavior dataType).after b)
    rw [after_declare]
    exact h.withSignals fun _ =>
      (Registry.extends_apply (.declare name behavior dataType) _).contains
  | edit call => exact h.withSignals fun _ => (Registry.extends_apply call b.signals).contains
  | addRegister id f => exact h.addRegister id hc
  | assign => exact h.assign hF

theorem Stores.run (h : b.Stores F) (hF : ∀ id, F (.ofSignal id)) {calls : List Call}
    (hcalls : ∀ c ∈ calls, c.Passes F) : (b.run calls).Stores F := by
  induction calls generalizing b with
  | nil => exact h
  | cons c calls ih =>
    exact ih (h.apply hF (hcalls c List.mem_cons_self)) fun c' hc' =>
      hcalls c' (List.mem_cons_of_mem c hc')

end Block

/-! ### Units with a program -/

namespace Alu

/-- The functions that the unit stores. -/
def stored (u : Alu) : List DrivenSignal := u.logic.entries ++ u.drivers

/-- Every function that the unit stores is one of these and reads declared signals only. -/
def Stores (F : TruthFn → Prop) (u : Alu) : Prop := ∀ e ∈ u.stored, e.logic.IsAmong F u.signals

/-- The functions that the call passes are some of these. -/
def Call.Passes (F : TruthFn → Prop) : Call → Prop
  | .addConditionLogic _ f => F f
  | .addRegister _ f => F f
  | _ => True

variable {F : TruthFn → Prop} {u u' : Alu} {id : SignalId} {f : TruthFn}

/-- The stored functions stay such if the only new one is. -/
theorem Stores.mono (h : u.Stores F)
    (hsignals : ∀ id, u.signals.contains id = true → u'.signals.contains id = true)
    (hstored : ∀ e ∈ u'.stored, e ∈ u.stored ∨ e.logic.IsAmong F u.signals) : u'.Stores F := by
  intro e he
  rcases hstored e he with hold | hnew
  · exact (h e hold).mono hsignals
  · exact hnew.mono hsignals

theorem mem_stored_takeSlot {family : Family} {e : DrivenSignal}
    (he : e ∈ (u.takeSlot family id f).stored) : e ∈ u.stored ∨ e = ⟨id, f⟩ := by
  unfold stored drivers at *
  cases family <;>
    simp only [takeSlot, appendSlot, Pool.append, List.mem_append, List.mem_singleton] at he ⊢ <;>
    tauto

theorem Drives.mem_stored {entry e : DrivenSignal} (h : Drives u entry u') (he : e ∈ u'.stored) :
    e ∈ u.stored ∨ e = entry := by
  cases h with
  | branch hroom => exact mem_stored_takeSlot he
  | condBypass hfree | condUpdate hfree =>
    simp only [stored, drivers, hfree, List.mem_append, Option.mem_toList, Option.some.injEq,
      reduceCtorEq, or_false] at he ⊢
    tauto

theorem Drives.contains {entry : DrivenSignal} (h : Drives u entry u') (id : SignalId) :
    u'.signals.contains id = u.signals.contains id := by
  cases h <;> exact Registry.contains_place _ _ _ _

theorem stored_withInputs {pending : List SignalId} (h : u.Suppliable pending) :
    (u.withInputs pending).stored = u.stored := by
  refine h.induction (P := fun v => v.stored = u.stored) rfl fun v id s _ _ _ _ hv => ?_
  rw [← hv]
  cases s.dataType <;> rfl

theorem Stores.addRegister (h : u.Stores F) (id : SignalId) (hf : F f) :
    Stores F ((Alu.addRegister id f).after u) := by
  rcases addRegister_result u id f with ⟨e, he⟩ | ⟨a, s, hdrive, -, -, hok⟩
  · rw [Edit.after_of_error he]
    exact h
  · rw [Edit.after_of_ok hok]
    refine h.mono (fun i hi => ?_) fun e he => ?_
    · rwa [takeSlot, Registry.contains_place]
    · refine (mem_stored_takeSlot he).imp_right fun heq => ?_
      rw [heq]
      exact ⟨hf, hdrive.args⟩

theorem Stores.addConditionLogic (h : u.Stores F) (id : SignalId) (hf : F f) :
    Stores F ((Alu.addConditionLogic id f).after u) := by
  rcases addConditionLogic_result u id f with ⟨e, he⟩ | ⟨a, s, t, hdrive, -, hdrives, hok⟩
  · rw [Edit.after_of_error he]
    exact h
  · rw [Edit.after_of_ok hok]
    refine h.mono (fun i hi => by rwa [hdrives.contains]) fun e he => ?_
    refine (hdrives.mem_stored he).imp_right fun heq => ?_
    rw [heq]
    exact ⟨hf, hdrive.args⟩

theorem Stores.addInstruction (h : u.Stores F) (i : Instruction) :
    Stores F ((Alu.addInstruction i).after u) := by
  rcases addInstruction_result u i with ⟨e, he⟩ | ⟨pending, hi, hok⟩
  · rw [Edit.after_of_error he]
    exact h
  · rw [Edit.after_of_ok hok]
    refine h.mono (fun id hid => ?_) fun e he => Or.inl ?_
    · show (u.withInputs pending).signals.contains id = true
      rwa [hi.supply.advances.contains]
    · have hstored : (u.added i pending).stored = (u.withInputs pending).stored := rfl
      rwa [hstored, stored_withInputs hi.supply] at he

/-- A visit of the pass stores at most a function that holds a value. -/
theorem Outcome.stores {s : Signal} {a : Unit} (hs : u.signals.get? id = some s)
    (ho : Outcome u id s (.ok a u')) (h : u.Stores F) (hF : ∀ id, F (.ofSignal id)) :
    u'.Stores F := by
  have hadv := ho.advances hs
  refine h.mono (fun i hi => by rwa [hadv.contains]) fun e he => ?_
  cases ho with
  | hold =>
    refine (mem_stored_takeSlot he).imp_right fun heq => ?_
    rw [heq]
    exact TruthFn.isAmong_ofSignal hF (Registry.contains_iff.mpr ⟨s, hs⟩)
  | @builtin r => cases r <;> exact Or.inl he
  | _ => exact Or.inl he

theorem Stores.assign (h : u.Stores F) (hF : ∀ id, F (.ofSignal id)) (hu : u.Sound) :
    Stores F (Alu.assign.after u) := by
  refine after_assign hu.ready h fun unbound t phase hcollect _ => ?_
  have hprepared : u.prepared.Stores F :=
    h.mono (fun i hi => by rwa [(frame_prepared u).contains]) fun e he => Or.inl he
  have hvisited : t.Stores F :=
    visits_induction hcollect hprepared fun v v' id s hs ho hv => ho.stores hs hv hF
  exact hvisited

/-- A call that passes such functions keeps the stored functions such. -/
theorem Stores.apply (h : u.Stores F) (hF : ∀ id, F (.ofSignal id)) (hu : u.Sound) {c : Call}
    (hc : c.Passes F) : Stores F (c.apply u) := by
  cases c with
  | setLocation location => exact h
  | declare name behavior dataType =>
    show Stores F ((Alu.declare name behavior dataType).after u)
    rw [after_declare]
    exact h.mono (fun _ => (Registry.extends_apply (.declare name behavior dataType) _).contains)
      fun e he => Or.inl he
  | edit call =>
    exact h.mono (fun _ => (Registry.extends_apply call u.signals).contains) fun e he => Or.inl he
  | addInstruction i => exact h.addInstruction i
  | addConditionLogic id f => exact h.addConditionLogic id hc
  | addRegister id f => exact h.addRegister id hc
  | assign => exact h.assign hF hu

theorem Stores.run (h : u.Stores F) (hF : ∀ id, F (.ofSignal id)) (hu : u.Sound)
    {calls : List Call} (hcalls : ∀ c ∈ calls, c.Passes F) : (u.run calls).Stores F := by
  induction calls generalizing u with
  | nil => exact h
  | cons c calls ih =>
    exact ih (h.apply hF hu (hcalls c List.mem_cons_self)) (hu.apply c) fun c' hc' =>
      hcalls c' (List.mem_cons_of_mem c hc')

/-- A new unit stores no function. -/
theorem stores_create (name : String) (definition : Definition) :
    (create name definition).Stores F := nofun

end Alu

/-! ### What is shown -/

/-- **What is shown of a function is an expression with its values.** This holds of every function
that was built, over any registry with its arguments, and of every function that a unit or a block
stores after any calls. -/
theorem formulaText_faithful :
    (∀ f : TruthFn, f.IsBuilt → ∃ t, f.Denotes t ∧
      ∀ names : Registry, (∀ s ∈ f.args, names.contains s = true) →
        ∃ text, f.ShownAs names t text) ∧
    (∀ (u : Alu) (calls : List Alu.Call), u.IsNew →
      (∀ c ∈ calls, c.Passes TruthFn.IsBuilt) →
      ∀ e ∈ (u.run calls).stored, ∃ t text, e.logic.Denotes t ∧
        e.logic.ShownAs (u.run calls).signals t text) ∧
    ∀ (name : String) (calls : List Block.Call),
      (∀ c ∈ calls, c.Passes TruthFn.IsBuilt) →
      ∀ e ∈ (Block.run { name := name } calls).logic.entries, ∃ t text, e.logic.Denotes t ∧
        e.logic.ShownAs (Block.run { name := name } calls).signals t text := by
  refine ⟨fun f hf => ?_, fun u calls hnew hcalls e he => ?_, fun name calls hcalls e he => ?_⟩
  · obtain ⟨t, ht⟩ := hf.denotes
    exact ⟨t, ht, fun names hnames => ht.shown hnames⟩
  · have hsound := (Alu.Reachable.new hnew).sound
    obtain ⟨name, definition, rfl⟩ := hnew.eq_create
    have hstores := Alu.stores_create (F := TruthFn.IsBuilt) name definition
    exact (hstores.run TruthFn.isBuilt_ofSignal hsound hcalls e he).shown
  · have hstores : Block.Stores TruthFn.IsBuilt { name := name } := nofun
    exact (hstores.run TruthFn.isBuilt_ofSignal hcalls e he).shown

/-- An expression that reads the signal 7 twice. -/
def sharedExpr : Expr :=
  .xor (.or (.signal ⟨8⟩) (.not (.signal ⟨7⟩))) (.and (.signal ⟨7⟩) (.signal ⟨9⟩))

/-- The function of `sharedExpr`. -/
def sharedFn : TruthFn where
  args := [⟨8⟩, ⟨7⟩, ⟨9⟩]
  table := 0x7b7b#16
  trace := [.arg 2, .arg 1, .gate .and, .arg 1, .not, .arg 0, .gate .or, .gate .xor]

/-- A unit that stores this function, and two functions that hold a value. -/
def sharedUnit : Alu :=
  (Alu.create "alu" .standard).run
    [.declare "a" .register .bit, .declare "b" .register .bit,
      .declare "taken" .branchCondition .bit, .addConditionLogic ⟨9⟩ sharedFn, .assign]

theorem formulaText_faithful_shared :
    sharedExpr.build = .ok sharedFn ∧ sharedUnit.stored.map DrivenSignal.signal = [⟨7⟩, ⟨8⟩, ⟨9⟩] ∧
      ∃ t, sharedFn.Denotes t ∧
        sharedFn.ShownAs sharedUnit.signals t "((b | ~a) ^ (a & taken))" := by
  have hbuild : sharedExpr.build = .ok sharedFn := by decide +kernel
  have hcalls : ∀ c ∈ [Alu.Call.declare "a" .register .bit, .declare "b" .register .bit,
      .declare "taken" .branchCondition .bit, .addConditionLogic ⟨9⟩ sharedFn, .assign],
      c.Passes TruthFn.IsBuilt := by
    simp only [List.forall_mem_cons, Alu.Call.Passes, List.not_mem_nil, false_imp_iff,
      implies_true, and_true, true_and]
    exact ⟨sharedExpr, hbuild⟩
  have hmem : (⟨⟨9⟩, sharedFn⟩ : DrivenSignal) ∈ sharedUnit.stored := by decide +kernel
  obtain ⟨t, text, ht, htext⟩ :=
    formulaText_faithful.2.1 _ _ (.standard "alu") hcalls ⟨⟨9⟩, sharedFn⟩ hmem
  have hshown : sharedFn.formulaText sharedUnit.signals.name? = "((b | ~a) ^ (a & taken))" := by
    decide +kernel
  have heq : text = "((b | ~a) ^ (a & taken))" := htext.shown.symm.trans hshown
  subst heq
  exact ⟨hbuild, by decide +kernel, t, ht, htext⟩

end AluPlacement
