import AluPlacement.Proofs.Block.Slots
import AluPlacement.Proofs.Signal.Answers
import Mathlib.Data.List.Induction

/-! # Where the functions of a block come from

A call adds entries to the condition logic and leaves those that are there (`apply_entries`). So the
function of a signal was given by one of the calls so far: by the call that added the register, or
by the pass, which gives the function that holds the value (`Supplies`, `logicOf?_run`).

The main statement is about all runs of calls from a new block: entries, bindings and addresses
agree, each function comes from a call, the pass answers exactly if there is room, and a call that
fails changes nothing. -/

namespace AluPlacement.Block

variable {b : Block} {id : SignalId} {f g : TruthFn} {c : Call}

/-- The call on `b` gives the signal its function. -/
inductive Supplies (b : Block) (id : SignalId) (f : TruthFn) : Call → Prop
  | added {a : Address} {t : Block} (h : Block.addRegister id f b = .ok a t) :
      Supplies b id f (.addRegister id f)
  | held (hfree : b.signals.address? id = none)
      (hbound : (Block.assign.after b).signals.address? id ≠ none) (hf : f = .ofSignal id) :
      Supplies b id f .assign

theorem Supplies.unique (h : Supplies b id f c) (h' : Supplies b id g c) : f = g := by
  cases h with
  | added => cases h' with | added => rfl
  | held _ _ hf => cases h' with | held _ _ hg => rw [hf, hg]

/-- The signal had no binding, and now it has. -/
theorem Supplies.binds (h : Supplies b id f c) :
    b.signals.address? id = none ∧ (c.apply b).signals.address? id ≠ none := by
  cases h with
  | held hfree hbound => exact ⟨hfree, hbound⟩
  | added h =>
    rcases addRegister_result b id f with ⟨e, he⟩ | ⟨a, s, hdrive, -, -, hok⟩
    · rw [he] at h
      cases h
    · have haddress : (b.takeLogic id f).signals.address? id = _ :=
        Registry.address?_place hdrive.declared _ id
      refine ⟨(Registry.address?_of_get? hdrive.declared).trans hdrive.unbound, ?_⟩
      show ((Block.addRegister id f).after b).signals.address? id ≠ none
      rw [Edit.after_of_ok hok, haddress, if_pos rfl]
      exact Option.some_ne_none _

/-! ### One call -/

/-- The pass adds functions that hold values, of signals that had no binding. -/
theorem assign_entries (b : Block) : ∃ new, (Block.assign.after b).logic.entries =
    b.logic.entries ++ new ∧
      ∀ e ∈ new, b.signals.address? e.signal = none ∧ e.logic = .ofSignal e.signal := by
  -- bindings are only added, so what has none in the end had none before
  suffices (∀ i, (Block.assign.after b).signals.address? i = none → b.signals.address? i = none) ∧
      ∃ new, (Block.assign.after b).logic.entries = b.logic.entries ++ new ∧
        ∀ e ∈ new, b.signals.address? e.signal = none ∧ e.logic = .ofSignal e.signal from this.2
  have hstart : ∃ new, b.logic.entries = b.logic.entries ++ new ∧
      ∀ e ∈ new, b.signals.address? e.signal = none ∧ e.logic = .ofSignal e.signal :=
    ⟨[], (List.append_nil _).symm, nofun⟩
  refine after_assign (P := fun t =>
      (∀ i, t.signals.address? i = none → b.signals.address? i = none) ∧
        ∃ new, t.logic.entries = b.logic.entries ++ new ∧
          ∀ e ∈ new, b.signals.address? e.signal = none ∧ e.logic = .ofSignal e.signal)
    ⟨fun _ h => h, hstart⟩ (fun _ => ⟨fun i h => ?_, hstart⟩) ?_ fun t _ _ ht => ht
  · have hsame : b.prepared.signals.address? = b.signals.address? :=
      Registry.address?_applyDefaults _
    rwa [← hsame]
  · rintro v id s hs hneeds - - ⟨hfree, new, hnew, hold⟩
    have hnone : v.signals.address? id = none :=
      (Registry.address?_of_get? hs).trans (Signal.needsSlot_iff.mp hneeds).2
    refine ⟨fun i hi => hfree i ?_, new ++ [⟨id, .ofSignal id⟩], ?_, fun e he => ?_⟩
    · have haddress : (v.takeLogic id (.ofSignal id)).signals.address? i = _ :=
        Registry.address?_place hs _ i
      rw [haddress] at hi
      split_ifs at hi
      exact hi
    · show v.logic.entries ++ [_] = _
      rw [hnew, List.append_assoc]
    · rcases List.mem_append.mp he with he | he
      · exact hold e he
      · rw [List.mem_singleton.mp he]
        exact ⟨hfree id hnone, rfl⟩

/-- **A call adds the entries that it supplies.** -/
theorem Placed.apply_entries (h : b.Placed) (c : Call) :
    ∃ new, (c.apply b).logic.entries = b.logic.entries ++ new ∧
      ∀ e ∈ new, Supplies b e.signal e.logic c := by
  have hstay : ∃ new, b.logic.entries = b.logic.entries ++ new ∧
      ∀ e ∈ new, Supplies b e.signal e.logic c := ⟨[], (List.append_nil _).symm, nofun⟩
  cases c with
  | setLocation location => exact hstay
  | declare name behavior dataType =>
    have hlogic : ((Block.declare name behavior dataType).after b).logic = b.logic := by
      rw [after_declare]
    show ∃ new, ((Block.declare name behavior dataType).after b).logic.entries = _ ∧ _
    rw [hlogic]
    exact hstay
  | edit call => exact hstay
  | addRegister id f =>
    show ∃ new, ((Block.addRegister id f).after b).logic.entries = _ ∧ _
    rcases addRegister_result b id f with ⟨e, he⟩ | ⟨a, s, -, -, -, hok⟩
    · rw [Edit.after_of_error he]
      exact hstay
    · rw [Edit.after_of_ok hok]
      refine ⟨[⟨id, f⟩], rfl, fun e he => ?_⟩
      rw [List.mem_singleton.mp he]
      exact .added hok
  | assign =>
    obtain ⟨new, hnew, hheld⟩ := assign_entries b
    refine ⟨new, hnew, fun e he => ?_⟩
    obtain ⟨hfree, hf⟩ := hheld e he
    refine .held hfree (fun hnone => ?_) hf
    have hmem : e ∈ (Block.assign.after b).logic.entries := by
      rw [hnew]
      exact List.mem_append_right _ he
    exact ((h.apply .assign).address?_eq_none e.signal).mp hnone e hmem rfl

theorem Placed.logicOf?_eq_none (h : b.Placed) :
    b.logicOf? id = none ↔ b.signals.address? id = none := by
  rw [h.address?_eq_none]
  simp [logicOf?, List.find?_eq_none]

/-- What a call does to the function of a signal. -/
theorem Placed.logicOf?_apply (h : b.Placed) (c : Call) :
    (c.apply b).logicOf? id = some f ↔ b.logicOf? id = some f ∨ Supplies b id f c := by
  obtain ⟨new, hnew, hsupplies⟩ := h.apply_entries c
  have hfind : (c.apply b).logicOf? id = (b.logicOf? id).or
      ((new.find? fun e => e.signal == id).map DrivenSignal.logic) := by
    unfold logicOf?
    rw [hnew, List.find?_append, Option.map_or]
  have hmem : ∀ g, (new.find? fun e => e.signal == id).map DrivenSignal.logic = some g →
      Supplies b id g c := by
    intro g hg
    obtain ⟨e, he, rfl⟩ := Option.map_eq_some_iff.mp hg
    have hid : e.signal = id := by simpa using List.find?_some he
    rw [← hid]
    exact hsupplies e (List.mem_of_find?_eq_some he)
  constructor
  · intro hf
    rw [hfind, Option.or_eq_some_iff] at hf
    rcases hf with hf | ⟨-, hf⟩
    · exact Or.inl hf
    · exact Or.inr (hmem f hf)
  · rintro (hf | hf)
    · rw [hfind, hf]
      rfl
    · obtain ⟨hfree, hbound⟩ := hf.binds
      have hnone := h.logicOf?_eq_none.mpr hfree
      -- the signal has a function now, and only this call can have given it
      obtain ⟨g, hg⟩ := Option.ne_none_iff_exists'.mp
        (mt (h.apply c).logicOf?_eq_none.mp hbound)
      have hnew := hg
      rw [hfind, hnone, Option.none_or] at hnew
      rw [hg, hf.unique (hmem g hnew)]

/-! ### All calls -/

theorem run_append_singleton (b : Block) (calls : List Call) (c : Call) :
    b.run (calls ++ [c]) = c.apply (b.run calls) := by
  unfold run
  rw [List.foldl_append]
  rfl

/-- **The function of a signal was given by a call.** -/
theorem logicOf?_run (name : String) (calls : List Call) :
    (run { name := name } calls).logicOf? id = some f ↔
      ∃ earlier c, earlier ++ [c] <+: calls ∧ Supplies (run { name := name } earlier) id f c := by
  induction calls using List.reverseRecOn with
  | nil =>
    refine iff_of_false nofun ?_
    rintro ⟨earlier, c, hprefix, -⟩
    simp at hprefix
  | append_singleton calls c ih =>
    rw [run_append_singleton, ((placed_new name).run calls).logicOf?_apply, ih]
    constructor
    · rintro (⟨earlier, c', hprefix, h⟩ | h)
      · exact ⟨earlier, c', hprefix.trans (List.prefix_append _ _), h⟩
      · exact ⟨calls, c, List.prefix_rfl, h⟩
    · rintro ⟨earlier, c', hprefix, h⟩
      rcases List.prefix_concat_iff.mp hprefix with heq | hprefix
      · obtain ⟨rfl, hc⟩ := List.append_inj' heq rfl
        cases hc
        exact Or.inr h
      · exact Or.inl ⟨earlier, c', hprefix, h⟩

/-! ### Calls that fail -/

/-- The call fails on this block. -/
def Call.Fails : Call → Block → Prop
  | .setLocation _ => fun _ => False
  | .declare name behavior dataType => (Block.declare name behavior dataType).Fails
  | .edit call => fun b => call.Fails b.signals
  | .addRegister id f => (Block.addRegister id f).Fails
  | .assign => Block.assign.Fails

/-- A call that fails leaves the block as it was, except for a pass that had begun. -/
theorem Call.apply_of_fails (h : c.Fails b) (hc : c = .assign → b.phase ≠ .building) :
    c.apply b = b := by
  cases c with
  | setLocation location => cases h
  | declare name behavior dataType =>
    obtain ⟨e, t, h⟩ := h
    obtain ⟨e', h, -⟩ := Edit.mapReason_eq_error.mp h
    obtain ⟨r, h, -⟩ := Edit.zoom_eq_error.mp h
    have hsame : (Registry.declare name behavior dataType).after b.signals = b.signals :=
      Registry.Call.apply_of_fails (c := .declare name behavior dataType) ⟨e', r, h⟩
    show (Block.declare name behavior dataType).after b = b
    rw [after_declare, hsame]
  | edit call =>
    show { b with signals := call.apply b.signals } = b
    rw [Registry.Call.apply_of_fails h]
  | addRegister id f =>
    obtain ⟨e, t, h⟩ := h
    show (Block.addRegister id f).after b = b
    rcases addRegister_result b id f with ⟨e', he⟩ | ⟨a, s, -, -, -, hok⟩
    · rw [Edit.after_of_error he]
    · rw [h] at hok
      cases hok
  | assign =>
    show Block.assign.after b = b
    rw [Edit.after_of_error (assign_of_closed (hc rfl))]

/-! ### All runs -/

/-- **What holds after any calls on a new block.** Entries, bindings and addresses agree. A signal
has the function that a call gave it. While the block is being built, the pass answers exactly if
every register and constant is a bit and all of them have a slot. Any other call that fails changes
nothing. -/
theorem run_lawful (name : String) (calls : List Call) {b : Block}
    (h : b = run { name := name } calls) :
    b.Consistent ∧
      (∀ id f, b.logicOf? id = some f ↔ ∃ earlier c, earlier ++ [c] <+: calls ∧
        Supplies (run { name := name } earlier) id f c) ∧
      (b.phase = .building → ((∃ t, assign b = .ok () t) ↔
        (∀ s ∈ b.signals.signals, s.behavior.isStateful = true → s.dataType = .bit) ∧
          b.logic.size + b.signals.signals.countP (fun s => s.needsSlot && s.dataType == .bit) ≤
            4)) ∧
      ∀ c : Call, c.Fails b → (c = .assign → b.phase ≠ .building) → c.apply b = b := by
  have hplaced : b.Placed := h ▸ (placed_new name).run calls
  refine ⟨hplaced.consistent, fun id f => ?_, hplaced.assign_answers_iff, fun c hfails hc => ?_⟩
  · rw [h]
    exact logicOf?_run name calls
  · exact Call.apply_of_fails hfails hc

/-- Calls that add a register and leave a constant and a register over. -/
def explicitCalls : List Call :=
  [.declare "q" .register .bit, .declare "k" .constant .bit, .declare "p" .register .bit,
    .addRegister ⟨0⟩ (.ofSignal ⟨1⟩)]

theorem run_lawful_explicit :
    (run { name := "t" } explicitCalls).Consistent ∧
      (run { name := "t" } explicitCalls).logicOf? ⟨0⟩ = some (.ofSignal ⟨1⟩) ∧
      (∃ t, assign (run { name := "t" } explicitCalls) = .ok () t) ∧
      (Call.addRegister ⟨0⟩ (.ofSignal ⟨2⟩)).apply (run { name := "t" } explicitCalls) =
        run { name := "t" } explicitCalls := by
  obtain ⟨hconsistent, hlogic, hassign, hfails⟩ := run_lawful "t" explicitCalls rfl
  have hroom := (hassign (by decide)).mpr ⟨by decide, by decide⟩
  have hadded := (hlogic ⟨0⟩ (.ofSignal ⟨1⟩)).mpr
    ⟨explicitCalls.take 3, .addRegister ⟨0⟩ (.ofSignal ⟨1⟩), List.prefix_rfl, .added rfl⟩
  exact ⟨hconsistent, hadded, hroom, hfails _ ⟨_, _, rfl⟩ nofun⟩

end AluPlacement.Block
