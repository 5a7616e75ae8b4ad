import AluPlacement.Proofs.Placement.Calls

/-! # The plans of the calls that build

Each call that adds to a unit first makes a plan: it checks every rule and decides on the inputs or
on the resource that it will take. Carrying out a plan cannot fail. `Follows` says this of a call,
and there is one such lemma for each of the three calls (`addInstruction_follows`,
`addConditionLogic_follows`, `addRegister_follows`).

Two calls commute if carrying out the plan of one does not change the plan of the other, and the two
plans can be carried out in either order (`Follows.commute`). -/

namespace AluPlacement

namespace Edit

variable {σ ε α β π ρ : Type}

/-- What a call answers. -/
def answer (call : Edit σ ε α) (s : σ) : Checked ε α :=
  match call s with
  | .ok a _ => .ok a
  | .error e _ => .error e

/-- In either order, the calls answer the same and leave the same value behind. -/
structure Commute (x : Edit σ ε α) (y : Edit σ ε β) (s : σ) : Prop where
  left : x.answer (y.after s) = x.answer s
  right : y.answer (x.after s) = y.answer s
  after : y.after (x.after s) = x.after (y.after s)

/-- The call makes a plan and carries it out; without a plan it changes nothing. -/
structure Follows (call : Edit σ ε α) (plan : σ → Checked ε π) (reply : π → α)
    (effect : π → σ → σ) : Prop where
  ok : ∀ s p, plan s = .ok p → call s = .ok (reply p) (effect p s)
  error : ∀ s e, plan s = .error e → call s = .error e s

variable {x : Edit σ ε α} {y : Edit σ ε β} {planX : σ → Checked ε π} {planY : σ → Checked ε ρ}
  {replyX : π → α} {replyY : ρ → β} {effectX : π → σ → σ} {effectY : ρ → σ → σ} {s : σ}

theorem Follows.answer_congr (h : x.Follows planX replyX effectX) {t : σ}
    (ht : planX t = planX s) : x.answer t = x.answer s := by
  unfold answer
  cases hp : planX s with
  | ok p => rw [h.ok s p hp, h.ok t p (ht.trans hp)]
  | error e => rw [h.error s e hp, h.error t e (ht.trans hp)]

theorem Follows.plan_after (hy : y.Follows planY replyY effectY)
    (h : ∀ q, planY s = .ok q → planX (effectY q s) = planX s) :
    planX (y.after s) = planX s := by
  cases hq : planY s with
  | ok q =>
    rw [after_of_ok (hy.ok s q hq)]
    exact h q hq
  | error e => rw [after_of_error (hy.error s e hq)]

/-- **Calls commute if their plans do not meet.** -/
theorem Follows.commute (hx : x.Follows planX replyX effectX)
    (hy : y.Follows planY replyY effectY)
    (hleft : ∀ q, planY s = .ok q → planX (effectY q s) = planX s)
    (hright : ∀ p, planX s = .ok p → planY (effectX p s) = planY s)
    (heffect : ∀ p q, planX s = .ok p → planY s = .ok q →
      effectY q (effectX p s) = effectX p (effectY q s)) : Commute x y s := by
  have hplanX := hy.plan_after hleft
  have hplanY := hx.plan_after hright
  refine ⟨hx.answer_congr hplanX, hy.answer_congr hplanY, ?_⟩
  cases hp : planX s with
  | error e =>
    rw [hp] at hplanX
    rw [after_of_error (hx.error s e hp), after_of_error (hx.error _ e hplanX)]
  | ok p =>
    rw [hp] at hplanX
    rw [after_of_ok (hx.ok _ p hplanX), after_of_ok (hx.ok s p hp)]
    have hplanY' : planY (effectX p s) = planY s := hright p hp
    cases hq : planY s with
    | error e =>
      rw [after_of_error (hy.error s e hq), after_of_error (hy.error _ e (hplanY'.trans hq))]
    | ok q =>
      rw [after_of_ok (hy.ok s q hq), after_of_ok (hy.ok _ q (hplanY'.trans hq))]
      exact heffect p q hp hq

end Edit

namespace Alu

variable {u : Alu} {id : SignalId} {f : TruthFn} {i : Instruction}

/-! ### Resources of driven signals -/

/-- Put a driven signal where the unit keeps it. -/
def put (u : Alu) (entry : DrivenSignal) : Resource → Alu
  | .slot .conditionLogic _ => { u with logic := u.logic.append entry }
  | .slot .branch _ => { u with branches := u.branches.append entry }
  | .condBypass => { u with condBypass := some entry }
  | .condUpdate => { u with condUpdate := some entry }
  | _ => u

/-- Bind a driven signal to a resource. -/
def drive (u : Alu) (entry : DrivenSignal) (r : Resource) : Alu :=
  { u.put entry r with signals := u.signals.place entry.signal r.address }

/-- Driving a signal leaves the program, the inputs and the location as they are. -/
theorem drive_frame (u : Alu) (entry : DrivenSignal) (r : Resource) :
    (u.drive entry r).instructions = u.instructions ∧ (u.drive entry r).wordIns = u.wordIns ∧
      (u.drive entry r).carryIns = u.carryIns ∧ (u.drive entry r).location = u.location := by
  unfold drive put
  split <;> exact ⟨rfl, rfl, rfl, rfl⟩

/-- The next slot of a pool, if there is one. -/
def nextSlot (pool : Pool DrivenSignal) (family : Family) : Checked Error Resource := do
  Checked.require (pool.isFull = false) pool.exhausted
  return .slot family pool.size

theorem nextSlot_eq_ok {pool : Pool DrivenSignal} {family : Family} {r : Resource} :
    nextSlot pool family = .ok r ↔
      pool.entries.length < pool.capacity ∧ r = .slot family pool.size := by
  have hfull : pool.isFull = false ↔ pool.entries.length < pool.capacity := by simp [Pool.isFull]
  unfold nextSlot
  simp only [Checked.bind_eq_ok, Checked.require_eq_ok, hfull, pure, Except.pure, Except.ok.injEq]
  grind

theorem nextSlot_eq_error {pool : Pool DrivenSignal} {family : Family} {e : Fault Error} :
    nextSlot pool family = .error e ↔
      pool.capacity ≤ pool.entries.length ∧ e = .refused pool.exhausted := by
  have hfull : pool.isFull = false ↔ pool.entries.length < pool.capacity := by simp [Pool.isFull]
  unfold nextSlot
  simp only [Checked.bind_eq_error, Checked.require_eq_error, hfull, pure, Except.pure]
  grind

/-! ### Bit registers -/

/-- The slot that a bit register will take. -/
def registerPlan (u : Alu) (id : SignalId) (f : TruthFn) : Checked Error Resource := do
  u.checkRegister id f
  nextSlot u.logic .conditionLogic

theorem registerPlan_eq_ok {r : Resource} (h : u.registerPlan id f = .ok r) :
    ∃ s, u.CanDrive id f s ∧ s.behavior = .register ∧ u.logic.entries.length < u.logic.capacity ∧
      r = .slot .conditionLogic u.logic.size := by
  obtain ⟨_, hcheck, hslot⟩ := Checked.bind_eq_ok.mp h
  obtain ⟨s, hdrive, hreg⟩ := Block.checkRegister_eq_ok hcheck
  exact ⟨s, hdrive, hreg, nextSlot_eq_ok.mp hslot⟩

theorem addRegister_follows (id : SignalId) (f : TruthFn) :
    (addRegister id f).Follows
      (fun u => (u.registerPlan id f).mapReason fun e => e.located u.location)
      Resource.address (fun r u => u.drive ⟨id, f⟩ r) := by
  refine ⟨fun u r hplan => ?_, fun u e hplan => ?_⟩
  · obtain ⟨a, hcheck, hslot⟩ := Checked.bind_eq_ok.mp (Checked.mapReason_eq_ok.mp hplan)
    obtain ⟨hroom, rfl⟩ := nextSlot_eq_ok.mp hslot
    obtain ⟨s, hdrive, -⟩ := Block.checkRegister_eq_ok hcheck
    have hbind : Block.bindLogic id f u.toBlock = .ok _ (u.toBlock.takeLogic id f) :=
      Edit.attempt_eq_ok.mpr
        (push_bind_eq_ok.mpr ⟨hroom, ⟨s, hdrive.declared, hdrive.unbound⟩, rfl⟩)
    have hblock : Block.addRegister id f u.toBlock = .ok _ (u.toBlock.takeLogic id f) :=
      (Edit.locatedAt_ask_of_ok (q := fun b : Block => b.checkRegister id f) hcheck _).trans
        (Edit.mapReason_eq_ok.mpr hbind)
    unfold addRegister onBlock
    exact Edit.zoom_eq_ok.mpr ⟨_, hblock, rfl⟩
  · obtain ⟨reason, hplan', rfl⟩ := Checked.mapReason_eq_error.mp hplan
    unfold addRegister onBlock
    refine Edit.zoom_eq_error.mpr ⟨u.toBlock, ?_, rfl⟩
    rcases Checked.bind_eq_error.mp hplan' with hcheck | ⟨a, hcheck, hslot⟩
    · exact Edit.locatedAt_ask_of_error (q := fun b : Block => b.checkRegister id f) hcheck _
    · obtain ⟨hfull, rfl⟩ := nextSlot_eq_error.mp hslot
      have hbind : Block.bindLogic id f u.toBlock = .error (.refused u.logic.exhausted) u.toBlock :=
        Edit.attempt_eq_error.mpr
          ⟨Checked.bind_eq_error.mpr (Or.inl (Pool.push_eq_error.mpr ⟨hfull, rfl⟩)), rfl⟩
      exact (Edit.locatedAt_ask_of_ok (q := fun b : Block => b.checkRegister id f) hcheck _).trans
        (Edit.mapReason_eq_error.mpr ⟨_, hbind, rfl⟩)

/-! ### Condition logic -/

/-- A single resource, if it is free. -/
def singleSlot (u : Alu) (slot : Option DrivenSignal) (resource : String) (id : SignalId)
    (r : Resource) : Checked Error Resource := do
  u.requireFree slot resource id
  return r

theorem singleSlot_eq_ok {slot : Option DrivenSignal} {resource : String} {r r' : Resource} :
    u.singleSlot slot resource id r = .ok r' ↔
      u.requireFree slot resource id = .ok () ∧ r' = r := by
  unfold singleSlot
  rw [Checked.bind_eq_ok]
  constructor
  · rintro ⟨_, hfree, hpure⟩
    cases hpure
    exact ⟨hfree, rfl⟩
  · rintro ⟨hfree, rfl⟩
    exact ⟨(), hfree, rfl⟩

theorem singleSlot_eq_error {slot : Option DrivenSignal} {resource : String} {r : Resource}
    {e : Fault Error} :
    u.singleSlot slot resource id r = .error e ↔ u.requireFree slot resource id = .error e := by
  unfold singleSlot
  rw [Checked.bind_eq_error]
  simp [pure, Except.pure]

/-- The resource that condition logic will take. -/
def logicPlan (u : Alu) (id : SignalId) (f : TruthFn) : Checked Error Resource := do
  let behavior ← u.checkConditionLogic id f
  match behavior with
  | .branchCondition => nextSlot u.branches .branch
  | .condBypass => u.singleSlot u.condBypass "cond_bypass" id .condBypass
  | _ => u.singleSlot u.condUpdate "cond_update" id .condUpdate

theorem logicPlan_eq_ok {r : Resource} (h : u.logicPlan id f = .ok r) :
    ∃ s, u.CanDrive id f s ∧ IsCondition s.behavior ∧ ∀ n, r ≠ .slot .conditionLogic n := by
  obtain ⟨behavior, hcheck, hslot⟩ := Checked.bind_eq_ok.mp h
  obtain ⟨s, hdrive, hs, hcond⟩ := checkConditionLogic_eq_ok hcheck
  refine ⟨s, hdrive, hs ▸ hcond, fun n => ?_⟩
  rcases hcond with rfl | rfl | rfl
  · rw [(nextSlot_eq_ok.mp hslot).2]
    nofun
  · rw [(singleSlot_eq_ok.mp hslot).2]
    nofun
  · rw [(singleSlot_eq_ok.mp hslot).2]
    nofun

theorem addConditionLogic_follows (id : SignalId) (f : TruthFn) :
    (addConditionLogic id f).Follows
      (fun u => (u.logicPlan id f).mapReason fun e => e.located u.location)
      Resource.address (fun r u => u.drive ⟨id, f⟩ r) := by
  refine ⟨fun u r hplan => ?_, fun u e hplan => ?_⟩
  · obtain ⟨behavior, hcheck, hplan'⟩ := Checked.bind_eq_ok.mp (Checked.mapReason_eq_ok.mp hplan)
    obtain ⟨s, hdrive, -, hcond⟩ := checkConditionLogic_eq_ok hcheck
    have hunbound : ∃ s, u.signals.get? id = some s ∧ s.binding = none :=
      ⟨s, hdrive.declared, hdrive.unbound⟩
    have hbind : ∀ a, u.signals.bind id a = .ok (u.signals.place id a) := fun a =>
      Registry.bind_eq_ok.mpr ⟨hunbound, rfl⟩
    refine (Edit.locatedAt_ask_of_ok (q := fun u : Alu => u.checkConditionLogic id f) hcheck
      _).trans (Edit.mapReason_eq_ok.mpr ?_)
    rcases hcond with rfl | rfl | rfl <;> refine Edit.attempt_eq_ok.mpr ?_
    · obtain ⟨hroom, rfl⟩ := nextSlot_eq_ok.mp hplan'
      exact push_bind_eq_ok.mpr ⟨hroom, hunbound, rfl⟩
    · obtain ⟨hfree, rfl⟩ := singleSlot_eq_ok.mp hplan'
      exact Checked.bind_eq_ok.mpr ⟨_, hfree, Checked.bind_eq_ok.mpr ⟨_, hbind _, rfl⟩⟩
    · obtain ⟨hfree, rfl⟩ := singleSlot_eq_ok.mp hplan'
      exact Checked.bind_eq_ok.mpr ⟨_, hfree, Checked.bind_eq_ok.mpr ⟨_, hbind _, rfl⟩⟩
  · obtain ⟨reason, hplan', rfl⟩ := Checked.mapReason_eq_error.mp hplan
    rcases Checked.bind_eq_error.mp hplan' with hcheck | ⟨behavior, hcheck, hslot⟩
    · exact Edit.locatedAt_ask_of_error (q := fun u : Alu => u.checkConditionLogic id f) hcheck _
    · obtain ⟨s, -, -, hcond⟩ := checkConditionLogic_eq_ok hcheck
      refine (Edit.locatedAt_ask_of_ok (q := fun u : Alu => u.checkConditionLogic id f) hcheck
        _).trans (Edit.mapReason_eq_error.mpr ⟨reason, ?_, rfl⟩)
      -- only the slot can be missing, and binding begins with that question
      rcases hcond with rfl | rfl | rfl <;>
        refine Edit.attempt_eq_error.mpr ⟨Checked.bind_eq_error.mpr (Or.inl ?_), rfl⟩
      · exact Pool.push_eq_error.mpr (nextSlot_eq_error.mp hslot)
      · exact singleSlot_eq_error.mp hslot
      · exact singleSlot_eq_error.mp hslot

/-! ### Instructions -/

/-- The place that an instruction will take, and the inputs that it will bind. -/
def instructionPlan (u : Alu) (i : Instruction) : Checked Error (Nat × List SignalId) := do
  let pending ← u.checkInstruction i
  return (u.instructions.size, pending)

theorem addInstruction_follows (i : Instruction) :
    (addInstruction i).Follows
      (fun u => (u.instructionPlan i).mapReason fun e => e.located i.location)
      Prod.fst (fun p u => u.added i p.2) := by
  refine ⟨fun u p hplan => ?_, fun u e hplan => ?_⟩
  · obtain ⟨pending, hcheck, hpure⟩ := Checked.bind_eq_ok.mp (Checked.mapReason_eq_ok.mp hplan)
    cases hpure
    exact addInstruction_of_ok hcheck
  · obtain ⟨reason, hplan', rfl⟩ := Checked.mapReason_eq_error.mp hplan
    rcases Checked.bind_eq_error.mp hplan' with hcheck | ⟨pending, -, hpure⟩
    · exact Edit.locatedAt_ask_of_error (q := fun u : Alu => u.checkInstruction i) hcheck _
    · cases hpure

end Alu

end AluPlacement
