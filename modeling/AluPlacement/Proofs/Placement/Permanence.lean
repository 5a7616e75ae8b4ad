import AluPlacement.Proofs.Placement.Host

/-! # Bindings are permanent, and a closed unit is frozen

Calls on a unit and from outside of it keep what its signals are, and what a bound signal is bound
to; only a pass may give a bound register or constant without a value the value 0
(`Signal.Persists`). This is so of each change of the signals (`Change.persists`), hence of each call
and of every run.

A pass closes a unit, and nothing else does. From then on each call that adds to the unit is refused
(`IsClosed`), and calls can change the location and the signals only. A signal gets a binding then
exactly if a call from outside registers it, for such a call does not ask whether the unit is closed
(`Lawful.address?_run`). All of this is said by `Host.Permanent`, of units and of blocks that stand
alone. -/

namespace AluPlacement

/-! ### Signals -/

/-- How a signal may change under calls. Only if `pass` holds may a value be filled in. -/
structure Signal.Persists (pass : Prop) (s s' : Signal) : Prop where
  name : s'.name = s.name
  dataType : s'.dataType = s.dataType
  origin : s'.origin = s.origin
  bound : s.binding ≠ none → s'.binding = s.binding ∧ s'.direction = s.direction ∧
    s'.warmReset = s.warmReset ∧ s'.behavior = s.behavior
  initial : s.binding ≠ none → s'.initial = s.initial ∨
    pass ∧ s.behavior.isStateful = true ∧ s.initial = none ∧ s'.initial = some 0#16

namespace Signal

variable {p q : Prop} {s s' s'' : Signal}

theorem Persists.trans (h : s.Persists p s') (h' : s'.Persists q s'') : s.Persists (p ∨ q) s'' := by
  refine ⟨h'.name.trans h.name, h'.dataType.trans h.dataType, h'.origin.trans h.origin,
    fun hb => ?_, fun hb => ?_⟩
  · obtain ⟨hbind, hdir, hreset, hbeh⟩ := h.bound hb
    obtain ⟨hbind', hdir', hreset', hbeh'⟩ := h'.bound (by rwa [hbind])
    exact ⟨hbind'.trans hbind, hdir'.trans hdir, hreset'.trans hreset, hbeh'.trans hbeh⟩
  · obtain ⟨hbind, -, -, hbeh⟩ := h.bound hb
    have hsecond := h'.initial (by rwa [hbind])
    rcases h.initial hb with hsame | ⟨hp, hstate, hnone, hzero⟩
    · rw [hsame, hbeh] at hsecond
      exact hsecond.imp_right fun ⟨hq, hrest⟩ => ⟨Or.inr hq, hrest⟩
    · -- a value that was filled in is not filled in again
      rcases hsecond with hsame' | ⟨-, -, hnone', -⟩
      · exact Or.inr ⟨Or.inl hp, hstate, hnone, hsame'.trans hzero⟩
      · rw [hzero] at hnone'
        cases hnone'

theorem Persists.mono (h : s.Persists p s') (hpq : p → q) : s.Persists q s' :=
  ⟨h.name, h.dataType, h.origin, h.bound, fun hb => (h.initial hb).imp_right (.imp_left hpq)⟩

theorem Kept.persists (h : s.Kept s') : s.Persists p s' := by
  refine ⟨h.name, h.dataType, h.origin, fun hb => ?_, fun hb => Or.inl (h.bound hb).1⟩
  obtain ⟨-, hreset, hdir⟩ := h.bound hb
  exact ⟨h.binding, hdir, hreset, h.behavior⟩

/-- What holds of all signals without a binding. -/
theorem Persists.of_unbound (hb : s.binding = none) (hname : s'.name = s.name)
    (hd : s'.dataType = s.dataType) (ho : s'.origin = s.origin) : s.Persists p s' :=
  ⟨hname, hd, ho, fun hne => absurd hb hne, fun hne => absurd hb hne⟩

theorem persists_withDefault (s : Signal) : s.Persists True (Registry.withDefault s) := by
  unfold Registry.withDefault
  split_ifs with hfill
  · rw [Bool.and_eq_true, Option.isNone_iff_eq_none] at hfill
    exact ⟨rfl, rfl, rfl, fun _ => ⟨rfl, rfl, rfl, rfl⟩,
      fun _ => Or.inr ⟨trivial, hfill.1, hfill.2, rfl⟩⟩
  · exact ⟨rfl, rfl, rfl, fun _ => ⟨rfl, rfl, rfl, rfl⟩, fun _ => Or.inl rfl⟩

end Signal

/-! ### Registries -/

namespace Registry

/-- Every signal of `r` is in `r'` under its identifier. -/
def Persists (pass : Prop) (r r' : Registry) : Prop :=
  ∀ id s, r.get? id = some s → ∃ s', r'.get? id = some s' ∧ s.Persists pass s'

variable {p q : Prop} {r r' r'' : Registry}

theorem Persists.trans (h : r.Persists p r') (h' : r'.Persists q r'') : r.Persists (p ∨ q) r'' := by
  intro id s hs
  obtain ⟨s', hs', hp⟩ := h id s hs
  obtain ⟨s'', hs'', hq⟩ := h' id s' hs'
  exact ⟨s'', hs'', hp.trans hq⟩

theorem Persists.mono (h : r.Persists p r') (hpq : p → q) : r.Persists q r' := by
  intro id s hs
  obtain ⟨s', hs', hp⟩ := h id s hs
  exact ⟨s', hs', hp.mono hpq⟩

theorem Extends.persists (h : r.Extends r') : r.Persists p r' := by
  intro id s hs
  obtain ⟨s', hs', hk⟩ := h.kept id s hs
  exact ⟨s', hs', hk.persists⟩

theorem Advances.persists (h : r.Advances r') : r.Persists p r' := by
  intro id s hs
  obtain ⟨b, hs', hb⟩ := h.get id s hs
  exact ⟨_, hs', rfl, rfl, rfl, fun hne => ⟨hb hne, rfl, rfl, rfl⟩, fun _ => Or.inl rfl⟩

theorem persists_applyDefaults (r : Registry) : r.Persists True r.applyDefaults := by
  intro id s hs
  refine ⟨withDefault s, ?_, s.persists_withDefault⟩
  rw [get?_applyDefaults, hs]
  rfl

/-- Signals without a binding may become constants. -/
theorem persists_promote {ids : List SignalId} (h : ∀ id ∈ ids, r.bound? id = none) :
    r.Persists p (r.promote ids) := by
  intro id s hs
  rw [get?_promote, hs]
  split_ifs with hid
  · have hb := h id hid
    rw [bound?_of_get? hs, Signal.bound?_eq_none] at hb
    exact ⟨promoted s, rfl, .of_unbound hb rfl rfl rfl⟩
  · exact ⟨s, rfl, (Signal.Kept.refl s).persists⟩

theorem Change.persists (h : Change p r r') : r.Persists p r' := by
  cases h with
  | call c => exact (extends_apply c r).persists
  | bind ha => exact ha.persists
  | fill hp => exact r.persists_applyDefaults.mono fun _ => hp
  | promote _ hids =>
    refine persists_promote fun id hid => ?_
    obtain ⟨s, hs, -, hunbound⟩ := hids id hid
    rw [bound?_of_get? hs, Signal.bound?_eq_none]
    exact hunbound

theorem Changes.persists (h : Changes p r r') : r.Persists p r' := by
  induction h with
  | refl => exact (Extends.refl r).persists
  | tail _ hlast ih => exact (ih.trans hlast.persists).mono (or_self p).mp

end Registry

/-- A binding lasts. -/
theorem Registry.Persists.address? {p : Prop} {r r' : Registry} (h : r.Persists p r')
    {id : SignalId} {a : Address} (ha : r.address? id = some a) : r'.address? id = some a := by
  obtain ⟨s, hs, hb⟩ := address?_eq_some.mp ha
  obtain ⟨s', hs', hsame⟩ := h id s hs
  have hne : s.binding ≠ none := by
    rw [hb]
    nofun
  exact address?_eq_some.mpr ⟨s', hs', (hsame.bound hne).1.trans hb⟩

/-! ### Runs -/

namespace Host

variable {σ κ : Type} {H : Host σ κ} {Inv : σ → Prop} {s : σ}

/-- What calls can do to a host. -/
structure Permanent (H : Host σ κ) (s : σ) (calls : List (PublicCall κ)) : Prop where
  persists : (H.signals s).Persists (∃ c ∈ calls, H.IsPass c) (H.signals (H.run s calls))
  phase : H.phase (H.run s calls) = .building ↔
    H.phase s = .building ∧ ∀ c ∈ calls, ¬H.IsPass c
  core : H.phase s ≠ .building → H.core (H.run s calls) = H.core s
  values : H.phase s ≠ .building → (H.signals s).Persists False (H.signals (H.run s calls))
  bindings : H.phase s ≠ .building → ∀ id,
    ((H.signals (H.run s calls)).address? id ≠ (H.signals s).address? id ↔
      H.BindsDuring s calls id)

theorem Lawful.persists_run (h : H.Lawful Inv) (hs : Inv s) (calls : List (PublicCall κ)) :
    (H.signals s).Persists (∃ c ∈ calls, H.IsPass c) (H.signals (H.run s calls)) := by
  refine h.run_induction (R := fun s calls =>
    (H.signals s).Persists (∃ c ∈ calls, H.IsPass c) (H.signals (H.run s calls)))
    (fun s => (Registry.Extends.refl _).persists) (fun s c calls hs ih => ?_) hs calls
  refine ((h.changes_apply hs c).persists.trans ih).mono ?_
  rintro (hc | ⟨c', hc', hpass⟩)
  · exact ⟨c, List.mem_cons_self, hc⟩
  · exact ⟨c', List.mem_cons_of_mem c hc', hpass⟩

theorem Lawful.phase_run (h : H.Lawful Inv) (hs : Inv s) (calls : List (PublicCall κ)) :
    H.phase (H.run s calls) = .building ↔ H.phase s = .building ∧ ∀ c ∈ calls, ¬H.IsPass c := by
  refine h.run_induction (R := fun s calls => H.phase (H.run s calls) = .building ↔
    H.phase s = .building ∧ ∀ c ∈ calls, ¬H.IsPass c)
    (fun s => (and_iff_left nofun).symm) (fun s c calls hs ih => ?_) hs calls
  rw [List.forall_mem_cons, ← and_assoc, ← h.phase_apply hs]
  exact ih

theorem Lawful.core_run (h : H.Lawful Inv) (hs : Inv s) (hp : H.phase s ≠ .building)
    (calls : List (PublicCall κ)) : H.core (H.run s calls) = H.core s :=
  h.closed_induction (R := fun s calls => H.core (H.run s calls) = H.core s) (fun _ => rfl)
    (fun _ c _ _ hp ih => ih.trans (h.core_apply hp c)) hs hp calls

/-- A call on a closed host fills in no value. -/
theorem Lawful.values_apply (h : H.Lawful Inv) (hp : H.phase s ≠ .building) (c : PublicCall κ) :
    (H.signals s).Persists False (H.signals (H.apply c s)) := by
  cases c with
  | own c => exact (h.closed s c hp).1.persists
  | outside =>
    rw [apply, h.signals_withSignals]
    exact Registry.advances_bindOutside.persists

theorem Lawful.values_run (h : H.Lawful Inv) (hs : Inv s) (hp : H.phase s ≠ .building)
    (calls : List (PublicCall κ)) :
    (H.signals s).Persists False (H.signals (H.run s calls)) := by
  refine h.closed_induction
    (R := fun s calls => (H.signals s).Persists False (H.signals (H.run s calls)))
    (fun s => (Registry.Extends.refl _).persists) (fun s c calls hs hp ih => ?_) hs hp calls
  exact ((h.values_apply hp c).trans ih).mono (or_self False).mp

/-- **On a closed host a signal gets a binding exactly if a call from outside registers it.** -/
theorem Lawful.address?_run (h : H.Lawful Inv) (hs : Inv s) (hp : H.phase s ≠ .building)
    (calls : List (PublicCall κ)) (id : SignalId) :
    (H.signals (H.run s calls)).address? id ≠ (H.signals s).address? id ↔
      H.BindsDuring s calls id := by
  refine h.closed_induction (R := fun s calls =>
    ((H.signals (H.run s calls)).address? id ≠ (H.signals s).address? id ↔
      H.BindsDuring s calls id)) (fun s => ?_) (fun s c calls hs hp ih => ?_) hs hp calls
  · exact iff_of_false (fun hne => hne rfl) (bindsDuring_nil H s id)
  · show (H.signals (H.run (H.apply c s) calls)).address? id ≠ _ ↔ _
    rw [bindsDuring_cons, ← h.address?_apply hp, ← ih]
    by_cases hsame : (H.signals (H.apply c s)).address? id = (H.signals s).address? id
    · rw [hsame, ne_self_iff_false, false_or]
    · -- bound by this call, and no later call changes a binding
      refine iff_of_true (fun hlast => hsame ?_) (Or.inl hsame)
      cases hbefore : (H.signals s).address? id with
      | some a => exact (h.values_apply hp c).address? hbefore
      | none =>
        cases hafter : (H.signals (H.apply c s)).address? id with
        | none => rfl
        | some a =>
          have hrest := h.values_run (h.inv_apply hs c) (h.closed_apply hs hp c) calls
          have hkept := hrest.address? hafter
          rw [hlast, hbefore] at hkept
          cases hkept

theorem Lawful.permanent (h : H.Lawful Inv) (hs : Inv s) (calls : List (PublicCall κ)) :
    H.Permanent s calls where
  persists := h.persists_run hs calls
  phase := h.phase_run hs calls
  core hp := h.core_run hs hp calls
  values hp := h.values_run hs hp calls
  bindings hp := h.address?_run hs hp calls

theorem Permanent.closed {calls : List (PublicCall κ)} (h : H.Permanent s calls)
    (hp : H.phase s ≠ .building) : H.phase (H.run s calls) ≠ .building :=
  fun hbuilding => hp (h.phase.mp hbuilding).1

end Host

/-! ### Closed blocks and units -/

namespace Block

variable {b : Block}

/-- The calls that add to the block are refused and change nothing. -/
structure IsClosed (b : Block) : Prop where
  addRegister : ∀ id f, Block.addRegister id f b =
    .error (.refused ((Error.alreadyAssigned b.name).located b.location)) b
  assign : Block.assign b =
    .error (.refused [(Error.alreadyAssigned b.name).located b.location]) b

theorem addRegister_of_closed (h : b.phase ≠ .building) (id : SignalId) (f : TruthFn) :
    addRegister id f b =
      .error (.refused ((Error.alreadyAssigned b.name).located b.location)) b := by
  have hcheck : b.checkRegister id f = .error (.refused (.alreadyAssigned b.name)) :=
    Checked.bind_eq_error.mpr (Or.inl (requireBuilding_of_closed h))
  exact Edit.locatedAt_ask_of_error (q := fun b : Block => b.checkRegister id f) hcheck _

theorem isClosed_of_phase (h : b.phase ≠ .building) : b.IsClosed :=
  ⟨addRegister_of_closed h, assign_of_closed h⟩

end Block

namespace Alu

variable {u : Alu}

/-- The calls that add to the unit are refused and change nothing. -/
structure IsClosed (u : Alu) : Prop where
  addInstruction : ∀ i, Alu.addInstruction i u =
    .error (.refused ((Error.alreadyAssigned u.name).located i.location)) u
  addConditionLogic : ∀ id f, Alu.addConditionLogic id f u =
    .error (.refused ((Error.alreadyAssigned u.name).located u.location)) u
  addRegister : ∀ id f, Alu.addRegister id f u =
    .error (.refused ((Error.alreadyAssigned u.name).located u.location)) u
  assign : Alu.assign u =
    .error (.refused [(Error.alreadyAssigned u.name).located u.location]) u

theorem addInstruction_of_closed (h : u.phase ≠ .building) (i : Instruction) :
    addInstruction i u =
      .error (.refused ((Error.alreadyAssigned u.name).located i.location)) u := by
  have hcheck : u.checkInstruction i = .error (.refused (.alreadyAssigned u.name)) :=
    Checked.bind_eq_error.mpr (Or.inl (Block.requireBuilding_of_closed h))
  exact Edit.locatedAt_ask_of_error (q := fun u : Alu => u.checkInstruction i) hcheck _

theorem addConditionLogic_of_closed (h : u.phase ≠ .building) (id : SignalId) (f : TruthFn) :
    addConditionLogic id f u =
      .error (.refused ((Error.alreadyAssigned u.name).located u.location)) u := by
  have hcheck : u.checkConditionLogic id f = .error (.refused (.alreadyAssigned u.name)) :=
    Checked.bind_eq_error.mpr (Or.inl (Block.requireBuilding_of_closed h))
  exact Edit.locatedAt_ask_of_error (q := fun u : Alu => u.checkConditionLogic id f) hcheck _

theorem isClosed_of_phase (h : u.phase ≠ .building) : u.IsClosed where
  addInstruction := addInstruction_of_closed h
  addConditionLogic := addConditionLogic_of_closed h
  addRegister id f := by
    have hblock := Block.addRegister_of_closed h id f
    unfold Alu.addRegister onBlock
    exact Edit.zoom_eq_error.mpr ⟨u.toBlock, hblock, rfl⟩
  assign := assign_of_closed h

end Alu

/-! ### All runs -/

/-- **Bindings are permanent, and a closed unit is frozen but for calls from outside.** Whatever
calls are made on a unit and on its signals, the signals keep what they are and bound signals keep
what they are bound to. The unit is closed exactly if a pass was made. Of a closed unit calls can
change the location and the signals only, and all calls that add to it are refused. A signal of it
gets a binding exactly if a call from outside registers it. All of this holds of blocks too. -/
theorem run_permanent {new : Alu} (hnew : new.IsNew) (earlier calls : List (PublicCall Alu.Call))
    (b : Block) (blockCalls : List (PublicCall Block.Call)) :
    (Alu.host.Permanent (Alu.host.run new earlier) calls ∧
      ((Alu.host.run new earlier).phase ≠ .building →
        (Alu.host.run new (earlier ++ calls)).IsClosed)) ∧
    Block.host.Permanent b blockCalls ∧
      (b.phase ≠ .building → (Block.host.run b blockCalls).IsClosed) := by
  have hready := Alu.lawful_host.inv_run hnew.ready earlier
  have hunit := Alu.lawful_host.permanent hready calls
  have hblock := Block.lawful_host.permanent (s := b) trivial blockCalls
  refine ⟨⟨hunit, fun hp => ?_⟩, hblock, fun hp => Block.isClosed_of_phase (hblock.closed hp)⟩
  rw [Host.run_append]
  exact Alu.isClosed_of_phase (hunit.closed hp)

/-- A unit on which a pass was made. -/
def closedUnit : Alu :=
  Alu.host.run (Alu.create "u" .standard) [.own (.declare "q" .register .bit), .own .assign]

/-- A block on which a pass was made. -/
def closedBlock : Block :=
  Block.host.run { name := "t" } [.own (.declare "q" .register .bit), .own .assign]

/-- A signal is declared, and then registered from outside. -/
def lateCalls {κ : Type} (declare : κ) (unit : String) (id : SignalId) : List (PublicCall κ) :=
  [.own declare, .outside [] unit id (.const true)]

/-- A bit register that is declared in a closed unit or block and then registered from outside is
bound. It gets the address that another register has already. -/
theorem closed_bound_outside :
    (closedUnit.phase = .bound ∧ closedUnit.signals.get? ⟨8⟩ = none ∧
      (Alu.host.run closedUnit (lateCalls (.declare "p" .register .bit) "u" ⟨8⟩)).signals.address?
        ⟨8⟩ = closedUnit.signals.address? ⟨7⟩ ∧ closedUnit.signals.address? ⟨7⟩ ≠ none) ∧
    closedBlock.phase = .bound ∧ closedBlock.signals.get? ⟨1⟩ = none ∧
      (Block.host.run closedBlock
        (lateCalls (.declare "p" .register .bit) "t" ⟨1⟩)).signals.address? ⟨1⟩ =
          closedBlock.signals.address? ⟨0⟩ ∧ closedBlock.signals.address? ⟨0⟩ ≠ none := by
  decide +kernel

theorem run_permanent_closed :
    (Alu.host.run closedUnit (lateCalls (.declare "p" .register .bit) "u" ⟨8⟩)).IsClosed ∧
      Alu.host.BindsDuring closedUnit (lateCalls (.declare "p" .register .bit) "u" ⟨8⟩) ⟨8⟩ ∧
      (Block.host.run closedBlock (lateCalls (.declare "p" .register .bit) "t" ⟨1⟩)).IsClosed ∧
      Block.host.BindsDuring closedBlock (lateCalls (.declare "p" .register .bit) "t" ⟨1⟩) ⟨1⟩ := by
  have hunit : closedUnit.phase ≠ .building := by decide +kernel
  have hblock : closedBlock.phase ≠ .building := by decide +kernel
  obtain ⟨⟨hpermanent, hclosed⟩, hpermanent', hclosed'⟩ := run_permanent (.standard "u")
    [.own (.declare "q" .register .bit), .own .assign]
    (lateCalls (.declare "p" .register .bit) "u" ⟨8⟩) closedBlock
    (lateCalls (.declare "p" .register .bit) "t" ⟨1⟩)
  refine ⟨hclosed hunit, (hpermanent.bindings hunit ⟨8⟩).mp ?_, hclosed' hblock,
    (hpermanent'.bindings hblock ⟨1⟩).mp ?_⟩
  · decide +kernel
  · decide +kernel

end AluPlacement
