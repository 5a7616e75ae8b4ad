import AluPlacement.Proofs.Block.Slots
import AluPlacement.Proofs.Placement.Changes
import AluPlacement.Proofs.Placement.Closed

/-! # Calls from outside of a unit

The signals of a unit can be bound from two sides: by the calls of the front end on the unit, and by
a condition logic that belongs to no unit (`Registry.bindOutside`). `PublicCall` are the calls of
both kinds.

A registry that stands alone, a block and a unit have different calls of their own, but calls from
outside do the same to all of them. So all three are a `Host` of signals. What a call of its own may
do to a host is said by `Host.Lawful`; from this follows what any calls do, one by one and in a run
(`Lawful.run_induction`). -/

namespace AluPlacement

/-- A call on a host of signals, or one from outside that registers one of its signals. -/
inductive PublicCall (κ : Type) where
  | own (c : κ)
  | outside (entries : List DrivenSignal) (unit : String) (id : SignalId) (f : TruthFn)
  deriving DecidableEq, Repr

/-! ### Registration from outside -/

namespace Registry

variable {r : Registry} {id : SignalId} {s : Signal} {entries : List DrivenSignal} {unit : String}
  {f : TruthFn}

/-- Registration from outside binds a bit register without a binding, or changes nothing. -/
theorem bindOutside_result (r : Registry) (entries : List DrivenSignal) (unit : String)
    (id : SignalId) (f : TruthFn) :
    (∃ e, bindOutside entries unit id f r = .error e r) ∨
      ∃ a b s, r.get? id = some s ∧ s.isOf .register .bit = true ∧ s.binding = none ∧
        bindOutside entries unit id f r = .ok a (r.place id b) := by
  rcases Block.bindRegister_result { name := unit, signals := r, logic := _ } id f with
    ⟨e, he⟩ | ⟨a, s, hdrive, hreg, -, hok⟩
  · exact Or.inl ⟨e, Edit.zoom_eq_error.mpr ⟨_, he, rfl⟩⟩
  · refine Or.inr ⟨a, _, s, hdrive.declared, ?_, hdrive.unbound,
      Edit.zoom_eq_ok.mpr ⟨_, hok, rfl⟩⟩
    simp [Signal.isOf, hreg, hdrive.dataType]

theorem advances_bindOutside : r.Advances ((bindOutside entries unit id f).after r) := by
  rcases bindOutside_result r entries unit id f with ⟨e, he⟩ | ⟨a, b, s, hs, -, hb, hok⟩
  · rw [Edit.after_of_error he]
    exact .refl r
  · rw [Edit.after_of_ok hok]
    exact advances_place hs hb b

end Registry

/-- The call registers this signal from outside, and it is answered. -/
def PublicCall.Binds {κ : Type} (c : PublicCall κ) (r : Registry) (id : SignalId) : Prop :=
  ∃ entries unit f a r', c = .outside entries unit id f ∧
    Registry.bindOutside entries unit id f r = .ok a r'

/-! ### Hosts -/

/-- Something that holds signals and has calls of its own. -/
structure Host (σ κ : Type) where
  signals : σ → Registry
  withSignals : σ → Registry → σ
  phase : σ → Phase
  /-- What is left without the signals and the location. -/
  core : σ → σ
  call : κ → σ → σ
  /-- The call is a pass. -/
  pass : κ → Prop

namespace Host

variable {σ κ : Type}

/-- The host after a call, whether it answered or not. -/
def apply (H : Host σ κ) : PublicCall κ → σ → σ
  | .own c, s => H.call c s
  | .outside entries unit id f, s =>
    H.withSignals s ((Registry.bindOutside entries unit id f).after (H.signals s))

/-- The host after several calls. -/
def run (H : Host σ κ) (s : σ) (calls : List (PublicCall κ)) : σ :=
  calls.foldl (fun s c => H.apply c s) s

/-- The call is a pass of the host. -/
def IsPass (H : Host σ κ) : PublicCall κ → Prop
  | .own c => H.pass c
  | .outside .. => False

/-- One of the calls registers the signal from outside, and it is answered. -/
def BindsDuring (H : Host σ κ) (s : σ) (calls : List (PublicCall κ)) (id : SignalId) : Prop :=
  ∃ before c after, calls = before ++ c :: after ∧ c.Binds (H.signals (H.run s before)) id

/-- What the calls of a host may do, as long as `Inv` holds. A call from outside writes no more than
the signals, and `Inv` lasts. -/
structure Lawful (H : Host σ κ) (Inv : σ → Prop) : Prop where
  signals_withSignals : ∀ s r, H.signals (H.withSignals s r) = r
  phase_withSignals : ∀ s r, H.phase (H.withSignals s r) = H.phase s
  core_withSignals : ∀ s r, H.core (H.withSignals s r) = H.core s
  inv_withSignals : ∀ s r, Inv s → (H.signals s).Advances r → Inv (H.withSignals s r)
  inv : ∀ s c, Inv s → Inv (H.call c s)
  changes : ∀ s c, Inv s →
    Registry.Changes (H.pass c) (H.signals s) (H.signals (H.call c s))
  phase : ∀ s c, Inv s →
    (H.phase (H.call c s) = .building ↔ H.phase s = .building ∧ ¬H.pass c)
  closed : ∀ s c, H.phase s ≠ .building →
    (H.signals s).Extends (H.signals (H.call c s)) ∧ H.core (H.call c s) = H.core s

variable {H : Host σ κ} {Inv : σ → Prop} {s : σ} {id : SignalId}

/-! ### One call -/

theorem Lawful.inv_apply (h : H.Lawful Inv) (hs : Inv s) (c : PublicCall κ) :
    Inv (H.apply c s) := by
  cases c with
  | own c => exact h.inv s c hs
  | outside => exact h.inv_withSignals s _ hs Registry.advances_bindOutside

theorem Lawful.changes_apply (h : H.Lawful Inv) (hs : Inv s) (c : PublicCall κ) :
    Registry.Changes (H.IsPass c) (H.signals s) (H.signals (H.apply c s)) := by
  cases c with
  | own c => exact h.changes s c hs
  | outside =>
    rw [apply, h.signals_withSignals]
    exact .single (.bind Registry.advances_bindOutside)

theorem Lawful.phase_apply (h : H.Lawful Inv) (hs : Inv s) (c : PublicCall κ) :
    H.phase (H.apply c s) = .building ↔ H.phase s = .building ∧ ¬H.IsPass c := by
  cases c with
  | own c => exact h.phase s c hs
  | outside =>
    rw [apply, h.phase_withSignals]
    exact (and_iff_left not_false).symm

/-- No call opens a host again. -/
theorem Lawful.closed_apply (h : H.Lawful Inv) (hs : Inv s) (hp : H.phase s ≠ .building)
    (c : PublicCall κ) : H.phase (H.apply c s) ≠ .building :=
  fun hbuilding => hp ((h.phase_apply hs c).mp hbuilding).1

theorem Lawful.core_apply (h : H.Lawful Inv) (hp : H.phase s ≠ .building) (c : PublicCall κ) :
    H.core (H.apply c s) = H.core s := by
  cases c with
  | own c => exact (h.closed s c hp).2
  | outside => exact h.core_withSignals s _

/-- A call on a closed host gives a signal another binding only if it comes from outside. -/
theorem Lawful.address?_apply (h : H.Lawful Inv) (hp : H.phase s ≠ .building)
    (c : PublicCall κ) (id : SignalId) :
    (H.signals (H.apply c s)).address? id ≠ (H.signals s).address? id ↔
      c.Binds (H.signals s) id := by
  cases c with
  | own c =>
    have hsame := Registry.address?_of_extends (h.closed s c hp).1
    refine iff_of_false (fun hne => hne (congrFun hsame id)) ?_
    rintro ⟨_, _, _, _, _, heq, -⟩
    cases heq
  | outside entries unit i f =>
    rw [apply, h.signals_withSignals]
    rcases Registry.bindOutside_result (H.signals s) entries unit i f with
      ⟨e, he⟩ | ⟨a, b, t, ht, -, hb, hok⟩
    · rw [Edit.after_of_error he]
      refine iff_of_false (fun hne => hne rfl) ?_
      rintro ⟨_, _, _, _, _, heq, hok⟩
      cases heq
      rw [he] at hok
      cases hok
    · rw [Edit.after_of_ok hok, Registry.address?_place ht]
      split_ifs with hid
      · subst hid
        refine iff_of_true ?_ ⟨entries, unit, f, a, _, rfl, hok⟩
        rw [Registry.address?_of_get? ht, hb]
        nofun
      · refine iff_of_false (fun hne => hne rfl) ?_
        rintro ⟨_, _, _, _, _, heq, -⟩
        cases heq
        exact hid rfl

/-! ### Runs -/

/-- What holds of no calls, and of a call and others if it holds of the others after it, holds of
every run. -/
theorem Lawful.run_induction (h : H.Lawful Inv) {R : σ → List (PublicCall κ) → Prop}
    (nil : ∀ s, R s [])
    (cons : ∀ s c calls, Inv s → R (H.apply c s) calls → R s (c :: calls)) (hs : Inv s)
    (calls : List (PublicCall κ)) : R s calls := by
  induction calls generalizing s with
  | nil => exact nil s
  | cons c calls ih => exact cons s c calls hs (ih (h.inv_apply hs c))

/-- The same of a closed host, which stays closed. -/
theorem Lawful.closed_induction (h : H.Lawful Inv) {R : σ → List (PublicCall κ) → Prop}
    (nil : ∀ s, R s [])
    (cons : ∀ s c calls, Inv s → H.phase s ≠ .building → R (H.apply c s) calls → R s (c :: calls))
    (hs : Inv s) (hp : H.phase s ≠ .building) (calls : List (PublicCall κ)) : R s calls :=
  h.run_induction (R := fun s calls => H.phase s ≠ .building → R s calls) (fun s _ => nil s)
    (fun s c calls hs ih hp => cons s c calls hs hp (ih (h.closed_apply hs hp c))) hs calls hp

theorem Lawful.inv_run (h : H.Lawful Inv) (hs : Inv s) (calls : List (PublicCall κ)) :
    Inv (H.run s calls) := by
  induction calls generalizing s with
  | nil => exact hs
  | cons c calls ih => exact ih (h.inv_apply hs c)

theorem bindsDuring_nil (H : Host σ κ) (s : σ) (id : SignalId) : ¬H.BindsDuring s [] id := by
  rintro ⟨before, c, after, hnil, -⟩
  cases before <;> cases hnil

theorem bindsDuring_cons {c : PublicCall κ} {calls : List (PublicCall κ)} :
    H.BindsDuring s (c :: calls) id ↔
      c.Binds (H.signals s) id ∨ H.BindsDuring (H.apply c s) calls id := by
  constructor
  · rintro ⟨before, c', after, heq, hbinds⟩
    cases before with
    | nil =>
      cases heq
      exact Or.inl hbinds
    | cons c'' before =>
      cases heq
      exact Or.inr ⟨before, c', after, rfl, hbinds⟩
  · rintro (hbinds | ⟨before, c', after, rfl, hbinds⟩)
    · exact ⟨[], c, calls, rfl, hbinds⟩
    · exact ⟨c :: before, c', after, rfl, hbinds⟩

theorem run_append (H : Host σ κ) (s : σ) (calls calls' : List (PublicCall κ)) :
    H.run s (calls ++ calls') = H.run (H.run s calls) calls' :=
  List.foldl_append

/-- The calls of the host itself, one after the other. -/
theorem run_own (H : Host σ κ) (s : σ) (calls : List κ) :
    H.run s (calls.map .own) = calls.foldl (fun s c => H.call c s) s :=
  List.foldl_map

end Host

/-! ### The three hosts -/

/-- A registry that stands alone is never closed. -/
def Registry.host : Host Registry Registry.Call where
  signals r := r
  withSignals _ r := r
  phase _ := .building
  core _ := {}
  call c r := c.apply r
  pass _ := False

theorem Registry.lawful_host : Registry.host.Lawful fun _ => True where
  signals_withSignals _ _ := rfl
  phase_withSignals _ _ := rfl
  core_withSignals _ _ := rfl
  inv_withSignals _ _ _ _ := trivial
  inv _ _ _ := trivial
  changes _ c _ := .single (.call c)
  phase _ _ _ := (and_iff_left not_false).symm
  closed _ _ hp := absurd rfl hp

namespace Block

def host : Host Block Call where
  signals b := b.signals
  withSignals b r := { b with signals := r }
  phase b := b.phase
  core b := { b with signals := {}, location := {} }
  call c b := c.apply b
  pass c := c = .assign

/-- **A call on a closed block changes nothing but its location and its signals.** -/
theorem closed_apply {b : Block} (h : b.phase ≠ .building) (c : Call) :
    b.signals.Extends (c.apply b).signals ∧ host.core (c.apply b) = host.core b := by
  have hrefused : ∀ {t : Block}, t = b →
      b.signals.Extends t.signals ∧ host.core t = host.core b := by
    rintro t rfl
    exact ⟨.refl _, rfl⟩
  cases c with
  | setLocation location => exact ⟨.refl _, rfl⟩
  | declare name behavior dataType =>
    show b.signals.Extends ((Block.declare name behavior dataType).after b).signals ∧
      host.core ((Block.declare name behavior dataType).after b) = _
    rw [after_declare]
    exact ⟨Registry.extends_apply (.declare name behavior dataType) b.signals, rfl⟩
  | edit call => exact ⟨Registry.extends_apply call b.signals, rfl⟩
  | addRegister id f =>
    rcases addRegister_result b id f with ⟨e, he⟩ | ⟨a, s, hdrive, -⟩
    · exact hrefused (Edit.after_of_error he)
    · exact absurd hdrive.building h
  | assign => exact hrefused (Edit.after_of_error (assign_of_closed h))

theorem lawful_host : host.Lawful fun _ => True where
  signals_withSignals _ _ := rfl
  phase_withSignals _ _ := rfl
  core_withSignals _ _ := rfl
  inv_withSignals _ _ _ _ := trivial
  inv _ _ _ := trivial
  changes b c _ := b.changes_apply c
  phase b c _ := b.phase_apply c
  closed _ c hp := closed_apply hp c

end Block

namespace Alu

def host : Host Alu Call where
  signals u := u.signals
  withSignals u r := { u with signals := r }
  phase u := u.phase
  core u := { u with signals := {}, location := {} }
  call c u := c.apply u
  pass c := c = .assign

theorem lawful_host : host.Lawful fun u => u.phase = .building → u.Ready where
  signals_withSignals _ _ := rfl
  phase_withSignals _ _ := rfl
  core_withSignals _ _ := rfl
  inv_withSignals u r h hr hp := by
    obtain ⟨hregs, hconditions⟩ := h hp
    refine ⟨fun id hid => ?_, fun i hi c hc => ?_⟩
    · exact (hr.contains id).trans (hregs id hid)
    · exact (hr.contains c).trans (hconditions i hi c hc)
  inv _ c h := ready_apply h c
  changes _ c h := changes_apply h c
  phase _ c h := phase_apply h c
  closed u c hp := by
    have hkeeps := keeps_apply hp c
    refine ⟨hkeeps.signals, ?_⟩
    show host.core (c.apply u) = host.core u
    rw [hkeeps.rest]
    rfl

theorem IsNew.ready {u : Alu} (h : u.IsNew) : u.phase = .building → u.Ready :=
  (Reachable.new h).sound.ready

end Alu

end AluPlacement
