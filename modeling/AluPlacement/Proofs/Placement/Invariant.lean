import AluPlacement.Proofs.Placement.Pass
import Mathlib.Data.List.Nodup

/-! # The placement invariant

`Placed u` says that the two views of the placement agree: whoever holds a resource is bound to its
address, and whoever is bound to an address holds the resource there, or is a constant equal to the
constant that holds it. `InProgress u` says what more is known before the final pass: nothing is
shared, and no word register, constant slot or built-in constant is taken.

Every step of the placement preserves the first (`Step.placed`), and every step while the unit is
being built preserves the second too (`BuildStep.inProgress`). -/

namespace AluPlacement

namespace Resource

theorem inRange_of_builtinValue? {r : Resource} {v : Word} (h : r.builtinValue? = some v) :
    r.inRange = true := by
  cases r <;> first | rfl | cases h

theorem dataType?_of_builtinValue? {r : Resource} {v : Word} (h : r.builtinValue? = some v) :
    r.dataType? = some .word := by
  cases r <;> first | rfl | cases h

theorem ofBuiltinValue?_eq_some {r : Resource} {v : Word} :
    ofBuiltinValue? v = some r ↔ r.builtinValue? = some v := by
  constructor
  · intro h
    simpa using List.find?_some h
  · intro h
    cases r <;> cases h <;> decide

/-- Only the slots of constants take no signal's address. -/
theorem eq_constant_slot {r : Resource} (h : r.dataType? = none) : ∃ i, r = .slot .constant i := by
  cases r with
  | slot f i => cases f <;> first | exact ⟨i, rfl⟩ | cases h
  | _ => cases h

end Resource

namespace Alu

/-- The two views of the placement agree. -/
structure Placed (u : Alu) : Prop where
  capacity : u.capacityOf = Family.capacity
  inRange : ∀ r t, u.holder? r = some t → r.inRange = true
  holder : ∀ r t, r.dataType? ≠ none → u.holder? r = some t →
    ∃ p, u.signals.bound? t = some p ∧ p.address = r.address
  bound : ∀ i p, u.signals.bound? i = some p →
    ∃ r t q, r.dataType? = some p.dataType ∧ p.address = r.address ∧ u.holder? r = some t ∧
      u.signals.bound? t = some q ∧ (t = i ∨ p.SameConstant q)
  builtin : ∀ i p (r : Resource) v, u.signals.bound? i = some p → r.builtinValue? = some v →
    p.address = r.address → p.behavior = .constant ∧ p.initial = some v
  constants : ∀ t ∈ u.constants.entries, t ∈ u.wordIns.entries
  instructions : u.instructions.entries.length ≤ u.instructions.capacity
  program : u.instructions.capacity = u.definition.limits.maxInstructions

/-- What more holds before the final pass. -/
structure InProgress (u : Alu) : Prop where
  closed : ∀ r : Resource, r.isOpen = false → u.holder? r = none
  own : ∀ i p, u.signals.bound? i = some p →
    ∃ r : Resource, r.inRange = true ∧ p.address = r.address ∧ u.holder? r = some i
  noBitConstant : ∀ i p, u.signals.bound? i = some p → p.dataType = .bit → p.behavior ≠ .constant
  declared : ∀ i ∈ u.instructions.entries, ∀ c ∈ i.branch.conditions, u.signals.contains c = true

/-- The invariant of a unit. -/
structure Sound (u : Alu) : Prop where
  placed : u.Placed
  inProgress : u.phase = .building → u.InProgress

/-! ### Consequences -/

section Consequences

variable {u : Alu}

theorem mem_slots_iff {family : Family} {t : SignalId} :
    t ∈ u.slots family ↔ ∃ i, u.holder? (.slot family i) = some t :=
  List.mem_iff_getElem?

theorem Placed.bound_inRange (h : u.Placed) {i : SignalId} {p : BoundSignal}
    (hp : u.signals.bound? i = some p) :
    ∃ r : Resource, r.inRange = true ∧ r.dataType? = some p.dataType ∧ p.address = r.address := by
  obtain ⟨r, t, q, hd, ha, ht, -, -⟩ := h.bound i p hp
  exact ⟨r, h.inRange r t ht, hd, ha⟩

theorem Placed.slots_length (h : u.Placed) (family : Family) :
    (u.slots family).length ≤ family.capacity := by
  cases hn : (u.slots family).length with
  | zero => exact Nat.zero_le _
  | succ n =>
    have hlt : n < (u.slots family).length := by omega
    have := h.inRange (.slot family n) _ (List.getElem?_eq_getElem hlt)
    simp only [Resource.inRange, decide_eq_true_iff] at this
    omega

/-- The holder of a built-in constant is a constant with its value. -/
theorem Placed.builtin_holder (h : u.Placed) {r : Resource} {v : Word} {t : SignalId}
    (hv : r.builtinValue? = some v) (ht : u.holder? r = some t) :
    u.signals.HasConstant .word (some v) := by
  have hd := Resource.dataType?_of_builtinValue? hv
  obtain ⟨p, hp, ha⟩ := h.holder r t (by rw [hd]; exact Option.some_ne_none _) ht
  obtain ⟨hc, hi⟩ := h.builtin t p r v hp hv ha
  obtain ⟨r', hr', hd', ha'⟩ := h.bound_inRange hp
  have : r' = r :=
    Resource.address_inj hr' (Resource.inRange_of_builtinValue? hv) (ha'.symm.trans ha)
  rw [this, hd] at hd'
  exact ⟨t, p, hp, hc, (Option.some.inj hd').symm, hi⟩

/-- Whoever holds a resource is bound to its address. -/
theorem Placed.binding_of_holder (h : u.Placed) {r : Resource} {t : SignalId} {s : Signal}
    (hd : r.dataType? ≠ none) (ht : u.holder? r = some t) (hs : u.signals.get? t = some s) :
    s.binding = some r.address := by
  obtain ⟨p, hp, ha⟩ := h.holder r t hd ht
  obtain ⟨s', hs', hb, -⟩ := Registry.bound?_eq_some.mp hp
  rw [hs] at hs'
  cases hs'
  rw [hb, ha]

/-- A signal holds one resource at most. -/
theorem Placed.resource_unique (h : u.Placed) {r r' : Resource} {t : SignalId}
    (hd : r.dataType? ≠ none) (hd' : r'.dataType? ≠ none) (ht : u.holder? r = some t)
    (ht' : u.holder? r' = some t) : r = r' := by
  obtain ⟨p, hp, hr⟩ := h.holder r t hd ht
  obtain ⟨q, hq, hr'⟩ := h.holder r' t hd' ht'
  rw [hp] at hq
  cases hq
  exact Resource.address_inj (h.inRange r t ht) (h.inRange r' t ht') (hr.symm.trans hr')

/-- No signal is in two slots of a family. -/
theorem Placed.nodup_slots (h : u.Placed) (family : Family)
    (hf : ∀ i, (Resource.slot family i).dataType? ≠ none) : (u.slots family).Nodup := by
  rw [List.nodup_iff_getElem?_ne_getElem?]
  intro i j hij hj heq
  have hj' : u.holder? (.slot family j) = some (u.slots family)[j] := List.getElem?_eq_getElem hj
  have hi' : u.holder? (.slot family i) = some (u.slots family)[j] := heq.trans hj'
  have hslot := h.resource_unique (hf i) (hf j) hi' hj'
  cases hslot
  omega

/-- Only equal constants share an address. -/
theorem Placed.sameConstant (h : u.Placed) {i j : SignalId} {p q : BoundSignal}
    (hp : u.signals.bound? i = some p) (hq : u.signals.bound? j = some q) (hne : i ≠ j)
    (ha : p.address = q.address) : p.SameConstant q := by
  obtain ⟨r, t, p', -, hr, ht, hp', hi⟩ := h.bound i p hp
  obtain ⟨r', t', q', -, hr', ht', hq', hj⟩ := h.bound j q hq
  -- both have the same holder, as an address belongs to one resource
  have hrr : r = r' :=
    Resource.address_inj (h.inRange r t ht) (h.inRange r' t' ht') (by rw [← hr, ha, hr'])
  subst hrr
  rw [ht] at ht'
  cases ht'
  rw [hp'] at hq'
  cases hq'
  rcases hi with rfl | hi <;> rcases hj with rfl | hj
  · exact absurd rfl hne
  · rw [hp] at hp'
    cases hp'
    exact hj.symm
  · rw [hq] at hp'
    cases hp'
    exact hi
  · exact hi.trans hj.symm

/-- Before the final pass no address is shared. -/
theorem InProgress.address_inj (h : u.InProgress) {i j : SignalId} {p q : BoundSignal}
    (hp : u.signals.bound? i = some p) (hq : u.signals.bound? j = some q)
    (ha : p.address = q.address) : i = j := by
  obtain ⟨r, hr, hpr, hi⟩ := h.own i p hp
  obtain ⟨r', hr', hqr, hj⟩ := h.own j q hq
  have : r = r' := Resource.address_inj hr hr' (by rw [← hpr, ha, hqr])
  rw [this, hj] at hi
  exact (Option.some.inj hi).symm

theorem InProgress.slots_eq_nil (h : u.InProgress) (family : Family)
    (hf : (Resource.slot family 0).isOpen = false) : u.slots family = [] := by
  have h0 := h.closed (.slot family 0) hf
  exact List.eq_nil_of_length_eq_zero (Nat.le_zero.mp (List.getElem?_eq_none_iff.mp h0))

end Consequences

/-! ### Steps -/

section Steps

variable {u u' : Alu} {id : SignalId} {s : Signal} {r : Resource}

theorem bound?_of_binding {a : Address} (hs : u.signals.get? id = some s)
    (hb : s.binding = some a) :
    u.signals.bound? id = some ⟨a, s.dataType, s.behavior, s.initial⟩ :=
  Registry.bound?_eq_some.mpr ⟨s, hs, hb, rfl, rfl, rfl⟩

theorem bound?_of_unbound (hs : u.signals.get? id = some s) (hb : s.binding = none) :
    u.signals.bound? id = none := by
  rw [Registry.bound?_of_get? hs]
  exact Signal.bound?_eq_none.mpr hb

/-- Giving a signal its first address leaves the other signals as they are. -/
theorem bound?_place_of_bound (hs : u.signals.get? id = some s) (hb : s.binding = none)
    (a : Address) {i : SignalId} {p : BoundSignal} (hp : u.signals.bound? i = some p) :
    (u.signals.place id a).bound? i = some p := by
  rw [Registry.bound?_place hs, if_neg, hp]
  rintro rfl
  rw [bound?_of_unbound hs hb] at hp
  cases hp

theorem Takes.holder?_self (ht : Takes u id r u') (hd : r.dataType? = some s.dataType) :
    u'.holder? r = some id := by
  rw [ht.holder r (by rw [hd]; exact Option.some_ne_none _), if_pos rfl]

/-- Whoever holds a resource keeps it. -/
theorem Takes.holder?_of_held (ht : Takes u id r u') (hfree : u.holder? r = none) {r' : Resource}
    {t : SignalId} (hd' : r'.dataType? ≠ none) (ht' : u.holder? r' = some t) :
    u'.holder? r' = some t := by
  rw [ht.holder r' hd', if_neg, ht']
  rintro rfl
  rw [hfree] at ht'
  cases ht'

theorem Takes.inRange (ht : Takes u id r u') (hr : r.inRange = true) (h : u.Placed) {r' : Resource}
    {t : SignalId} (ht' : u'.holder? r' = some t) : r'.inRange = true := by
  by_cases hd' : r'.dataType? = none
  · obtain ⟨i, rfl⟩ := Resource.eq_constant_slot hd'
    rcases ht.constants with hc | ⟨-, hroom, hc⟩
    · refine h.inRange (.slot .constant i) t ?_
      rw [← ht']
      show u.constants.entries[i]? = u'.constants.entries[i]?
      rw [hc]
    · have hi : i < u'.constants.entries.length := (List.getElem?_eq_some_iff.mp ht').1
      have hcap : u.constants.capacity = Family.constant.capacity := congrFun h.capacity .constant
      rw [hc] at hi
      simp only [Pool.append, List.length_append, List.length_singleton] at hi
      rw [Resource.inRange, decide_eq_true_iff]
      omega
  · rw [ht.holder r' hd'] at ht'
    split_ifs at ht' with hrr
    · rw [hrr]
      exact hr
    · exact h.inRange r' t ht'

theorem Takes.constants_subset (ht : Takes u id r u') (hd : r.dataType? = some s.dataType)
    (hfree : u.holder? r = none) (h : u.Placed) {t : SignalId}
    (hmem : t ∈ u'.constants.entries) : t ∈ u'.wordIns.entries := by
  have hold : ∀ t ∈ u.constants.entries, t ∈ u'.slots .wordIn := by
    intro t ht'
    have hin : t ∈ u.slots .wordIn := h.constants t ht'
    obtain ⟨i, hi⟩ := mem_slots_iff.mp hin
    exact mem_slots_iff.mpr ⟨i, ht.holder?_of_held hfree (Option.some_ne_none _) hi⟩
  rcases ht.constants with hc | ⟨⟨i, rfl⟩, -, hc⟩
  · rw [hc] at hmem
    exact hold t hmem
  · rw [hc] at hmem
    rcases List.mem_append.mp hmem with hmem | hmem
    · exact hold t hmem
    · rw [List.mem_singleton.mp hmem]
      exact mem_slots_iff.mpr ⟨i, ht.holder?_self hd⟩

/-- Taking a free resource preserves the invariant. -/
theorem Placed.take (h : u.Placed) (hs : u.signals.get? id = some s) (hb : s.binding = none)
    (hr : r.inRange = true) (hd : r.dataType? = some s.dataType) (hfree : u.holder? r = none)
    (hv : ∀ v, r.builtinValue? = some v → s.behavior = .constant ∧ s.initial = some v)
    (ht : Takes u id r u') : u'.Placed := by
  have hnew : ∀ {i p}, u.signals.bound? i = some p → u'.signals.bound? i = some p := by
    intro i p hp
    rw [ht.signals]
    exact bound?_place_of_bound hs hb r.address hp
  refine ⟨ht.capacityOf.trans h.capacity, fun r' t => ht.inRange hr h, ?_, ?_, ?_,
    fun t => ht.constants_subset hd hfree h, ?_, ?_⟩
  · intro r' t hd' ht'
    rw [ht.holder r' hd'] at ht'
    split_ifs at ht' with hrr
    · cases ht'
      rw [ht.signals, hrr]
      exact ⟨_, by rw [Registry.bound?_place hs, if_pos rfl], rfl⟩
    · obtain ⟨p, hp, ha⟩ := h.holder r' t hd' ht'
      exact ⟨p, hnew hp, ha⟩
  · intro i p hp
    have hp' := hp
    rw [ht.signals, Registry.bound?_place hs] at hp'
    split_ifs at hp' with hi
    · subst hi
      cases hp'
      exact ⟨r, i, _, hd, rfl, ht.holder?_self hd, hp, Or.inl rfl⟩
    · obtain ⟨r', t, q, hd', ha, ht', hq, hiq⟩ := h.bound i p hp'
      have hheld := ht.holder?_of_held hfree (by rw [hd']; exact Option.some_ne_none _) ht'
      exact ⟨r', t, q, hd', ha, hheld, hnew hq, hiq⟩
  · intro i p r' v hp hv' ha
    rw [ht.signals, Registry.bound?_place hs] at hp
    split_ifs at hp with hi
    · cases hp
      have : r = r' := Resource.address_inj hr (Resource.inRange_of_builtinValue? hv') ha
      subst this
      exact hv v hv'
    · exact h.builtin i p r' v hp hv' ha
  · rw [ht.instructions]
    exact h.instructions
  · rw [ht.instructions, ht.definition]
    exact h.program

/-- Sharing the address of an equal constant preserves the invariant. -/
theorem Placed.share (h : u.Placed) {i : SignalId} {q : BoundSignal}
    (hs : u.signals.get? id = some s) (hb : s.binding = none) (hq : u.signals.bound? i = some q)
    (hc : s.behavior = .constant) (hqc : q.behavior = .constant) (hd : q.dataType = s.dataType)
    (hi : q.initial = s.initial) : (u.takeShared id q.address).Placed := by
  have hbound : ∀ j, (u.takeShared id q.address).signals.bound? j =
      if j = id then some ⟨q.address, s.dataType, s.behavior, s.initial⟩
      else u.signals.bound? j := Registry.bound?_place hs q.address
  have hnew : ∀ {j p}, u.signals.bound? j = some p →
      (u.takeShared id q.address).signals.bound? j = some p :=
    fun hp => bound?_place_of_bound hs hb q.address hp
  refine ⟨h.capacity, h.inRange, ?_, ?_, ?_, h.constants, h.instructions, h.program⟩
  · intro r t hd' ht
    obtain ⟨p, hp, ha⟩ := h.holder r t hd' ht
    exact ⟨p, hnew hp, ha⟩
  · intro j p hp
    rw [hbound] at hp
    split_ifs at hp with hj
    · cases hp
      obtain ⟨r, t, q', hd', ha, ht, hq', hcase⟩ := h.bound i q hq
      refine ⟨r, t, q', by rw [hd', hd], ha, ht, hnew hq', Or.inr ?_⟩
      have hsame : BoundSignal.SameConstant ⟨q.address, s.dataType, s.behavior, s.initial⟩ q :=
        ⟨hc, hqc, hd.symm, hi.symm⟩
      rcases hcase with rfl | hcase
      · rw [hq] at hq'
        cases hq'
        exact hsame
      · exact hsame.trans hcase
    · obtain ⟨r, t, q', hd', ha, ht, hq', hcase⟩ := h.bound j p hp
      exact ⟨r, t, q', hd', ha, ht, hnew hq', hcase⟩
  · intro j p r v hp hv ha
    rw [hbound] at hp
    split_ifs at hp with hj
    · cases hp
      obtain ⟨-, hval⟩ := h.builtin i q r v hq hv ha
      exact ⟨hc, hi.symm.trans hval⟩
    · exact h.builtin j p r v hp hv ha

/-- **Every step of the placement preserves the invariant.** -/
theorem Step.placed (hstep : Step u u') (h : u.Placed) : u'.Placed := by
  cases hstep with
  | stay => exact h
  | take hs hb hr hd hfree hv ht => exact h.take hs hb hr hd hfree hv ht
  | share hs hb hq hc hqc hd hi => exact h.share hs hb hq hc hqc hd hi

/-- **Every step while the unit is being built preserves what holds before the final pass.** -/
theorem BuildStep.inProgress (hstep : BuildStep u u') (h : u.InProgress) : u'.InProgress := by
  cases hstep with
  | stay => exact h
  | @take id s r _ hs hb hr hd hfree ho hnc hc ht =>
    refine ⟨fun r' hr' => ?_, fun i p hp => ?_, fun i p hp => ?_, fun i hi c hcond => ?_⟩
    · by_cases hd' : r'.dataType? = none
      · obtain ⟨i, rfl⟩ := Resource.eq_constant_slot hd'
        show u'.constants.entries[i]? = none
        rw [hc]
        exact h.closed (.slot .constant i) rfl
      · rw [ht.holder r' hd', if_neg]
        · exact h.closed r' hr'
        · rintro rfl
          rw [ho] at hr'
          cases hr'
    · rw [ht.signals, Registry.bound?_place hs] at hp
      split_ifs at hp with hi
      · subst hi
        cases hp
        exact ⟨r, hr, rfl, ht.holder?_self hd⟩
      · obtain ⟨r', hr', ha, hown⟩ := h.own i p hp
        refine ⟨r', hr', ha, ht.holder?_of_held hfree (fun hd' => ?_) hown⟩
        obtain ⟨i, rfl⟩ := Resource.eq_constant_slot hd'
        rw [h.closed (.slot .constant i) rfl] at hown
        cases hown
    · rw [ht.signals, Registry.bound?_place hs] at hp
      split_ifs at hp with hi
      · cases hp
        exact hnc
      · exact h.noBitConstant i p hp
    · rw [ht.instructions] at hi
      rw [ht.signals, Registry.contains_place]
      exact h.declared i hi c hcond

theorem BuildStep.phase (hstep : BuildStep u u') : u'.phase = u.phase := by
  cases hstep with
  | stay => rfl
  | take _ _ _ _ _ _ _ _ ht => exact ht.phase

theorem BuildStep.sound (hstep : BuildStep u u') (h : u.Sound) : u'.Sound :=
  ⟨hstep.step.placed h.placed, fun hp => hstep.inProgress (h.inProgress (hstep.phase ▸ hp))⟩

end Steps

end Alu

end AluPlacement
