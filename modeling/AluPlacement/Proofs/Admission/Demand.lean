import AluPlacement.Proofs.Placement.Assignment
import Mathlib.Data.Finset.Card
import Mathlib.Data.Finset.Dedup
import Mathlib.Data.Finset.Insert
import Mathlib.Data.Finset.SDiff

/-! # What the signals still to be visited ask for

The final pass visits signals in declaration order and gives each the next free resource. Whether it
gets through depends only on how many resources of each kind the signals still to be visited ask
for:

* `registers r d l`: the registers of type `d` among `l` without a binding;
* `fresh r l`: the values of word constants among `l` without a binding that neither a bound
  constant nor a built-in constant has;
* `bits r l`: the bit registers among `l`, and the values of bit constants that no bound one has.

Giving a signal its address takes exactly that signal out of the demand (the lemmas `…_cons`). -/

namespace AluPlacement

/-- The values that the built-in constants drive. -/
def Resource.builtinValues : Finset (Option Word) :=
  {some 0x0000#16, some 0x0001#16, some 0xFFFF#16}

theorem Resource.mem_builtinValues {v : Option Word} :
    v ∈ builtinValues ↔ v.bind ofBuiltinValue? ≠ none := by
  cases v with
  | none => simp [builtinValues]
  | some w =>
    rw [Option.bind_some, Option.ne_none_iff_exists']
    simp only [ofBuiltinValue?_eq_some, builtinValues, Finset.mem_insert, Finset.mem_singleton,
      Option.some.injEq]
    constructor
    · rintro (rfl | rfl | rfl)
      exacts [⟨.builtin0, rfl⟩, ⟨.builtin1, rfl⟩, ⟨.builtinFFFF, rfl⟩]
    · rintro ⟨r, hr⟩
      cases r <;> cases hr <;> simp

namespace Registry

/-- The signal has this behavior and type, and no binding. -/
def isPending (r : Registry) (behavior : Behavior) (dataType : DataType) (id : SignalId) : Bool :=
  (r.get? id).any fun s => s.isOf behavior dataType && !s.isBound

/-- The value of a signal, if it has one. -/
def initialOf (r : Registry) (id : SignalId) : Option Word := (r.get? id).bind Signal.initial

/-- The number of registers among the signals that have no binding. -/
def registers (r : Registry) (dataType : DataType) (l : List SignalId) : Nat :=
  l.countP (r.isPending .register dataType)

/-- The values of bound constants. -/
def boundValues (r : Registry) (dataType : DataType) : Finset (Option Word) :=
  ((r.signals.filter fun s => s.isOf .constant dataType && s.isBound).map Signal.initial).toFinset

/-- The values of constants among the signals that have no binding. -/
def pendingValues (r : Registry) (dataType : DataType) (l : List SignalId) : Finset (Option Word) :=
  ((l.filter (r.isPending .constant dataType)).map r.initialOf).toFinset

/-- The values of constants among the signals that no bound constant has. -/
def newValues (r : Registry) (dataType : DataType) (l : List SignalId) : Finset (Option Word) :=
  r.pendingValues dataType l \ r.boundValues dataType

variable {r : Registry} {id : SignalId} {s : Signal} {d : DataType} {l : List SignalId}

theorem isPending_eq (hs : r.get? id = some s) (b : Behavior) :
    r.isPending b d id = (s.isOf b d && !s.isBound) := by
  simp [isPending, hs]

theorem mem_boundValues {v : Option Word} : v ∈ r.boundValues d ↔ r.HasConstant d v := by
  unfold boundValues HasConstant
  simp only [List.mem_toFinset, List.mem_map, List.mem_filter, Bool.and_eq_true, Signal.isOf,
    beq_iff_eq, mem_signals_iff]
  constructor
  · rintro ⟨s, ⟨⟨i, hs⟩, ⟨hc, hd⟩, hb⟩, rfl⟩
    obtain ⟨a, ha⟩ := Option.isSome_iff_exists.mp hb
    exact ⟨i, ⟨a, s.dataType, s.behavior, s.initial⟩,
      bound?_eq_some.mpr ⟨s, hs, ha, rfl, rfl, rfl⟩, hc, hd, rfl⟩
  · rintro ⟨i, p, hp, hc, hd, rfl⟩
    obtain ⟨s, hs, hb, h1, h2, h3⟩ := bound?_eq_some.mp hp
    exact ⟨s, ⟨⟨i, hs⟩, ⟨h2.trans hc, h1.trans hd⟩, by simp [Signal.isBound, hb]⟩, h3⟩

theorem isPending_place_of_ne {i : SignalId} (h : i ≠ id) (b : Behavior) (a : Address) :
    (r.place id a).isPending b d i = r.isPending b d i := by
  unfold isPending
  rw [get?_place, if_neg (Ne.symm h)]

theorem initialOf_place (i : SignalId) (a : Address) :
    (r.place id a).initialOf i = r.initialOf i := by
  unfold initialOf
  rw [get?_place]
  split_ifs
  · cases r.get? i <;> rfl
  · rfl

/-- A signal that is not in the list leaves the registers in the list as they are. -/
theorem registers_place (hl : id ∉ l) (a : Address) :
    (r.place id a).registers d l = r.registers d l := by
  refine List.countP_congr fun i hi => ?_
  rw [isPending_place_of_ne (ne_of_mem_of_not_mem hi hl)]

theorem pendingValues_place (hl : id ∉ l) (a : Address) :
    (r.place id a).pendingValues d l = r.pendingValues d l := by
  unfold pendingValues
  have hfilter : l.filter ((r.place id a).isPending .constant d) =
      l.filter (r.isPending .constant d) :=
    List.filter_congr fun i hi => isPending_place_of_ne (ne_of_mem_of_not_mem hi hl) _ _
  rw [hfilter]
  exact congrArg List.toFinset (List.map_congr_left fun i _ => initialOf_place i a)

theorem mem_boundValues_place (hs : r.get? id = some s) (hb : s.binding = none) (a : Address)
    {v : Option Word} : v ∈ (r.place id a).boundValues d ↔
      v ∈ r.boundValues d ∨ (s.isOf .constant d = true ∧ v = s.initial) := by
  rw [mem_boundValues, mem_boundValues]
  unfold HasConstant
  simp only [bound?_place hs, Signal.isOf, Bool.and_eq_true, beq_iff_eq]
  constructor
  · rintro ⟨i, p, hp, hc, hd, hi⟩
    split_ifs at hp with h
    · cases hp
      exact Or.inr ⟨⟨hc, hd⟩, hi.symm⟩
    · exact Or.inl ⟨i, p, hp, hc, hd, hi⟩
  · rintro (⟨i, p, hp, hc, hd, hi⟩ | ⟨⟨hc, hd⟩, rfl⟩)
    · refine ⟨i, p, ?_, hc, hd, hi⟩
      rw [if_neg, hp]
      rintro rfl
      rw [bound?_of_get? hs, Signal.bound?_eq_none.mpr hb] at hp
      cases hp
    · exact ⟨id, _, if_pos rfl, hc, hd, rfl⟩

/-! ### Taking a signal out of the demand -/

theorem registers_cons (hs : r.get? id = some s) (hb : s.binding = none) (hl : id ∉ l)
    (a : Address) : r.registers d (id :: l) =
      (r.place id a).registers d l + if s.isOf .register d then 1 else 0 := by
  rw [registers_place hl]
  unfold registers
  rw [List.countP_cons, isPending_eq hs]
  simp [Signal.isBound, hb]

theorem pendingValues_cons (hs : r.get? id = some s) (hb : s.binding = none) :
    r.pendingValues d (id :: l) =
      if s.isOf .constant d then Insert.insert s.initial (r.pendingValues d l)
      else r.pendingValues d l := by
  unfold pendingValues
  rw [List.filter_cons, isPending_eq hs]
  simp only [Signal.isBound, hb, Option.isSome_none, Bool.not_false, Bool.and_true]
  split_ifs
  · rw [List.map_cons, List.toFinset_cons]
    simp [initialOf, hs]
  · rfl

/-- A constant whose value is new takes its value out of the new values. -/
theorem newValues_cons_of_new (hs : r.get? id = some s) (hb : s.binding = none) (hl : id ∉ l)
    (hc : s.isOf .constant d = true) (hn : ¬r.HasConstant d s.initial) (a : Address) :
    s.initial ∉ (r.place id a).newValues d l ∧
      r.newValues d (id :: l) = Insert.insert s.initial ((r.place id a).newValues d l) := by
  rw [← mem_boundValues] at hn
  constructor
  · simp only [newValues, Finset.mem_sdiff, not_and, Classical.not_not]
    exact fun _ => (mem_boundValues_place hs hb a).mpr (Or.inr ⟨hc, rfl⟩)
  · ext v
    simp only [newValues, Finset.mem_sdiff, Finset.mem_insert, pendingValues_cons hs hb,
      pendingValues_place hl, mem_boundValues_place hs hb, hc, true_and]
    by_cases hv : v = s.initial
    · subst hv
      simp [hn]
    · simp [hv]

/-- Any other signal leaves the new values as they are. -/
theorem newValues_cons_of_old (hs : r.get? id = some s) (hb : s.binding = none) (hl : id ∉ l)
    (h : s.isOf .constant d = true → r.HasConstant d s.initial) (a : Address) :
    r.newValues d (id :: l) = (r.place id a).newValues d l := by
  ext v
  simp only [newValues, Finset.mem_sdiff, pendingValues_cons hs hb, pendingValues_place hl,
    mem_boundValues_place hs hb]
  by_cases hc : s.isOf .constant d = true
  · have hbound := mem_boundValues.mpr (h hc)
    by_cases hv : v = s.initial
    · subst hv
      simp [hbound]
    · simp [hc, hv]
  · simp [hc]

/-! ### Words and bits -/

/-- The number of new values of word constants that no built-in constant has. -/
def fresh (r : Registry) (l : List SignalId) : Nat :=
  (r.newValues .word l \ Resource.builtinValues).card

/-- The number of condition-logic registers that the signals ask for. -/
def bits (r : Registry) (l : List SignalId) : Nat :=
  r.registers .bit l + (r.newValues .bit l).card

/-- The number of registers without a binding that need a nearest neighbor. -/
def neighborRegisters (r : Registry) (l : List SignalId) : Nat :=
  l.countP fun id => r.isPending .register .word id && Alu.needsNeighbor r id

theorem fresh_cons_of_new (hs : r.get? id = some s) (hb : s.binding = none) (hl : id ∉ l)
    (hc : s.isOf .constant .word = true) (hn : ¬r.HasConstant .word s.initial)
    (hv : s.initial ∉ Resource.builtinValues) (a : Address) :
    r.fresh (id :: l) = (r.place id a).fresh l + 1 := by
  obtain ⟨hnot, heq⟩ := newValues_cons_of_new hs hb hl hc hn a
  unfold fresh
  rw [heq, Finset.insert_sdiff_of_notMem _ hv, Finset.card_insert_of_notMem]
  exact fun h => hnot (Finset.mem_sdiff.mp h).1

theorem fresh_cons_of_old (hs : r.get? id = some s) (hb : s.binding = none) (hl : id ∉ l)
    (h : s.isOf .constant .word = true →
      r.HasConstant .word s.initial ∨ s.initial ∈ Resource.builtinValues) (a : Address) :
    r.fresh (id :: l) = (r.place id a).fresh l := by
  unfold fresh
  by_cases hnew : s.isOf .constant .word = true ∧ ¬r.HasConstant .word s.initial
  · obtain ⟨-, heq⟩ := newValues_cons_of_new hs hb hl hnew.1 hnew.2 a
    have hv : s.initial ∈ Resource.builtinValues := (h hnew.1).resolve_left hnew.2
    rw [heq, Finset.insert_sdiff_of_mem _ hv]
  · rw [newValues_cons_of_old hs hb hl (fun hc => Classical.not_not.mp fun hn => hnew ⟨hc, hn⟩) a]

/-- A bit register, or a bit constant with a new value, asks for one register. -/
theorem bits_cons_of_hold (hs : r.get? id = some s) (hb : s.binding = none) (hl : id ∉ l)
    (hd : s.dataType = .bit) (h : s.behavior = .register ∨
      (s.behavior = .constant ∧ ¬r.HasConstant .bit s.initial)) (a : Address) :
    r.bits (id :: l) = (r.place id a).bits l + 1 := by
  unfold bits
  rw [registers_cons hs hb hl a]
  rcases h with hr | ⟨hc, hn⟩
  · have hnc : s.isOf .constant .bit = false := by simp [Signal.isOf, hr]
    rw [newValues_cons_of_old hs hb hl (fun hc => by rw [hnc] at hc; cases hc) a]
    have hreg : s.isOf .register .bit = true := by simp [Signal.isOf, hr, hd]
    rw [hreg, if_pos rfl]
    omega
  · obtain ⟨hnot, heq⟩ := newValues_cons_of_new hs hb hl (by simp [Signal.isOf, hc, hd]) hn a
    rw [heq, Finset.card_insert_of_notMem hnot]
    have hnr : s.isOf .register .bit = false := by simp [Signal.isOf, hc]
    rw [hnr]
    simp only [Bool.false_eq_true, if_false]
    omega

theorem bits_cons_of_other (hs : r.get? id = some s) (hb : s.binding = none) (hl : id ∉ l)
    (hr : s.isOf .register .bit = false)
    (hc : s.isOf .constant .bit = true → r.HasConstant .bit s.initial) (a : Address) :
    r.bits (id :: l) = (r.place id a).bits l := by
  unfold bits
  rw [registers_cons hs hb hl a, newValues_cons_of_old hs hb hl hc a, hr]
  rfl

/-! ### Nearest neighbors -/

theorem hasRegisterSlice_iff : r.hasRegisterSlice id = true ↔
    ∃ i t k, r.get? i = some t ∧ t.behavior = .bitSlice ∧ t.origin = .slice id k ∧ k ≤ 3 := by
  unfold hasRegisterSlice
  simp only [List.any_eq_true, mem_signals_iff, Bool.and_eq_true, beq_iff_eq]
  constructor
  · rintro ⟨t, ⟨i, hi⟩, hb, ho⟩
    cases hor : t.origin with
    | slice base k =>
      rw [hor] at ho
      simp only [Bool.and_eq_true, beq_iff_eq, decide_eq_true_eq] at ho
      exact ⟨i, t, k, hi, hb, by rw [hor, ho.1], ho.2⟩
    | _ =>
      rw [hor] at ho
      cases ho
  · rintro ⟨i, t, k, hi, hb, ho, hk⟩
    refine ⟨t, ⟨i, hi⟩, hb, ?_⟩
    rw [ho, Bool.and_eq_true]
    exact ⟨beq_self_eq_true id, decide_eq_true hk⟩

theorem hasRegisterSlice_place (a : Address) (i : SignalId) :
    (r.place id a).hasRegisterSlice i = r.hasRegisterSlice i := by
  rw [Bool.eq_iff_iff, hasRegisterSlice_iff, hasRegisterSlice_iff]
  constructor
  · rintro ⟨j, t, k, hj, hb, ho, hk⟩
    rw [get?_place] at hj
    split_ifs at hj
    · obtain ⟨t', ht', rfl⟩ := Option.map_eq_some_iff.mp hj
      exact ⟨j, t', k, ht', hb, ho, hk⟩
    · exact ⟨j, t, k, hj, hb, ho, hk⟩
  · rintro ⟨j, t, k, hj, hb, ho, hk⟩
    simp only [get?_place]
    by_cases h : id = j
    · exact ⟨j, { t with binding := some a }, k, by rw [if_pos h, hj]; rfl, hb, ho, hk⟩
    · exact ⟨j, t, k, by rw [if_neg h, hj], hb, ho, hk⟩

theorem needsNeighbor_place (a : Address) (i : SignalId) :
    Alu.needsNeighbor (r.place id a) i = Alu.needsNeighbor r i := by
  unfold Alu.needsNeighbor
  rw [get?_place, hasRegisterSlice_place]
  split_ifs
  · cases r.get? i <;> rfl
  · rfl

theorem neighborRegisters_cons (hs : r.get? id = some s) (hb : s.binding = none) (hl : id ∉ l)
    (a : Address) : r.neighborRegisters (id :: l) = (r.place id a).neighborRegisters l +
      if s.isOf .register .word && Alu.needsNeighbor r id then 1 else 0 := by
  unfold neighborRegisters
  rw [List.countP_cons, isPending_eq hs]
  have hcongr : l.countP (fun i => (r.place id a).isPending .register .word i &&
      Alu.needsNeighbor (r.place id a) i) =
      l.countP fun i => r.isPending .register .word i && Alu.needsNeighbor r i := by
    refine List.countP_congr fun i hi => ?_
    rw [isPending_place_of_ne (ne_of_mem_of_not_mem hi hl), needsNeighbor_place]
  rw [hcongr]
  simp [Signal.isBound, hb]

/-! ### Signals that ask for nothing -/

/-- A signal that has a binding, or a behavior that needs none, asks for nothing. -/
theorem isPending_of_skip (hs : r.get? id = some s)
    (h : s.binding ≠ none ∨ s.behavior.isStateful = false) {b : Behavior}
    (hb : b.isStateful = true) : r.isPending b d id = false := by
  rw [isPending_eq hs]
  rcases h with h | h
  · simp [Signal.isBound, Option.isSome_iff_ne_none, h]
  · have hne : s.behavior ≠ b := by
      rintro rfl
      rw [hb] at h
      cases h
    simp [Signal.isOf, hne]

theorem demand_cons_of_skip (hs : r.get? id = some s)
    (h : s.binding ≠ none ∨ s.behavior.isStateful = false) (l : List SignalId) :
    r.registers .word (id :: l) = r.registers .word l ∧ r.fresh (id :: l) = r.fresh l ∧
      r.bits (id :: l) = r.bits l ∧ r.neighborRegisters (id :: l) = r.neighborRegisters l := by
  have hreg : ∀ d, r.registers d (id :: l) = r.registers d l := fun d => by
    unfold registers
    rw [List.countP_cons_of_neg]
    simp [isPending_of_skip hs h (b := .register) rfl]
  have hnew : ∀ d, r.newValues d (id :: l) = r.newValues d l := fun d => by
    unfold newValues pendingValues
    rw [List.filter_cons_of_neg]
    simp [isPending_of_skip hs h (b := .constant) rfl]
  refine ⟨hreg .word, by unfold fresh; rw [hnew], by unfold bits; rw [hreg, hnew], ?_⟩
  unfold neighborRegisters
  rw [List.countP_cons_of_neg]
  simp [isPending_of_skip hs h (b := .register) rfl]

end Registry

end AluPlacement
