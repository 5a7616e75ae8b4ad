import AluPlacement.Proofs.List
import AluPlacement.Proofs.Placement.Closed

/-! # Constants that share a place

The final pass places each constant where an equal one stands, if there is one. A value for which no
place is left stays without one: pools never shrink, and the constant slots are only filled together
with word inputs, so what is blocked stays blocked (`Outcome.blocked`). So at the end of the pass
the constants that it visited are bound where the first bound constant of their type and value is,
or are all unbound (`Settled.binding_eq`). It follows that a word value takes at most one slot. -/

namespace AluPlacement

/-! ### The place of a value -/

namespace Signal

/-- The signal is a constant of this type and this value. -/
def IsConstant (s : Signal) (d : DataType) (v : Option Word) : Prop :=
  s.behavior = .constant ∧ s.dataType = d ∧ s.initial = v

instance (s : Signal) (d : DataType) (v : Option Word) : Decidable (s.IsConstant d v) :=
  inferInstanceAs (Decidable (_ ∧ _ ∧ _))

variable {s : Signal} {d : DataType} {v : Option Word}

theorem not_isConstant_of_register (h : s.behavior = .register) : ¬s.IsConstant d v := by
  rintro ⟨hc, -, -⟩
  rw [h] at hc
  cases hc

theorem not_isConstant_of_dataType (h : s.dataType ≠ d) : ¬s.IsConstant d v := fun hc => h hc.2.1

end Signal

namespace Registry

variable {r : Registry} {id : SignalId} {s : Signal} {d : DataType} {v : Option Word}

/-- What `constantAddress?` looks for. -/
theorem constantAddress?_eq (r : Registry) (d : DataType) (v : Option Word) :
    r.constantAddress? d v =
      r.signals.findSome? fun s => if s.IsConstant d v then s.binding else none := by
  unfold constantAddress?
  congr 1
  funext s
  refine if_congr ?_ rfl rfl
  simp only [Signal.isOf, Signal.IsConstant, Bool.and_eq_true, beq_iff_eq, and_assoc]

/-- Another signal gets its address. -/
theorem constantAddress?_place_of_not (hs : r.get? id = some s) (hne : ¬s.IsConstant d v)
    (a : Address) : (r.place id a).constantAddress? d v = r.constantAddress? d v := by
  rw [constantAddress?_eq, constantAddress?_eq]
  refine findSome?_modify_of_eq fun t ht => ?_
  have heq : t = s := Option.some.inj (ht.symm.trans hs)
  rw [heq, if_neg hne]
  exact if_neg hne

/-- A constant gets the address that its value has, or the first for its value. -/
theorem constantAddress?_place (hs : r.get? id = some s) (hc : s.IsConstant d v) {a : Address}
    (ha : ∀ b, r.constantAddress? d v = some b → b = a) :
    (r.place id a).constantAddress? d v = some a := by
  rw [constantAddress?_eq] at ha ⊢
  exact findSome?_modify_of_some hs (if_pos hc) ha

end Registry

namespace Alu

variable {u u' t : Alu} {id : SignalId} {s : Signal} {d : DataType} {v : Option Word}

theorem IsNewConstant.constantAddress? (h : u.IsNewConstant s) :
    u.signals.constantAddress? s.dataType s.initial = none :=
  Registry.constantAddress?_eq_none.mpr h.notBound

/-- A visit binds nothing, or gives a constant the address that its value has. -/
theorem Outcome.place {a : Unit} (h : Outcome u id s (.ok a u')) :
    (u'.signals = u.signals ∧ (s.binding ≠ none ∨ s.behavior.isStateful = false)) ∨
      ∃ a, u'.signals = u.signals.place id a ∧
        ∀ d v b, s.IsConstant d v → u.signals.constantAddress? d v = some b → b = a := by
  -- a signal that takes a place of its own has no equal constant
  have hnew : u.IsNewConstant s → ∀ a : Address, ∀ d v b, s.IsConstant d v →
      u.signals.constantAddress? d v = some b → b = a := by
    rintro hn a d v b ⟨-, rfl, rfl⟩ hb
    rw [hn.constantAddress?] at hb
    cases hb
  have hreg : s.behavior = .register → ∀ a : Address, ∀ d v b, s.IsConstant d v →
      u.signals.constantAddress? d v = some b → b = a := by
    intro hr a d v b hc
    exact absurd hc (Signal.not_isConstant_of_register hr)
  cases h with
  | skip hskip => exact Or.inl ⟨rfl, hskip⟩
  | wordReg hb hr => exact Or.inr ⟨_, rfl, hreg hr _⟩
  | hold hd hn =>
    rcases hn with ⟨hb, hr⟩ | hn
    · exact Or.inr ⟨_, rfl, hreg hr _⟩
    · exact Or.inr ⟨_, rfl, hnew hn _⟩
  | @shared a hb hc ha =>
    refine Or.inr ⟨a, rfl, ?_⟩
    rintro d v b ⟨-, rfl, rfl⟩ hb
    exact Option.some.inj (hb.symm.trans ha)
  | @builtin r hd hn hr =>
    exact Or.inr ⟨r.address, signals_takeBuiltin u id r, hnew hn _⟩
  | constant hd hn => exact Or.inr ⟨_, rfl, hnew hn _⟩
  | spill hd hn => exact Or.inr ⟨_, rfl, hnew hn _⟩

/-- The place of a value stays where it is. -/
theorem Outcome.constantAddress? {x : Unit} {a : Address} (hs : u.signals.get? id = some s)
    (h : Outcome u id s (.ok x u')) (ha : u.signals.constantAddress? d v = some a) :
    u'.signals.constantAddress? d v = some a := by
  rcases h.place with ⟨heq, -⟩ | ⟨a', heq, hplace⟩
  · rw [heq, ha]
  · rw [heq]
    by_cases hc : s.IsConstant d v
    · rw [hplace d v a hc ha]
      refine Registry.constantAddress?_place hs hc fun b hb => ?_
      exact hplace d v b hc hb
    · rw [Registry.constantAddress?_place_of_not hs hc, ha]

/-! ### Values without a place -/

/-- A built-in constant takes no slot. -/
theorem pools_takeBuiltin (u : Alu) (id : SignalId) (r : Resource) :
    (u.takeBuiltin id r).logic = u.logic ∧ (u.takeBuiltin id r).constants = u.constants ∧
      (u.takeBuiltin id r).wordIns = u.wordIns ∧ (u.takeBuiltin id r).wordRegs = u.wordRegs := by
  cases r <;> exact ⟨rfl, rfl, rfl, rfl⟩

/-- No constant of this type and this value is placed, and none can be placed any more. -/
structure Blocked (u : Alu) (d : DataType) (v : Option Word) : Prop where
  unplaced : u.signals.constantAddress? d v = none
  bit : d = .bit → u.logic.capacity ≤ u.logic.entries.length
  word : d = .word → v.bind Resource.ofBuiltinValue? = none ∧
    (u.constants.entries.length < u.constants.capacity ∧
        u.wordIns.capacity ≤ u.wordIns.entries.length ∨
      u.constants.capacity ≤ u.constants.entries.length ∧
        u.wordRegs.capacity ≤ u.wordRegs.entries.length)

/-- **What is blocked stays blocked.** -/
theorem Outcome.blocked {x : Unit} (hs : u.signals.get? id = some s)
    (h : Outcome u id s (.ok x u')) (hb : u.Blocked d v) : u'.Blocked d v := by
  have hother : ¬s.IsConstant d v → ∀ a, (u.signals.place id a).constantAddress? d v = none :=
    fun hne a => (Registry.constantAddress?_place_of_not hs hne a).trans hb.unplaced
  cases h with
  | skip => exact hb
  | wordReg _ hr _ hroom =>
    refine ⟨hother (fun hc => ?_) _, hb.bit, fun hd => ⟨(hb.word hd).1, ?_⟩⟩
    · exact Signal.not_isConstant_of_register hr hc
    · rcases (hb.word hd).2 with hin | hreg
      · exact Or.inl hin
      · omega
  | hold hd hn hroom =>
    cases d with
    | bit =>
      have hfull := hb.bit rfl
      omega
    | word =>
      refine ⟨hother (fun hc => ?_) _, nofun, hb.word⟩
      exact Signal.not_isConstant_of_dataType (by rw [hd]; exact nofun) hc
  | shared _ hc ha =>
    refine ⟨hother (fun hin => ?_) _, hb.bit, hb.word⟩
    obtain ⟨-, rfl, rfl⟩ := hin
    rw [hb.unplaced] at ha
    cases ha
  | @builtin r hd hn hr =>
    have hne : ¬s.IsConstant d v := by
      rintro ⟨-, rfl, rfl⟩
      rw [(hb.word hd).1] at hr
      cases hr
    obtain ⟨hlogic, hconstants, hins, hregs⟩ := pools_takeBuiltin u id r
    refine ⟨?_, ?_, ?_⟩
    · rw [signals_takeBuiltin]
      exact hother hne _
    · rw [hlogic]
      exact hb.bit
    · rw [hconstants, hins, hregs]
      exact hb.word
  | constant hd hn hr hconst hroom =>
    cases d with
    | bit =>
      refine ⟨hother (fun hc => ?_) _, hb.bit, nofun⟩
      exact Signal.not_isConstant_of_dataType (by rw [hd]; exact nofun) hc
    | word => rcases (hb.word rfl).2 with hin | hreg <;> omega
  | spill hd hn hr hconst hroom =>
    cases d with
    | bit =>
      refine ⟨hother (fun hc => ?_) _, hb.bit, nofun⟩
      exact Signal.not_isConstant_of_dataType (by rw [hd]; exact nofun) hc
    | word => rcases (hb.word rfl).2 with hin | hreg <;> omega

/-! ### Constants after their visit -/

/-- The constant is bound where the first one of its value is, or none of its value is placed any
more. -/
def Settled (u : Alu) (id : SignalId) : Prop :=
  ∃ s, u.signals.get? id = some s ∧ s.behavior = .constant ∧
    ((∃ a, s.binding = some a ∧ u.signals.constantAddress? s.dataType s.initial = some a) ∨
      u.Blocked s.dataType s.initial)

theorem Settled.binding_eq (h : u.Settled id) (hs : u.signals.get? id = some s) :
    s.binding = u.signals.constantAddress? s.dataType s.initial := by
  obtain ⟨s', hs', hc, hplace⟩ := h
  rw [hs] at hs'
  cases hs'
  rcases hplace with ⟨a, hb, ha⟩ | hblocked
  · rw [hb, ha]
  · rw [hblocked.unplaced]
    cases hb : s.binding with
    | none => rfl
    | some a =>
      refine absurd ?_ (Registry.constantAddress?_eq_none.mp hblocked.unplaced)
      exact ⟨id, _, bound?_of_binding hs hb, hc, rfl, rfl⟩

theorem Outcome.settled {x : Unit} {i : SignalId} (hs : u.signals.get? id = some s)
    (h : Outcome u id s (.ok x u')) (hi : u.Settled i) : u'.Settled i := by
  obtain ⟨t, ht, hc, hplace⟩ := hi
  obtain ⟨b, ht', hkept⟩ := (h.advances hs).get i t ht
  refine ⟨_, ht', hc, ?_⟩
  rcases hplace with ⟨a, hb, ha⟩ | hblocked
  · have hbound : t.binding ≠ none := by
      rw [hb]
      exact Option.some_ne_none a
    exact Or.inl ⟨a, (hkept hbound).trans hb, h.constantAddress? hs ha⟩
  · exact Or.inr (h.blocked hs hblocked)

/-- A constant that is refused is blocked. -/
theorem Outcome.blocked_of_refused {e : Fault Diagnostic} (hc : s.behavior = .constant)
    (h : Outcome u id s (.error e u')) : u.Blocked s.dataType s.initial := by
  cases h with
  | wordRegFull hb hr =>
    rw [hc] at hr
    cases hr
  | holdFull hd hn hfull =>
    rcases hn with ⟨-, hr⟩ | hn
    · rw [hc] at hr
      cases hr
    · refine ⟨hn.constantAddress?, fun _ => hfull, fun hw => ?_⟩
      rw [hd] at hw
      cases hw
  | inputFull hd hn hr hconst hfull =>
    refine ⟨hn.constantAddress?, fun hb => ?_, fun _ => ⟨hr, Or.inl ⟨hconst, hfull⟩⟩⟩
    rw [hd] at hb
    cases hb
  | spillFull hd hn hr hconst hfull =>
    refine ⟨hn.constantAddress?, fun hb => ?_, fun _ => ⟨hr, Or.inr ⟨hconst, hfull⟩⟩⟩
    rw [hd] at hb
    cases hb

/-- A constant is settled by its visit. -/
theorem settled_of_visit (hs : u.signals.get? id = some s) (hc : s.behavior = .constant)
    (hb : s.binding = none) : ((bindRemaining id).after u).Settled id := by
  have ho := bindRemaining_outcome hs
  cases hr : bindRemaining id u with
  | ok a t =>
    rw [hr] at ho
    rw [Edit.after_of_ok hr]
    rcases ho.place with ⟨-, hskip⟩ | ⟨a, heq, hplace⟩
    · rcases hskip with hbound | hstate
      · exact absurd hb hbound
      · rw [hc] at hstate
        cases hstate
    · have hin : s.IsConstant s.dataType s.initial := ⟨hc, rfl, rfl⟩
      refine ⟨{ s with binding := some a }, ?_, hc, Or.inl ⟨a, rfl, ?_⟩⟩
      · rw [heq, Registry.get?_place, if_pos rfl, hs]
        rfl
      · rw [heq]
        exact Registry.constantAddress?_place hs hin fun b => hplace _ _ b hin
  | error e t =>
    rw [hr] at ho
    rw [Edit.after_of_error hr, ho.refused.1]
    exact ⟨s, hs, hc, Or.inr (ho.blocked_of_refused hc)⟩

/-- **All constants that the visits find without a binding are settled by them.** -/
theorem settled_of_collect {ε : Type} {l : List SignalId} {ds : List Diagnostic}
    (h : (Edit.collect bindRemaining l : Edit Alu ε _) u = .ok ds t) (hid : id ∈ l)
    (hs : u.signals.get? id = some s) (hc : s.behavior = .constant) (hb : s.binding = none) :
    t.Settled id := by
  induction l generalizing u ds with
  | nil => cases hid
  | cons i l ih =>
    obtain ⟨ds', hrest⟩ := Edit.exists_collect_of_cons h
    by_cases heq : i = id
    · -- settled by its own visit, and by no later one unsettled
      subst heq
      refine visits_induction (P := fun v => v.Settled i) hrest (settled_of_visit hs hc hb) ?_
      exact fun v v' j t ht ho hv => ho.settled ht hv
    · have hmem : id ∈ l := (List.mem_cons.mp hid).resolve_left (Ne.symm heq)
      refine ih hrest hmem ?_
      refine after_bindRemaining (P := fun v => v.signals.get? id = some s) hs fun t v ht ho => ?_
      rcases ho.place with ⟨hsame, -⟩ | ⟨a, hsame, -⟩
      · rw [hsame, hs]
      · rw [hsame, Registry.get?_place, if_neg heq, hs]

/-! ### The slots that constants take -/

/-- The pass puts the same signals into word inputs and into the slots of the constants. -/
theorem inputs_of_collect {ε : Type} {l : List SignalId} {ds : List Diagnostic}
    (h : (Edit.collect bindRemaining l : Edit Alu ε _) u = .ok ds t) :
    ∃ new, t.wordIns.entries = u.wordIns.entries ++ new ∧
      t.constants.entries = u.constants.entries ++ new := by
  refine visits_induction (P := fun v => ∃ new, v.wordIns.entries = u.wordIns.entries ++ new ∧
    v.constants.entries = u.constants.entries ++ new) h ⟨[], by simp, by simp⟩ ?_
  rintro v v' id s hs ho ⟨new, hins, hconsts⟩
  cases ho with
  | constant =>
    refine ⟨new ++ [id], ?_, ?_⟩
    · rw [← List.append_assoc, ← hins]
      rfl
    · rw [← List.append_assoc, ← hconsts]
      rfl
  | @builtin r =>
    obtain ⟨-, hc, hi, -⟩ := pools_takeBuiltin v id r
    exact ⟨new, by rw [hi, hins], by rw [hc, hconsts]⟩
  | _ => exact ⟨new, hins, hconsts⟩

/-- No constant with a built-in value is in a slot that the pass fills. -/
def NoBuiltinSlot (u : Alu) : Prop :=
  ∀ id s, id ∈ u.constants.entries ∨ id ∈ u.wordRegs.entries → u.signals.get? id = some s →
    s.behavior = .constant → s.initial.bind Resource.ofBuiltinValue? = none

theorem Outcome.noBuiltinSlot {x : Unit} (hs : u.signals.get? id = some s)
    (h : Outcome u id s (.ok x u')) (hu : u.NoBuiltinSlot) : u'.NoBuiltinSlot := by
  intro i t' hi ht' hc
  obtain ⟨t, ht, heq, -⟩ := (h.advances hs).of_get? ht'
  rw [heq] at hc ⊢
  -- the signal that was visited last, or one that was there
  have hcase : (i ∈ u.constants.entries ∨ i ∈ u.wordRegs.entries) ∨
      i = id ∧ (s.behavior = .register ∨ s.initial.bind Resource.ofBuiltinValue? = none) := by
    cases h with
    | wordReg _ hr =>
      rcases hi with hi | hi
      · exact Or.inl (Or.inl hi)
      · rcases List.mem_append.mp hi with hi | hi
        · exact Or.inl (Or.inr hi)
        · exact Or.inr ⟨List.mem_singleton.mp hi, Or.inl hr⟩
    | constant _ _ hr =>
      rcases hi with hi | hi
      · rcases List.mem_append.mp hi with hi | hi
        · exact Or.inl (Or.inl hi)
        · exact Or.inr ⟨List.mem_singleton.mp hi, Or.inr hr⟩
      · exact Or.inl (Or.inr hi)
    | spill _ _ hr =>
      rcases hi with hi | hi
      · exact Or.inl (Or.inl hi)
      · rcases List.mem_append.mp hi with hi | hi
        · exact Or.inl (Or.inr hi)
        · exact Or.inr ⟨List.mem_singleton.mp hi, Or.inr hr⟩
    | @builtin r =>
      obtain ⟨-, hconsts, -, hregs⟩ := pools_takeBuiltin u id r
      rw [hconsts, hregs] at hi
      exact Or.inl hi
    | _ => exact Or.inl hi
  rcases hcase with hold | ⟨rfl, hr | hr⟩
  · exact hu i t hold ht hc
  · rw [hs] at ht
    cases ht
    rw [hr] at hc
    cases hc
  · rw [hs] at ht
    cases ht
    exact hr

/-- The place of a built-in value is the built-in constant, unless it was another one before. -/
theorem Outcome.builtin_address {x : Unit} {r : Resource} {w : Word}
    (hs : u.signals.get? id = some s) (hw : r.builtinValue? = some w)
    (h : Outcome u id s (.ok x u'))
    (hu : ∀ a, u.signals.constantAddress? .word (some w) = some a → a = r.address) :
    ∀ a, u'.signals.constantAddress? .word (some w) = some a → a = r.address := by
  have hother : ¬s.IsConstant .word (some w) → ∀ b a,
      (u.signals.place id b).constantAddress? .word (some w) = some a → a = r.address := by
    intro hne b a ha
    rw [Registry.constantAddress?_place_of_not hs hne] at ha
    exact hu a ha
  -- a constant of this value has the built-in constant to go to
  have hvalue : s.IsConstant .word (some w) →
      s.initial.bind Resource.ofBuiltinValue? = some r := by
    rintro ⟨-, -, hi⟩
    rw [hi]
    exact Resource.ofBuiltinValue?_eq_some.mpr hw
  cases h with
  | skip => exact hu
  | wordReg _ hr => exact hother (Signal.not_isConstant_of_register hr) _
  | hold hd => exact hother (Signal.not_isConstant_of_dataType (by rw [hd]; exact nofun)) _
  | @shared b hb hc hb' =>
    by_cases hin : s.IsConstant .word (some w)
    · obtain ⟨-, hd, hi⟩ := hin
      rw [hd, hi] at hb'
      intro a ha
      have hplace := Registry.constantAddress?_place (a := b) hs ⟨hc, hd, hi⟩ fun c hc =>
        Option.some.inj (hc.symm.trans hb')
      have hab : a = b := Option.some.inj (ha.symm.trans hplace)
      rw [hab]
      exact hu b hb'
    · exact hother hin b
  | @builtin r' hd hn hr =>
    rw [signals_takeBuiltin]
    by_cases hin : s.IsConstant .word (some w)
    · obtain rfl : r' = r := Option.some.inj (hr.symm.trans (hvalue hin))
      obtain ⟨hc, hd, hi⟩ := hin
      have hnone := hn.constantAddress?
      rw [hd, hi] at hnone
      intro a ha
      have hfirst : ∀ c, u.signals.constantAddress? .word (some w) ≠ some c := by
        rw [hnone]
        exact nofun
      have hplace := Registry.constantAddress?_place (a := r'.address) hs ⟨hc, hd, hi⟩
        fun c hc => absurd hc (hfirst c)
      exact Option.some.inj (ha.symm.trans hplace)
    · exact hother hin _
  | constant hd hn hr => exact hother (fun hin => by rw [hvalue hin] at hr; cases hr) _
  | spill hd hn hr => exact hother (fun hin => by rw [hvalue hin] at hr; cases hr) _

/-! ### All constants that the pass places -/

/-- The signal had no binding in `r` and is a constant in `r'`. -/
structure LateConstant (r r' : Registry) (id : SignalId) (s : Signal) : Prop where
  unbound : r.isFree id = true
  signal : r'.get? id = some s
  constant : s.behavior = .constant

/-- The signal had no binding in `r` and is a word constant with this value in `r'`. -/
def isLate (r r' : Registry) (w : Word) (id : SignalId) : Bool :=
  r.isFree id && (r'.get? id).any fun s => s.IsConstant .word (some w)

/-- The number of slots of a family that hold a late constant with this value. -/
def slotsFor (u u' : Alu) (family : Family) (w : Word) : Nat :=
  (u'.slots family).countP (isLate u.signals u'.signals w)

/-- How constants are placed between `u` and `u'`. -/
structure SharesConstants (u u' : Alu) : Prop where
  /-- Equal constants are all unbound, or all bound to the same address. -/
  equal : ∀ (i j : SignalId) (s t : Signal), LateConstant u.signals u'.signals i s →
    LateConstant u.signals u'.signals j t → s.dataType = t.dataType → s.initial = t.initial →
    s.binding = t.binding
  /-- Constants that differ never have the same address. -/
  different : ∀ (i j : SignalId) (s t : Signal) (a : Address),
    LateConstant u.signals u'.signals i s → LateConstant u.signals u'.signals j t →
    s.dataType ≠ t.dataType ∨ s.initial ≠ t.initial → s.binding = some a → t.binding ≠ some a
  /-- A value takes one slot at most. -/
  slots : ∀ w, slotsFor u u' .wordIn w + slotsFor u u' .wordReg w ≤ 1
  /-- A slot of the constants is taken together with a word input. -/
  constants : ∀ w, slotsFor u u' .constant w = slotsFor u u' .wordIn w
  /-- A built-in value takes no slot. -/
  builtinSlots : ∀ w ∈ [0x0000#16, 0x0001#16, 0xFFFF#16],
    slotsFor u u' .wordIn w + slotsFor u u' .wordReg w = 0
  /-- It has the built-in constant, or the address that an equal constant had before. -/
  builtin : ∀ (i : SignalId) (s : Signal) (r : Resource) (w : Word),
    LateConstant u.signals u'.signals i s → s.dataType = .word → s.initial = some w →
    r.builtinValue? = some w → s.binding = some r.address ∨
      ∃ j p, u.signals.bound? j = some p ∧ p.behavior = .constant ∧ s.binding = some p.address

theorem isLate_iff {r r' : Registry} {w : Word} : isLate r r' w id = true ↔
    ∃ s, LateConstant r r' id s ∧ s.dataType = .word ∧ s.initial = some w := by
  unfold isLate
  rw [Bool.and_eq_true]
  constructor
  · rintro ⟨hfree, hlate⟩
    cases hs : r'.get? id with
    | none =>
      rw [hs] at hlate
      cases hlate
    | some s =>
      rw [hs] at hlate
      obtain ⟨hc, hd, hw⟩ := of_decide_eq_true hlate
      exact ⟨s, ⟨hfree, hs, hc⟩, hd, hw⟩
  · rintro ⟨s, hlate, hd, hw⟩
    refine ⟨hlate.unbound, ?_⟩
    rw [hlate.signal]
    exact decide_eq_true ⟨hlate.constant, hd, hw⟩

section Shares

variable {ε : Type} {ds : List Diagnostic} {i : SignalId}

/-- A late constant is one that the visits found without a binding. -/
theorem LateConstant.settled
    (h : (Edit.collect bindRemaining u.prepared.signals.ids : Edit Alu ε _) u.prepared = .ok ds t)
    (hi : LateConstant u.signals t.signals i s) : t.Settled i := by
  obtain ⟨s₀, hs₀, hb⟩ := Registry.isFree_iff.mp hi.unbound
  have hprepared := get?_prepared_of_some hs₀
  have hmem : i ∈ u.prepared.signals.ids :=
    Registry.mem_ids.mpr (Registry.contains_iff.mpr ⟨_, hprepared⟩)
  refine settled_of_collect h hmem hprepared ?_ (by rw [binding_prepare, hb])
  obtain ⟨b, hs, -⟩ := (advances_of_collect h).get i _ hprepared
  have heq := Option.some.inj (hi.signal.symm.trans hs)
  have hc := hi.constant
  rw [heq] at hc
  exact hc

theorem LateConstant.binding_eq
    (h : (Edit.collect bindRemaining u.prepared.signals.ids : Edit Alu ε _) u.prepared = .ok ds t)
    (hi : LateConstant u.signals t.signals i s) :
    s.binding = t.signals.constantAddress? s.dataType s.initial :=
  (hi.settled h).binding_eq hi.signal

/-- Constants that differ have different addresses. -/
theorem Placed.not_same_address (ht : t.Placed) {j : SignalId} {s' : Signal} {a : Address}
    {r : Registry} (hi : LateConstant r t.signals i s) (hj : LateConstant r t.signals j s')
    (hne : s.dataType ≠ s'.dataType ∨ s.initial ≠ s'.initial) (ha : s.binding = some a)
    (ha' : s'.binding = some a) : False := by
  have hij : i ≠ j := by
    rintro rfl
    have heq : s = s' := Option.some.inj (hi.signal.symm.trans hj.signal)
    rw [heq] at hne
    exact hne.elim (absurd rfl) (absurd rfl)
  have hsame := ht.sameConstant (bound?_of_binding hi.signal ha) (bound?_of_binding hj.signal ha')
    hij rfl
  exact hne.elim (absurd hsame.dataType) (absurd hsame.initial)

/-- Late constants with the same word value that have slots are one signal. -/
theorem eq_of_slots (ht : t.Placed)
    (h : (Edit.collect bindRemaining u.prepared.signals.ids : Edit Alu ε _) u.prepared = .ok ds t)
    {r r' : Resource} {j : SignalId} {w : Word} (hd : r.dataType? ≠ none)
    (hd' : r'.dataType? ≠ none) (hr : t.holder? r = some i) (hr' : t.holder? r' = some j)
    (hi : isLate u.signals t.signals w i = true) (hj : isLate u.signals t.signals w j = true) :
    i = j := by
  obtain ⟨s, hs, hsd, hsw⟩ := isLate_iff.mp hi
  obtain ⟨s', hs', hsd', hsw'⟩ := isLate_iff.mp hj
  have hb := ht.binding_of_holder hd hr hs.signal
  have hb' := ht.binding_of_holder hd' hr' hs'.signal
  rw [hs.binding_eq h, hsd, hsw] at hb
  rw [hs'.binding_eq h, hsd', hsw', hb] at hb'
  have hrr : r = r' := Resource.address_inj (ht.inRange r i hr) (ht.inRange r' j hr')
    (Option.some.inj hb')
  rw [hrr, hr'] at hr
  exact (Option.some.inj hr).symm

theorem slotsFor_le_one (ht : t.Placed)
    (h : (Edit.collect bindRemaining u.prepared.signals.ids : Edit Alu ε _) u.prepared = .ok ds t)
    (w : Word) : slotsFor u t .wordIn w + slotsFor u t .wordReg w ≤ 1 := by
  unfold slotsFor
  rw [← List.countP_append]
  refine countP_le_one (List.nodup_append.mpr ⟨?_, ?_, ?_⟩) fun i hi j hj hpi hpj => ?_
  · exact ht.nodup_slots _ fun _ => Option.some_ne_none _
  · exact ht.nodup_slots _ fun _ => Option.some_ne_none _
  · rintro i hi _ hj rfl
    obtain ⟨m, hm⟩ := mem_slots_iff.mp hi
    obtain ⟨n, hn⟩ := mem_slots_iff.mp hj
    have hslot : Resource.slot .wordIn m = .slot .wordReg n :=
      ht.resource_unique (Option.some_ne_none _) (Option.some_ne_none _) hm hn
    cases hslot
  · have hslot : ∀ k ∈ t.slots .wordIn ++ t.slots .wordReg,
        ∃ r : Resource, r.dataType? ≠ none ∧ t.holder? r = some k := by
      intro k hk
      rcases List.mem_append.mp hk with hk | hk
      · obtain ⟨n, hn⟩ := mem_slots_iff.mp hk
        exact ⟨.slot .wordIn n, Option.some_ne_none _, hn⟩
      · obtain ⟨n, hn⟩ := mem_slots_iff.mp hk
        exact ⟨.slot .wordReg n, Option.some_ne_none _, hn⟩
    obtain ⟨r, hd, hr⟩ := hslot i hi
    obtain ⟨r', hd', hr'⟩ := hslot j hj
    exact eq_of_slots ht h hd hd' hr hr' hpi hpj

/-- Late constants are in the word inputs that the pass added. -/
theorem slotsFor_wordIn (hu : u.Placed) (hprog : u.InProgress)
    (h : (Edit.collect bindRemaining u.prepared.signals.ids : Edit Alu ε _) u.prepared = .ok ds t)
    (w : Word) : slotsFor u t .constant w = slotsFor u t .wordIn w := by
  obtain ⟨new, hins, hconsts⟩ := inputs_of_collect h
  have hempty : u.prepared.constants.entries = [] := hprog.slots_eq_nil .constant rfl
  rw [hempty, List.nil_append] at hconsts
  have hold : u.prepared.wordIns.entries.countP (isLate u.signals t.signals w) = 0 := by
    refine List.countP_eq_zero.mpr fun i hi hlate => ?_
    obtain ⟨s, hs, -⟩ := isLate_iff.mp hlate
    obtain ⟨s₀, hs₀, hb⟩ := Registry.isFree_iff.mp hs.unbound
    have hmem : i ∈ u.slots .wordIn := hi
    obtain ⟨n, hn⟩ := mem_slots_iff.mp hmem
    rw [hu.binding_of_holder (r := .slot .wordIn n) (Option.some_ne_none _) hn hs₀] at hb
    cases hb
  show t.constants.entries.countP _ = t.wordIns.entries.countP _
  rw [hins, hconsts, List.countP_append, hold, Nat.zero_add]

theorem slotsFor_builtin (hu : u.Placed) (hprog : u.InProgress)
    (h : (Edit.collect bindRemaining u.prepared.signals.ids : Edit Alu ε _) u.prepared = .ok ds t)
    {w : Word} (hw : Resource.ofBuiltinValue? w ≠ none) :
    slotsFor u t .wordIn w + slotsFor u t .wordReg w = 0 := by
  have hconsts : u.prepared.constants.entries = [] := hprog.slots_eq_nil .constant rfl
  have hregs : u.prepared.wordRegs.entries = [] := hprog.slots_eq_nil .wordReg rfl
  have hslots : t.NoBuiltinSlot := by
    refine visits_induction (P := NoBuiltinSlot) h (fun i s hi => ?_)
      fun v v' i s hs ho hv => ho.noBuiltinSlot hs hv
    rw [hconsts, hregs] at hi
    exact absurd hi (by simp)
  have hlate : ∀ i, i ∈ t.constants.entries ∨ i ∈ t.wordRegs.entries →
      ¬isLate u.signals t.signals w i = true := by
    intro i hi hlate
    obtain ⟨s, hs, -, hsw⟩ := isLate_iff.mp hlate
    have hnone := hslots i s hi hs.signal hs.constant
    rw [hsw] at hnone
    exact hw hnone
  rw [← slotsFor_wordIn hu hprog h, Nat.add_eq_zero_iff]
  exact ⟨List.countP_eq_zero.mpr fun i hi => hlate i (Or.inl hi),
    List.countP_eq_zero.mpr fun i hi => hlate i (Or.inr hi)⟩

/-- Where a late constant with a built-in value is. -/
theorem LateConstant.builtin_binding
    (h : (Edit.collect bindRemaining u.prepared.signals.ids : Edit Alu ε _) u.prepared = .ok ds t)
    (hi : LateConstant u.signals t.signals i s) (hd : s.dataType = .word) {r : Resource} {w : Word}
    (hsw : s.initial = some w) (hw : r.builtinValue? = some w) :
    s.binding = some r.address ∨
      ∃ j p, u.signals.bound? j = some p ∧ p.behavior = .constant ∧ s.binding = some p.address := by
  have hb := hi.binding_eq h
  rw [hd, hsw] at hb
  cases hbefore : u.prepared.signals.constantAddress? .word (some w) with
  | some a =>
    -- the place that the value had before the pass
    have hafter : t.signals.constantAddress? .word (some w) = some a :=
      visits_induction (P := fun v => v.signals.constantAddress? .word (some w) = some a) h hbefore
        fun v v' j s hs ho hv => ho.constantAddress? hs hv
    obtain ⟨j, p, hp, ha, hc, -, -⟩ := Registry.constantAddress?_eq_some hbefore
    rw [bound?_prepared] at hp
    obtain ⟨p₀, hp₀, rfl⟩ := Option.map_eq_some_iff.mp hp
    rw [BoundSignal.behavior_withDefault] at hc
    rw [BoundSignal.address_withDefault] at ha
    exact Or.inr ⟨j, p₀, hp₀, hc, by rw [hb, hafter, ha]⟩
  | none =>
    have haddress : ∀ a, t.signals.constantAddress? .word (some w) = some a → a = r.address := by
      refine visits_induction
        (P := fun v => ∀ a, v.signals.constantAddress? .word (some w) = some a → a = r.address) h
        (fun a ha => ?_) fun v v' j s hs ho hv => ho.builtin_address hs hw hv
      rw [hbefore] at ha
      cases ha
    obtain ⟨s', hs', -, hplace⟩ := hi.settled h
    rw [hi.signal] at hs'
    cases hs'
    rcases hplace with ⟨a, hsa, -⟩ | hblocked
    · rw [hsa] at hb ⊢
      exact Or.inl (congrArg some (haddress a hb.symm))
    · have hnone : Resource.ofBuiltinValue? w = none := by
        have hword := (hblocked.word hd).1
        rwa [hsw] at hword
      rw [Resource.ofBuiltinValue?_eq_some.mpr hw] at hnone
      cases hnone

end Shares

/-- **Constants of one type and value share their place.** This holds for the constants that the
final pass finds without a binding, whether it answers or reports diagnostics. -/
theorem Reachable.assign_sharesConstants (h : Reachable u) (hp : u.phase = .building) :
    u.SharesConstants (assign.after u) := by
  obtain ⟨ds, t, phase, hcollect, -, -, hafter⟩ := exists_after_assign (h.sound.ready hp) hp
  have ht := h.sound.placed.prepared.of_collect hcollect
  have hprog := h.sound.inProgress hp
  have hshares : u.SharesConstants t :=
    { equal := fun i j s s' hi hj hd hv => by
        rw [hi.binding_eq hcollect, hj.binding_eq hcollect, hd, hv]
      different := fun i j s s' a hi hj hne ha ha' => ht.not_same_address hi hj hne ha ha'
      slots := slotsFor_le_one ht hcollect
      constants := slotsFor_wordIn h.sound.placed hprog hcollect
      builtinSlots := fun w hw => by
        have hvalue : some w ∈ Resource.builtinValues := by
          simpa [Resource.builtinValues] using hw
        exact slotsFor_builtin h.sound.placed hprog hcollect (Resource.mem_builtinValues.mp hvalue)
      builtin := fun i s r w hi hd hv hr => hi.builtin_binding hcollect hd hv hr }
  rw [hafter]
  exact ⟨hshares.equal, hshares.different, hshares.slots, hshares.constants,
    hshares.builtinSlots, hshares.builtin⟩

/-- A unit with a constant 5, a register that nobody writes with the value 5, and a constant 7. -/
def sharingUnit : Alu :=
  (create "alu" .standard).run
    [.declare "a" .constant .word, .declare "b" .register .word, .declare "c" .constant .word,
      .edit (.setInitial ⟨7⟩ 5), .edit (.setInitial ⟨8⟩ 5), .edit (.setInitial ⟨9⟩ 7)]

theorem reachable_sharingUnit : Reachable sharingUnit := (Reachable.new (.standard "alu")).run _

/-- The register has become a constant and shares the word input of the other 5. -/
theorem assign_sharesConstants_sharingUnit :
    sharingUnit.phase = .building ∧ ∃ s t,
      LateConstant sharingUnit.signals (assign.after sharingUnit).signals ⟨7⟩ s ∧
      LateConstant sharingUnit.signals (assign.after sharingUnit).signals ⟨8⟩ t ∧
      s.binding = some ⟨30⟩ ∧ t.binding = some ⟨30⟩ := by
  have hp : sharingUnit.phase = .building := by decide +kernel
  have ha : ((assign.after sharingUnit).signals.get? ⟨7⟩).map
      (fun s => (s.behavior, s.dataType, s.initial, s.binding)) =
        some (.constant, .word, some 5#16, some ⟨30⟩) := by decide +kernel
  have hb : ((assign.after sharingUnit).signals.get? ⟨8⟩).map
      (fun s => (s.behavior, s.dataType, s.initial)) =
        some (.constant, .word, some 5#16) := by decide +kernel
  obtain ⟨s, hs, heqs⟩ := Option.map_eq_some_iff.mp ha
  obtain ⟨t, ht, heqt⟩ := Option.map_eq_some_iff.mp hb
  simp only [Prod.mk.injEq] at heqs heqt
  obtain ⟨hsc, hsd, hsv, hsb⟩ := heqs
  obtain ⟨htc, htd, htv⟩ := heqt
  have hs' : LateConstant sharingUnit.signals (assign.after sharingUnit).signals ⟨7⟩ s :=
    ⟨by decide +kernel, hs, hsc⟩
  have ht' : LateConstant sharingUnit.signals (assign.after sharingUnit).signals ⟨8⟩ t :=
    ⟨by decide +kernel, ht, htc⟩
  have hequal := (reachable_sharingUnit.assign_sharesConstants hp).equal _ _ s t hs' ht'
    (hsd.trans htd.symm) (hsv.trans htv.symm)
  exact ⟨hp, s, t, hs', ht', hsb, hequal.symm.trans hsb⟩

end Alu

end AluPlacement
