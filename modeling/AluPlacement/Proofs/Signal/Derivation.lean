import AluPlacement.Proofs.List
import AluPlacement.Proofs.Resource.Numeral
import AluPlacement.Proofs.Signal.Answers

/-! # Derived signals and their names

The name of a slice or a delay says what it was derived from: base and number can be read off it,
and no slice has the name of a delay (`sliceName_inj`, `delayName_inj`, `sliceName_ne_delayName`).
In a registry that the calls of the front end can reach, names are pairwise different and every
derived signal is named for its base (`WellNamed`). So a derived signal that is found by its name is
the one that was asked for. The calls do no more than change single signals and put in signals that
are declared or derived from others, so such facts need two cases only (`Preserved.apply`).

A declared signal may have such a name too, and it is then returned in place of the slice or delay.
That is the only way for the calls to return anything else (`Found.sameKind_iff`). -/

namespace AluPlacement

namespace Registry

/-! ### Names -/

theorem toList_sliceName (base : String) (index : Nat) :
    (sliceName base index).toList = base.toList ++ '[' :: (Nat.toDigits 10 index ++ [']']) := by
  unfold sliceName
  simp [String.toList_append]

theorem toList_delayName (base : String) (count : Nat) :
    (delayName base count).toList = base.toList ++ '$' :: Nat.toDigits 10 count := by
  unfold delayName
  simp [String.toList_append]

theorem sliceName_inj {base base' : String} {index index' : Nat}
    (h : sliceName base index = sliceName base' index') : base = base' ∧ index = index' := by
  have hlist := congrArg String.toList h
  rw [toList_sliceName, toList_sliceName] at hlist
  have hmark : ∀ n, '[' ∉ Nat.toDigits 10 n ++ [']'] := by
    intro n hmem
    rcases List.mem_append.mp hmem with hdigit | hlast
    · exact not_mem_digits (by decide) n hdigit
    · simp at hlast
  obtain ⟨hbase, hrest⟩ := append_cons_inj (hmark index) (hmark index') hlist
  exact ⟨String.toList_injective hbase, digits_inj (List.append_cancel_right hrest)⟩

theorem delayName_inj {base base' : String} {count count' : Nat}
    (h : delayName base count = delayName base' count') : base = base' ∧ count = count' := by
  have hlist := congrArg String.toList h
  rw [toList_delayName, toList_delayName] at hlist
  obtain ⟨hbase, hdigits⟩ := append_cons_inj (not_mem_digits (by decide) count)
    (not_mem_digits (by decide) count') hlist
  exact ⟨String.toList_injective hbase, digits_inj hdigits⟩

/-- A slice ends with a bracket, a delay with a digit. -/
theorem sliceName_ne_delayName (base base' : String) (index count : Nat) :
    sliceName base index ≠ delayName base' count := by
  intro h
  have hlist := congrArg String.toList h
  rw [toList_sliceName, toList_delayName] at hlist
  have hne : Nat.toDigits 10 count ≠ [] := by simp
  have hlast : ']' = (Nat.toDigits 10 count).getLast hne := by
    have := congrArg List.getLast? hlist
    simpa [List.getLast?_append, List.getLast?_cons, List.getLast?_eq_some_getLast hne] using this
  refine not_mem_digits (c := ']') (by decide) count ?_
  rw [hlast]
  exact List.getLast_mem hne

/-! ### What the calls do to a registry -/

/-- The signal may be put in: it is declared, or derived from a signal of the registry. -/
inductive Derivable (r : Registry) : Signal → Prop
  | declared {s : Signal} (h : s.origin = .declared) : Derivable r s
  | slice {b : Signal} {base : SignalId} (hb : r.get? base = some b) (index : Nat) :
      Derivable r (b.sliceAt base index)
  | delay {b : Signal} {base : SignalId} (hb : r.get? base = some b) (count : Nat) :
      Derivable r (b.delayedBy base count)

/-- A change of one signal, and a new signal under a new name, keep the property. -/
structure Preserved (P : Registry → Prop) : Prop where
  modify : ∀ (r : Registry) (id : SignalId) (f : Signal → Signal),
    (∀ s, (f s).name = s.name ∧ (f s).dataType = s.dataType ∧ (f s).behavior = s.behavior ∧
      (f s).origin = s.origin) → P r → P (r.modify id f)
  append : ∀ (r : Registry) (s : Signal), r.Derivable s → r.lookup s.name = none → P r →
    P ⟨r.signals ++ [s]⟩

variable {r r' : Registry} {s b : Signal} {id base : SignalId} {index count : Nat}
variable {P : Registry → Prop}

theorem Preserved.lookupOrInsert (hP : Preserved P) (h : P r) (hs : r.Derivable s) :
    P ((Registry.lookupOrInsert s).after r) := by
  obtain ⟨id, r', hok, hfound⟩ := lookupOrInsert_found r s
  rw [Edit.after_of_ok hok]
  cases hfound with
  | existing => exact h
  | new hnew => exact hP.append r s hs hnew h

theorem Preserved.modifyUnbound (hP : Preserved P) (id : SignalId) {f : Signal → Signal}
    (hf : ∀ s, (f s).name = s.name ∧ (f s).dataType = s.dataType ∧ (f s).behavior = s.behavior ∧
      (f s).origin = s.origin) : Edit.Preserves P (Registry.modifyUnbound id f) :=
  Edit.preserves_bind (Edit.preserves_ask _) fun _ =>
    Edit.preserves_update fun r h => hP.modify r id f hf h

theorem Preserved.sliceOf (hP : Preserved P) (base : SignalId) (index : Nat) :
    Edit.Preserves P (Registry.sliceOf base index) := by
  intro r h
  refine Edit.after_ask_bind h fun name hname => ?_
  obtain ⟨b, hb, hname⟩ := Checked.bind_eq_ok.mp hname
  cases hname
  exact hP.lookupOrInsert h (.slice (get_eq_ok.mp hb) index)

theorem Preserved.delayWithin (hP : Preserved P) : ∀ (depth : Nat) (base : SignalId) (count : Nat),
    Edit.Preserves P (Registry.delayWithin depth base count)
  | 0, _, _ => Edit.preserves_ask _
  | depth + 1, base, count => by
    intro r h
    refine Edit.after_ask_bind h fun b hb => Edit.after_ask_bind h fun _ _ => ?_
    cases b.origin with
    | declared =>
      refine Edit.after_ask_bind h fun _ _ => ?_
      exact hP.lookupOrInsert h (.delay (get_eq_ok.mp hb) count)
    | slice inner index =>
      exact Edit.preserves_bind (hP.delayWithin depth inner count)
        (fun delayed => hP.sliceOf delayed index) r h
    | delay inner earlier => exact hP.delayWithin depth inner (earlier + count) r h

/-- **What changes and new signals preserve, every call preserves.** -/
theorem Preserved.apply (hP : Preserved P) (h : P r) (c : Call) : P (c.apply r) := by
  cases c with
  | declare name behavior dataType =>
    refine Edit.after_ask_bind h fun _ hreq => ?_
    exact hP.append r _ (.declared rfl) (Checked.require_eq_ok.mp hreq) h
  | setInitial id value =>
    refine hP.modifyUnbound id
      (f := fun s => { s with initial := some (BitVec.ofNat 16 value) }) (fun s => ?_) r h
    exact ⟨rfl, rfl, rfl, rfl⟩
  | setWarmReset id value =>
    refine hP.modifyUnbound id (f := fun s => { s with warmReset := value }) (fun s => ?_) r h
    exact ⟨rfl, rfl, rfl, rfl⟩
  | setDirection id direction =>
    refine hP.modifyUnbound id (f := fun s => { s with direction := direction }) (fun s => ?_) r h
    exact ⟨rfl, rfl, rfl, rfl⟩
  | setLocation id location =>
    refine Edit.after_ask_bind h fun _ _ => ?_
    exact hP.modify r id _ (fun s => ⟨rfl, rfl, rfl, rfl⟩) h
  | bitSlice base index =>
    refine Edit.after_ask_bind h fun _ _ => Edit.after_ask_bind h fun _ _ => ?_
    exact hP.sliceOf base index r h
  | vBit base =>
    refine Edit.after_ask_bind h fun _ _ => Edit.after_ask_bind h fun _ _ => ?_
    exact hP.sliceOf base vBitIndex r h
  | delay base count => exact hP.delayWithin maxDerivation base count r h

/-! ### Changes that keep what a signal is -/

/-- `s'` is the same signal as `s`, and if it was a register it may have become something else. -/
structure Resembles (s s' : Signal) : Prop where
  name : s'.name = s.name
  dataType : s'.dataType = s.dataType
  origin : s'.origin = s.origin
  behavior : s.behavior ≠ .register → s'.behavior = s.behavior

/-- The registries have the same signals, up to what the placement changes in them. -/
structure Mirrors (r r' : Registry) : Prop where
  size : r'.size = r.size
  old : ∀ id s', r'.get? id = some s' → ∃ s, r.get? id = some s ∧ Resembles s s'

theorem Mirrors.contains (h : r.Mirrors r') (id : SignalId) : r'.contains id = r.contains id := by
  rw [Registry.contains, h.size, Registry.contains]

theorem Mirrors.new (h : r.Mirrors r') (hs : r.get? id = some s) :
    ∃ s', r'.get? id = some s' ∧ Resembles s s' := by
  obtain ⟨s', hs'⟩ := contains_iff.mp ((h.contains id).trans (contains_iff.mpr ⟨s, hs⟩))
  obtain ⟨t, ht, hr⟩ := h.old id s' hs'
  rw [hs] at ht
  cases ht
  exact ⟨s', hs', hr⟩

theorem mirrors_modify (id : SignalId) {f : Signal → Signal}
    (hf : ∀ s, (f s).name = s.name ∧ (f s).dataType = s.dataType ∧ (f s).behavior = s.behavior ∧
      (f s).origin = s.origin) : r.Mirrors (r.modify id f) := by
  refine ⟨size_modify r id f, fun i s' hs' => ?_⟩
  rw [get?_modify] at hs'
  split_ifs at hs'
  · obtain ⟨s, hs, rfl⟩ := Option.map_eq_some_iff.mp hs'
    obtain ⟨hname, hdata, hbehavior, horigin⟩ := hf s
    exact ⟨s, hs, hname, hdata, horigin, fun _ => hbehavior⟩
  · exact ⟨s', hs', rfl, rfl, rfl, fun _ => rfl⟩

/-! ### Well-named registries -/

/-- Names are pairwise different, and every derived signal is what it was derived to be. -/
structure WellNamed (r : Registry) : Prop where
  name_inj : ∀ i j s t, r.get? i = some s → r.get? j = some t → s.name = t.name → i = j
  slice : ∀ id s base index, r.get? id = some s → s.origin = .slice base index →
    ∃ b, r.get? base = some b ∧ s.name = sliceName b.name index ∧ s.behavior = .bitSlice ∧
      s.dataType = .bit
  delay : ∀ id s base count, r.get? id = some s → s.origin = .delay base count →
    ∃ b, r.get? base = some b ∧ s.name = delayName b.name count ∧ s.behavior = .delayed ∧
      s.dataType = b.dataType

theorem wellNamed_empty : WellNamed {} := by
  refine ⟨fun i j s t h => ?_, fun id s base index h => ?_, fun id s base count h => ?_⟩ <;>
    simp [get?] at h

theorem WellNamed.mirror (h : r.WellNamed) (hm : r.Mirrors r') : r'.WellNamed := by
  -- a base keeps its name and its type
  have hbase : ∀ i t, r.get? i = some t → ∃ s, r'.get? i = some s ∧ s.name = t.name ∧
      s.dataType = t.dataType := by
    intro i t ht
    obtain ⟨s, hs, hr⟩ := hm.new ht
    exact ⟨s, hs, hr.name, hr.dataType⟩
  refine ⟨fun i j s t hs ht hname => ?_, fun i s base index hs ho => ?_,
    fun i s base count hs ho => ?_⟩
  · obtain ⟨s₀, hs₀, hr⟩ := hm.old i s hs
    obtain ⟨t₀, ht₀, hr'⟩ := hm.old j t ht
    exact h.name_inj i j s₀ t₀ hs₀ ht₀ (hr.name.symm.trans (hname.trans hr'.name))
  · obtain ⟨s₀, hs₀, hr⟩ := hm.old i s hs
    obtain ⟨b, hb, hname, hslice, hbit⟩ := h.slice i s₀ base index hs₀ (hr.origin.symm.trans ho)
    obtain ⟨b', hb', hbn, -⟩ := hbase base b hb
    have hbeh := hr.behavior (by rw [hslice]; decide)
    exact ⟨b', hb', by rw [hr.name, hname, hbn], hbeh.trans hslice, hr.dataType.trans hbit⟩
  · obtain ⟨s₀, hs₀, hr⟩ := hm.old i s hs
    obtain ⟨b, hb, hname, hdelay, htype⟩ := h.delay i s₀ base count hs₀ (hr.origin.symm.trans ho)
    obtain ⟨b', hb', hbn, hbd⟩ := hbase base b hb
    have hbeh := hr.behavior (by rw [hdelay]; decide)
    exact ⟨b', hb', by rw [hr.name, hname, hbn], hbeh.trans hdelay,
      by rw [hr.dataType, htype, hbd]⟩

theorem get?_append_of_some (hb : r.get? base = some b) (s : Signal) :
    (⟨r.signals ++ [s]⟩ : Registry).get? base = some b := by
  have hlt : base.index < r.size := by
    simpa [contains] using contains_iff.mpr ⟨b, hb⟩
  rw [get?_append, if_neg (by omega), hb]

/-- The last signal is the new one, and the others are the old ones. -/
theorem get?_append_cases {t : Signal}
    (ht : (⟨r.signals ++ [s]⟩ : Registry).get? id = some t) :
    (id = ⟨r.size⟩ ∧ t = s) ∨ r.get? id = some t := by
  rw [get?_append] at ht
  split_ifs at ht with hi
  · cases ht
    exact Or.inl ⟨by cases id; simp_all, rfl⟩
  · exact Or.inr ht

theorem WellNamed.append (h : r.WellNamed) (hs : r.Derivable s) (hnew : r.lookup s.name = none) :
    WellNamed ⟨r.signals ++ [s]⟩ := by
  have hfresh := lookup_eq_none.mp hnew
  refine ⟨fun i j t t' ht ht' hname => ?_, fun i t base index ht ho => ?_,
    fun i t base count ht ho => ?_⟩
  · rcases get?_append_cases ht with ⟨rfl, hts⟩ | hold <;>
      rcases get?_append_cases ht' with ⟨rfl, hts'⟩ | hold'
    · rfl
    · exact absurd (by rw [← hname, hts]) (hfresh j t' hold')
    · exact absurd (by rw [hname, hts']) (hfresh i t hold)
    · exact h.name_inj i j t t' hold hold' hname
  · rcases get?_append_cases ht with ⟨-, rfl⟩ | ht
    · cases hs with
      | declared hd => rw [hd] at ho; cases ho
      | slice hb => cases ho; exact ⟨_, get?_append_of_some hb _, rfl, rfl, rfl⟩
      | delay hb => cases ho
    · obtain ⟨b, hb, hrest⟩ := h.slice i t base index ht ho
      exact ⟨b, get?_append_of_some hb s, hrest⟩
  · rcases get?_append_cases ht with ⟨-, rfl⟩ | ht
    · cases hs with
      | declared hd => rw [hd] at ho; cases ho
      | slice hb => cases ho
      | delay hb => cases ho; exact ⟨_, get?_append_of_some hb _, rfl, rfl, rfl⟩
    · obtain ⟨b, hb, hrest⟩ := h.delay i t base count ht ho
      exact ⟨b, get?_append_of_some hb s, hrest⟩

theorem preserved_wellNamed : Preserved WellNamed :=
  ⟨fun _ id _ hf h => h.mirror (mirrors_modify id hf), fun _ _ hs hnew h => h.append hs hnew⟩

theorem WellNamed.apply (h : r.WellNamed) (c : Call) : (c.apply r).WellNamed :=
  preserved_wellNamed.apply h c

/-- The registry after several calls. -/
def run (r : Registry) (calls : List Call) : Registry := calls.foldl (fun r c => c.apply r) r

theorem WellNamed.run (h : r.WellNamed) (calls : List Call) : (r.run calls).WellNamed := by
  induction calls generalizing r with
  | nil => exact h
  | cons c calls ih => exact ih (h.apply c)

/-! ### Bases -/

/-- Derived signals are derived from signals of the registry. -/
def HasBases (r : Registry) : Prop :=
  ∀ id s base, r.get? id = some s → s.origin.base? = some base → r.contains base = true

theorem WellNamed.hasBases (h : r.WellNamed) : r.HasBases := by
  intro id s base hs hbase
  cases ho : s.origin with
  | declared =>
    rw [ho] at hbase
    cases hbase
  | slice base' index =>
    obtain ⟨b, hb, -⟩ := h.slice id s base' index hs ho
    rw [ho] at hbase
    cases hbase
    exact contains_iff.mpr ⟨b, hb⟩
  | delay base' count =>
    obtain ⟨b, hb, -⟩ := h.delay id s base' count hs ho
    rw [ho] at hbase
    cases hbase
    exact contains_iff.mpr ⟨b, hb⟩

/-! ### What the calls return -/

/-- The two signals have the same type, behavior and origin. -/
structure SameKind (s t : Signal) : Prop where
  dataType : s.dataType = t.dataType
  behavior : s.behavior = t.behavior
  origin : s.origin = t.origin

/-- A signal was declared under this name. -/
def IsDeclared (r : Registry) (name : String) : Prop :=
  ∃ id s, r.get? id = some s ∧ s.name = name ∧ s.origin = .declared

/-- The signal with a name is declared if some declared signal has the name. -/
theorem WellNamed.isDeclared_iff (h : r.WellNamed) (hs : r.get? id = some s) :
    r.IsDeclared s.name ↔ s.origin = .declared := by
  constructor
  · rintro ⟨id', t, ht, hname, ho⟩
    have hid := h.name_inj id' id t s ht hs hname
    rw [hid, hs] at ht
    cases ht
    exact ho
  · intro ho
    exact ⟨id, s, hs, rfl, ho⟩

theorem not_isDeclared_of_lookup {name : String} (h : r.lookup name = none) :
    ¬r.IsDeclared name := by
  rintro ⟨id, s, hs, hname, -⟩
  exact lookup_eq_none.mp h id s hs hname

/-- Two derived signals of one name are of one kind. -/
theorem WellNamed.sameKind (h : r.WellNamed) {t : Signal} (hs : r.Derivable s)
    (hso : s.origin ≠ .declared) (ht : r.get? id = some t) (hto : t.origin ≠ .declared)
    (hname : t.name = s.name) : SameKind t s := by
  cases hs with
  | declared ho => exact absurd ho hso
  | @slice b base hb index =>
    cases ho : t.origin with
    | declared => exact absurd ho hto
    | slice base' index' =>
      obtain ⟨b', hb', hname', hslice, hbit⟩ := h.slice id t base' index' ht ho
      obtain ⟨hbase, rfl⟩ := sliceName_inj (hname'.symm.trans hname)
      obtain rfl := h.name_inj base' base b' b hb' hb hbase
      exact ⟨hbit, hslice, ho⟩
    | delay base' count' =>
      obtain ⟨b', -, hname', -⟩ := h.delay id t base' count' ht ho
      exact absurd (hname.symm.trans hname') (sliceName_ne_delayName _ _ _ _)
  | @delay b base hb count =>
    cases ho : t.origin with
    | declared => exact absurd ho hto
    | slice base' index' =>
      obtain ⟨b', -, hname', -⟩ := h.slice id t base' index' ht ho
      exact absurd (hname'.symm.trans hname) (sliceName_ne_delayName _ _ _ _)
    | delay base' count' =>
      obtain ⟨b', hb', hname', hdelay, htype⟩ := h.delay id t base' count' ht ho
      obtain ⟨hbase, rfl⟩ := delayName_inj (hname'.symm.trans hname)
      obtain rfl := h.name_inj base' base b' b hb' hb hbase
      rw [hb] at hb'
      cases hb'
      exact ⟨htype, hdelay, ho⟩

/-- Looking for a derived signal gives one of its kind, unless its name was declared. -/
theorem Found.sameKind_iff (h : r.WellNamed) (hs : r.Derivable s) (hso : s.origin ≠ .declared)
    (hf : Found r s id r') :
    ∃ t, r'.get? id = some t ∧ (SameKind t s ↔ ¬r.IsDeclared s.name) := by
  cases hf with
  | @existing _ t ht hname =>
    refine ⟨t, ht, fun hkind hdecl => ?_, fun hnot => ?_⟩
    · rw [← hname, h.isDeclared_iff ht] at hdecl
      exact hso (hkind.origin.symm.trans hdecl)
    · rw [← hname, h.isDeclared_iff ht] at hnot
      exact h.sameKind hs hso ht hnot hname
  | new hnew =>
    refine ⟨s, by rw [get?_append, if_pos rfl], fun _ => not_isDeclared_of_lookup hnew, fun _ => ?_⟩
    exact ⟨rfl, rfl, rfl⟩

/-- The signal is bit `index` of `base`. -/
structure IsSliceOf (s : Signal) (base : SignalId) (index : Nat) : Prop where
  dataType : s.dataType = .bit
  behavior : s.behavior = .bitSlice
  base : s.origin.base? = some base
  index : s.origin.sliceIndex? = some index

/-- The signal is `base` after `count` clocks, where `b` is the signal `base`. -/
structure IsDelayOf (s : Signal) (base : SignalId) (b : Signal) (count : Nat) : Prop where
  dataType : s.dataType = b.dataType
  behavior : s.behavior = .delayed
  base : s.origin.base? = some base
  count : s.origin.delayCount = count

theorem isSliceOf_iff : IsSliceOf s base index ↔ SameKind s (b.sliceAt base index) := by
  constructor
  · rintro ⟨hd, hbeh, hbase, hindex⟩
    refine ⟨hd, hbeh, ?_⟩
    cases ho : s.origin <;> simp_all [Origin.base?, Origin.sliceIndex?, Signal.sliceAt]
  · rintro ⟨hd, hbeh, ho⟩
    exact ⟨hd, hbeh, by rw [ho]; rfl, by rw [ho]; rfl⟩

theorem isDelayOf_iff (hcount : 1 ≤ count) :
    IsDelayOf s base b count ↔ SameKind s (b.delayedBy base count) := by
  constructor
  · rintro ⟨hd, hbeh, hbase, hn⟩
    refine ⟨hd, hbeh, ?_⟩
    cases ho : s.origin <;> simp_all [Origin.base?, Origin.delayCount, Signal.delayedBy]
    omega
  · rintro ⟨hd, hbeh, ho⟩
    exact ⟨hd, hbeh, by rw [ho]; rfl, by rw [ho]; rfl⟩

/-- A signal that is neither a slice nor delayed was declared. -/
theorem WellNamed.origin_eq_declared (h : r.WellNamed) (hb : r.get? base = some b)
    (hslice : b.behavior ≠ .bitSlice) (hdelay : b.behavior ≠ .delayed) : b.origin = .declared := by
  cases ho : b.origin with
  | declared => rfl
  | slice base' index =>
    obtain ⟨_, -, -, hbeh, -⟩ := h.slice base b base' index hb ho
    exact absurd hbeh hslice
  | delay base' count =>
    obtain ⟨_, -, -, hbeh, -⟩ := h.delay base b base' count hb ho
    exact absurd hbeh hdelay

/-- **A slice, a v-bit or a delay that is returned is what was asked for exactly if no signal was
declared under its name.** This holds after any calls on a new registry. -/
theorem derived_iff_not_declared (calls : List Call) :
    (∀ base index id r', bitSlice base index (run {} calls) = .ok id r' →
      ∃ b s, (run {} calls).get? base = some b ∧ r'.get? id = some s ∧
        (IsSliceOf s base index ↔ ¬(run {} calls).IsDeclared (sliceName b.name index))) ∧
    (∀ base id r', vBit base (run {} calls) = .ok id r' →
      ∃ b s, (run {} calls).get? base = some b ∧ r'.get? id = some s ∧
        (IsSliceOf s base 16 ↔ ¬(run {} calls).IsDeclared (sliceName b.name 16))) ∧
    ∀ base b count id r', (run {} calls).get? base = some b → b.behavior ≠ .bitSlice →
      b.behavior ≠ .delayed → delay base count (run {} calls) = .ok id r' →
        ∃ s, r'.get? id = some s ∧
          (IsDelayOf s base b count ↔ ¬(run {} calls).IsDeclared (delayName b.name count)) := by
  have hnamed := wellNamed_empty.run calls
  refine ⟨fun base index id r' hok => ?_, fun base id r' hok => ?_,
    fun base b count id r' hb hslice hdelay hok => ?_⟩
  · obtain ⟨b, hb, hfound⟩ := bitSlice_found hok
    obtain ⟨s, hs, hiff⟩ := hfound.sameKind_iff hnamed (.slice hb index) nofun
    exact ⟨b, s, hb, hs, isSliceOf_iff.trans hiff⟩
  · obtain ⟨b, hb, hfound⟩ := vBit_found hok
    obtain ⟨s, hs, hiff⟩ := hfound.sameKind_iff hnamed (.slice hb vBitIndex) nofun
    exact ⟨b, s, hb, hs, isSliceOf_iff.trans hiff⟩
  · have ho := hnamed.origin_eq_declared hb hslice hdelay
    obtain ⟨hcount, hfound⟩ := delay_found hb ho hok
    obtain ⟨s, hs, hiff⟩ := hfound.sameKind_iff hnamed (.delay hb count) nofun
    exact ⟨s, hs, (isDelayOf_iff hcount).trans hiff⟩

/-- The calls of a registry in which names of derived signals of `x` are declared. -/
def takenCalls : List Call :=
  [.declare "x" .register .word, .declare "x[0]" .wire .word, .declare "x[16]" .constant .bit,
    .declare "x$2" .register .bit, .declare "w" .wire .word]

theorem derived_iff_not_declared_free :
    (∃ r' s, bitSlice ⟨0⟩ 1 (run {} takenCalls) = .ok ⟨5⟩ r' ∧ r'.get? ⟨5⟩ = some s ∧
      IsSliceOf s ⟨0⟩ 1) ∧
    (∃ r' s, vBit ⟨4⟩ (run {} takenCalls) = .ok ⟨5⟩ r' ∧ r'.get? ⟨5⟩ = some s ∧
      IsSliceOf s ⟨4⟩ 16) ∧
    ∃ r' b s, delay ⟨4⟩ 2 (run {} takenCalls) = .ok ⟨5⟩ r' ∧
      (run {} takenCalls).get? ⟨4⟩ = some b ∧ r'.get? ⟨5⟩ = some s ∧ IsDelayOf s ⟨4⟩ b 2 := by
  obtain ⟨hslice, hvBit, hdelay⟩ := derived_iff_not_declared takenCalls
  refine ⟨?_, ?_, ?_⟩
  · obtain ⟨b, s, hb, hs, hiff⟩ := hslice ⟨0⟩ 1 ⟨5⟩ _ rfl
    cases hb
    exact ⟨_, s, rfl, hs, hiff.mpr (not_isDeclared_of_lookup (by decide +kernel))⟩
  · obtain ⟨b, s, hb, hs, hiff⟩ := hvBit ⟨4⟩ ⟨5⟩ _ rfl
    cases hb
    exact ⟨_, s, rfl, hs, hiff.mpr (not_isDeclared_of_lookup (by decide +kernel))⟩
  · obtain ⟨s, hs, hiff⟩ := hdelay ⟨4⟩ _ 2 ⟨5⟩ _ rfl (by decide) (by decide) rfl
    exact ⟨_, _, s, rfl, rfl, hs, hiff.mpr (not_isDeclared_of_lookup (by decide +kernel))⟩

/-- Declared signals are returned as the bit 0, the v-bit and the delay of `x`. -/
theorem derived_taken :
    (∃ r' s, bitSlice ⟨0⟩ 0 (run {} takenCalls) = .ok ⟨1⟩ r' ∧ r'.get? ⟨1⟩ = some s ∧
      s.dataType = .word ∧ ¬IsSliceOf s ⟨0⟩ 0) ∧
    (∃ r' s, vBit ⟨0⟩ (run {} takenCalls) = .ok ⟨2⟩ r' ∧ r'.get? ⟨2⟩ = some s ∧
      s.behavior = .constant ∧ ¬IsSliceOf s ⟨0⟩ 16) ∧
    ∃ r' b s, (run {} takenCalls).get? ⟨0⟩ = some b ∧ b.behavior = .register ∧
      delay ⟨0⟩ 2 (run {} takenCalls) = .ok ⟨3⟩ r' ∧ r'.get? ⟨3⟩ = some s ∧
      s.dataType ≠ b.dataType ∧ ¬IsDelayOf s ⟨0⟩ b 2 := by
  refine ⟨⟨_, _, rfl, rfl, rfl, fun h => ?_⟩, ⟨_, _, rfl, rfl, rfl, fun h => ?_⟩,
    ⟨_, _, _, rfl, rfl, rfl, rfl, by decide, fun h => ?_⟩⟩
  · exact absurd h.dataType (by decide)
  · exact absurd h.behavior (by decide)
  · exact absurd h.dataType (by decide)

end Registry

end AluPlacement
