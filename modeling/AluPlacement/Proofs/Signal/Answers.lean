import AluPlacement.Proofs.Signal.Extension

/-! # What the calls on a registry answer

A slice or a delay is looked up by its name, and it is put in if no signal has that name. `Found`
says which of the two happened; `bitSlice_found`, `vBit_found` and `delay_found` say what each of
the calls looked for.

A call on a registry that fails leaves it as it was (`Call.apply_of_fails`). Only the delay of a
slice writes twice, and after its first write it cannot fail any more. -/

namespace AluPlacement

/-- Bit `index` of the signal `b`, which is called `base`, as a new signal. -/
def Signal.sliceAt (b : Signal) (base : SignalId) (index : Nat) : Signal where
  name := Registry.sliceName b.name index
  behavior := .bitSlice
  dataType := .bit
  origin := .slice base index

/-- The signal `b`, which is called `base`, `count` clocks later, as a new signal. -/
def Signal.delayedBy (b : Signal) (base : SignalId) (count : Nat) : Signal where
  name := Registry.delayName b.name count
  behavior := .delayed
  dataType := b.dataType
  origin := .delay base count

namespace Registry

variable {r r' : Registry} {s b : Signal} {id base : SignalId} {index count : Nat}

/-! ### Looking up a name -/

theorem lookup_eq_some {name : String} (h : r.lookup name = some id) :
    ∃ s, r.get? id = some s ∧ s.name = name := by
  obtain ⟨i, hi, rfl⟩ := Option.map_eq_some_iff.mp h
  obtain ⟨hlt, hname, -⟩ := List.findIdx?_eq_some_iff_getElem.mp hi
  exact ⟨r.signals[i], List.getElem?_eq_getElem hlt, by simpa using hname⟩

theorem lookup_eq_none {name : String} :
    r.lookup name = none ↔ ∀ id s, r.get? id = some s → s.name ≠ name := by
  unfold lookup
  rw [Option.map_eq_none_iff, List.findIdx?_eq_none_iff]
  constructor
  · intro h id s hs
    simpa using h s (List.mem_of_getElem? hs)
  · intro h s hs
    obtain ⟨i, hi⟩ := List.mem_iff_getElem?.mp hs
    simpa using h ⟨i⟩ s hi

/-- What looking for the signal `s` by its name comes to: a signal that has the name already, or `s`
as a new signal. -/
inductive Found (r : Registry) (s : Signal) : SignalId → Registry → Prop
  | existing {id : SignalId} {t : Signal} (ht : r.get? id = some t) (hname : t.name = s.name) :
      Found r s id r
  | new (hnew : r.lookup s.name = none) : Found r s ⟨r.size⟩ ⟨r.signals ++ [s]⟩

theorem Found.contains (h : Found r s id r') : r'.contains id = true := by
  cases h with
  | existing ht => exact contains_iff.mpr ⟨_, ht⟩
  | new => exact contains_iff.mpr ⟨s, by rw [get?_append, if_pos rfl]⟩

theorem lookupOrInsert_eq (r : Registry) (s : Signal) :
    lookupOrInsert s r =
      match r.lookup s.name with
      | some id => .ok id r
      | none => .ok ⟨r.size⟩ ⟨r.signals ++ [s]⟩ := by
  have hask : (Edit.ask fun r : Registry => .ok (r.lookup s.name)) r =
      (.ok (r.lookup s.name) r : EStateM.Result (Fault Error) Registry _) := rfl
  have hcall : lookupOrInsert s r = _ := Edit.bind_of_ok hask _
  rw [hcall]
  cases r.lookup s.name <;> rfl

theorem lookupOrInsert_found (r : Registry) (s : Signal) :
    ∃ id r', lookupOrInsert s r = .ok id r' ∧ Found r s id r' := by
  rw [lookupOrInsert_eq]
  cases hfound : r.lookup s.name with
  | some id =>
    obtain ⟨t, ht, hname⟩ := lookup_eq_some hfound
    exact ⟨id, r, rfl, .existing ht hname⟩
  | none => exact ⟨_, _, rfl, .new hfound⟩

/-! ### Slices -/

/-- Slicing a signal of the registry always answers. -/
theorem sliceOf_found (hb : r.get? base = some b) (index : Nat) :
    ∃ id r', sliceOf base index r = .ok id r' ∧ Found r (b.sliceAt base index) id r' := by
  have hname : (Edit.ask fun r : Registry => r.name base) r =
      (.ok b.name r : EStateM.Result (Fault Error) Registry _) :=
    Edit.ask_eq_ok.mpr ⟨Checked.bind_eq_ok.mpr ⟨b, get_eq_ok.mpr hb, rfl⟩, rfl⟩
  obtain ⟨id, r', hfound, hid⟩ := lookupOrInsert_found r (b.sliceAt base index)
  exact ⟨id, r', (Edit.bind_of_ok hname _).trans hfound, hid⟩

theorem found_of_sliceOf (hb : r.get? base = some b) (h : sliceOf base index r = .ok id r') :
    Found r (b.sliceAt base index) id r' := by
  obtain ⟨id₁, r₁, hok, hfound⟩ := sliceOf_found hb index
  rw [h] at hok
  cases hok
  exact hfound

theorem bitSlice_found (h : bitSlice base index r = .ok id r') :
    ∃ b, r.get? base = some b ∧ Found r (b.sliceAt base index) id r' := by
  obtain ⟨b, hb, h⟩ := Edit.ask_bind_eq_ok.mp h
  obtain ⟨_, -, h⟩ := Edit.ask_bind_eq_ok.mp h
  rw [get_eq_ok] at hb
  exact ⟨b, hb, found_of_sliceOf hb h⟩

theorem vBit_found (h : vBit base r = .ok id r') :
    ∃ b, r.get? base = some b ∧ Found r (b.sliceAt base vBitIndex) id r' := by
  obtain ⟨b, hb, h⟩ := Edit.ask_bind_eq_ok.mp h
  obtain ⟨_, -, h⟩ := Edit.ask_bind_eq_ok.mp h
  rw [get_eq_ok] at hb
  exact ⟨b, hb, found_of_sliceOf hb h⟩

/-! ### Delays -/

/-- Delaying a signal that is not derived from another one. -/
theorem delayWithin_found {depth : Nat} (hb : r.get? base = some b) (ho : b.origin = .declared)
    (h : delayWithin depth base count r = .ok id r') : Found r (b.delayedBy base count) id r' := by
  cases depth with
  | zero => cases h
  | succ depth =>
    obtain ⟨b', hb', h⟩ := Edit.ask_bind_eq_ok.mp h
    rw [get_eq_ok, hb] at hb'
    cases hb'
    obtain ⟨_, -, h⟩ := Edit.ask_bind_eq_ok.mp h
    rw [ho] at h
    obtain ⟨_, -, h⟩ := Edit.ask_bind_eq_ok.mp h
    obtain ⟨id₁, r₁, hok, hfound⟩ := lookupOrInsert_found r (b.delayedBy base count)
    have heq := h.symm.trans hok
    cases heq
    exact hfound

theorem delay_found (hb : r.get? base = some b) (ho : b.origin = .declared)
    (h : delay base count r = .ok id r') :
    1 ≤ count ∧ Found r (b.delayedBy base count) id r' := by
  refine ⟨?_, delayWithin_found hb ho h⟩
  obtain ⟨_, -, h⟩ := Edit.ask_bind_eq_ok.mp h
  obtain ⟨_, hreq, -⟩ := Edit.ask_bind_eq_ok.mp h
  exact (Checked.require_eq_ok.mp hreq).1

theorem contains_of_sliceOf (h : sliceOf base index r = .ok id r') : r'.contains id = true := by
  obtain ⟨name, hname, -⟩ := Edit.ask_bind_eq_ok.mp h
  obtain ⟨b, hb, -⟩ := Checked.bind_eq_ok.mp hname
  exact (found_of_sliceOf (get_eq_ok.mp hb) h).contains

theorem contains_of_delayWithin : ∀ {depth : Nat} {base : SignalId} {count : Nat}
    {r r' : Registry} {id : SignalId}, delayWithin depth base count r = .ok id r' →
      r'.contains id = true
  | 0, _, _, _, _, _, h => by cases h
  | depth + 1, base, count, r, r', id, h => by
    obtain ⟨b, hb, hrest⟩ := Edit.ask_bind_eq_ok.mp h
    obtain ⟨_, -, hrest⟩ := Edit.ask_bind_eq_ok.mp hrest
    cases ho : b.origin with
    | declared => exact (delayWithin_found (get_eq_ok.mp hb) ho h).contains
    | slice inner index =>
      rw [ho] at hrest
      obtain ⟨delayed, r₁, -, hslice⟩ := Edit.bind_eq_ok.mp hrest
      exact contains_of_sliceOf hslice
    | delay inner earlier =>
      rw [ho] at hrest
      exact contains_of_delayWithin hrest

/-! ### Calls that fail -/

theorem isAtomic_insert {ε : Type} (s : Signal) : (insert s : Edit Registry ε _).IsAtomic := nofun

theorem isAtomic_lookupOrInsert (s : Signal) : (lookupOrInsert s).IsAtomic := by
  intro r e t h
  obtain ⟨id, r', hok, -⟩ := lookupOrInsert_found r s
  rw [h] at hok
  cases hok

theorem isAtomic_sliceOf (base : SignalId) (index : Nat) : (sliceOf base index).IsAtomic :=
  Edit.isAtomic_ask_bind fun _ => isAtomic_lookupOrInsert _

theorem isAtomic_bitSlice (base : SignalId) (index : Nat) : (bitSlice base index).IsAtomic :=
  Edit.isAtomic_ask_bind fun _ => Edit.isAtomic_ask_bind fun _ => isAtomic_sliceOf base index

theorem isAtomic_vBit (base : SignalId) : (vBit base).IsAtomic :=
  Edit.isAtomic_ask_bind fun _ => Edit.isAtomic_ask_bind fun _ => isAtomic_sliceOf base vBitIndex

theorem isAtomic_modifyUnbound (id : SignalId) (f : Signal → Signal) :
    (modifyUnbound id f).IsAtomic :=
  Edit.isAtomic_ask_bind fun _ => nofun

theorem isAtomic_delayWithin : ∀ (depth : Nat) (base : SignalId) (count : Nat),
    (delayWithin depth base count).IsAtomic
  | 0, _, _ => Edit.isAtomic_ask _
  | depth + 1, base, count => by
    refine Edit.isAtomic_ask_bind fun b => Edit.isAtomic_ask_bind fun _ => ?_
    cases b.origin with
    | declared => exact Edit.isAtomic_ask_bind fun _ => isAtomic_lookupOrInsert _
    | delay inner earlier => exact isAtomic_delayWithin depth inner (earlier + count)
    | slice inner index =>
      intro r e t h
      rcases Edit.bind_eq_error.mp h with hfirst | ⟨delayed, r₁, hfirst, hslice⟩
      · exact isAtomic_delayWithin depth inner count r e t hfirst
      · -- the delayed signal is there, so it can be sliced
        obtain ⟨d, hd⟩ := contains_iff.mp (contains_of_delayWithin hfirst)
        obtain ⟨id, r', hok, -⟩ := sliceOf_found hd index
        rw [hslice] at hok
        cases hok

/-- The call fails on this registry. -/
def Call.Fails : Call → Registry → Prop
  | .declare name behavior dataType => (Registry.declare name behavior dataType).Fails
  | .setInitial id value => (Registry.setInitial id value).Fails
  | .setWarmReset id value => (Registry.setWarmReset id value).Fails
  | .setDirection id direction => (Registry.setDirection id direction).Fails
  | .setLocation id location => (Registry.setLocation id location).Fails
  | .bitSlice base index => (Registry.bitSlice base index).Fails
  | .vBit base => (Registry.vBit base).Fails
  | .delay base count => (Registry.delay base count).Fails

/-- **A call on a registry that fails leaves it as it was.** -/
theorem Call.apply_of_fails {c : Call} (h : c.Fails r) : c.apply r = r := by
  cases c with
  | declare name behavior dataType =>
    exact (Edit.isAtomic_ask_bind fun _ => isAtomic_insert _).after_of_fails h
  | setInitial id value => exact (isAtomic_modifyUnbound id _).after_of_fails h
  | setWarmReset id value => exact (isAtomic_modifyUnbound id _).after_of_fails h
  | setDirection id direction => exact (isAtomic_modifyUnbound id _).after_of_fails h
  | setLocation id location => exact (Edit.isAtomic_ask_bind fun _ => nofun).after_of_fails h
  | bitSlice base index => exact (isAtomic_bitSlice base index).after_of_fails h
  | vBit base => exact (isAtomic_vBit base).after_of_fails h
  | delay base count => exact (isAtomic_delayWithin maxDerivation base count).after_of_fails h

end Registry

end AluPlacement
