import AluPlacement.Proofs.Signal.Reachable

/-! # The algebra of slices and delays

Delays add up, and the delay of a slice is the slice of the delay. Two things carry this.

* Slices and delays are found by name, and a call that has answered gives the same answer whenever it
  is made again on a registry that has only grown since (`IsStable`).
* Every signal that is no slice is a declared signal some clocks later (`Stems`), and delaying it is
  delaying that declared signal by the sum (`Stems.delay`); a slice is delayed through its base
  (`delay_of_slice`).

If no declared name has the marks of derived names, the signal that is found is the one that was
asked for, so that the answer of `delay` is known (`shifts_of_delay`), and the laws follow. -/

namespace AluPlacement.Registry

variable {r q : Registry} {id s d w v root : SignalId} {t b : Signal} {i n c : Nat} {name : String}
variable {α β : Type}

/-! ### Growing registries -/

/-- `q` has the signals of `r`, and maybe further ones after them. -/
def Grows (r q : Registry) : Prop := r.signals <+: q.signals

theorem Grows.refl (r : Registry) : r.Grows r := List.prefix_refl _

theorem Grows.trans {p : Registry} (h : r.Grows q) (h' : q.Grows p) : r.Grows p :=
  List.IsPrefix.trans h h'

theorem Grows.get? (h : r.Grows q) (ht : r.get? id = some t) : q.get? id = some t := by
  obtain ⟨rest, hrest⟩ := h
  unfold Registry.get? at ht ⊢
  rw [← hrest, List.getElem?_append_left (List.getElem?_eq_some_iff.mp ht).1, ht]

theorem Grows.lookup (h : r.Grows q) (hid : r.lookup name = some id) : q.lookup name = some id := by
  obtain ⟨rest, hrest⟩ := h
  obtain ⟨index, hindex, rfl⟩ := Option.map_eq_some_iff.mp hid
  unfold Registry.lookup
  rw [← hrest, List.findIdx?_append, hindex]
  rfl

theorem lookup_append (hnew : r.lookup t.name = none) :
    (⟨r.signals ++ [t]⟩ : Registry).lookup t.name = some ⟨r.size⟩ := by
  have hnone := Option.map_eq_none_iff.mp hnew
  unfold Registry.lookup
  rw [List.findIdx?_append, hnone]
  simp [size]

/-! ### Calls that can be repeated -/

/-- The registry only grows where the call answers, and made again, however the registry has grown
since, it gives the same answer and changes nothing. -/
def IsStable (call : Edit Registry Error α) : Prop :=
  ∀ r a q, call r = .ok a q → r.Grows q ∧ ∀ q', q.Grows q' → call q' = .ok a q'

theorem isStable_ask {question : Registry → Checked Error α}
    (h : ∀ r a, question r = .ok a → ∀ q, r.Grows q → question q = .ok a) :
    IsStable (Edit.ask question) := by
  intro r a q hok
  obtain ⟨hask, rfl⟩ := Edit.ask_eq_ok.mp hok
  exact ⟨.refl _, fun q' hgrows => Edit.ask_eq_ok.mpr ⟨h _ a hask q' hgrows, rfl⟩⟩

theorem IsStable.bind {call : Edit Registry Error α} {next : α → Edit Registry Error β}
    (h : IsStable call) (h' : ∀ a, IsStable (next a)) : IsStable (call >>= next) := by
  intro r a q hok
  obtain ⟨x, r₁, hcall, hnext⟩ := Edit.bind_eq_ok.mp hok
  obtain ⟨hgrows₁, hagain₁⟩ := h r x r₁ hcall
  obtain ⟨hgrows₂, hagain₂⟩ := h' x r₁ a q hnext
  refine ⟨hgrows₁.trans hgrows₂, fun q' hgrows => Edit.bind_eq_ok.mpr ⟨x, q', ?_, ?_⟩⟩
  · exact hagain₁ q' (hgrows₂.trans hgrows)
  · exact hagain₂ q' hgrows

theorem isStable_require {p : Prop} [Decidable p] {reason : Error} :
    IsStable (Edit.ask fun _ : Registry => Checked.require p reason) :=
  isStable_ask fun _ _ h _ _ => h

theorem isStable_get (id : SignalId) : IsStable (Edit.ask fun r : Registry => r.get id) :=
  isStable_ask fun _ _ h _ hgrows => get_eq_ok.mpr (hgrows.get? (get_eq_ok.mp h))

theorem isStable_lookupOrInsert (t : Signal) : IsStable (lookupOrInsert t) := by
  intro r id q hok
  -- a signal that has the name is found from then on
  have hagain : ∀ q' id, q'.lookup t.name = some id → lookupOrInsert t q' = .ok id q' := by
    intro q' id hid
    rw [lookupOrInsert_eq, hid]
  rw [lookupOrInsert_eq] at hok
  cases hid : r.lookup t.name with
  | some id' =>
    rw [hid] at hok
    cases hok
    exact ⟨.refl _, fun q' hgrows => hagain q' id (hgrows.lookup hid)⟩
  | none =>
    rw [hid] at hok
    cases hok
    exact ⟨List.prefix_append _ _, fun q' hgrows => hagain q' _ (hgrows.lookup (lookup_append hid))⟩

theorem isStable_sliceOf (base : SignalId) (index : Nat) : IsStable (sliceOf base index) := by
  refine (isStable_ask fun r name hname q hgrows => ?_).bind fun _ => isStable_lookupOrInsert _
  obtain ⟨b, hb, hname⟩ := Checked.bind_eq_ok.mp hname
  exact Checked.bind_eq_ok.mpr ⟨b, get_eq_ok.mpr (hgrows.get? (get_eq_ok.mp hb)), hname⟩

theorem isStable_bitSlice (base : SignalId) (index : Nat) : IsStable (bitSlice base index) :=
  (isStable_get base).bind fun _ => isStable_require.bind fun _ => isStable_sliceOf base index

theorem isStable_vBit (base : SignalId) : IsStable (vBit base) :=
  (isStable_get base).bind fun _ => isStable_require.bind fun _ => isStable_sliceOf base vBitIndex

theorem isStable_delayWithin : ∀ (depth : Nat) (base : SignalId) (count : Nat),
    IsStable (delayWithin depth base count)
  | 0, _, _ => isStable_ask fun _ _ h _ _ => h
  | depth + 1, base, count => by
    refine (isStable_get base).bind fun b => isStable_require.bind fun _ => ?_
    cases b.origin with
    | declared => exact isStable_require.bind fun _ => isStable_lookupOrInsert _
    | slice inner index =>
      exact (isStable_delayWithin depth inner count).bind fun delayed =>
        isStable_sliceOf delayed index
    | delay inner earlier => exact isStable_delayWithin depth inner (earlier + count)

theorem isStable_delay (base : SignalId) (count : Nat) : IsStable (delay base count) :=
  isStable_delayWithin maxDerivation base count

/-! ### Delays of the declared signal -/

/-- The signal is the declared signal `root`, `shift` clocks later. -/
inductive Stems (r : Registry) : SignalId → SignalId → Nat → Prop
  | root {id : SignalId} {b : Signal} (hb : r.get? id = some b) (ho : b.origin = .declared) :
      Stems r id id 0
  | delayed {id root : SignalId} {t b : Signal} {shift : Nat} (ht : r.get? id = some t)
      (ho : t.origin = .delay root shift) (hb : r.get? root = some b)
      (hroot : b.origin = .declared) : Stems r id root shift

theorem Lineage.stems (h : r.Lineage) (ht : r.get? id = some t) (ho : t.origin.sliceIndex? = none) :
    ∃ root c, r.Stems id root c := by
  cases horigin : t.origin with
  | declared => exact ⟨id, 0, .root ht horigin⟩
  | slice base index =>
    rw [horigin] at ho
    cases ho
  | delay root shift =>
    obtain ⟨b, hb, hroot⟩ := h.of_delay ht horigin
    exact ⟨root, shift, .delayed ht horigin hb hroot⟩

theorem Stems.grow (h : r.Stems id root c) (hgrows : r.Grows q) : q.Stems id root c := by
  cases h with
  | root hb ho => exact .root (hgrows.get? hb) ho
  | delayed ht ho hb hroot => exact .delayed (hgrows.get? ht) ho (hgrows.get? hb) hroot

theorem Stems.get? (h : r.Stems id root c) : ∃ b, r.get? root = some b ∧ b.origin = .declared := by
  cases h with
  | root hb ho => exact ⟨_, hb, ho⟩
  | delayed _ _ hb hroot => exact ⟨_, hb, hroot⟩

/-- A delayed signal has the type of its base. -/
theorem Stems.dataType (hnamed : r.WellNamed) (h : r.Stems id root c) (ht : r.get? id = some t)
    (hb : r.get? root = some b) : t.dataType = b.dataType := by
  cases h with
  | root =>
    rw [ht] at hb
    cases hb
    rfl
  | delayed ht' ho =>
    rw [ht] at ht'
    cases ht'
    obtain ⟨b', hb', -, -, htype⟩ := hnamed.delay id t root c ht ho
    rw [hb] at hb'
    cases hb'
    exact htype

theorem ask_get (ht : r.get? s = some t) :
    (Edit.ask fun r : Registry => r.get s) r =
      (.ok t r : EStateM.Result (Fault Error) Registry Signal) :=
  Edit.ask_eq_ok.mpr ⟨get_eq_ok.mpr ht, rfl⟩

theorem ask_require {p : Prop} [Decidable p] (hp : p) (reason : Error) :
    (Edit.ask fun _ : Registry => Checked.require p reason) r =
      (.ok () r : EStateM.Result (Fault Error) Registry Unit) :=
  Edit.ask_eq_ok.mpr ⟨Checked.require_eq_ok.mpr hp, rfl⟩

/-- For a declared signal it does not matter how deep the calls may nest. -/
theorem delayWithin_of_declared (ht : r.get? s = some t) (ho : t.origin = .declared) (n depth : Nat) :
    delayWithin (depth + 1) s n r = delay s n r := by
  have hopen : ∀ depth, delayWithin (depth + 1) s n r = _ := fun depth =>
    Edit.bind_of_ok (ask_get ht) _
  rw [delay, maxDerivation, hopen depth, hopen 2, ho]

theorem delayWithin_of_delay (ht : r.get? s = some t) (ho : t.origin = .delay root c)
    (hn : 1 ≤ n ∧ n ≤ maxDelay) (depth : Nat) :
    delayWithin (depth + 1) s n r = delayWithin depth root (c + n) r := by
  have hopen : delayWithin (depth + 1) s n r = _ :=
    (Edit.bind_of_ok (ask_get ht) _).trans (Edit.bind_of_ok (ask_require hn _) _)
  rw [hopen, ho]

theorem delayWithin_of_slice (ht : r.get? s = some t) (ho : t.origin = .slice w i)
    (hn : 1 ≤ n ∧ n ≤ maxDelay) (depth : Nat) :
    delayWithin (depth + 1) s n r = (delayWithin depth w n >>= fun d => sliceOf d i) r := by
  have hopen : delayWithin (depth + 1) s n r = _ :=
    (Edit.bind_of_ok (ask_get ht) _).trans (Edit.bind_of_ok (ask_require hn _) _)
  rw [hopen, ho]

theorem Stems.delayWithin (h : r.Stems s root c) (hn : 1 ≤ n ∧ n ≤ maxDelay) (depth : Nat) :
    delayWithin (depth + 2) s n r = delay root (c + n) r := by
  cases h with
  | root hb ho =>
    rw [Nat.zero_add]
    exact delayWithin_of_declared hb ho n (depth + 1)
  | delayed ht ho hb hroot =>
    rw [delayWithin_of_delay ht ho hn (depth + 1)]
    exact delayWithin_of_declared hb hroot (c + n) depth

/-- **Delaying a signal is delaying the declared signal that it stems from by the sum.** -/
theorem Stems.delay (h : r.Stems s root c) (hn : 1 ≤ n ∧ n ≤ maxDelay) :
    Registry.delay s n r = Registry.delay root (c + n) r :=
  h.delayWithin hn 1

/-- **Delaying a slice is slicing the delayed base.** -/
theorem delay_of_slice (ht : r.get? s = some t) (ho : t.origin = .slice w i) (hw : r.Stems w root c)
    (hn : 1 ≤ n ∧ n ≤ maxDelay) : delay s n r = (delay w n >>= fun d => sliceOf d i) r := by
  have hbase : Registry.delayWithin 2 w n r = delay w n r :=
    (hw.delayWithin hn 0).trans (hw.delay hn).symm
  rw [delay, maxDerivation, delayWithin_of_slice ht ho hn]
  exact Edit.bind_congr hbase fun _ _ _ => rfl

/-! ### Names of declared signals -/

/-- No declared signal has a name with the mark of a slice or of a delay. -/
def HasPlainNames (r : Registry) : Prop :=
  ∀ t ∈ r.signals, t.origin = .declared → '[' ∉ t.name.toList ∧ '$' ∉ t.name.toList

instance (r : Registry) : Decidable r.HasPlainNames :=
  inferInstanceAs (Decidable (∀ t ∈ r.signals, t.origin = .declared →
    '[' ∉ t.name.toList ∧ '$' ∉ t.name.toList))

theorem HasPlainNames.not_isDeclared (h : r.HasPlainNames)
    (hmark : '[' ∈ name.toList ∨ '$' ∈ name.toList) : ¬r.IsDeclared name := by
  rintro ⟨id, t, ht, rfl, ho⟩
  obtain ⟨hslice, hdelay⟩ := h t (List.mem_of_getElem? ht) ho
  exact hmark.elim hslice hdelay

theorem HasPlainNames.found (h : r.HasPlainNames) (ho : t.origin ≠ .declared)
    (hf : Found r t id q) : q.HasPlainNames := by
  cases hf with
  | existing => exact h
  | new =>
    intro t' ht' ho'
    rcases List.mem_append.mp ht' with hold | hnew
    · exact h t' hold ho'
    · rw [List.mem_singleton.mp hnew] at ho'
      exact absurd ho' ho

/-- What is found under the name of a slice is that slice. -/
theorem sliceOf_plain (hnamed : r.WellNamed) (hplain : r.HasPlainNames) (hb : r.get? w = some b)
    (hok : sliceOf w i r = .ok id q) :
    (∃ t, q.get? id = some t ∧ SameKind t (b.sliceAt w i)) ∧ q.HasPlainNames := by
  have hfound := found_of_sliceOf hb hok
  have hderived : (b.sliceAt w i).origin ≠ .declared := nofun
  obtain ⟨t, ht, hkind⟩ := hfound.sameKind_iff hnamed (.slice hb i) hderived
  have hmark : '[' ∈ (sliceName b.name i).toList := by simp [toList_sliceName]
  exact ⟨⟨t, ht, hkind.mpr (hplain.not_isDeclared (Or.inl hmark))⟩, hplain.found hderived hfound⟩

/-- What is found under the name of a delay is that delay. -/
theorem Stems.delay_plain (h : r.Stems s root c) (hnamed : r.WellNamed) (hplain : r.HasPlainNames)
    (hb : r.get? root = some b) (hn : 1 ≤ n ∧ n ≤ maxDelay)
    (hok : Registry.delay s n r = .ok d q) :
    (∃ t, q.get? d = some t ∧ SameKind t (b.delayedBy root (c + n))) ∧ q.HasPlainNames := by
  obtain ⟨b', hb', hroot⟩ := h.get?
  rw [hb] at hb'
  cases hb'
  rw [h.delay hn] at hok
  have hfound := (delay_found hb hroot hok).2
  have hderived : (b.delayedBy root (c + n)).origin ≠ .declared := nofun
  obtain ⟨t, ht, hkind⟩ := hfound.sameKind_iff hnamed (.delay hb (c + n)) hderived
  have hmark : '$' ∈ (delayName b.name (c + n)).toList := by simp [toList_delayName]
  exact ⟨⟨t, ht, hkind.mpr (hplain.not_isDeclared (Or.inr hmark))⟩, hplain.found hderived hfound⟩

theorem Stems.delay_stems (h : r.Stems s root c) (hnamed : r.WellNamed) (hplain : r.HasPlainNames)
    (hn : 1 ≤ n ∧ n ≤ maxDelay) (hok : Registry.delay s n r = .ok d q) : q.Stems d root (c + n) := by
  obtain ⟨b, hb, hroot⟩ := h.get?
  obtain ⟨⟨t, ht, hkind⟩, -⟩ := h.delay_plain hnamed hplain hb hn hok
  have hgrows := (isStable_delay s n r d q hok).1
  exact .delayed ht hkind.origin (hgrows.get? hb) hroot

/-! ### The answers of delays -/

theorem legal_of_delay (h : delay s n r = .ok d q) : 1 ≤ n ∧ n ≤ maxDelay := by
  obtain ⟨_, -, h⟩ := Edit.ask_bind_eq_ok.mp h
  obtain ⟨_, hlegal, -⟩ := Edit.ask_bind_eq_ok.mp h
  exact Checked.require_eq_ok.mp hlegal

/-- In a registry `d` is the signal `s`, `n` clocks later. -/
inductive Shifts (r : Registry) (s : SignalId) (n : Nat) (d : SignalId) : Prop
  | straight {root : SignalId} {c : Nat} (hs : r.Stems s root c) (hd : r.Stems d root (c + n)) :
      Shifts r s n d
  | sliced {w w' root : SignalId} {t t' : Signal} {i c : Nat} (ht : r.get? s = some t)
      (ho : t.origin = .slice w i) (ht' : r.get? d = some t') (ho' : t'.origin = .slice w' i)
      (hw : r.Stems w root c) (hw' : r.Stems w' root (c + n)) : Shifts r s n d

/-- The delay of a slice is a slice of the delay of its base. -/
theorem sliced_of_delay (h : r.Lineage) (hplain : r.HasPlainNames) (ht : r.get? s = some t)
    (ho : t.origin = .slice w i) (hok : delay s n r = .ok d q) :
    ∃ w' r₁ t', delay w n r = .ok w' r₁ ∧ r₁.Grows q ∧ q.get? d = some t' ∧
      IsSliceOf t' w' i := by
  obtain ⟨b, hb, hslice⟩ := h.of_slice ht ho
  obtain ⟨root, c, hw⟩ := h.stems hb hslice
  have hn := legal_of_delay hok
  rw [delay_of_slice ht ho hw hn] at hok
  obtain ⟨w', r₁, hdelay, hsliceOf⟩ := Edit.bind_eq_ok.mp hok
  have hnamed : r₁.WellNamed := by
    rw [← Edit.after_of_ok hdelay]
    exact preserved_wellNamed.delayWithin maxDerivation w n r h.named
  obtain ⟨b₀, hb₀, -⟩ := hw.get?
  obtain ⟨⟨t₁, ht₁, -⟩, hplain₁⟩ := hw.delay_plain h.named hplain hb₀ hn hdelay
  obtain ⟨⟨t', ht', hkind⟩, -⟩ := sliceOf_plain hnamed hplain₁ ht₁ hsliceOf
  exact ⟨w', r₁, t', hdelay, (isStable_sliceOf w' i r₁ d q hsliceOf).1, ht',
    isSliceOf_iff.mpr hkind⟩

/-- **The answer of a delay is the signal that much later.** -/
theorem shifts_of_delay (h : r.Lineage) (hplain : r.HasPlainNames) (hok : delay s n r = .ok d q) :
    q.Shifts s n d := by
  have hgrows := (isStable_delay s n r d q hok).1
  have hn := legal_of_delay hok
  obtain ⟨t, ht, -⟩ := Edit.ask_bind_eq_ok.mp hok
  rw [get_eq_ok] at ht
  cases ho : t.origin with
  | slice w i =>
    obtain ⟨w', r₁, t', hdelay, hgrows₁, ht', hslice⟩ := sliced_of_delay h hplain ht ho hok
    obtain ⟨b, hb, hbase⟩ := h.of_slice ht ho
    obtain ⟨root, c, hw⟩ := h.stems hb hbase
    have hw' := hw.delay_stems h.named hplain hn hdelay
    exact .sliced (hgrows.get? ht) ho ht' ((isSliceOf_iff (b := b)).mp hslice).origin
      (hw.grow hgrows) (hw'.grow hgrows₁)
  | declared | delay =>
    obtain ⟨root, c, hs⟩ := h.stems ht (by rw [ho]; rfl)
    exact .straight (hs.grow hgrows) (hs.delay_stems h.named hplain hn hok)

/-- **Delays add up.** -/
theorem Shifts.delay {a m : Nat} (h : r.Shifts s a d) (hm : 1 ≤ m) (ham : a + m ≤ maxDelay) :
    Registry.delay d m r = Registry.delay s (a + m) r := by
  have hlegal : 1 ≤ m ∧ m ≤ maxDelay := ⟨hm, by omega⟩
  have hsum : 1 ≤ a + m ∧ a + m ≤ maxDelay := ⟨by omega, ham⟩
  -- of the signals that stem from a declared one
  have hstraight : ∀ {s d root c}, r.Stems s root c → r.Stems d root (c + a) →
      Registry.delay d m r = Registry.delay s (a + m) r := by
    intro s d root c hs hd
    rw [hd.delay hlegal, hs.delay hsum, Nat.add_assoc]
  cases h with
  | straight hs hd => exact hstraight hs hd
  | sliced ht ho ht' ho' hw hw' =>
    rw [delay_of_slice ht' ho' hw' hlegal, delay_of_slice ht ho hw hsum]
    exact Edit.bind_congr (hstraight hw hw') fun _ _ _ => rfl

/-! ### V-bits -/

theorem word_of_vBit (h : vBit w r = .ok v q) :
    ∃ b, r.get? w = some b ∧ b.dataType = .word ∧ sliceOf w vBitIndex r = .ok v q := by
  obtain ⟨b, hb, h⟩ := Edit.ask_bind_eq_ok.mp h
  obtain ⟨_, hlegal, h⟩ := Edit.ask_bind_eq_ok.mp h
  exact ⟨b, get_eq_ok.mp hb, (Checked.require_eq_ok.mp hlegal).1, h⟩

/-- Every delayed word has a v-bit. -/
theorem vBit_of_delayed (ht : r.get? w = some t) (hword : t.dataType = .word)
    (hdelayed : t.behavior = .delayed) : vBit w r = sliceOf w vBitIndex r := by
  have hlegal : t.dataType = .word ∧ t.behavior ≠ .constant ∧ t.isInternalBuiltin = false := by
    refine ⟨hword, by rw [hdelayed]; decide, ?_⟩
    rw [Signal.isInternalBuiltin, hdelayed]
    rfl
  exact (Edit.bind_of_ok (ask_get ht) _).trans (Edit.bind_of_ok (ask_require hlegal _) _)

/-- **The delay of the v-bit is the v-bit of the delay.** -/
theorem delay_vBit (h : r.Lineage) (hplain : r.HasPlainNames) (hok : vBit w r = .ok v q)
    (hn : 1 ≤ n ∧ n ≤ maxDelay) : delay v n q = (delay w n >>= vBit) q := by
  obtain ⟨b, hb, hword, hslice⟩ := word_of_vBit hok
  have hgrows := (isStable_sliceOf w vBitIndex r v q hslice).1
  obtain ⟨⟨t, ht, hkind⟩, hplain'⟩ := sliceOf_plain h.named hplain hb hslice
  have hnamed : q.WellNamed := by
    rw [← Edit.after_of_ok hslice]
    exact preserved_wellNamed.sliceOf w vBitIndex r h.named
  obtain ⟨root, c, hw⟩ := h.stems hb (h.named.not_slice_of_word hb hword)
  have hw' := hw.grow hgrows
  rw [delay_of_slice ht hkind.origin hw' hn]
  refine Edit.bind_congr rfl fun d q' hdelay => ?_
  obtain ⟨b₀, hb₀, -⟩ := hw'.get?
  obtain ⟨⟨t', ht', hkind'⟩, -⟩ := hw'.delay_plain hnamed hplain' hb₀ hn hdelay
  have hword' : t'.dataType = .word :=
    hkind'.dataType.trans ((hw'.dataType hnamed (hgrows.get? hb) hb₀).symm.trans hword)
  exact (vBit_of_delayed ht' hword' hkind'.behavior).symm

/-! ### The laws -/

/-- The calls do the same, and once they have answered, both give this answer again, with nothing
changed, however the registry has grown since. -/
structure Agree (call call' : Edit Registry Error SignalId) (r : Registry) : Prop where
  eq : call r = call' r
  again : ∀ id q, call r = .ok id q → ∀ q', q.Grows q' →
    call q' = .ok id q' ∧ call' q' = .ok id q'

theorem IsStable.agree {call call' : Edit Registry Error SignalId} (h : IsStable call)
    (h' : IsStable call') (heq : call r = call' r) : Agree call call' r := by
  refine ⟨heq, fun id q hok q' hgrows => ⟨(h r id q hok).2 q' hgrows, ?_⟩⟩
  exact (h' r id q (heq.symm.trans hok)).2 q' hgrows

/-- A call that derives a signal from another one. -/
inductive IsDerivation : Edit Registry Error SignalId → Prop
  | bitSlice (base : SignalId) (index : Nat) : IsDerivation (Registry.bitSlice base index)
  | vBit (base : SignalId) : IsDerivation (Registry.vBit base)
  | delay (base : SignalId) (count : Nat) : IsDerivation (Registry.delay base count)

theorem IsDerivation.isStable {call : Edit Registry Error SignalId} (h : IsDerivation call) :
    IsStable call := by
  cases h with
  | bitSlice base index => exact isStable_bitSlice base index
  | vBit base => exact isStable_vBit base
  | delay base count => exact isStable_delay base count

theorem IsDerivation.isAtomic {call : Edit Registry Error SignalId} (h : IsDerivation call) :
    call.IsAtomic := by
  cases h with
  | bitSlice base index => exact isAtomic_bitSlice base index
  | vBit base => exact isAtomic_vBit base
  | delay base count => exact isAtomic_delayWithin maxDerivation base count

/-- The laws of slices and delays. -/
structure DerivesLawfully (r : Registry) : Prop where
  /-- Delays add up. -/
  delay_delay : ∀ s a m d q, 1 ≤ m → a + m ≤ 30 → delay s a r = .ok d q →
    Agree (delay d m) (delay s (a + m)) q
  /-- The delay of a slice is the slice of the delayed base, and there is one if the other. -/
  delay_slice : ∀ s t w i n, r.get? s = some t → t.origin = .slice w i →
    (∀ d q, delay s n r = .ok d q → ∃ w' t', delay w n q = .ok w' q ∧ q.get? d = some t' ∧
      IsSliceOf t' w' i) ∧
    ((delay s n).Fails r ↔ (delay w n).Fails r)
  /-- The delay of the v-bit is the v-bit of the delay. -/
  delay_vBit : ∀ w v q n, vBit w r = .ok v q →
    (1 ≤ n ∧ n ≤ 30 → Agree (delay v n) (delay w n >>= vBit) q) ∧
    (¬(1 ≤ n ∧ n ≤ 30) → (delay v n).Fails q ∧ (delay w n).Fails q)
  /-- The same call gives the same signal again. -/
  again : ∀ call, IsDerivation call → ∀ id q, call r = .ok id q → ∀ q', q.Grows q' →
    call q' = .ok id q'
  /-- A call that fails changes nothing. -/
  unchanged : ∀ call, IsDerivation call → ∀ e q, call r = .error e q → q = r

theorem fails_of_illegal (hn : ¬(1 ≤ n ∧ n ≤ maxDelay)) : (delay s n).Fails r :=
  Edit.fails_iff.mpr fun _ _ hok => hn (legal_of_delay hok)

/-- A slice can be delayed if its base can. -/
theorem delay_slice_fails_iff (h : r.Lineage) (ht : r.get? s = some t) (ho : t.origin = .slice w i)
    (n : Nat) : (delay s n).Fails r ↔ (delay w n).Fails r := by
  by_cases hn : 1 ≤ n ∧ n ≤ maxDelay
  · obtain ⟨b, hb, hslice⟩ := h.of_slice ht ho
    obtain ⟨root, c, hw⟩ := h.stems hb hslice
    rw [Edit.fails_iff, Edit.fails_iff, delay_of_slice ht ho hw hn]
    constructor
    · intro hfails w' r₁ hdelay
      obtain ⟨t', ht'⟩ := contains_iff.mp (contains_of_delayWithin hdelay)
      obtain ⟨d, q, hsliceOf, -⟩ := sliceOf_found ht' i
      exact hfails d q (Edit.bind_eq_ok.mpr ⟨w', r₁, hdelay, hsliceOf⟩)
    · intro hfails d q hok
      obtain ⟨w', r₁, hdelay, -⟩ := Edit.bind_eq_ok.mp hok
      exact hfails w' r₁ hdelay
  · exact iff_of_true (fails_of_illegal hn) (fails_of_illegal hn)

/-- **The algebra of slices and delays.** It holds of every registry that calls can reach if no
declared name has the marks of derived names. -/
theorem Reachable.derivesLawfully (h : r.Reachable) (hplain : r.HasPlainNames) :
    r.DerivesLawfully where
  delay_delay s a m d q hm ham hok := by
    have hshifts := shifts_of_delay h.lineage hplain hok
    exact (isStable_delay d m).agree (isStable_delay s (a + m)) (hshifts.delay hm ham)
  delay_slice s t w i n ht ho := by
    refine ⟨fun d q hok => ?_, delay_slice_fails_iff h.lineage ht ho n⟩
    obtain ⟨w', r₁, t', hdelay, hgrows, ht', hslice⟩ :=
      sliced_of_delay h.lineage hplain ht ho hok
    exact ⟨w', t', (isStable_delay w n r w' r₁ hdelay).2 q hgrows, ht', hslice⟩
  delay_vBit w v q n hok := by
    refine ⟨fun hn => ?_, fun hn => ⟨fails_of_illegal hn, fails_of_illegal hn⟩⟩
    exact (isStable_delay v n).agree ((isStable_delay w n).bind isStable_vBit)
      (delay_vBit h.lineage hplain hok hn)
  again call hcall id q hok := (hcall.isStable r id q hok).2
  unchanged call hcall e q herror := hcall.isAtomic r e q herror

/-- The calls of a registry with the v-bit of a delayed wire. -/
def delayedBitCalls : List Call :=
  [.declare "w" .wire .word, .delay ⟨0⟩ 3, .vBit ⟨1⟩]

/-- The v-bit is delayed twice, and once by the sum: first within the longest delay, and then beyond
it, since the wire is delayed already. -/
theorem derivesLawfully_delayedBit :
    (∃ q q', delay ⟨2⟩ 4 (run {} delayedBitCalls) = .ok ⟨4⟩ q ∧ delay ⟨4⟩ 5 q = .ok ⟨6⟩ q' ∧
      delay ⟨2⟩ 9 q = .ok ⟨6⟩ q' ∧ delay ⟨2⟩ 9 q' = .ok ⟨6⟩ q') ∧
    ∃ q, delay ⟨2⟩ 20 (run {} delayedBitCalls) = .ok ⟨4⟩ q ∧
      delay ⟨4⟩ 10 q = .error (.refused (.illegalDelay "w" 33 30)) q ∧
      delay ⟨2⟩ 30 q = .error (.refused (.illegalDelay "w" 33 30)) q := by
  have hplain : (run {} delayedBitCalls).HasPlainNames := by decide +kernel
  have hlaws := Reachable.derivesLawfully (.of_calls delayedBitCalls) hplain
  refine ⟨⟨_, _, rfl, rfl, ?_⟩, _, rfl, rfl, ?_⟩
  · have hagree := hlaws.delay_delay ⟨2⟩ 4 5 ⟨4⟩ _ (by decide) (by decide) rfl
    exact ⟨hagree.eq.symm, (hagree.again ⟨6⟩ _ rfl _ (.refl _)).2⟩
  · exact (hlaws.delay_delay ⟨2⟩ 20 10 ⟨4⟩ _ (by decide) (by decide) rfl).eq.symm

end AluPlacement.Registry
