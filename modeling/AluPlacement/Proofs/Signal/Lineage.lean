import AluPlacement.Proofs.Signal.Derivation

/-! # What derived signals descend from

A delay is taken of a declared signal, and a slice of a declared or a delayed one: the calls add up
delays, and they delay a slice by slicing its delayed base. So no signal is derived in more than two
steps, whatever the names are (`Descends`). A name may belong to another signal than the one that was
asked for, but the name of a delay never belongs to a slice, and this is all that the argument
needs. -/

namespace AluPlacement.Registry

variable {r r' : Registry} {s b : Signal} {id base : SignalId} {index count : Nat}

/-- What the signal `id` may be derived from. -/
inductive Descends (r : Registry) (id : SignalId) : Origin → Prop
  | declared : Descends r id .declared
  | slice {base : SignalId} {b : Signal} (hb : r.get? base = some b) (hlt : base.index < id.index)
      (ho : b.origin.sliceIndex? = none) (index : Nat) : Descends r id (.slice base index)
  | delay {base : SignalId} {b : Signal} (hb : r.get? base = some b) (hlt : base.index < id.index)
      (ho : b.origin = .declared) {count : Nat} (hcount : 1 ≤ count ∧ count ≤ maxDelay) :
      Descends r id (.delay base count)

/-- The registry is well-named, and every signal of it descends from earlier ones. -/
structure Lineage (r : Registry) : Prop where
  named : r.WellNamed
  descends : ∀ id s, r.get? id = some s → r.Descends id s.origin

theorem Lineage.of_slice (h : r.Lineage) (hs : r.get? id = some s) (ho : s.origin = .slice base index) :
    ∃ b, r.get? base = some b ∧ b.origin.sliceIndex? = none := by
  have hd := h.descends id s hs
  rw [ho] at hd
  cases hd with
  | slice hb _ hbase => exact ⟨_, hb, hbase⟩

theorem Lineage.of_delay (h : r.Lineage) (hs : r.get? id = some s) (ho : s.origin = .delay base count) :
    ∃ b, r.get? base = some b ∧ b.origin = .declared := by
  have hd := h.descends id s hs
  rw [ho] at hd
  cases hd with
  | delay hb _ hbase => exact ⟨_, hb, hbase⟩

theorem lt_size_of_get? (hb : r.get? base = some b) : base.index < r.size := by
  simpa [contains] using contains_iff.mpr ⟨b, hb⟩

/-! ### Changes and new signals -/

theorem Descends.mirror {o : Origin} (h : r.Descends id o) (hm : r.Mirrors r') :
    r'.Descends id o := by
  cases h with
  | declared => exact .declared
  | slice hb hlt ho index =>
    obtain ⟨b', hb', hr⟩ := hm.new hb
    exact .slice hb' hlt (by rw [hr.origin, ho]) index
  | delay hb hlt ho hcount =>
    obtain ⟨b', hb', hr⟩ := hm.new hb
    exact .delay hb' hlt (by rw [hr.origin, ho]) hcount

theorem Lineage.mirror (h : r.Lineage) (hm : r.Mirrors r') : r'.Lineage := by
  refine ⟨h.named.mirror hm, fun id s' hs' => ?_⟩
  obtain ⟨s, hs, hr⟩ := hm.old id s' hs'
  rw [hr.origin]
  exact (h.descends id s hs).mirror hm

theorem Descends.append {o : Origin} (h : r.Descends id o) (s : Signal) :
    Descends ⟨r.signals ++ [s]⟩ id o := by
  cases h with
  | declared => exact .declared
  | slice hb hlt ho index => exact .slice (get?_append_of_some hb s) hlt ho index
  | delay hb hlt ho hcount => exact .delay (get?_append_of_some hb s) hlt ho hcount

theorem Lineage.append (h : r.Lineage) (hs : r.Derivable s) (hnew : r.lookup s.name = none)
    (hd : r.Descends ⟨r.size⟩ s.origin) : Lineage ⟨r.signals ++ [s]⟩ := by
  refine ⟨h.named.append hs hnew, fun id t ht => ?_⟩
  rcases get?_append_cases ht with ⟨rfl, rfl⟩ | hold
  · exact hd.append t
  · exact (h.descends id t hold).append s

theorem Lineage.lookupOrInsert (h : r.Lineage) (hs : r.Derivable s)
    (hd : r.Descends ⟨r.size⟩ s.origin) : ((Registry.lookupOrInsert s).after r).Lineage := by
  obtain ⟨id, r', hok, hfound⟩ := lookupOrInsert_found r s
  rw [Edit.after_of_ok hok]
  cases hfound with
  | existing => exact h
  | new hnew => exact h.append hs hnew hd

/-! ### Calls -/

/-- A slice may be taken of what is no slice itself. -/
theorem Lineage.sliceOf (h : r.Lineage) (hb : r.get? base = some b)
    (ho : b.origin.sliceIndex? = none) (index : Nat) :
    ((Registry.sliceOf base index).after r).Lineage := by
  refine Edit.after_ask_bind h fun name hname => ?_
  obtain ⟨b', hb', hname⟩ := Checked.bind_eq_ok.mp hname
  cases hname
  rw [get_eq_ok, hb] at hb'
  cases hb'
  exact h.lookupOrInsert (.slice hb index) (.slice hb (lt_size_of_get? hb) ho index)

/-- A signal with the name of a delay is no slice. -/
theorem WellNamed.not_slice (h : r.WellNamed) (hs : r.get? id = some s) {name : String}
    (hname : s.name = delayName name count) : s.origin.sliceIndex? = none := by
  cases ho : s.origin with
  | declared | delay => rfl
  | slice base index =>
    obtain ⟨b, -, hslice, -⟩ := h.slice id s base index hs ho
    exact absurd (hslice.symm.trans hname) (sliceName_ne_delayName _ _ _ _)

/-- A slice is a bit. -/
theorem WellNamed.not_slice_of_word (h : r.WellNamed) (hs : r.get? id = some s)
    (hword : s.dataType = .word) : s.origin.sliceIndex? = none := by
  cases ho : s.origin with
  | declared | delay => rfl
  | slice base index =>
    obtain ⟨b, -, -, -, hbit⟩ := h.slice id s base index hs ho
    rw [hbit] at hword
    cases hword

/-- Delaying a signal that is no slice gives a signal that is no slice. -/
theorem Lineage.not_slice_of_delayWithin (h : r.Lineage) {depth : Nat} (hb : r.get? base = some b)
    (ho : b.origin.sliceIndex? = none) (hok : Registry.delayWithin depth base count r = .ok id r') :
    ∃ t, r'.get? id = some t ∧ t.origin.sliceIndex? = none := by
  -- the delay of a declared signal, to which the delay of a delayed one comes down
  have hdeclared : ∀ {depth base b count}, r.get? base = some b → b.origin = .declared →
      Registry.delayWithin depth base count r = .ok id r' →
        ∃ t, r'.get? id = some t ∧ t.origin.sliceIndex? = none := by
    intro depth base b count hb ho hok
    cases delayWithin_found hb ho hok with
    | existing ht hname => exact ⟨_, ht, h.named.not_slice ht hname⟩
    | new => exact ⟨_, by rw [get?_append, if_pos rfl], rfl⟩
  cases horigin : b.origin with
  | declared => exact hdeclared hb horigin hok
  | slice base index =>
    rw [horigin] at ho
    cases ho
  | delay root earlier =>
    cases depth with
    | zero => cases hok
    | succ depth =>
      obtain ⟨b', hb', hok⟩ := Edit.ask_bind_eq_ok.mp hok
      rw [get_eq_ok, hb] at hb'
      cases hb'
      obtain ⟨_, -, hok⟩ := Edit.ask_bind_eq_ok.mp hok
      rw [horigin] at hok
      obtain ⟨c, hc, hroot⟩ := h.of_delay hb horigin
      exact hdeclared hc hroot hok

theorem Lineage.delayWithin : ∀ (depth : Nat) (base : SignalId) (count : Nat),
    Edit.Preserves Lineage (Registry.delayWithin depth base count)
  | 0, _, _ => Edit.preserves_ask _
  | depth + 1, base, count => by
    intro r h
    refine Edit.after_ask_bind h fun b hb => Edit.after_ask_bind h fun _ hcount => ?_
    rw [get_eq_ok] at hb
    cases ho : b.origin with
    | declared =>
      refine Edit.after_ask_bind h fun _ _ => ?_
      exact h.lookupOrInsert (.delay hb count)
        (.delay hb (lt_size_of_get? hb) ho (Checked.require_eq_ok.mp hcount))
    | slice inner index =>
      obtain ⟨c, hc, hinner⟩ := h.of_slice hb ho
      have hdelayed := Lineage.delayWithin depth inner count r h
      refine Edit.after_bind (fun delayed r₁ hok => ?_) fun e r₁ herror => ?_
      · rw [Edit.after_of_ok hok] at hdelayed
        obtain ⟨t, ht, hslice⟩ := h.not_slice_of_delayWithin hc hinner hok
        exact hdelayed.sliceOf ht hslice index
      · rwa [Edit.after_of_error herror] at hdelayed
    | delay inner earlier => exact Lineage.delayWithin depth inner (earlier + count) r h

theorem Lineage.modifyUnbound (h : r.Lineage) (id : SignalId) {f : Signal → Signal}
    (hf : ∀ s, (f s).name = s.name ∧ (f s).dataType = s.dataType ∧ (f s).behavior = s.behavior ∧
      (f s).origin = s.origin) : ((Registry.modifyUnbound id f).after r).Lineage :=
  Edit.after_ask_bind h fun _ _ => h.mirror (mirrors_modify id hf)

/-- **Every call keeps the lineage of the signals.** -/
theorem Lineage.apply (h : r.Lineage) (c : Call) : (c.apply r).Lineage := by
  cases c with
  | declare name behavior dataType =>
    refine Edit.after_ask_bind h fun _ hreq => ?_
    exact h.append (.declared rfl) (Checked.require_eq_ok.mp hreq) .declared
  | setInitial id value => exact h.modifyUnbound id fun s => ⟨rfl, rfl, rfl, rfl⟩
  | setWarmReset id value => exact h.modifyUnbound id fun s => ⟨rfl, rfl, rfl, rfl⟩
  | setDirection id direction => exact h.modifyUnbound id fun s => ⟨rfl, rfl, rfl, rfl⟩
  | setLocation id location =>
    refine Edit.after_ask_bind h fun _ _ => ?_
    exact h.mirror (mirrors_modify id fun s => ⟨rfl, rfl, rfl, rfl⟩)
  | bitSlice base index =>
    -- a register is declared
    refine Edit.after_ask_bind h fun b hb => Edit.after_ask_bind h fun _ hreq => ?_
    rw [get_eq_ok] at hb
    have hreg : b.behavior = .register := by
      have hlegal := (Checked.require_eq_ok.mp hreq).1
      simp only [Signal.isOf, Bool.and_eq_true, beq_iff_eq] at hlegal
      exact hlegal.1
    have ho := h.named.origin_eq_declared hb (by rw [hreg]; decide) (by rw [hreg]; decide)
    exact h.sliceOf hb (by rw [ho]; rfl) index
  | vBit base =>
    refine Edit.after_ask_bind h fun b hb => Edit.after_ask_bind h fun _ hreq => ?_
    rw [get_eq_ok] at hb
    exact h.sliceOf hb (h.named.not_slice_of_word hb (Checked.require_eq_ok.mp hreq).1) vBitIndex
  | delay base count => exact Lineage.delayWithin maxDerivation base count r h

end AluPlacement.Registry
