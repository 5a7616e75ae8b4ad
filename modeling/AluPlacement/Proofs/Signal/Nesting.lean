import AluPlacement.Proofs.Signal.Delay

/-! # How deep delays nest

To delay a derived signal is to delay its base first. `delayWithin` bounds how deep these calls nest,
and the bound is never met: every base is an earlier signal that takes fewer steps to derive
(`Lineage.base_earlier`), and a slice of a delay takes two of them, which is the most there is. `Nests` lists
the calls that are made one inside the other. How many there are is how deep `delayWithin` has to go
(`Nests.isOrderly_iff`), and deeper it does the same (`Nests.delayWithin_eq`).

Only a number of clocks that is legal is added to that of the base, so the sum is at most twice the
longest delay. -/

namespace AluPlacement

/-- In how many steps a signal is derived from a declared one, at most. -/
def Origin.height : Origin → Nat
  | .declared => 0
  | .delay _ _ => 1
  | .slice _ _ => 2

theorem Origin.height_le (o : Origin) : o.height ≤ 2 := by
  cases o <;> simp [height]

theorem Origin.height_le_one {o : Origin} (h : o.sliceIndex? = none) : o.height ≤ 1 := by
  cases o with
  | declared => exact Nat.zero_le 1
  | delay => exact le_rfl
  | slice => cases h

namespace Registry

variable {r : Registry} {id base : SignalId} {s : Signal} {n depth : Nat}
variable {calls : List (SignalId × Nat)}

/-! ### Bases -/

/-- The signal `base` is the one that `id` is derived from. -/
def IsBase (r : Registry) (id base : SignalId) : Prop :=
  ∃ s, r.get? id = some s ∧ s.origin.base? = some base

/-- A base is an earlier signal, which takes fewer steps to derive. -/
theorem Lineage.base_earlier (h : r.Lineage) (hs : r.get? id = some s) (hbase : s.origin.base? = some base) :
    ∃ b, r.get? base = some b ∧ base.index < id.index ∧ b.origin.height < s.origin.height := by
  have hd := h.descends id s hs
  generalize s.origin = o at hd hbase ⊢
  cases hd with
  | declared => cases hbase
  | slice hb hlt ho =>
    cases hbase
    exact ⟨_, hb, hlt, Nat.lt_succ_of_le (Origin.height_le_one ho)⟩
  | delay hb hlt ho =>
    cases hbase
    exact ⟨_, hb, hlt, by rw [ho]; exact Nat.one_pos⟩

theorem Lineage.count_of_delay (h : r.Lineage) (hs : r.get? id = some s)
    (ho : s.origin = .delay base n) : 1 ≤ n ∧ n ≤ maxDelay := by
  have hd := h.descends id s hs
  rw [ho] at hd
  cases hd with
  | delay _ _ _ hcount => exact hcount

/-- A delayed signal with a base is a delay of it. -/
theorem Lineage.delay_of_delayed (h : r.Lineage) (hs : r.get? id = some s)
    (hdelayed : s.behavior = .delayed) (hbase : s.origin.base? = some base) :
    ∃ count, s.origin = .delay base count := by
  cases ho : s.origin with
  | declared =>
    rw [ho] at hbase
    cases hbase
  | slice inner index =>
    obtain ⟨-, -, -, hslice, -⟩ := h.named.slice id s inner index hs ho
    rw [hdelayed] at hslice
    cases hslice
  | delay inner count =>
    rw [ho] at hbase
    cases hbase
    exact ⟨count, rfl⟩

/-- From base to base there are no more steps than it takes to derive the signal. -/
theorem Lineage.length_le (h : r.Lineage) : ∀ (bases : List SignalId) {id : SignalId} {s : Signal},
    r.get? id = some s → List.IsChain r.IsBase (id :: bases) → bases.length ≤ s.origin.height
  | [], _, _, _, _ => Nat.zero_le _
  | base :: bases, id, s, hs, hchain => by
    obtain ⟨⟨s', hs', hbase⟩, hrest⟩ := List.isChain_cons_cons.mp hchain
    rw [hs] at hs'
    cases hs'
    obtain ⟨b, hb, -, hlt⟩ := h.base_earlier hs hbase
    exact Nat.succ_le_of_lt ((h.length_le bases hb hrest).trans_lt hlt)

/-! ### Nested calls -/

/-- Delaying `id` by `n` clocks makes these calls, each one inside the one before. -/
inductive Nests (r : Registry) : SignalId → Nat → List (SignalId × Nat) → Prop
  | refused {id : SignalId} {s : Signal} {n : Nat} (hs : r.get? id = some s)
      (hn : ¬(1 ≤ n ∧ n ≤ maxDelay)) : Nests r id n []
  | declared {id : SignalId} {s : Signal} {n : Nat} (hs : r.get? id = some s)
      (ho : s.origin = .declared) : Nests r id n []
  | slice {id inner : SignalId} {s : Signal} {index n : Nat} {calls : List (SignalId × Nat)}
      (hs : r.get? id = some s) (ho : s.origin = .slice inner index) (hn : 1 ≤ n ∧ n ≤ maxDelay)
      (h : Nests r inner n calls) : Nests r id n ((inner, n) :: calls)
  | delay {id inner : SignalId} {s : Signal} {earlier n : Nat} {calls : List (SignalId × Nat)}
      (hs : r.get? id = some s) (ho : s.origin = .delay inner earlier) (hn : 1 ≤ n ∧ n ≤ maxDelay)
      (h : Nests r inner (earlier + n) calls) : Nests r id n ((inner, earlier + n) :: calls)

theorem origin_inj {s' : Signal} {o o' : Origin} (hs : r.get? id = some s) (ho : s.origin = o)
    (hs' : r.get? id = some s') (ho' : s'.origin = o') : o = o' := by
  rw [hs] at hs'
  cases hs'
  exact ho.symm.trans ho'

/-- The nested calls are given by the signal and the number. -/
theorem Nests.unique {calls' : List (SignalId × Nat)} (h : r.Nests id n calls)
    (h' : r.Nests id n calls') : calls = calls' := by
  induction h generalizing calls' with
  | refused _ hn =>
    cases h' with
    | refused | declared => rfl
    | slice _ _ hn' | delay _ _ hn' => exact absurd hn' hn
  | declared hs ho =>
    cases h' with
    | refused | declared => rfl
    | slice hs' ho' | delay hs' ho' => cases origin_inj hs ho hs' ho'
  | slice hs ho hn _ ih =>
    cases h' with
    | refused _ hn' => exact absurd hn hn'
    | declared hs' ho' | delay hs' ho' => cases origin_inj hs ho hs' ho'
    | slice hs' ho' _ h' =>
      cases origin_inj hs ho hs' ho'
      rw [ih h']
  | delay hs ho hn _ ih =>
    cases h' with
    | refused _ hn' => exact absurd hn hn'
    | declared hs' ho' | slice hs' ho' => cases origin_inj hs ho hs' ho'
    | delay hs' ho' _ h' =>
      cases origin_inj hs ho hs' ho'
      rw [ih h']

theorem delayWithin_of_illegal (hs : r.get? id = some s) (hn : ¬(1 ≤ n ∧ n ≤ maxDelay)) (depth : Nat) :
    delayWithin (depth + 1) id n r = .error (.refused (.illegalDelay s.name n maxDelay)) r := by
  have hopen : delayWithin (depth + 1) id n r = _ := Edit.bind_of_ok (ask_get hs) _
  rw [hopen]
  exact Edit.bind_eq_error.mpr
    (Or.inl (Edit.ask_eq_error.mpr ⟨Checked.require_eq_error.mpr ⟨hn, rfl⟩, rfl⟩))

theorem isOrderly_delayWithin_of_declared (hs : r.get? id = some s) (ho : s.origin = .declared)
    (n depth : Nat) : (delayWithin (depth + 1) id n).IsOrderly r := by
  have hget : (r.get id : Checked Error Signal) = .ok s := get_eq_ok.mpr hs
  refine Edit.isOrderly_ask_bind (by rw [hget]; nofun) fun t ht => ?_
  cases Except.ok.inj (hget.symm.trans ht)
  refine Edit.isOrderly_ask_bind Checked.isOrderly_require fun _ _ => ?_
  rw [ho]
  refine Edit.isOrderly_ask_bind Checked.isOrderly_require fun _ _ => ?_
  obtain ⟨d, q, hok, -⟩ := lookupOrInsert_found r (s.delayedBy id n)
  intro c q' herror
  cases hok.symm.trans herror

/-- What has been delayed can be sliced. -/
theorem isOrderly_delayWithin_bind (index : Nat) :
    (delayWithin depth base n >>= fun d => sliceOf d index).IsOrderly r ↔
      (delayWithin depth base n).IsOrderly r := by
  refine ⟨fun h c q herror => h c q (Edit.bind_eq_error.mpr (Or.inl herror)), fun h c q herror => ?_⟩
  rcases Edit.bind_eq_error.mp herror with hdelay | ⟨d, q', hdelay, hslice⟩
  · exact h c q hdelay
  · obtain ⟨t, ht⟩ := contains_iff.mp (contains_of_delayWithin hdelay)
    obtain ⟨_, _, hok, -⟩ := sliceOf_found ht index
    cases hok.symm.trans hslice

/-- **The depth that is needed** is the number of nested calls. -/
theorem Nests.isOrderly_iff : ∀ {id : SignalId} {n : Nat} {calls : List (SignalId × Nat)}
    (depth : Nat), r.Nests id n calls →
      ((delayWithin depth id n).IsOrderly r ↔ calls.length < depth)
  | _, _, _, 0, _ => iff_of_false (fun h => h _ _ rfl) (Nat.not_lt_zero _)
  | _, _, _, depth + 1, .refused hs hn => by
    refine iff_of_true (fun c q herror => ?_) (Nat.succ_pos depth)
    rw [delayWithin_of_illegal hs hn] at herror
    cases herror
  | _, n, _, depth + 1, .declared hs ho =>
    iff_of_true (isOrderly_delayWithin_of_declared hs ho n depth) (Nat.succ_pos depth)
  | _, _, _, depth + 1, .slice hs ho hn h => by
    rw [Edit.isOrderly_congr (delayWithin_of_slice hs ho hn depth), isOrderly_delayWithin_bind,
      h.isOrderly_iff depth, List.length_cons, Nat.succ_lt_succ_iff]
  | _, _, _, depth + 1, .delay hs ho hn h => by
    rw [Edit.isOrderly_congr (delayWithin_of_delay hs ho hn depth), h.isOrderly_iff depth,
      List.length_cons, Nat.succ_lt_succ_iff]

theorem Nests.delayWithin_add (h : r.Nests id n calls) (extra : Nat) :
    delayWithin (extra + calls.length + 1) id n r = delayWithin (calls.length + 1) id n r := by
  induction h with
  | refused hs hn => rw [delayWithin_of_illegal hs hn, delayWithin_of_illegal hs hn]
  | declared hs ho => rw [delayWithin_of_declared hs ho, delayWithin_of_declared hs ho]
  | slice hs ho hn _ ih =>
    rw [delayWithin_of_slice hs ho hn, delayWithin_of_slice hs ho hn]
    exact Edit.bind_congr ih fun _ _ _ => rfl
  | delay hs ho hn _ ih =>
    rw [delayWithin_of_delay hs ho hn, delayWithin_of_delay hs ho hn]
    exact ih

/-- Every depth that is enough gives the same. -/
theorem Nests.delayWithin_eq (h : r.Nests id n calls) (hd : calls.length < depth) :
    delayWithin depth id n r = delayWithin (calls.length + 1) id n r := by
  obtain ⟨extra, rfl⟩ := Nat.exists_eq_add_of_lt hd
  rw [Nat.add_comm calls.length]
  exact h.delayWithin_add extra

/-- **Every delay nests a few calls**, no more than it takes steps to derive the signal, and the
numbers of clocks stay small in all of them. -/
theorem Lineage.exists_nests (h : r.Lineage) (hs : r.get? id = some s) (n : Nat) :
    ∃ calls, r.Nests id n calls ∧ calls.length ≤ s.origin.height ∧
      ∀ call ∈ calls, call.2 ≤ maxDelay + maxDelay := by
  -- a nested call is on the base, which takes fewer steps to derive
  induction hheight : s.origin.height using Nat.strongRecOn generalizing id s n with
  | ind height ih =>
    subst hheight
    have hcons : ∀ {base m}, s.origin.base? = some base → m ≤ maxDelay + maxDelay →
        ∃ calls, r.Nests base m calls ∧ calls.length + 1 ≤ s.origin.height ∧
          ∀ call ∈ (base, m) :: calls, call.2 ≤ maxDelay + maxDelay := by
      intro base m hbase hm
      obtain ⟨b, hb, -, hlt⟩ := h.base_earlier hs hbase
      obtain ⟨calls, hcalls, hlength, hsmall⟩ := ih _ hlt hb m rfl
      exact ⟨calls, hcalls, Nat.succ_le_of_lt (hlength.trans_lt hlt),
        List.forall_mem_cons.mpr ⟨hm, hsmall⟩⟩
    by_cases hn : 1 ≤ n ∧ n ≤ maxDelay
    · cases ho : s.origin with
      | declared => exact ⟨[], .declared hs ho, Nat.zero_le _, nofun⟩
      | slice inner index =>
        obtain ⟨calls, hcalls, hbound⟩ := hcons (by rw [ho]; rfl) (Nat.le_add_right_of_le hn.2)
        rw [← ho]
        exact ⟨_, .slice hs ho hn hcalls, hbound⟩
      | delay inner earlier =>
        have hsum := Nat.add_le_add (h.count_of_delay hs ho).2 hn.2
        obtain ⟨calls, hcalls, hbound⟩ := hcons (by rw [ho]; rfl) hsum
        rw [← ho]
        exact ⟨_, .delay hs ho hn hcalls, hbound⟩
    · exact ⟨[], .refused hs hn, Nat.zero_le _, nofun⟩

/-! ### The bounds -/

/-- What bounds the derivation of signals. -/
structure DerivesShallowly (r : Registry) : Prop where
  /-- No two signals have the same name. -/
  nodup : (r.signals.map Signal.name).Nodup
  /-- Every signal is found by its name. -/
  lookup : ∀ id s, r.get? id = some s → r.lookup s.name = some id
  /-- Every base is an earlier signal. -/
  base_lt : ∀ id base, r.IsBase id base → base.index < id.index
  /-- The base of a delayed signal has no base, -/
  base_of_delayed : ∀ id s base, r.get? id = some s → s.behavior = .delayed →
    s.origin.base? = some base → ∃ b, r.get? base = some b ∧ b.origin.base? = none
  /-- and it is delayed by one clock or more, up to the longest delay. -/
  count_of_delayed : ∀ id s base, r.get? id = some s → s.behavior = .delayed →
    s.origin.base? = some base → 1 ≤ s.origin.delayCount ∧ s.origin.delayCount ≤ 30
  /-- There are at most two steps from base to base. -/
  chain : ∀ id bases, List.IsChain r.IsBase (id :: bases) → bases.length ≤ 2
  /-- Whatever is delayed, and by whatever number, there are at most three calls, one inside the
  other, with no sum above 60. So many are needed, more depth gives nothing else, and the call answers
  or is refused. -/
  delay : ∀ id s n, r.get? id = some s → ∃ calls,
    (∀ calls', r.Nests id n calls' ↔ calls' = calls) ∧ calls.length + 1 ≤ 3 ∧
    (∀ call ∈ calls, call.2 ≤ 60) ∧
    (∀ depth, (delayWithin depth id n).IsOrderly r ↔ calls.length + 1 ≤ depth) ∧
    (∀ depth, calls.length + 1 ≤ depth → delayWithin depth id n r = Registry.delay id n r) ∧
    (Registry.delay id n).IsOrderly r

theorem WellNamed.nodup (h : r.WellNamed) : (r.signals.map Signal.name).Nodup := by
  rw [List.nodup_iff_getElem?_ne_getElem?]
  intro i j hij hj hname
  rw [List.length_map] at hj
  rw [List.getElem?_map, List.getElem?_map, List.getElem?_eq_getElem (hij.trans hj),
    List.getElem?_eq_getElem hj] at hname
  have hid := h.name_inj ⟨i⟩ ⟨j⟩ _ _ (List.getElem?_eq_getElem (hij.trans hj))
    (List.getElem?_eq_getElem hj) (Option.some.inj hname)
  exact hij.ne (SignalId.mk.inj hid)

theorem WellNamed.lookup_name (h : r.WellNamed) (hs : r.get? id = some s) :
    r.lookup s.name = some id := by
  cases hfound : r.lookup s.name with
  | none => exact absurd rfl (lookup_eq_none.mp hfound id s hs)
  | some id' =>
    obtain ⟨s', hs', hname⟩ := lookup_eq_some hfound
    rw [h.name_inj id' id s' s hs' hs hname]

/-- **Derivations are shallow** in every registry that calls can reach, whatever the names are and
however signals were declared. -/
theorem Reachable.derivesShallowly (h : r.Reachable) : r.DerivesShallowly where
  nodup := h.lineage.named.nodup
  lookup _ _ hs := h.lineage.named.lookup_name hs
  base_lt id base hbase := by
    obtain ⟨s, hs, hbase⟩ := hbase
    obtain ⟨b, -, hlt, -⟩ := h.lineage.base_earlier hs hbase
    exact hlt
  base_of_delayed id s base hs hdelayed hbase := by
    obtain ⟨count, ho⟩ := h.lineage.delay_of_delayed hs hdelayed hbase
    obtain ⟨b, hb, hdeclared⟩ := h.lineage.of_delay hs ho
    exact ⟨b, hb, by rw [hdeclared]; rfl⟩
  count_of_delayed id s base hs hdelayed hbase := by
    obtain ⟨count, ho⟩ := h.lineage.delay_of_delayed hs hdelayed hbase
    rw [ho]
    exact h.lineage.count_of_delay hs ho
  chain id bases hchain := by
    cases bases with
    | nil => exact Nat.zero_le 2
    | cons base bases =>
      obtain ⟨s, hs, -⟩ := (List.isChain_cons_cons.mp hchain).1
      exact (h.lineage.length_le _ hs hchain).trans s.origin.height_le
  delay id s n hs := by
    obtain ⟨calls, hcalls, hlength, hsmall⟩ := h.lineage.exists_nests hs n
    have henough : calls.length < maxDerivation :=
      Nat.lt_succ_of_le (hlength.trans s.origin.height_le)
    refine ⟨calls, fun calls' => ⟨fun h' => h'.unique hcalls, fun h' => h' ▸ hcalls⟩, henough, hsmall,
      fun depth => hcalls.isOrderly_iff depth, fun depth hdepth => ?_,
      (hcalls.isOrderly_iff maxDerivation).mpr henough⟩
    exact (hcalls.delayWithin_eq hdepth).trans (hcalls.delayWithin_eq henough).symm

/-- The calls of a registry with the v-bit of a delayed wire, and with a declared signal that has the
name of another delay of the wire and is found in its place. -/
def namesakeCalls : List Call :=
  [.declare "w" .wire .word, .declare "w$3" .delayed .word, .delay ⟨0⟩ 3, .delay ⟨0⟩ 30, .vBit ⟨2⟩]

/-- The v-bit of the longest delay is delayed that much again: this takes three calls, the last one
with the largest sum, which is refused. -/
theorem derivesShallowly_namesake :
    Registry.delay ⟨0⟩ 3 (run {} namesakeCalls) = .ok ⟨1⟩ (run {} namesakeCalls) ∧
    (run {} namesakeCalls).lookup "w$30[16]" = some ⟨3⟩ ∧
    (run {} namesakeCalls).Nests ⟨3⟩ 30 [(⟨2⟩, 30), (⟨0⟩, 60)] ∧
    ¬(delayWithin 2 ⟨3⟩ 30).IsOrderly (run {} namesakeCalls) ∧
    (Registry.delay ⟨3⟩ 30).IsOrderly (run {} namesakeCalls) ∧
    Registry.delay ⟨3⟩ 30 (run {} namesakeCalls) =
      .error (.refused (.illegalDelay "w" 60 30)) (run {} namesakeCalls) := by
  have hshallow := Reachable.derivesShallowly (.of_calls namesakeCalls)
  obtain ⟨calls, hcalls, -, -, hdepth, -, horderly⟩ := hshallow.delay ⟨3⟩ _ 30 rfl
  have hnests : (run {} namesakeCalls).Nests ⟨3⟩ 30 [(⟨2⟩, 30), (⟨0⟩, 60)] :=
    .slice rfl rfl (by decide) (.delay rfl rfl (by decide) (.refused rfl (by decide)))
  obtain rfl := (hcalls _).mp hnests
  refine ⟨rfl, hshallow.lookup ⟨3⟩ _ rfl, hnests, ?_, horderly, rfl⟩
  rw [hdepth 2]
  decide

end Registry

end AluPlacement
