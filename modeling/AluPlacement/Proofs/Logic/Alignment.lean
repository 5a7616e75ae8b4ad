import AluPlacement.Logic.TruthFn
import AluPlacement.Proofs.List
import AluPlacement.Proofs.Logic.TableValue
import Mathlib.Data.List.Infix
import Mathlib.Data.List.Nodup

/-! # Lining up arguments keeps the meaning of a function

A truth function is well formed if its arguments are pairwise different, there are at most four, and
its table ignores the positions beyond them. Bringing such a function to a longer argument list
moves its arguments one at a time. The invariant `Alignment.Follows` says that after any number of
moves the table is the old one read through `slot`, a renaming of the four positions, and that the
arguments moved so far stand where the list wants them.

* `place_follows`: one move keeps the invariant; `placeFrom_follows`: so do all of them.
* `alignTo_spec`: the function over the longer list is well formed and has the same values. -/

namespace AluPlacement.TruthFn

open Table (positions exchange)

/-- The bits of an argument list; a position without an argument is off. -/
def bitsOf (value : SignalId → Bool) (args : List SignalId) (p : Nat) : Bool :=
  (args[p]?.map value).getD false

/-- The arguments are pairwise different and at most four, and the table depends on them only. -/
structure WellFormed (f : TruthFn) : Prop where
  nodup : f.args.Nodup
  length_le : f.args.length ≤ positions
  dependsBelow : f.table.DependsBelow f.args.length

/-! ### Rows and argument lists -/

theorem row_eq_rowOf (value : SignalId → Bool) {args : List SignalId}
    (h : args.length ≤ positions) : row value args = Table.rowOf (bitsOf value args) := by
  match args, h with
  | [], _ => rfl
  | [_], _ => simp [row, Table.rowOf, bitsOf]
  | [_, _], _ => simp [row, Table.rowOf, bitsOf]
  | [_, _, _], _ => simp [row, Table.rowOf, bitsOf]
  | [_, _, _, _], _ => simp [row, Table.rowOf, bitsOf]
  | _ :: _ :: _ :: _ :: _ :: _, h =>
    simp only [List.length_cons, positions] at h
    omega

theorem evaluate_eq_value {f : TruthFn} (h : f.args.length ≤ positions)
    (value : SignalId → Bool) : f.evaluate value = f.table.value (bitsOf value f.args) := by
  unfold evaluate Table.value
  rw [row_eq_rowOf value h]

theorem bitsOf_of_getElem? {value : SignalId → Bool} {args : List SignalId} {p : Nat}
    {s : SignalId} (h : args[p]? = some s) : bitsOf value args p = value s := by
  simp [bitsOf, h]

/-- A longer list has the same bits at the positions of the shorter one. -/
theorem bitsOf_of_isPrefix (value : SignalId → Bool) {args args' : List SignalId}
    (h : args <+: args') {p : Nat} (hp : p < args.length) :
    bitsOf value args' p = bitsOf value args p := by
  obtain ⟨rest, rfl⟩ := h
  unfold bitsOf
  rw [List.getElem?_append_left hp]

/-- A well-formed function may be evaluated over any extension of its arguments. -/
theorem WellFormed.evaluate_eq_of_isPrefix {f : TruthFn} (hf : f.WellFormed)
    {args : List SignalId} (h : f.args <+: args) (value : SignalId → Bool) :
    f.evaluate value = f.table.value (bitsOf value args) := by
  rw [evaluate_eq_value hf.length_le]
  exact hf.dependsBelow _ _ fun p hp => (bitsOf_of_isPrefix value h hp).symm

/-! ### One move -/

theorem target_eq_ok {args args' : List SignalId} {s : SignalId} {p : Nat}
    (h : Alignment.target args s = .ok (args', p)) :
    (args.idxOf? s = some p ∧ args' = args) ∨
      (s ∉ args ∧ args.length < positions ∧ args' = args ++ [s] ∧ p = args.length) := by
  unfold Alignment.target at h
  split at h
  · next q hq =>
    cases h
    exact Or.inl ⟨hq, rfl⟩
  · next hq =>
    split_ifs at h with hlt
    · cases h
      exact Or.inr ⟨by simpa [List.idxOf?_eq_none_iff] using hq, hlt, rfl, rfl⟩
    · cases h

/-- The list with the place of `s` extends the old one and has `s` there. -/
theorem target_spec {args args' : List SignalId} {s : SignalId} {p : Nat}
    (h : Alignment.target args s = .ok (args', p)) (hn : args.Nodup)
    (hl : args.length ≤ positions) :
    args'.Nodup ∧ args'.length ≤ positions ∧ args <+: args' ∧ args'[p]? = some s := by
  rcases target_eq_ok h with ⟨hp, rfl⟩ | ⟨hs, hlt, rfl, rfl⟩
  · refine ⟨hn, hl, List.prefix_refl _, ?_⟩
    obtain ⟨hlt, hget, -⟩ := List.idxOf?_eq_some_iff.mp hp
    rw [List.getElem?_eq_getElem hlt]
    simpa using hget
  · refine ⟨?_, by rw [List.length_append]; exact hlt, List.prefix_append _ _, by simp⟩
    rw [List.nodup_append]
    refine ⟨hn, by simp, fun a ha b hb => ?_⟩
    rintro rfl
    simp only [List.mem_singleton] at hb
    exact hs (hb ▸ ha)

/-- What one move does: nothing to the table if the argument stands at its place, otherwise a
transposition with that place. -/
theorem place_eq_ok {m m' : Alignment} {k : Nat} {s : SignalId} (h : m.place k s = .ok m') :
    ∃ args p, Alignment.target m.args s = .ok (args, p) ∧
      ((m.slot k = p ∧ m' = { m with args := args }) ∨
        (m.slot k ≠ p ∧ ∃ table, (m.table.transpose (m.slot k) p : Checked LogicError Table) =
            .ok table ∧
          m' = { args := args, table := table
                 trace := m.trace.map (Token.swapSlots (m.slot k) p)
                 slot := fun i => if i = k then p
                   else if k < i ∧ m.slot i = p then m.slot k else m.slot i })) := by
  unfold Alignment.place at h
  obtain ⟨⟨args, p⟩, ht, h⟩ := Checked.bind_eq_ok.mp h
  refine ⟨args, p, ht, ?_⟩
  simp only at h
  split_ifs at h with hp
  · cases h
    exact Or.inl ⟨hp, rfl⟩
  · obtain ⟨table, htr, h⟩ := Checked.bind_eq_ok.mp h
    cases h
    exact Or.inr ⟨hp, table, htr, rfl⟩

/-- The first `k` arguments of `g` were brought to their places: the table is that of `g` with its
positions renamed by `slot`. -/
structure Alignment.Follows (g : TruthFn) (k : Nat) (m : Alignment) : Prop where
  nodup : m.args.Nodup
  length_le : m.args.length ≤ positions
  slot_lt : ∀ i < positions, m.slot i < positions
  slot_inj : ∀ i < positions, ∀ j < positions, m.slot i = m.slot j → i = j
  value_eq : ∀ b, m.table.value b = g.table.value fun i => b (m.slot i)
  placed : ∀ i < k, ∀ s, g.args[i]? = some s → m.args[m.slot i]? = some s

theorem exchange_inj {i j p q : Nat} (h : exchange i j p = exchange i j q) : p = q := by
  unfold exchange at h
  split_ifs at h <;> omega

/-- A list with the arguments moved so far, extended, still has them at their places. -/
theorem Alignment.Follows.getElem?_of_isPrefix {g : TruthFn} {k : Nat} {m : Alignment}
    (hm : m.Follows g k) {args : List SignalId} (h : m.args <+: args) {i : Nat} (hi : i < k)
    {s : SignalId} (hs : g.args[i]? = some s) : args[m.slot i]? = some s := by
  obtain ⟨rest, rfl⟩ := h
  have hp := hm.placed i hi s hs
  rw [List.getElem?_append_left (List.getElem?_eq_some_iff.mp hp).1, hp]

/-- No argument that was moved before stands where the next one stands. -/
theorem Alignment.Follows.slot_ne {g : TruthFn} (hg : g.WellFormed) {k : Nat} {m : Alignment}
    (hm : m.Follows g k) {args : List SignalId} (h : m.args <+: args) {s : SignalId}
    (hs : g.args[k]? = some s) {p : Nat} (hp : args[p]? = some s) : ∀ i < k, m.slot i ≠ p := by
  rintro i hi rfl
  have hik : i < g.args.length := lt_trans hi (List.getElem?_eq_some_iff.mp hs).1
  have hgi := List.getElem?_eq_getElem hik
  have hsame := hm.getElem?_of_isPrefix h hi hgi
  rw [hp, ← hgi, ← hs] at hsame
  exact absurd ((List.getElem?_inj hik hg.nodup).mp hsame.symm) hi.ne

/-- The new places are the old ones with the place of argument `k` and `p` exchanged. -/
theorem Alignment.Follows.slot_eq_exchange {g : TruthFn} {k : Nat} {m : Alignment}
    (hm : m.Follows g k) (hk : k < positions) {p : Nat} (hne : ∀ i < k, m.slot i ≠ p) :
    ∀ i < positions, (if i = k then p
      else if k < i ∧ m.slot i = p then m.slot k else m.slot i) =
        exchange (m.slot k) p (m.slot i) := by
  intro i hi
  unfold exchange
  by_cases hik : i = k
  · subst hik
    simp
  · have hne' : m.slot i ≠ m.slot k := fun he => hik (hm.slot_inj i hi k hk he)
    have := hne i
    split_ifs <;> first | rfl | omega

/-- **One move** brings one more argument to its place and keeps those that stand at theirs. -/
theorem place_follows {g : TruthFn} (hg : g.WellFormed) {k : Nat} {m m' : Alignment} {s : SignalId}
    (hs : g.args[k]? = some s) (hm : m.Follows g k) (h : m.place k s = .ok m') :
    m'.Follows g (k + 1) ∧ m.args <+: m'.args := by
  obtain ⟨args, p, ht, hcases⟩ := place_eq_ok h
  obtain ⟨hn, hl, hpre, hp⟩ := target_spec ht hm.nodup hm.length_le
  have hk : k < positions :=
    lt_of_lt_of_le (List.getElem?_eq_some_iff.mp hs).1 hg.length_le
  have hp4 : p < positions := lt_of_lt_of_le (List.getElem?_eq_some_iff.mp hp).1 hl
  rcases hcases with ⟨hkp, rfl⟩ | ⟨hkp, table, htr, rfl⟩
  · refine ⟨⟨hn, hl, hm.slot_lt, hm.slot_inj, hm.value_eq, fun i hi t hti => ?_⟩, hpre⟩
    rcases Nat.lt_succ_iff_lt_or_eq.mp hi with hi | rfl
    · exact hm.getElem?_of_isPrefix hpre hi hti
    · rw [hs] at hti
      cases hti
      simpa [hkp] using hp
  · have hslot := hm.slot_eq_exchange hk (hm.slot_ne hg hpre hs hp)
    refine ⟨⟨hn, hl, fun i hi => ?_, fun i hi j hj hij => ?_, fun b => ?_, fun i hi t hti => ?_⟩,
      hpre⟩
    · simp only
      rw [hslot i hi]
      exact Table.exchange_lt (hm.slot_lt k hk) hp4 (hm.slot_lt i hi)
    · simp only at hij
      rw [hslot i hi, hslot j hj] at hij
      exact hm.slot_inj i hi j hj (exchange_inj hij)
    · rw [Table.value_transpose htr, hm.value_eq]
      exact Table.value_congr _ fun i hi => by simp only [hslot i hi]
    · simp only
      rcases Nat.lt_succ_iff_lt_or_eq.mp hi with hi | rfl
      · rw [if_neg hi.ne, if_neg fun h => absurd h.1 (by omega)]
        exact hm.getElem?_of_isPrefix hpre hi hti
      · rw [hs] at hti
        cases hti
        simpa using hp

/-! ### All moves -/

/-- What every move keeps holds after all of them. -/
theorem placeFrom_induction {g : TruthFn} {P : Nat → Alignment → Prop}
    (hstep : ∀ {k m m' s}, g.args[k]? = some s → P k m → m.place k s = .ok m' → P (k + 1) m') :
    ∀ (rest : List SignalId) {k : Nat} {m m' : Alignment}, g.args.drop k = rest → P k m →
      m.placeFrom k rest = .ok m' → P (k + rest.length) m'
  | [], k, m, m', _, hm, h => by
    cases h
    exact hm
  | s :: rest, k, m, m', hd, hm, h => by
    obtain ⟨hs, hd'⟩ := next_of_drop hd
    unfold Alignment.placeFrom at h
    obtain ⟨m₁, h₁, h⟩ := Checked.bind_eq_ok.mp h
    have hm' := placeFrom_induction hstep rest hd' (hstep hs hm h₁) h
    rwa [List.length_cons, show k + (rest.length + 1) = k + 1 + rest.length by omega]

theorem placeFrom_follows {g : TruthFn} (hg : g.WellFormed) {m m' : Alignment}
    (hm : m.Follows g 0) (h : m.placeFrom 0 g.args = .ok m') :
    m'.Follows g g.args.length ∧ m.args <+: m'.args := by
  have hall := placeFrom_induction (g := g)
    (P := fun k m' => m'.Follows g k ∧ m.args <+: m'.args)
    (fun hs hm hplace => ?_) g.args rfl ⟨hm, List.prefix_refl _⟩ h
  · rwa [Nat.zero_add] at hall
  · obtain ⟨hnext, hpre⟩ := place_follows hg hs hm.1 hplace
    exact ⟨hnext, hm.2.trans hpre⟩

/-- Before the first move every argument stands at its own position. -/
theorem follows_start (g : TruthFn) {args : List SignalId} (hn : args.Nodup)
    (hl : args.length ≤ positions) :
    Alignment.Follows g 0 { args := args, table := g.table, trace := g.trace, slot := id } :=
  ⟨hn, hl, fun _ hi => hi, fun _ _ _ _ h => h, fun _ => rfl, fun _ hi => absurd hi (by omega)⟩

/-- **Lining up** keeps a function well formed and keeps its values. -/
theorem alignTo_spec {args : List SignalId} {g h : TruthFn} (hn : args.Nodup)
    (hl : args.length ≤ positions) (hg : g.WellFormed) (hal : g.alignTo args = .ok h) :
    h.WellFormed ∧ args <+: h.args ∧ ∀ value, h.evaluate value = g.evaluate value := by
  unfold alignTo at hal
  obtain ⟨m, hm, hal⟩ := Checked.bind_eq_ok.mp hal
  cases hal
  obtain ⟨hf, hpre⟩ := placeFrom_follows hg (follows_start g hn hl) hm
  -- the places of the arguments of `g` lie within the new list
  have hplace : ∀ i (hi : i < g.args.length), m.args[m.slot i]? = some g.args[i] :=
    fun i hi => hf.placed i hi _ (List.getElem?_eq_getElem hi)
  refine ⟨⟨hf.nodup, hf.length_le, fun b b' hb => ?_⟩, hpre, fun value => ?_⟩
  · rw [hf.value_eq, hf.value_eq]
    refine hg.dependsBelow _ _ fun i hi => hb _ ?_
    exact (List.getElem?_eq_some_iff.mp (hplace i hi)).1
  · rw [evaluate_eq_value hf.length_le, evaluate_eq_value hg.length_le, hf.value_eq]
    refine hg.dependsBelow _ _ fun i hi => ?_
    rw [bitsOf_of_getElem? (hplace i hi), bitsOf_of_getElem? (List.getElem?_eq_getElem hi)]

end AluPlacement.TruthFn
