import AluPlacement.Proofs.Logic.Canonicity

/-! # Lining up is evaluating every row again

The table of a function over a longer argument list could be made by evaluating the function in each of
the 16 rows, with the arguments at the positions that they have in the longer list. `alignTo` makes it
by transpositions instead, and the two agree (`getLsbD_alignTo`): lining up keeps the values of the
function, and a row is the assignment of its bits to the arguments.

The transpositions are those of `exchanges`: each move exchanges the position where an argument stands
with the position where it belongs, unless they are the same. Both are positions of a table in every
run, also in one that is refused in the end (`exchanges_lt`), so no transposition fails. -/

namespace AluPlacement.TruthFn

open Table (positions)

variable {f g h : TruthFn} {args rest : List SignalId} {s : SignalId} {k : Nat} {m m' : Alignment}

/-! ### The transpositions of a run -/

/-- The positions that a move exchanges, if any. -/
def Alignment.exchange? (m : Alignment) (k : Nat) (s : SignalId) : Option (Nat × Nat) :=
  match Alignment.target m.args s with
  | .ok (_, p) => if m.slot k = p then none else some (m.slot k, p)
  | .error _ => none

/-- The positions that the moves from argument `k` on exchange, as far as the moves come. -/
def Alignment.exchanges (m : Alignment) (k : Nat) : List SignalId → List (Nat × Nat)
  | [] => []
  | s :: rest =>
    (m.exchange? k s).toList ++
      match m.place k s with
      | .ok m' => m'.exchanges (k + 1) rest
      | .error _ => []

/-- The positions that are exchanged when `g` is lined up behind `args`. -/
def exchangesTo (args : List SignalId) (g : TruthFn) : List (Nat × Nat) :=
  Alignment.exchanges { args := args, table := g.table, trace := g.trace, slot := id } 0 g.args

/-- Transpose a table, pair by pair. -/
def transposeAll (pairs : List (Nat × Nat)) (t : Table) : Checked LogicError Table :=
  pairs.foldlM (fun t pair => t.transpose pair.1 pair.2) t

theorem exchange?_lt (hg : g.WellFormed) (hs : g.args[k]? = some s) (hm : m.Follows g k)
    {pair : Nat × Nat} (hpair : m.exchange? k s = some pair) :
    pair.1 < positions ∧ pair.2 < positions := by
  unfold Alignment.exchange? at hpair
  split at hpair
  · next args p ht =>
    split_ifs at hpair
    cases hpair
    obtain ⟨-, hlength, -, hp⟩ := target_spec ht hm.nodup hm.length_le
    have hk := (List.getElem?_eq_some_iff.mp hs).1
    have hpos := (List.getElem?_eq_some_iff.mp hp).1
    have hg' := hg.length_le
    exact ⟨hm.slot_lt k (by omega), by omega⟩
  · cases hpair

/-- A move transposes the positions that it exchanges. -/
theorem transposeAll_exchange? (h : m.place k s = .ok m') :
    transposeAll (m.exchange? k s).toList m.table = .ok m'.table := by
  obtain ⟨args, p, ht, hcases⟩ := place_eq_ok h
  unfold Alignment.exchange? transposeAll
  rw [ht]
  rcases hcases with ⟨hkp, rfl⟩ | ⟨hkp, table, htranspose, rfl⟩
  · simp [hkp, pure, Except.pure]
  · simp [hkp, htranspose]

/-- **In every run** the positions that are exchanged are positions of a table. -/
theorem exchanges_lt (hg : g.WellFormed) : ∀ (rest : List SignalId) {k : Nat} {m : Alignment},
    g.args.drop k = rest → m.Follows g k →
      ∀ pair ∈ m.exchanges k rest, pair.1 < positions ∧ pair.2 < positions
  | [], k, m, _, _ => nofun
  | s :: rest, k, m, hd, hm => by
    obtain ⟨hs, hd'⟩ := next_of_drop hd
    intro pair hpair
    unfold Alignment.exchanges at hpair
    rcases List.mem_append.mp hpair with hfirst | hlater
    · exact exchange?_lt hg hs hm (Option.mem_toList.mp hfirst)
    · split at hlater
      · next m' hplace =>
        exact exchanges_lt hg rest hd' (place_follows hg hs hm hplace).1 pair hlater
      · cases hlater

theorem transposeAll_exchanges : ∀ (rest : List SignalId) {k : Nat} {m m' : Alignment},
    m.placeFrom k rest = .ok m' → transposeAll (m.exchanges k rest) m.table = .ok m'.table
  | [], k, m, m', h => by
    cases h
    rfl
  | s :: rest, k, m, m', h => by
    unfold Alignment.placeFrom at h
    obtain ⟨m₁, hplace, h⟩ := Checked.bind_eq_ok.mp h
    unfold Alignment.exchanges transposeAll
    rw [hplace, List.foldlM_append]
    exact Checked.bind_eq_ok.mpr
      ⟨m₁.table, transposeAll_exchange? hplace, transposeAll_exchanges rest h⟩

/-! ### Rows -/

/-- The assignment of the bits of a row to arguments, each of which gets the bit of its position. -/
theorem bitsOf_idxOf (hn : args.Nodup) (r : Nat) {p : Nat} (hp : p < args.length) :
    bitsOf (fun s => r.testBit (args.idxOf s)) args p = r.testBit p := by
  rw [bitsOf_of_getElem? (List.getElem?_eq_getElem hp), hn.idxOf_getElem p hp]

/-- **Every row** of a well-formed function is its value where the arguments have the bits of the
row. -/
theorem WellFormed.getLsbD_table (hf : f.WellFormed) {r : Nat} (hr : r < 16) :
    f.table.getLsbD r = f.evaluate fun s => r.testBit (f.args.idxOf s) := by
  have hrow : f.table.getLsbD r = f.table.value r.testBit := by
    unfold Table.value
    rw [Table.rowOf_testBit hr]
  rw [hrow, evaluate_eq_value hf.length_le]
  exact hf.dependsBelow _ _ fun p hp => (bitsOf_idxOf hf.nodup r hp).symm

theorem getLsbD_alignTo (hn : args.Nodup) (hl : args.length ≤ positions) (hg : g.WellFormed)
    (hal : g.alignTo args = .ok h) {r : Nat} (hr : r < 16) :
    h.table.getLsbD r = g.evaluate fun s => r.testBit (h.args.idxOf s) := by
  obtain ⟨hh, -, hvalue⟩ := alignTo_spec hn hl hg hal
  rw [hh.getLsbD_table hr, hvalue]

/-! ### The merge -/

/-- `g` is merged with `f` as if its rows were evaluated again over the joint arguments. -/
structure MergesByRows (f g : TruthFn) : Prop where
  /-- There is no merge if there are more than four arguments together. -/
  fails_iff : (∃ e, g.alignTo f.args = .error e) ↔ 4 < (f.args ++ g.args).toFinset.card
  /-- It is the number of arguments that is reported, and nothing else goes wrong. -/
  refused : ∀ e, g.alignTo f.args = .error e → e = .refused (.tooManyArguments 4)
  /-- The arguments are those of `f`, and the new ones of `g` after them. -/
  args : ∀ h, g.alignTo f.args = .ok h → h.args = f.args ++ g.args.filter (· ∉ f.args)
  /-- Row `r` is the value of `g` where each argument has the bit of its position. -/
  rows : ∀ h, g.alignTo f.args = .ok h → ∀ r < 16,
    h.table.getLsbD r = g.evaluate fun s => r.testBit (h.args.idxOf s)
  /-- The trace is that of `g`, where each argument has the number of its position. -/
  trace : ∀ h, g.alignTo f.args = .ok h → ∃ ρ, h.trace = g.trace.map (Token.rename ρ) ∧
    ∀ k s, g.args[k]? = some s → ρ k = h.args.idxOf s
  /-- The table comes about by transpositions. -/
  transposes : ∀ h, g.alignTo f.args = .ok h →
    transposeAll (exchangesTo f.args g) g.table = .ok h.table
  /-- No transposition leaves the four positions, also if there is no merge in the end. -/
  inRange : ∀ pair ∈ exchangesTo f.args g, pair.1 < 4 ∧ pair.2 < 4

/-- Up to four arguments are lined up, and more are refused. -/
theorem alignTo_cases (hf : f.WellFormed) (hg : g.WellFormed) :
    (∃ h, g.alignTo f.args = .ok h ∧ h.args = joined f.args g.args ∧
      ¬positions < (f.args ++ g.args).toFinset.card) ∨
    g.alignTo f.args = .error (.refused (.tooManyArguments positions)) ∧
      positions < (f.args ++ g.args).toFinset.card := by
  obtain ⟨hroom, hfull⟩ := alignTo_result hf.nodup hf.length_le hg
  rw [card_toFinset_append hf.nodup hg.nodup]
  by_cases hlt : positions < (joined f.args g.args).length
  · exact Or.inr ⟨hfull hlt, hlt⟩
  · obtain ⟨h, hal, hargs⟩ := hroom (not_lt.mp hlt)
    exact Or.inl ⟨h, hal, hargs, hlt⟩

theorem trace_of_alignTo (hf : f.WellFormed) (hg : g.WellFormed) (hal : g.alignTo f.args = .ok h) :
    ∃ ρ, h.trace = g.trace.map (Token.rename ρ) ∧
      ∀ k s, g.args[k]? = some s → ρ k = h.args.idxOf s := by
  obtain ⟨ρ, htrace, -, hplace⟩ := alignTo_renames hf.nodup hf.length_le hg hal
  obtain ⟨hh, -, -⟩ := alignTo_spec hf.nodup hf.length_le hg hal
  refine ⟨ρ, htrace, fun k s hs => ?_⟩
  obtain ⟨hlt, hget⟩ := List.getElem?_eq_some_iff.mp (hplace k s hs)
  rw [← hget, hh.nodup.idxOf_getElem _ hlt]

theorem transposeAll_exchangesTo (hal : g.alignTo args = .ok h) :
    transposeAll (exchangesTo args g) g.table = .ok h.table := by
  obtain ⟨m, hm, hal⟩ := Checked.bind_eq_ok.mp hal
  cases hal
  exact transposeAll_exchanges g.args hm

/-- **Merging by transpositions is merging row by row.** -/
theorem WellFormed.mergesByRows (hf : f.WellFormed) (hg : g.WellFormed) : MergesByRows f g where
  fails_iff := by
    rcases alignTo_cases hf hg with ⟨h, hok, -, hle⟩ | ⟨hrefused, hlt⟩
    · exact iff_of_false (by rw [hok]; nofun) hle
    · exact iff_of_true ⟨_, hrefused⟩ hlt
  refused e he := by
    rcases alignTo_cases hf hg with ⟨h, hok, -, -⟩ | ⟨hrefused, -⟩
    · rw [hok] at he
      cases he
    · exact Except.error.inj (he.symm.trans hrefused)
  args h hal := by
    rcases alignTo_cases hf hg with ⟨h', hok, hargs, -⟩ | ⟨hrefused, -⟩
    · rw [Except.ok.inj (hal.symm.trans hok)]
      exact hargs
    · rw [hrefused] at hal
      cases hal
  rows h hal r hr := getLsbD_alignTo hf.nodup hf.length_le hg hal hr
  trace h hal := trace_of_alignTo hf hg hal
  transposes h hal := transposeAll_exchangesTo hal
  inRange := exchanges_lt hg g.args rfl (follows_start g hf.nodup hf.length_le)

/-- Two functions of shared arguments in different orders: each of the two transpositions moves an
argument to its place, and the second one finds its argument displaced by the first. -/
theorem mergesByRows_displaced :
    ∃ f g h : TruthFn,
      (Expr.and (.signal ⟨0⟩) (.signal ⟨1⟩)).build = .ok f ∧
      (Expr.and (.or (.signal ⟨1⟩) (.not (.signal ⟨2⟩))) (.signal ⟨0⟩)).build = .ok g ∧
      g.args = [⟨1⟩, ⟨2⟩, ⟨0⟩] ∧ exchangesTo f.args g = [(0, 1), (0, 2)] ∧
      g.alignTo f.args = .ok h ∧ h.args = [⟨0⟩, ⟨1⟩, ⟨2⟩] ∧
      (∀ r < 16, h.table.getLsbD r = g.evaluate fun s => r.testBit (h.args.idxOf s)) ∧
      transposeAll [(0, 1), (0, 2)] g.table = .ok h.table := by
  have hf : (Expr.and (.signal ⟨0⟩) (.signal ⟨1⟩)).build =
      .ok ⟨[⟨0⟩, ⟨1⟩], 0x8888, [.arg 1, .arg 0, .gate .and]⟩ := by decide
  have hg : (Expr.and (.or (.signal ⟨1⟩) (.not (.signal ⟨2⟩))) (.signal ⟨0⟩)).build =
      .ok ⟨[⟨1⟩, ⟨2⟩, ⟨0⟩], 0xb0b0, [.arg 2, .arg 1, .not, .arg 0, .gate .or, .gate .and]⟩ := by
    decide
  have hmerges := WellFormed.mergesByRows (IsBuilt.wellFormed ⟨_, hf⟩) (IsBuilt.wellFormed ⟨_, hg⟩)
  obtain ⟨h, hal⟩ : ∃ h, alignTo [⟨0⟩, ⟨1⟩] ⟨[⟨1⟩, ⟨2⟩, ⟨0⟩], 0xb0b0,
      [.arg 2, .arg 1, .not, .arg 0, .gate .or, .gate .and]⟩ = .ok h := ⟨_, rfl⟩
  exact ⟨_, _, h, hf, hg, rfl, by decide, hal, hmerges.args h hal, hmerges.rows h hal,
    hmerges.transposes h hal⟩

end AluPlacement.TruthFn
