import AluPlacement.Proofs.Logic.Rendering
import Mathlib.Data.Finset.Card

/-! # When two functions can be joined

Lining up the arguments of `g` behind those of `f` needs a position for every argument of both, and a
table has four. So a gate joins `f` and `g` exactly if their argument lists have at most four
different signals together, and the arguments of the result are then those of `f`, followed by the
new ones of `g` (`joined`).

A connective needs no position at all for a function whose table is constant: it takes a shortcut,
also if the function still has arguments. `connect_result` puts both cases together. Neither the
shortcut nor the number of signals depends on the order of the operands, so a connective answers in
one order if and only if it answers in the other, and with the same values. -/

namespace AluPlacement

theorem Gate.eval_comm (gate : Gate) (a b : Bool) : gate.eval a b = gate.eval b a := by
  cases gate with
  | and => exact Bool.and_comm a b
  | or => exact Bool.or_comm a b
  | xor => exact Bool.xor_comm a b

namespace TruthFn

open Table (positions)

variable {f g h : TruthFn} {args rest : List SignalId} {s : SignalId} {gate : Gate}

/-! ### Joint argument lists -/

/-- A list, followed by the entries of another one that are new to it. -/
def joined (args rest : List SignalId) : List SignalId := args ++ rest.filter (· ∉ args)

theorem mem_joined : s ∈ joined args rest ↔ s ∈ args ∨ s ∈ rest := by
  simp only [joined, List.mem_append, List.mem_filter, decide_eq_true_eq]
  by_cases hs : s ∈ args <;> simp [hs]

theorem nodup_joined (hargs : args.Nodup) (hrest : rest.Nodup) : (joined args rest).Nodup := by
  refine hargs.append (hrest.filter _) (List.disjoint_iff_ne.mpr fun a ha b hb => ?_)
  rintro rfl
  have hnew := (List.mem_filter.mp hb).2
  simp [ha] at hnew

/-- The joint list has every signal once. -/
theorem card_toFinset_append (hargs : args.Nodup) (hrest : rest.Nodup) :
    (args ++ rest).toFinset.card = (joined args rest).length := by
  rw [← List.toFinset_card_of_nodup (nodup_joined hargs hrest)]
  congr 1
  ext s
  simp [mem_joined]

theorem joined_singleton_of_mem (hs : s ∈ args) : joined args [s] = args := by
  simp [joined, hs]

theorem joined_singleton_of_not_mem (hs : s ∉ args) : joined args [s] = args ++ [s] := by
  simp [joined, hs]

/-- The entries may be put in one at a time. -/
theorem joined_cons (args : List SignalId) (hs : s ∉ rest) :
    joined args (s :: rest) = joined (joined args [s]) rest := by
  by_cases hmem : s ∈ args
  · rw [joined_singleton_of_mem hmem]
    simp [joined, hmem]
  · rw [joined_singleton_of_not_mem hmem]
    have hsame : rest.filter (· ∉ args ++ [s]) = rest.filter (· ∉ args) := by
      refine List.filter_congr fun a ha => ?_
      have hne : a ≠ s := fun he => hs (he ▸ ha)
      simp [hne]
    simp only [joined, hsame]
    simp [hmem]

theorem joined_self (args : List SignalId) : joined args args = args := by
  have hnone : args.filter (· ∉ args) = [] := List.filter_eq_nil_iff.mpr fun a ha => by simp [ha]
  simp only [joined, hnone, List.append_nil]

/-! ### One move -/

theorem target_of_room (hroom : (joined args [s]).length ≤ positions) :
    ∃ p, Alignment.target args s = .ok (joined args [s], p) := by
  unfold Alignment.target
  cases hp : args.idxOf? s with
  | some p =>
    have hs : s ∈ args := List.isSome_idxOf?.mp (by rw [hp]; rfl)
    rw [joined_singleton_of_mem hs]
    exact ⟨p, rfl⟩
  | none =>
    have hs : s ∉ args := List.idxOf?_eq_none_iff.mp hp
    rw [joined_singleton_of_not_mem hs] at hroom ⊢
    have hlt : args.length < positions := by
      rw [List.length_append] at hroom
      exact hroom
    exact ⟨args.length, if_pos hlt⟩

theorem target_of_full (hargs : args.length ≤ positions)
    (hfull : positions < (joined args [s]).length) :
    Alignment.target args s = .error (.refused (.tooManyArguments positions)) := by
  have hs : s ∉ args := by
    intro hs
    rw [joined_singleton_of_mem hs] at hfull
    omega
  have hlt : ¬args.length < positions := by
    rw [joined_singleton_of_not_mem hs, List.length_append, List.length_singleton] at hfull
    omega
  unfold Alignment.target
  rw [List.idxOf?_eq_none_iff.mpr hs]
  exact if_neg hlt

/-- **One move answers if there is room.** Both positions of its transposition are positions of a
table. -/
theorem place_of_room (hg : g.WellFormed) {k : Nat} {m : Alignment} (hs : g.args[k]? = some s)
    (hm : m.Follows g k) (hroom : (joined m.args [s]).length ≤ positions) :
    ∃ m', m.place k s = .ok m' ∧ m'.args = joined m.args [s] := by
  obtain ⟨p, htarget⟩ := target_of_room hroom
  obtain ⟨-, hlength, -, hp⟩ := target_spec htarget hm.nodup hm.length_le
  have hk : k < positions := by
    have := (List.getElem?_eq_some_iff.mp hs).1
    have := hg.length_le
    omega
  have hpos : p < positions := by
    have := (List.getElem?_eq_some_iff.mp hp).1
    omega
  unfold Alignment.place
  rw [htarget]
  show ∃ m', (if m.slot k = p then _ else _) = _ ∧ _
  by_cases hkp : m.slot k = p
  · rw [if_pos hkp]
    exact ⟨_, rfl, rfl⟩
  · rw [if_neg hkp]
    have htranspose : (m.table.transpose (m.slot k) p : Checked LogicError Table) = .ok _ :=
      Table.transpose_eq_ok.mpr (Or.inr ⟨hkp, ⟨hm.slot_lt k hk, hpos⟩, rfl⟩)
    rw [htranspose]
    exact ⟨_, rfl, rfl⟩

theorem place_of_full {k : Nat} {m : Alignment} (hm : m.Follows g k)
    (hfull : positions < (joined m.args [s]).length) :
    m.place k s = .error (.refused (.tooManyArguments positions)) := by
  unfold Alignment.place
  rw [target_of_full hm.length_le hfull]
  rfl

/-! ### All moves -/

/-- The moves answer if there is room for all arguments, and are refused otherwise. -/
theorem placeFrom_result (hg : g.WellFormed) : ∀ (rest : List SignalId) {k : Nat} {m : Alignment},
    g.args.drop k = rest → m.Follows g k →
      ((joined m.args rest).length ≤ positions →
        ∃ m', m.placeFrom k rest = .ok m' ∧ m'.args = joined m.args rest) ∧
      (positions < (joined m.args rest).length →
        m.placeFrom k rest = .error (.refused (.tooManyArguments positions)))
  | [], k, m, _, hm => by
    have hnil : joined m.args [] = m.args := List.append_nil _
    have hlength := hm.length_le
    rw [hnil]
    exact ⟨fun _ => ⟨m, rfl, rfl⟩, fun hfull => by omega⟩
  | s :: rest, k, m, hd, hm => by
    obtain ⟨hs, hd'⟩ := next_of_drop hd
    have hnodup : (s :: rest).Nodup := hd ▸ hg.nodup.sublist (List.drop_sublist k g.args)
    have hcons := joined_cons m.args (List.nodup_cons.mp hnodup).1
    have hgrow : (joined m.args [s]).length ≤ (joined m.args (s :: rest)).length := by
      rw [hcons]
      simp [joined]
    unfold Alignment.placeFrom
    by_cases hroom : (joined m.args [s]).length ≤ positions
    · obtain ⟨m₁, hplace, hargs⟩ := place_of_room hg hs hm hroom
      have hm₁ := (place_follows hg hs hm hplace).1
      have hrest := placeFrom_result hg rest hd' hm₁
      rw [hargs, ← hcons] at hrest
      rw [hplace]
      exact hrest
    · rw [place_of_full hm (by omega)]
      exact ⟨fun hall => by omega, fun _ => rfl⟩

/-- **Lining up** answers if the joint list has at most four entries, and is refused otherwise. -/
theorem alignTo_result (hn : args.Nodup) (hl : args.length ≤ positions) (hg : g.WellFormed) :
    ((joined args g.args).length ≤ positions →
      ∃ h, g.alignTo args = .ok h ∧ h.args = joined args g.args) ∧
    (positions < (joined args g.args).length →
      g.alignTo args = .error (.refused (.tooManyArguments positions))) := by
  obtain ⟨hroom, hfull⟩ := placeFrom_result hg g.args rfl (follows_start g hn hl)
  refine ⟨fun hle => ?_, fun hlt => ?_⟩
  · obtain ⟨m, hm, hargs⟩ := hroom hle
    exact ⟨⟨m.args, m.table, m.trace⟩, Checked.bind_eq_ok.mpr ⟨m, hm, rfl⟩, hargs⟩
  · exact Checked.bind_eq_error.mpr (Or.inl (hfull hlt))

/-! ### Connectives -/

/-- The table is false in every row or true in every row. -/
def IsConstant (f : TruthFn) : Prop := f.table = Table.never ∨ f.table = Table.always

/-- The connective that computes a gate. -/
def connect : Gate → TruthFn → TruthFn → Checked LogicError TruthFn
  | .and => and
  | .or => or
  | .xor => xor

theorem isConstant_iff : f.IsConstant ↔ f.isFalse = true ∨ f.isTrue = true := by
  simp [IsConstant, isFalse, isTrue]

/-- A shortcut needs no room. -/
theorem connect_of_isConstant (gate : Gate) (hconst : f.IsConstant ∨ g.IsConstant) :
    ∃ h, connect gate f g = .ok h := by
  rw [isConstant_iff, isConstant_iff] at hconst
  cases gate with
  | and =>
    simp only [connect, and]
    split_ifs
    · exact ⟨_, rfl⟩
    · exact ⟨_, rfl⟩
    · exact ⟨_, rfl⟩
    · simp_all
  | or =>
    simp only [connect, or]
    split_ifs
    · exact ⟨_, rfl⟩
    · exact ⟨_, rfl⟩
    · exact ⟨_, rfl⟩
    · simp_all
  | xor =>
    simp only [connect, xor]
    split_ifs
    · exact ⟨_, rfl⟩
    · exact ⟨_, rfl⟩
    · exact ⟨_, rfl⟩
    · exact ⟨_, rfl⟩
    · simp_all

theorem connect_of_not_isConstant (hf : ¬f.IsConstant) (hg : ¬g.IsConstant) :
    connect gate f g = combine gate f g := by
  rw [isConstant_iff, not_or] at hf hg
  cases gate <;> simp [connect, and, or, xor, hf, hg]

theorem computes_connect {φ ψ : (SignalId → Bool) → Bool} (hf : f.Computes φ) (hg : g.Computes ψ)
    (hc : connect gate f g = .ok h) : h.Computes fun value => gate.eval (φ value) (ψ value) := by
  cases gate with
  | and => exact computes_and hf hg hc
  | or => exact computes_or hf hg hc
  | xor => exact computes_xor hf hg hc

/-- The two functions need more positions than a table has. -/
def Overflows (f g : TruthFn) : Prop :=
  ¬f.IsConstant ∧ ¬g.IsConstant ∧ 4 < (f.args ++ g.args).toFinset.card

theorem overflows_comm : f.Overflows g ↔ g.Overflows f := by
  have hcard : (f.args ++ g.args).toFinset = (g.args ++ f.args).toFinset := by
    rw [List.toFinset_append, List.toFinset_append, Finset.union_comm]
  unfold Overflows
  rw [hcard]
  constructor <;> exact fun ⟨h1, h2, h3⟩ => ⟨h2, h1, h3⟩

/-- **A connective is refused if the operands need too many positions, and answers otherwise.** -/
theorem connect_result (hf : f.WellFormed) (hg : g.WellFormed) (gate : Gate) :
    (f.Overflows g → connect gate f g = .error (.refused (.tooManyArguments 4))) ∧
    (¬f.Overflows g → ∃ h, connect gate f g = .ok h ∧
      (¬f.IsConstant → ¬g.IsConstant → h.args = joined f.args g.args)) := by
  obtain ⟨hroom, hfull⟩ := alignTo_result hf.nodup hf.length_le hg
  have hcard := card_toFinset_append hf.nodup hg.nodup
  refine ⟨fun ⟨hcf, hcg, hmany⟩ => ?_, fun hfits => ?_⟩
  · rw [connect_of_not_isConstant hcf hcg]
    rw [hcard] at hmany
    exact Checked.bind_eq_error.mpr (Or.inl (hfull hmany))
  · by_cases hconst : f.IsConstant ∨ g.IsConstant
    · obtain ⟨h, hok⟩ := connect_of_isConstant gate hconst
      exact ⟨h, hok, fun hcf hcg => absurd hconst (not_or.mpr ⟨hcf, hcg⟩)⟩
    · obtain ⟨hcf, hcg⟩ := not_or.mp hconst
      have hle : (joined f.args g.args).length ≤ positions := by
        rw [← hcard]
        exact not_lt.mp fun hmany => hfits ⟨hcf, hcg, hmany⟩
      obtain ⟨h, hok, hargs⟩ := hroom hle
      rw [connect_of_not_isConstant hcf hcg]
      exact ⟨_, Checked.bind_eq_ok.mpr ⟨h, hok, rfl⟩, fun _ _ => hargs⟩

theorem connect_fails_iff (hf : f.WellFormed) (hg : g.WellFormed) (gate : Gate) :
    (∃ e, connect gate f g = .error e) ↔ f.Overflows g := by
  obtain ⟨hover, hfits⟩ := connect_result hf hg gate
  refine ⟨?_, fun hmany => ⟨_, hover hmany⟩⟩
  rintro ⟨e, he⟩
  by_contra hmany
  obtain ⟨h, hok, -⟩ := hfits hmany
  rw [hok] at he
  cases he

theorem connect_answers_iff (hf : f.WellFormed) (hg : g.WellFormed) (gate : Gate) :
    (∃ h, connect gate f g = .ok h) ↔ ¬f.Overflows g := by
  rw [← connect_fails_iff hf hg gate]
  cases connect gate f g <;> simp

theorem error_of_connect (hf : f.WellFormed) (hg : g.WellFormed) {e : Fault LogicError}
    (he : connect gate f g = .error e) : e = .refused (.tooManyArguments 4) := by
  have hmany := (connect_fails_iff hf hg gate).mp ⟨e, he⟩
  rw [(connect_result hf hg gate).1 hmany] at he
  exact (Except.error.inj he).symm

theorem args_of_connect (hf : f.WellFormed) (hg : g.WellFormed) (hcf : ¬f.IsConstant)
    (hcg : ¬g.IsConstant) (hc : connect gate f g = .ok h) : h.args = joined f.args g.args := by
  have hfits := (connect_answers_iff hf hg gate).mp ⟨h, hc⟩
  obtain ⟨h', hok, hargs⟩ := (connect_result hf hg gate).2 hfits
  rw [hc] at hok
  cases hok
  exact hargs hcf hcg

/-- The order of the operands does not matter for the values. -/
theorem evaluate_of_connect {h' : TruthFn} (hf : f.WellFormed) (hg : g.WellFormed)
    (hc : connect gate f g = .ok h) (hc' : connect gate g f = .ok h') (value : SignalId → Bool) :
    h.evaluate value = h'.evaluate value := by
  have hcomputes := computes_connect ⟨hf, fun _ => rfl⟩ ⟨hg, fun _ => rfl⟩ hc
  have hcomputes' := computes_connect ⟨hg, fun _ => rfl⟩ ⟨hf, fun _ => rfl⟩ hc'
  calc h.evaluate value = gate.eval (f.evaluate value) (g.evaluate value) := hcomputes.2 value
    _ = gate.eval (g.evaluate value) (f.evaluate value) := gate.eval_comm _ _
    _ = h'.evaluate value := (hcomputes'.2 value).symm

/-! ### Built functions -/

/-- What a connective makes of two functions, in either order. -/
structure JoinsLawfully (gate : Gate) (f g : TruthFn) : Prop where
  fails_iff : (∃ e, connect gate f g = .error e) ↔
    ¬f.IsConstant ∧ ¬g.IsConstant ∧ 4 < (f.args ++ g.args).toFinset.card
  error_eq : ∀ e, connect gate f g = .error e → e = .refused (.tooManyArguments 4)
  args_eq : ¬f.IsConstant → ¬g.IsConstant → ∀ h, connect gate f g = .ok h →
    h.args = f.args ++ g.args.filter (· ∉ f.args)
  answers_comm : (∃ h, connect gate f g = .ok h) ↔ ∃ h, connect gate g f = .ok h
  value_comm : ∀ h h', connect gate f g = .ok h → connect gate g f = .ok h' →
    ∀ value, h.evaluate value = h'.evaluate value

theorem WellFormed.joinsLawfully (hf : f.WellFormed) (hg : g.WellFormed) (gate : Gate) :
    JoinsLawfully gate f g where
  fails_iff := connect_fails_iff hf hg gate
  error_eq _ he := error_of_connect hf hg he
  args_eq hcf hcg _ hc := args_of_connect hf hg hcf hcg hc
  answers_comm := by
    rw [connect_answers_iff hf hg, connect_answers_iff hg hf, overflows_comm]
  value_comm _ _ hc hc' := evaluate_of_connect hf hg hc hc'

theorem IsBuilt.wellFormed (hf : f.IsBuilt) : f.WellFormed := by
  obtain ⟨e, he⟩ := hf
  exact hereditary_wellFormed.build e he

/-- **Built functions** have at most four arguments, all different, and a table that ignores the
other positions. A connective of two of them fails exactly if neither table is constant and there
are more than four signals among their arguments. -/
theorem built_representation :
    (∀ f : TruthFn, f.IsBuilt →
      f.args.Nodup ∧ f.args.length ≤ 4 ∧ f.table.DependsBelow f.args.length) ∧
    ∀ f g : TruthFn, f.IsBuilt → g.IsBuilt → ∀ gate, JoinsLawfully gate f g := by
  refine ⟨fun f hf => ?_, fun f g hf hg gate => ?_⟩
  · have hwf := hf.wellFormed
    exact ⟨hwf.nodup, hwf.length_le, hwf.dependsBelow⟩
  · exact hf.wellFormed.joinsLawfully hg.wellFormed gate

/-- An expression of four signals. -/
def fourSignals : Expr :=
  .or (.or (.signal ⟨3⟩) (.signal ⟨1⟩)) (.or (.signal ⟨2⟩) (.signal ⟨0⟩))

/-- The function of `fourSignals`. -/
def anyOfFour : TruthFn where
  args := [⟨3⟩, ⟨1⟩, ⟨2⟩, ⟨0⟩]
  table := 0xFFFE#16
  trace := [.arg 3, .arg 2, .gate .or, .arg 1, .arg 0, .gate .or, .gate .or]

/-- A fifth signal cannot be joined to a function of four arguments, in either order, unless the
table of that function is constant. -/
theorem built_representation_fifth :
    fourSignals.build = .ok anyOfFour ∧ anyOfFour.args.Nodup ∧
      connect .and anyOfFour (ofSignal ⟨4⟩) = .error (.refused (.tooManyArguments 4)) ∧
      (¬∃ h, connect .and (ofSignal ⟨4⟩) anyOfFour = .ok h) ∧
      ∃ k, (Expr.xor fourSignals fourSignals).build = .ok k ∧ k.args = anyOfFour.args ∧
        ¬∃ e, connect .and k (ofSignal ⟨4⟩) = .error e := by
  obtain ⟨hrep, hjoin⟩ := built_representation
  have hfour : fourSignals.build = .ok anyOfFour := by decide
  have hsignal : (ofSignal ⟨4⟩).IsBuilt := ⟨.signal ⟨4⟩, rfl⟩
  have hand := hjoin anyOfFour _ ⟨_, hfour⟩ hsignal .and
  obtain ⟨e, he⟩ := hand.fails_iff.mpr
    ⟨not_or.mpr (by decide), not_or.mpr (by decide), by decide⟩
  have hzero : (Expr.xor fourSignals fourSignals).build =
      .ok ⟨anyOfFour.args, Table.never, anyOfFour.trace ++ anyOfFour.trace ++ [.gate .xor]⟩ := by
    decide
  refine ⟨hfour, (hrep _ ⟨_, hfour⟩).1, hand.error_eq e he ▸ he, fun hanswer => ?_,
    _, hzero, rfl, fun hfail => ?_⟩
  · obtain ⟨h, hok⟩ := hand.answers_comm.mpr hanswer
    rw [he] at hok
    cases hok
  · exact ((hjoin _ _ ⟨_, hzero⟩ hsignal .and).fails_iff.mp hfail).1 (Or.inl rfl)

end TruthFn

end AluPlacement
