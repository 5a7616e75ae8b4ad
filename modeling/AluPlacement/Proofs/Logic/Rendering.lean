import AluPlacement.Proofs.Logic.Evaluation
import AluPlacement.Proofs.Logic.Grammar
import AluPlacement.Signal.Registry

/-! # The trace of a built function means the same as its table

Table and trace of a truth function are kept by separate steps: a table is transposed and combined
row by row, a trace is renamed and appended to. `f.Encodes t` says that they agree: the trace of `f`
is that of the formula `t`, the formula uses the arguments of `f` only, and it has the entries of
the table.

* `Hereditary.build`: what constants, signals, negation and gates keep holds of every built
  function, whatever shortcuts its connectives took.
* `alignTo_renames`: lining up renames the slots of the trace as it moves the arguments.
* `IsBuilt.denotes`: the trace of every built function is one expression with its values.
* `Denotes.shown`: over declared arguments the function is shown as the text of that expression. -/

namespace AluPlacement

open Table (positions exchange)

/-! ### Formulas with other slots -/

/-- Give every slot a new number. -/
def Token.rename (ρ : Nat → Nat) : Token → Token
  | .arg slot => .arg (ρ slot)
  | token => token

theorem Token.swapSlots_eq (i j : Nat) (token : Token) :
    token.swapSlots i j = token.rename (exchange i j) := by
  cases token <;> rfl

namespace Formula

/-- Give every slot a new number. -/
def rename (ρ : Nat → Nat) : Formula → Formula
  | .arg slot => .arg (ρ slot)
  | .const b => .const b
  | .not f => .not (f.rename ρ)
  | .gate g l r => .gate g (l.rename ρ) (r.rename ρ)

theorem trace_rename (ρ : Nat → Nat) (t : Formula) :
    (t.rename ρ).trace = t.trace.map (Token.rename ρ) := by
  induction t with
  | arg slot => rfl
  | const b => rfl
  | not f ih => simp [rename, trace, ih, Token.rename]
  | gate g l r ihl ihr => simp [rename, trace, ihl, ihr, Token.rename]

theorem eval_rename (ρ : Nat → Nat) (t : Formula) (b : Nat → Bool) :
    (t.rename ρ).eval b = t.eval fun k => b (ρ k) := by
  induction t with
  | arg slot => rfl
  | const b => rfl
  | not f ih => simp only [rename, eval, ih]
  | gate g l r ihl ihr => simp only [rename, eval, ihl, ihr]

/-- Only the values of the slots that occur matter. -/
theorem eval_congr {b b' : Nat → Bool} {t : Formula}
    (h : ∀ k, Token.arg k ∈ t.trace → b k = b' k) : t.eval b = t.eval b' := by
  induction t with
  | arg slot => exact h slot (by simp [trace])
  | const b => rfl
  | not f ih =>
    have hf := ih fun k hk => h k (by simp [trace, hk])
    simp only [eval, hf]
  | gate g l r ihl ihr =>
    have hl := ihl fun k hk => h k (by simp [trace, hk])
    have hr := ihr fun k hk => h k (by simp [trace, hk])
    simp only [eval, hl, hr]

/-- A formula whose slots have names has a text. -/
theorem exists_text {name : Nat → Option String} {t : Formula}
    (h : ∀ k, Token.arg k ∈ t.trace → ∃ n, name k = some n) : ∃ text, t.text name = some text :=
  ⟨_, text_of_names (names_of_forall h)⟩

/-- A text is the name of a slot, or it starts with a constant, a negation or a bracket. -/
theorem text_cases {name : Nat → Option String} {t : Formula} {word : String}
    (h : t.text name = some word) : (∃ k, t = .arg k ∧ name k = some word) ∨
      word.toList.head? ∈ [some '1', some '~', some '('] := by
  cases t with
  | arg slot => exact Or.inl ⟨slot, rfl, h⟩
  | const b =>
    refine Or.inr ?_
    cases b <;> cases h <;> decide
  | not f =>
    obtain ⟨operand, -, h⟩ := Option.bind_eq_some_iff.mp h
    cases h
    simp
  | gate g l r =>
    obtain ⟨left, -, h⟩ := Option.bind_eq_some_iff.mp h
    obtain ⟨right, -, h⟩ := Option.bind_eq_some_iff.mp h
    cases h
    simp

end Formula

/-! ### Properties of all built functions -/

namespace TruthFn

variable {f g h : TruthFn}

/-- Some expression builds the function. -/
def IsBuilt (f : TruthFn) : Prop := ∃ e : Expr, e.build = .ok f

/-- A property of constants and signals that negation and gates keep. -/
structure Hereditary (P : TruthFn → Prop) : Prop where
  const : ∀ b, P (const b)
  signal : ∀ s, P (ofSignal s)
  not : ∀ {f}, P f → P f.not
  combine : ∀ {gate f g h}, P f → P g → combine gate f g = .ok h → P h

namespace Hereditary

variable {P : TruthFn → Prop}

theorem and (hP : Hereditary P) (hf : P f) (hg : P g) (h' : f.and g = .ok h) : P h := by
  unfold TruthFn.and at h'
  split_ifs at h'
  · cases h'
    exact hP.const false
  · cases h'
    exact hg
  · cases h'
    exact hf
  · exact hP.combine hf hg h'

theorem or (hP : Hereditary P) (hf : P f) (hg : P g) (h' : f.or g = .ok h) : P h := by
  unfold TruthFn.or at h'
  split_ifs at h'
  · cases h'
    exact hP.const true
  · cases h'
    exact hg
  · cases h'
    exact hf
  · exact hP.combine hf hg h'

theorem xor (hP : Hereditary P) (hf : P f) (hg : P g) (h' : f.xor g = .ok h) : P h := by
  unfold TruthFn.xor at h'
  split_ifs at h'
  · cases h'
    exact hg
  · cases h'
    exact hf
  · cases h'
    exact hP.not hg
  · cases h'
    exact hP.not hf
  · exact hP.combine hf hg h'

theorem ifThenElse (hP : Hereditary P) {k : TruthFn} (hf : P f) (hg : P g) (hh : P h)
    (h' : f.ifThenElse g h = .ok k) : P k := by
  obtain ⟨taken, ht, h'⟩ := Checked.bind_eq_ok.mp h'
  obtain ⟨notTaken, hnt, h'⟩ := Checked.bind_eq_ok.mp h'
  exact hP.or (hP.and hf hg ht) (hP.and (hP.not hf) hh hnt) h'

/-- **A hereditary property holds of every built function.** -/
theorem build (hP : Hereditary P) : ∀ (e : Expr) {f : TruthFn}, e.build = .ok f → P f
  | .bool b, f, h => by
    cases h
    exact hP.const b
  | .number n, f, h => by
    obtain ⟨-, rfl⟩ := ofNat_eq_ok h
    exact hP.const (n == 1)
  | .signal s, f, h => by
    cases h
    exact hP.signal s
  | .not e, f, h => by
    obtain ⟨x, hx, h⟩ := Checked.bind_eq_ok.mp h
    cases h
    exact hP.not (hP.build e hx)
  | .and a b, f, h => by
    obtain ⟨x, hx, h⟩ := Checked.bind_eq_ok.mp h
    obtain ⟨y, hy, h⟩ := Checked.bind_eq_ok.mp h
    exact hP.and (hP.build a hx) (hP.build b hy) h
  | .or a b, f, h => by
    obtain ⟨x, hx, h⟩ := Checked.bind_eq_ok.mp h
    obtain ⟨y, hy, h⟩ := Checked.bind_eq_ok.mp h
    exact hP.or (hP.build a hx) (hP.build b hy) h
  | .xor a b, f, h | .equals a b, f, h => by
    obtain ⟨x, hx, h⟩ := Checked.bind_eq_ok.mp h
    obtain ⟨y, hy, h⟩ := Checked.bind_eq_ok.mp h
    exact hP.xor (hP.build a hx) (hP.build b hy) h
  | .notEquals a b, f, h => by
    obtain ⟨x, hx, h⟩ := Checked.bind_eq_ok.mp h
    obtain ⟨y, hy, h⟩ := Checked.bind_eq_ok.mp h
    obtain ⟨z, hz, h⟩ := Checked.bind_eq_ok.mp h
    cases h
    exact hP.not (hP.xor (hP.build a hx) (hP.build b hy) hz)
  | .ifThenElse c a b, f, h => by
    obtain ⟨x, hx, h⟩ := Checked.bind_eq_ok.mp h
    obtain ⟨y, hy, h⟩ := Checked.bind_eq_ok.mp h
    obtain ⟨z, hz, h⟩ := Checked.bind_eq_ok.mp h
    exact hP.ifThenElse (hP.build c hx) (hP.build a hy) (hP.build b hz) h

end Hereditary

theorem hereditary_wellFormed : Hereditary WellFormed where
  const b := (computes_const b).1
  signal s := (computes_ofSignal s).1
  not hf := (computes_not ⟨hf, fun _ => rfl⟩).1
  combine hf hg h := (computes_combine ⟨hf, fun _ => rfl⟩ ⟨hg, fun _ => rfl⟩ h).1

/-! ### The trace of a function that is lined up -/

/-- The trace is that of `g` with its slots renamed by `slot`, which leaves the numbers alone that are
no positions of a table. -/
structure Alignment.Renames (g : TruthFn) (m : Alignment) : Prop where
  trace : m.trace = g.trace.map (Token.rename m.slot)
  beyond : ∀ n, positions ≤ n → m.slot n = n

/-- One move renames the slots of the trace as it renames the positions of the table. -/
theorem place_renames (hg : g.WellFormed) {k : Nat} {m m' : Alignment} {s : SignalId}
    (hs : g.args[k]? = some s) (hm : m.Follows g k) (hr : m.Renames g)
    (h : m.place k s = .ok m') : m'.Renames g := by
  obtain ⟨args, p, ht, hcases⟩ := place_eq_ok h
  obtain ⟨-, hl, hpre, hp⟩ := target_spec ht hm.nodup hm.length_le
  have hk : k < positions :=
    lt_of_lt_of_le (List.getElem?_eq_some_iff.mp hs).1 hg.length_le
  have hp4 : p < positions := lt_of_lt_of_le (List.getElem?_eq_some_iff.mp hp).1 hl
  rcases hcases with ⟨-, rfl⟩ | ⟨-, table, -, rfl⟩
  · exact ⟨hr.trace, hr.beyond⟩
  · have hslot := hm.slot_eq_exchange hk (hm.slot_ne hg hpre hs hp)
    have hslot_k := hm.slot_lt k hk
    have hbeyond : ∀ n, positions ≤ n → (if n = k then p
        else if k < n ∧ m.slot n = p then m.slot k else m.slot n) = n := by
      intro n hn
      have hsame := hr.beyond n hn
      rw [if_neg (by omega), if_neg (by omega), hsame]
    refine ⟨?_, hbeyond⟩
    simp only [hr.trace, List.map_map]
    refine List.map_congr_left fun token htoken => ?_
    cases token with
    | arg n =>
      simp only [Function.comp_apply, Token.swapSlots_eq, Token.rename]
      by_cases hn : n < positions
      · rw [hslot n hn]
      · -- neither of the two positions has this number
        have hsame := hr.beyond n (by omega)
        rw [hbeyond n (by omega), hsame, exchange, if_neg (by omega), if_neg (by omega)]
    | _ => rfl

/-- **Lining up renames the slots** so that each argument is found at its place in the longer list,
in the table and in the trace alike. -/
theorem alignTo_renames {args : List SignalId} (hn : args.Nodup) (hl : args.length ≤ positions)
    (hg : g.WellFormed) (hal : g.alignTo args = .ok h) :
    ∃ ρ : Nat → Nat, h.trace = g.trace.map (Token.rename ρ) ∧
      (∀ b, h.table.value b = g.table.value fun i => b (ρ i)) ∧
      ∀ i s, g.args[i]? = some s → h.args[ρ i]? = some s := by
  obtain ⟨m, hm, hal⟩ := Checked.bind_eq_ok.mp hal
  cases hal
  have hstart : g.trace = g.trace.map (Token.rename id) := by
    refine (List.map_id'' (fun token => ?_) _).symm
    cases token <;> rfl
  obtain ⟨hf, hrenames⟩ := placeFrom_induction (g := g)
    (P := fun k m => m.Follows g k ∧ m.Renames g)
    (fun hs hm hplace => ⟨(place_follows hg hs hm.1 hplace).1,
      place_renames hg hs hm.1 hm.2 hplace⟩)
    g.args rfl ⟨follows_start g hn hl, hstart, fun _ _ => rfl⟩ hm
  rw [Nat.zero_add] at hf
  refine ⟨m.slot, hrenames.trace, hf.value_eq, fun i s hs => hf.placed i ?_ s hs⟩
  exact (List.getElem?_eq_some_iff.mp hs).1

/-! ### Table and trace agree -/

/-- The trace of the function is that of the formula, which uses the arguments of the function only
and has the entries of its table. -/
structure Encodes (f : TruthFn) (t : Formula) : Prop where
  trace : f.trace = t.trace
  slots : ∀ k, Token.arg k ∈ f.trace → k < f.args.length
  value : ∀ b, t.eval b = f.table.value b

theorem encodes_const (b : Bool) : (const b).Encodes (.const b) := by
  refine ⟨rfl, fun k hk => ?_, fun v => ?_⟩
  · simp [const] at hk
  · cases b
    · simp [const, Formula.eval, Table.value_never]
    · simp [const, Formula.eval, Table.value_always]

theorem encodes_ofSignal (s : SignalId) : (ofSignal s).Encodes (.arg 0) := by
  refine ⟨rfl, fun k hk => ?_, fun b => (Table.value_first b).symm⟩
  simp only [ofSignal, List.mem_singleton, Token.arg.injEq] at hk
  simp [ofSignal, hk]

/-- The negation of a constant table is written as the other constant. -/
theorem Encodes.not {t : Formula} (hf : f.Encodes t) : ∃ t', f.not.Encodes t' := by
  have hvalue : ∀ b, f.not.table.value b = !f.table.value b := fun b => Table.value_not f.table b
  by_cases hfalse : f.isFalse = true
  · have htable : f.table = Table.never := eq_of_beq hfalse
    refine ⟨.const true, ?_, fun k hk => ?_, fun b => ?_⟩
    · simp [TruthFn.not, hfalse, Formula.trace]
    · simp [TruthFn.not, hfalse] at hk
    · rw [hvalue, htable, Table.value_never]
      rfl
  · by_cases htrue : f.isTrue = true
    · have htable : f.table = Table.always := eq_of_beq htrue
      refine ⟨.const false, ?_, fun k hk => ?_, fun b => ?_⟩
      · simp [TruthFn.not, hfalse, htrue, Formula.trace]
      · simp [TruthFn.not, hfalse, htrue] at hk
      · rw [hvalue, htable, Table.value_always]
        rfl
    · refine ⟨.not t, ?_, fun k hk => ?_, fun b => ?_⟩
      · simp [TruthFn.not, hfalse, htrue, Formula.trace, hf.trace]
      · simp only [TruthFn.not, hfalse, htrue, Bool.false_eq_true, if_false, List.mem_append,
          List.mem_singleton, reduceCtorEq, or_false] at hk
        exact hf.slots k hk
      · rw [hvalue, ← hf.value]
        rfl

/-- A gate is written behind its operands, the right one first. -/
theorem Encodes.combine {gate : Gate} {t t' : Formula} (hf : f.WellFormed) (hg : g.WellFormed)
    (htf : f.Encodes t) (htg : g.Encodes t') (hc : combine gate f g = .ok h) :
    ∃ t'', h.Encodes t'' := by
  obtain ⟨g', hal, hc⟩ := Checked.bind_eq_ok.mp hc
  cases hc
  obtain ⟨-, hpre, -⟩ := alignTo_spec hf.nodup hf.length_le hg hal
  obtain ⟨ρ, htrace, hvalue, hplace⟩ := alignTo_renames hf.nodup hf.length_le hg hal
  refine ⟨.gate gate t (t'.rename ρ), ?_, fun k hk => ?_, fun b => ?_⟩
  · simp only [htrace, htf.trace, htg.trace, Formula.trace, Formula.trace_rename]
  · simp only [htrace, List.mem_append, List.mem_map, List.mem_singleton, reduceCtorEq,
      or_false] at hk
    rcases hk with ⟨token, htoken, hk⟩ | hk
    · cases token with
      | arg n =>
        cases hk
        have hn := List.getElem?_eq_getElem (htg.slots n htoken)
        exact (List.getElem?_eq_some_iff.mp (hplace n _ hn)).1
      | _ => cases hk
    · exact lt_of_lt_of_le (htf.slots k hk) hpre.length_le
  · simp only [Formula.eval, Formula.eval_rename, htf.value, htg.value, value_gateTable, hvalue]

theorem hereditary_encodes : Hereditary fun f => f.WellFormed ∧ ∃ t, f.Encodes t where
  const b := ⟨hereditary_wellFormed.const b, _, encodes_const b⟩
  signal s := ⟨hereditary_wellFormed.signal s, _, encodes_ofSignal s⟩
  not := fun ⟨hf, _, ht⟩ => ⟨hereditary_wellFormed.not hf, ht.not⟩
  combine := fun ⟨hf, _, htf⟩ ⟨hg, _, htg⟩ h =>
    ⟨hereditary_wellFormed.combine hf hg h, htf.combine hf hg htg h⟩

/-! ### Meaning and text -/

/-- The trace of the function is one expression, read as the formula; it uses the arguments of the
function only and has its values, slot `k` standing for argument `k`. -/
structure Denotes (f : TruthFn) (t : Formula) : Prop where
  read : Formula.ofTrace? f.trace = some t
  trace : f.trace = t.trace
  slots : ∀ k, Token.arg k ∈ f.trace → k < f.args.length
  eval : ∀ (value : SignalId → Bool) (b : Nat → Bool),
    (∀ k s, f.args[k]? = some s → b k = value s) → t.eval b = f.evaluate value

theorem Encodes.denotes {t : Formula} (ht : f.Encodes t) (hf : f.WellFormed) : f.Denotes t := by
  refine ⟨by rw [ht.trace, Formula.ofTrace?_trace], ht.trace, ht.slots, fun value b hb => ?_⟩
  rw [evaluate_eq_value hf.length_le, ← ht.value]
  refine Formula.eval_congr fun k hk => ?_
  have hget := List.getElem?_eq_getElem (ht.slots k (ht.trace ▸ hk))
  rw [hb k _ hget, bitsOf_of_getElem? hget]

/-- **Every built function denotes a formula.** -/
theorem IsBuilt.denotes (hf : f.IsBuilt) : ∃ t, f.Denotes t := by
  obtain ⟨e, he⟩ := hf
  obtain ⟨hwf, t, ht⟩ := hereditary_encodes.build e he
  exact ⟨t, ht.denotes hwf⟩

/-- The name of the argument in a slot. -/
def slotName (f : TruthFn) (names : Registry) (slot : Nat) : Option String :=
  f.args[slot]?.bind names.name?

/-- The function is shown as the text of the formula. Only a formula that is a single argument can
have the text that stands for an unreadable function, if its signal has that name. -/
structure ShownAs (f : TruthFn) (names : Registry) (t : Formula) (text : String) : Prop where
  written : t.text (f.slotName names) = some text
  shown : f.formulaText names.name? = text
  unknown : text = "UNKNOWN" → ∃ k, t = .arg k ∧ f.slotName names k = some "UNKNOWN"

theorem exists_slotName {names : Registry} (hargs : ∀ s ∈ f.args, names.contains s = true) {k : Nat}
    (hk : k < f.args.length) : ∃ n, f.slotName names k = some n := by
  obtain ⟨s, hs⟩ := Registry.contains_iff.mp (hargs _ (List.getElem_mem hk))
  refine ⟨s.name, ?_⟩
  unfold slotName Registry.name?
  rw [List.getElem?_eq_getElem hk, Option.bind_some, hs]
  rfl

/-- **A function over declared arguments is shown as the text of its formula.** -/
theorem Denotes.shown {t : Formula} (ht : f.Denotes t) {names : Registry}
    (hargs : ∀ s ∈ f.args, names.contains s = true) : ∃ text, f.ShownAs names t text := by
  obtain ⟨text, htext⟩ : ∃ text, t.text (f.slotName names) = some text :=
    Formula.exists_text fun k hk => exists_slotName hargs (ht.slots k (ht.trace ▸ hk))
  refine ⟨text, htext, ?_, ?_⟩
  · have hread : Formula.textOfTrace? (f.slotName names) f.trace = some text := by
      unfold Formula.textOfTrace?
      rw [ht.read]
      exact htext
    exact congrArg (·.getD "UNKNOWN") hread
  · rintro rfl
    rcases Formula.text_cases htext with harg | hhead
    · exact harg
    · exact absurd hhead (by decide)

end TruthFn

end AluPlacement
