import AluPlacement.Logic.Expr
import AluPlacement.Proofs.Logic.Alignment

/-! # The value of a built function

`f.Computes φ` says that `f` is well formed and has the value `φ value` under every assignment. Each
connective computes the connective of what its operands compute, also where it takes a shortcut for
a constant table. By recursion on the expression, a function that was built from an expression
computes the value of the expression (`Expr.build_computes`). -/

namespace AluPlacement.TruthFn

open Table (positions)

/-- The function is well formed and has the values of `φ`. -/
def Computes (f : TruthFn) (φ : (SignalId → Bool) → Bool) : Prop :=
  f.WellFormed ∧ ∀ value, f.evaluate value = φ value

variable {f g h : TruthFn} {φ ψ χ : (SignalId → Bool) → Bool}

/-! ### Leaves and constant tables -/

theorem computes_const (b : Bool) : (const b).Computes fun _ => b := by
  refine ⟨⟨List.nodup_nil, Nat.zero_le _, fun v v' _ => ?_⟩, fun value => ?_⟩
  · cases b
    · simp [const, Table.value_never]
    · simp [const, Table.value_always]
  · rw [evaluate_eq_value (Nat.zero_le _)]
    cases b
    · simp [const, Table.value_never]
    · simp [const, Table.value_always]

theorem computes_ofSignal (s : SignalId) : (ofSignal s).Computes fun value => value s := by
  have hl : (ofSignal s).args.length ≤ positions := by simp [ofSignal, positions]
  refine ⟨⟨List.nodup_singleton s, hl, fun b b' hb => ?_⟩, fun value => ?_⟩
  · simp only [ofSignal, Table.value_first]
    exact hb 0 (by simp [ofSignal])
  · rw [evaluate_eq_value hl]
    simp [ofSignal, Table.value_first, bitsOf]

theorem ofNat_eq_ok {n : Nat} (h : ofNat n = .ok f) : (n = 0 ∨ n = 1) ∧ f = const (n == 1) := by
  unfold ofNat at h
  split at h
  · cases h
    exact ⟨Or.inl rfl, rfl⟩
  · cases h
    exact ⟨Or.inr rfl, rfl⟩
  · cases h

theorem evaluate_of_isFalse (hf : f.isFalse = true) (value : SignalId → Bool) :
    f.evaluate value = false := by
  unfold isFalse at hf
  unfold evaluate
  rw [eq_of_beq hf]
  simp [Table.never]

theorem Computes.of_isTrue (hf : f.Computes φ) (ht : f.isTrue = true) (value : SignalId → Bool) :
    φ value = true := by
  unfold isTrue at ht
  rw [← hf.2 value, evaluate_eq_value hf.1.length_le, eq_of_beq ht, Table.value_always]

theorem Computes.of_isFalse (hf : f.Computes φ) (ht : f.isFalse = true)
    (value : SignalId → Bool) : φ value = false := by
  rw [← hf.2 value, evaluate_of_isFalse ht]

theorem Computes.congr (hf : f.Computes φ) (h : ∀ value, φ value = ψ value) : f.Computes ψ :=
  ⟨hf.1, fun value => by rw [hf.2, h]⟩

/-! ### Connectives -/

theorem computes_not (hf : f.Computes φ) : f.not.Computes fun value => !φ value := by
  obtain ⟨⟨hn, hl, hd⟩, hv⟩ := hf
  refine ⟨⟨hn, hl, fun b b' hb => ?_⟩, fun value => ?_⟩
  · simp only [not, Table.value_not]
    rw [hd b b' hb]
  · calc f.not.evaluate value = (~~~f.table).value (bitsOf value f.args) :=
          evaluate_eq_value (f := f.not) hl value
      _ = !f.evaluate value := by rw [Table.value_not, evaluate_eq_value hl]
      _ = !φ value := by rw [hv]

theorem value_gateTable (gate : Gate) (s t : Table) (b : Nat → Bool) :
    (gateTable gate s t).value b = gate.eval (s.value b) (t.value b) := by
  cases gate with
  | and => exact BitVec.getLsbD_and
  | or => exact BitVec.getLsbD_or
  | xor => exact BitVec.getLsbD_xor

/-- **A gate** over two functions: the arguments of the second are lined up with the first. -/
theorem computes_combine {gate : Gate} (hf : f.Computes φ) (hg : g.Computes ψ)
    (hc : combine gate f g = .ok h) : h.Computes fun value => gate.eval (φ value) (ψ value) := by
  unfold combine at hc
  obtain ⟨g', hal, hc⟩ := Checked.bind_eq_ok.mp hc
  cases hc
  obtain ⟨hg', hpre, hev⟩ := alignTo_spec hf.1.nodup hf.1.length_le hg.1 hal
  refine ⟨⟨hg'.nodup, hg'.length_le, fun b b' hb => ?_⟩, fun value => ?_⟩
  · rw [value_gateTable, value_gateTable, hg'.dependsBelow b b' hb,
      hf.1.dependsBelow.mono hpre.length_le b b' hb]
  · calc _ = (gateTable gate f.table g'.table).value (bitsOf value g'.args) :=
          evaluate_eq_value (f := ⟨g'.args, gateTable gate f.table g'.table, _⟩) hg'.length_le value
      _ = gate.eval (f.evaluate value) (g'.evaluate value) := by
          rw [value_gateTable, hf.1.evaluate_eq_of_isPrefix hpre, evaluate_eq_value hg'.length_le]
      _ = gate.eval (φ value) (ψ value) := by rw [hev, hf.2, hg.2]

theorem computes_and (hf : f.Computes φ) (hg : g.Computes ψ) (h' : f.and g = .ok h) :
    h.Computes fun value => φ value && ψ value := by
  unfold and at h'
  split_ifs at h' with h1 h2 h3
  · cases h'
    refine (computes_const false).congr fun value => ?_
    rcases (Bool.or_eq_true _ _).mp h1 with h1 | h1
    · rw [hf.of_isFalse h1, Bool.false_and]
    · rw [hg.of_isFalse h1, Bool.and_false]
  · cases h'
    exact hg.congr fun value => by rw [hf.of_isTrue h2, Bool.true_and]
  · cases h'
    exact hf.congr fun value => by rw [hg.of_isTrue h3, Bool.and_true]
  · exact computes_combine hf hg h'

theorem computes_or (hf : f.Computes φ) (hg : g.Computes ψ) (h' : f.or g = .ok h) :
    h.Computes fun value => φ value || ψ value := by
  unfold or at h'
  split_ifs at h' with h1 h2 h3
  · cases h'
    refine (computes_const true).congr fun value => ?_
    rcases (Bool.or_eq_true _ _).mp h1 with h1 | h1
    · rw [hf.of_isTrue h1, Bool.true_or]
    · rw [hg.of_isTrue h1, Bool.or_true]
  · cases h'
    exact hg.congr fun value => by rw [hf.of_isFalse h2, Bool.false_or]
  · cases h'
    exact hf.congr fun value => by rw [hg.of_isFalse h3, Bool.or_false]
  · exact computes_combine hf hg h'

theorem computes_xor (hf : f.Computes φ) (hg : g.Computes ψ) (h' : f.xor g = .ok h) :
    h.Computes fun value => φ value ^^ ψ value := by
  unfold xor at h'
  split_ifs at h' with h1 h2 h3 h4
  · cases h'
    exact hg.congr fun value => by rw [hf.of_isFalse h1, Bool.false_xor]
  · cases h'
    exact hf.congr fun value => by rw [hg.of_isFalse h2, Bool.xor_false]
  · cases h'
    exact (computes_not hg).congr fun value => by rw [hf.of_isTrue h3, Bool.true_xor]
  · cases h'
    exact (computes_not hf).congr fun value => by rw [hg.of_isTrue h4, Bool.xor_true]
  · exact computes_combine hf hg h'

theorem computes_notEquals (hf : f.Computes φ) (hg : g.Computes ψ) (h' : f.notEquals g = .ok h) :
    h.Computes fun value => !(φ value ^^ ψ value) := by
  unfold notEquals at h'
  obtain ⟨x, hx, h'⟩ := Checked.bind_eq_ok.mp h'
  cases h'
  exact computes_not (computes_xor hf hg hx)

theorem computes_ifThenElse {k : TruthFn} (hf : f.Computes φ) (hg : g.Computes ψ)
    (hh : h.Computes χ) (h' : f.ifThenElse g h = .ok k) :
    k.Computes fun value => if φ value then ψ value else χ value := by
  unfold ifThenElse at h'
  obtain ⟨taken, ht, h'⟩ := Checked.bind_eq_ok.mp h'
  obtain ⟨notTaken, hnt, h'⟩ := Checked.bind_eq_ok.mp h'
  have h1 := computes_and hf hg ht
  have h2 := computes_and (computes_not hf) hh hnt
  refine (computes_or h1 h2 h').congr fun value => ?_
  cases φ value <;> simp

end TruthFn

/-! ### Expressions -/

namespace Expr

/-- A function that was built from an expression computes the value of the expression. -/
theorem build_computes : ∀ (e : Expr) {f : TruthFn}, e.build = .ok f →
    f.Computes fun value => e.eval value
  | .bool b, f, h => by
    cases h
    exact TruthFn.computes_const b
  | .number n, f, h => by
    obtain ⟨-, rfl⟩ := TruthFn.ofNat_eq_ok h
    exact TruthFn.computes_const (n == 1)
  | .signal s, f, h => by
    cases h
    exact TruthFn.computes_ofSignal s
  | .not e, f, h => by
    obtain ⟨x, hx, h⟩ := Checked.bind_eq_ok.mp h
    cases h
    exact TruthFn.computes_not (build_computes e hx)
  | .and a b, f, h => by
    obtain ⟨x, hx, h⟩ := Checked.bind_eq_ok.mp h
    obtain ⟨y, hy, h⟩ := Checked.bind_eq_ok.mp h
    exact TruthFn.computes_and (build_computes a hx) (build_computes b hy) h
  | .or a b, f, h => by
    obtain ⟨x, hx, h⟩ := Checked.bind_eq_ok.mp h
    obtain ⟨y, hy, h⟩ := Checked.bind_eq_ok.mp h
    exact TruthFn.computes_or (build_computes a hx) (build_computes b hy) h
  | .xor a b, f, h => by
    obtain ⟨x, hx, h⟩ := Checked.bind_eq_ok.mp h
    obtain ⟨y, hy, h⟩ := Checked.bind_eq_ok.mp h
    exact TruthFn.computes_xor (build_computes a hx) (build_computes b hy) h
  | .equals a b, f, h => by
    obtain ⟨x, hx, h⟩ := Checked.bind_eq_ok.mp h
    obtain ⟨y, hy, h⟩ := Checked.bind_eq_ok.mp h
    exact TruthFn.computes_xor (build_computes a hx) (build_computes b hy) h
  | .notEquals a b, f, h => by
    obtain ⟨x, hx, h⟩ := Checked.bind_eq_ok.mp h
    obtain ⟨y, hy, h⟩ := Checked.bind_eq_ok.mp h
    exact TruthFn.computes_notEquals (build_computes a hx) (build_computes b hy) h
  | .ifThenElse c a b, f, h => by
    obtain ⟨x, hx, h⟩ := Checked.bind_eq_ok.mp h
    obtain ⟨y, hy, h⟩ := Checked.bind_eq_ok.mp h
    obtain ⟨z, hz, h⟩ := Checked.bind_eq_ok.mp h
    exact TruthFn.computes_ifThenElse (build_computes c hx) (build_computes a hy)
      (build_computes b hz) h

/-- **The built function has the value of the expression** under every assignment. -/
theorem evaluate_of_build (e : Expr) (f : TruthFn) (h : e.build = .ok f)
    (value : SignalId → Bool) : f.evaluate value = e.eval value :=
  (build_computes e h).2 value

/-- A case in which the left operand keeps an argument that it does not depend on, and the right
one has that argument too, behind a new one. -/
theorem evaluate_of_build_overlapping :
    let e : Expr := .and (.xor (.xor (.signal ⟨0⟩) (.signal ⟨1⟩)) (.signal ⟨1⟩))
      (.or (.signal ⟨2⟩) (.signal ⟨1⟩))
    let f : TruthFn := ⟨[⟨0⟩, ⟨1⟩, ⟨2⟩], 0xA8A8#16, [.arg 1, .arg 2, .gate .or, .arg 1, .arg 1,
      .arg 0, .gate .xor, .gate .xor, .gate .and]⟩
    e.build = .ok f ∧ ∀ value, f.evaluate value = e.eval value :=
  ⟨by rfl, evaluate_of_build _ _ (by rfl)⟩

end Expr

end AluPlacement
