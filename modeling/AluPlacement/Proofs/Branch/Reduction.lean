import AluPlacement.Branch.Condition
import AluPlacement.Proofs.Logic.Canonicity

/-! # What a branch condition is reduced to

`BranchCondition.ofTruthFn` looks at the table of a function and at the number of its arguments.
`Reduces f signals result` says what it has to answer by the values of the function only. The two
agree for the functions that can be built (`ofTruthFn_eq_iff_reduces`): a function of one argument
that takes both values is this argument or its inverse (`evaluate_eq_xor`), and its table is then
one of the two tables that the reduction knows (`inverted?_eq_some_iff`). -/

namespace AluPlacement

namespace TruthFn

variable {f : TruthFn} {s : SignalId}

/-- The function takes both values. -/
def Varies (f : TruthFn) : Prop :=
  (∃ value, f.evaluate value = true) ∧ ∃ value, f.evaluate value = false

theorem WellFormed.varies_iff (hf : f.WellFormed) :
    f.Varies ↔ f.isTrue ≠ true ∧ f.isFalse ≠ true := by
  rw [Ne, Ne, hf.isTrue_iff, hf.isFalse_iff, not_forall, not_forall]
  simp only [Bool.not_eq_true, Bool.not_eq_false, Varies, and_comm]

/-- A function with the one argument `s` sees nothing but the value of `s`. -/
theorem evaluate_of_args_eq (hargs : f.args = [s]) (value : SignalId → Bool) :
    f.evaluate value = f.evaluate fun _ => value s := by
  unfold evaluate
  rw [hargs]
  rfl

/-- A function of one argument that takes both values is the argument or its inverse. -/
theorem evaluate_eq_xor (hargs : f.args = [s]) (hvaries : f.Varies) (value : SignalId → Bool) :
    f.evaluate value = (value s ^^ f.evaluate fun _ => false) := by
  obtain ⟨⟨v, hv⟩, ⟨w, hw⟩⟩ := hvaries
  rw [evaluate_of_args_eq hargs] at hv hw
  have hdiffer : v s ≠ w s := by
    intro h
    rw [h, hw] at hv
    cases hv
  rw [evaluate_of_args_eq hargs]
  cases hvs : v s <;> cases hws : w s <;> cases value s <;> simp_all

/-- The inversion that the reduction reads off the table is that of the values. -/
theorem WellFormed.inverted?_eq_some_iff (hf : f.WellFormed) (hargs : f.args = [s])
    (inverted : Bool) :
    BranchCondition.inverted? f.table = some inverted ↔
      ∀ value, f.evaluate value = (value s ^^ inverted) := by
  have hne : Table.first ≠ ~~~Table.first := by decide
  cases inverted with
  | false =>
    simp only [Bool.xor_false]
    rw [← hf.table_eq_first_iff hargs]
    unfold BranchCondition.inverted?
    split_ifs <;> simp_all
  | true =>
    -- the table is the inverse of that of the argument if the negation passes the argument on
    have hnot : f.table = ~~~Table.first ↔ ∀ value, f.evaluate value = !value s := by
      rw [← BitVec.not_eq_comm]
      refine (hf.not.table_eq_first_iff hargs).trans (forall_congr' fun value => ?_)
      rw [hf.evaluate_not, Bool.not_eq_eq_eq_not]
    simp only [Bool.xor_true]
    rw [← hnot]
    unfold BranchCondition.inverted?
    split_ifs <;> simp_all

end TruthFn

namespace BranchCondition

variable {f : TruthFn} {signals : Registry} {s : SignalId}

/-- The answer to a truth function, by its values. A function that takes both values must have one
argument, and this argument must be declared as a branch register. -/
inductive Reduces (f : TruthFn) (signals : Registry) : Checked Error BranchCondition → Prop
  | always : (∀ value, f.evaluate value = true) → Reduces f signals (.ok always)
  | never : (∀ value, f.evaluate value = false) → Reduces f signals (.ok never)
  | signal {s : SignalId} {inverted : Bool} {declared : Signal} :
    f.Varies → f.args = [s] → signals.get? s = some declared →
    declared.behavior = .branchCondition → (∀ value, f.evaluate value = (value s ^^ inverted)) →
    Reduces f signals (.ok (signal s inverted))
  | wrongBehavior {s : SignalId} {declared : Signal} :
    f.Varies → f.args = [s] → signals.get? s = some declared →
    declared.behavior ≠ .branchCondition →
    Reduces f signals (.error (.refused (.wrongBehavior declared.name "a branch condition")))
  | complex :
    f.Varies → (∀ s, f.args = [s] → signals.get? s = none) →
    Reduces f signals (.error (.refused .complexBranchCondition))

/-! ### What the reduction answers -/

theorem ofTruthFn_of_args_ne (htrue : f.isTrue ≠ true) (hfalse : f.isFalse ≠ true)
    (hargs : ∀ s, f.args ≠ [s]) :
    ofTruthFn f signals = .error (.refused .complexBranchCondition) := by
  unfold ofTruthFn
  rw [if_neg htrue, if_neg hfalse]
  split
  · rename_i s _ hs _
    exact absurd hs (hargs s)
  · rfl

theorem ofTruthFn_of_undeclared (htrue : f.isTrue ≠ true) (hfalse : f.isFalse ≠ true)
    (hargs : f.args = [s]) (hs : signals.get? s = none) :
    ofTruthFn f signals = .error (.refused .complexBranchCondition) := by
  have hcontains : ¬ signals.contains s = true := by
    rw [Registry.contains_iff, hs]
    rintro ⟨declared, h⟩
    cases h
  unfold ofTruthFn
  rw [if_neg htrue, if_neg hfalse, hargs]
  split
  · rename_i s' _ h _
    cases h
    rw [Checked.require, if_neg hcontains]
    rfl
  · rfl

/-- The behavior of the one argument decides, once it is declared and the table is known. -/
theorem ofTruthFn_of_declared (htrue : f.isTrue ≠ true) (hfalse : f.isFalse ≠ true)
    (hargs : f.args = [s]) {declared : Signal} (hs : signals.get? s = some declared)
    {inverted : Bool} (htable : inverted? f.table = some inverted) :
    ofTruthFn f signals =
      if declared.behavior = .branchCondition then .ok (signal s inverted)
      else .error (.refused (.wrongBehavior declared.name "a branch condition")) := by
  have hcontains : signals.contains s = true := Registry.contains_iff.mpr ⟨declared, hs⟩
  have hget : (signals.get s : Checked Error Signal) = .ok declared := Registry.get_eq_ok.mpr hs
  unfold ofTruthFn
  rw [if_neg htrue, if_neg hfalse, hargs, htable]
  simp only [Checked.require, if_pos hcontains, hget, bind, Except.bind]
  split_ifs with hbehavior <;> rfl

/-! ### The two agree -/

/-- The reduction answers by the values of the function. -/
theorem reduces_ofTruthFn (hf : f.WellFormed) (signals : Registry) :
    Reduces f signals (ofTruthFn f signals) := by
  by_cases htrue : f.isTrue = true
  · rw [ofTruthFn, if_pos htrue]
    exact .always (hf.isTrue_iff.mp htrue)
  by_cases hfalse : f.isFalse = true
  · rw [ofTruthFn, if_neg htrue, if_pos hfalse]
    exact .never (hf.isFalse_iff.mp hfalse)
  have hvaries : f.Varies := hf.varies_iff.mpr ⟨htrue, hfalse⟩
  by_cases hargs : ∃ s, f.args = [s]
  · obtain ⟨s, hargs⟩ := hargs
    cases hs : signals.get? s with
    | none =>
      rw [ofTruthFn_of_undeclared htrue hfalse hargs hs]
      refine .complex hvaries fun s' hs' => ?_
      cases hargs.symm.trans hs'
      exact hs
    | some declared =>
      have hvalues := TruthFn.evaluate_eq_xor hargs hvaries
      have htable := (hf.inverted?_eq_some_iff hargs _).mpr hvalues
      rw [ofTruthFn_of_declared htrue hfalse hargs hs htable]
      split_ifs with hbehavior
      · exact .signal hvaries hargs hs hbehavior hvalues
      · exact .wrongBehavior hvaries hargs hs hbehavior
  · have hargs' : ∀ s, f.args ≠ [s] := fun s h => hargs ⟨s, h⟩
    rw [ofTruthFn_of_args_ne htrue hfalse hargs']
    exact .complex hvaries fun s h => absurd h (hargs' s)

/-- Whatever the values of the function call for is what the reduction answers. -/
theorem Reduces.ofTruthFn_eq {result : Checked Error BranchCondition} (hf : f.WellFormed)
    (h : Reduces f signals result) : ofTruthFn f signals = result := by
  cases h with
  | always hvalues => rw [ofTruthFn, if_pos (hf.isTrue_iff.mpr hvalues)]
  | never hvalues =>
    have htrue : f.isTrue ≠ true := by
      intro htrue
      have h := hf.isTrue_iff.mp htrue fun _ => false
      rw [hvalues] at h
      cases h
    rw [ofTruthFn, if_neg htrue, if_pos (hf.isFalse_iff.mpr hvalues)]
  | signal hvaries hargs hs hbehavior hvalues =>
    obtain ⟨htrue, hfalse⟩ := hf.varies_iff.mp hvaries
    have htable := (hf.inverted?_eq_some_iff hargs _).mpr hvalues
    rw [ofTruthFn_of_declared htrue hfalse hargs hs htable, if_pos hbehavior]
  | wrongBehavior hvaries hargs hs hbehavior =>
    obtain ⟨htrue, hfalse⟩ := hf.varies_iff.mp hvaries
    have hvalues := TruthFn.evaluate_eq_xor hargs hvaries
    have htable := (hf.inverted?_eq_some_iff hargs _).mpr hvalues
    rw [ofTruthFn_of_declared htrue hfalse hargs hs htable, if_neg hbehavior]
  | complex hvaries hundeclared =>
    obtain ⟨htrue, hfalse⟩ := hf.varies_iff.mp hvaries
    by_cases hargs : ∃ s, f.args = [s]
    · obtain ⟨s, hargs⟩ := hargs
      exact ofTruthFn_of_undeclared htrue hfalse hargs (hundeclared s hargs)
    · exact ofTruthFn_of_args_ne htrue hfalse fun s h => hargs ⟨s, h⟩

/-- **The reduction is exact.** It answers what the values of the function say, and it never turns a
function of one argument away because of its table. -/
theorem ofTruthFn_eq_iff_reduces (hf : f.IsBuilt) (signals : Registry) :
    (∀ result, ofTruthFn f signals = result ↔ Reduces f signals result) ∧
      ∀ s, f.args = [s] → f.Varies → ∃ inverted, inverted? f.table = some inverted := by
  have hwf := hf.wellFormed
  refine ⟨fun result => ⟨?_, fun h => h.ofTruthFn_eq hwf⟩,
    fun s hargs hvaries => ?_⟩
  · rintro rfl
    exact reduces_ofTruthFn hwf signals
  · exact ⟨_, (hwf.inverted?_eq_some_iff hargs _).mpr (TruthFn.evaluate_eq_xor hargs hvaries)⟩

/-- A function that was built from three occurrences of its argument is the inverse of it: the
reduction finds the register and the inversion, reports an argument that is a wire, and does not see
the argument of a function that is constant. -/
theorem ofTruthFn_absorbedArgument :
    ∃ f g : TruthFn,
      (Expr.not (.and (.signal ⟨1⟩) (.or (.signal ⟨1⟩) (.signal ⟨1⟩)))).build = .ok f ∧
      (Expr.xor (.signal ⟨1⟩) (.signal ⟨1⟩)).build = .ok g ∧ g.args = [⟨1⟩] ∧
      ∀ behavior, let signals : Registry :=
          ⟨[{ name := "a", dataType := .bit, behavior := .wire },
            { name := "c", dataType := .bit, behavior := behavior }]⟩
        Reduces g signals (.ok never) ∧
        Reduces f signals (if behavior = .branchCondition then .ok (signal ⟨1⟩ true)
          else .error (.refused (.wrongBehavior "c" "a branch condition"))) := by
  have hf : (Expr.not (.and (.signal ⟨1⟩) (.or (.signal ⟨1⟩) (.signal ⟨1⟩)))).build =
      .ok ⟨[⟨1⟩], ~~~Table.first,
        [.arg 0, .arg 0, .gate .or, .arg 0, .gate .and, .not]⟩ := by decide
  have hg : (Expr.xor (.signal ⟨1⟩) (.signal ⟨1⟩)).build =
      .ok ⟨[⟨1⟩], Table.never, [.arg 0, .arg 0, .gate .xor]⟩ := by decide
  refine ⟨_, _, hf, hg, rfl, fun behavior => ⟨?_, ?_⟩⟩
  · exact ((ofTruthFn_eq_iff_reduces ⟨_, hg⟩ _).1 _).mp rfl
  · exact ((ofTruthFn_eq_iff_reduces ⟨_, hf⟩ _).1 _).mp (by cases behavior <;> decide)

end BranchCondition

end AluPlacement
