import AluPlacement.Proofs.Logic.Joining

/-! # Tables are canonical

A function of `n` arguments has values in `2 ^ n` rows only, but its table has all 16 of them. The
other rows repeat these, because the table ignores the positions beyond the arguments; and since the
arguments are different, every row is that of some assignment. So the values determine the whole
table (`WellFormed.table_eq_iff`), and comparing tables is comparing functions: `isTrue` and
`isFalse` find every tautology and every contradiction, and `isHold` finds every function that passes
a signal on. The complement laws hold of the tables for that reason. -/

namespace AluPlacement

/-! ### Tables with the same entries -/

namespace Table

theorem rowOf_testBit {r : Nat} (hr : r < 16) : rowOf r.testBit = r := by
  have h : ∀ r : Fin 16, rowOf r.val.testBit = r.val := by decide
  exact h ⟨r, hr⟩

theorem ext_value {s t : Table} (h : ∀ b, s.value b = t.value b) : s = t := by
  refine BitVec.eq_of_getLsbD_eq fun r hr => ?_
  have hrow := h r.testBit
  unfold value at hrow
  rwa [rowOf_testBit hr] at hrow

theorem dependsBelow_never (n : Nat) : never.DependsBelow n := by
  intro b b' _
  rw [value_never, value_never]

theorem dependsBelow_always (n : Nat) : always.DependsBelow n := by
  intro b b' _
  rw [value_always, value_always]

theorem dependsBelow_first {n : Nat} (hn : 0 < n) : first.DependsBelow n := by
  intro b b' hb
  rw [value_first, value_first, hb 0 hn]

end Table

namespace TruthFn

variable {f g h : TruthFn}

/-! ### Values determine the table -/

/-- Different arguments can be given any bits. -/
theorem exists_bitsOf {args : List SignalId} (hn : args.Nodup) (b : Nat → Bool) :
    ∃ value, ∀ p < args.length, bitsOf value args p = b p := by
  refine ⟨fun s => b (args.idxOf s), fun p hp => ?_⟩
  rw [bitsOf_of_getElem? (List.getElem?_eq_getElem hp), hn.idxOf_getElem p hp]

/-- **The table of a well-formed function is the one that has its values.** -/
theorem WellFormed.table_eq_iff (hf : f.WellFormed) {t : Table}
    (ht : t.DependsBelow f.args.length) :
    f.table = t ↔ ∀ value, f.evaluate value = t.value (bitsOf value f.args) := by
  constructor
  · rintro rfl value
    exact evaluate_eq_value hf.length_le value
  · intro h
    refine Table.ext_value fun b => ?_
    -- give the arguments the bits of the row; the other positions do not matter
    obtain ⟨value, hvalue⟩ := exists_bitsOf hf.nodup b
    calc f.table.value b = f.table.value (bitsOf value f.args) :=
          hf.dependsBelow _ _ fun p hp => (hvalue p hp).symm
      _ = f.evaluate value := (evaluate_eq_value hf.length_le value).symm
      _ = t.value (bitsOf value f.args) := h value
      _ = t.value b := ht _ _ hvalue

theorem WellFormed.table_eq_table_iff (hf : f.WellFormed) (hg : g.WellFormed)
    (hargs : f.args = g.args) :
    f.table = g.table ↔ ∀ value, f.evaluate value = g.evaluate value := by
  have hdep : g.table.DependsBelow f.args.length := by
    rw [hargs]
    exact hg.dependsBelow
  have hvalue : ∀ value, g.evaluate value = g.table.value (bitsOf value f.args) := by
    intro value
    rw [evaluate_eq_value hg.length_le, hargs]
  simp only [hf.table_eq_iff hdep, hvalue]

theorem WellFormed.isTrue_iff (hf : f.WellFormed) :
    f.isTrue = true ↔ ∀ value, f.evaluate value = true := by
  have h := hf.table_eq_iff (Table.dependsBelow_always _)
  simp only [Table.value_always] at h
  rw [← h]
  exact beq_iff_eq

theorem WellFormed.isFalse_iff (hf : f.WellFormed) :
    f.isFalse = true ↔ ∀ value, f.evaluate value = false := by
  have h := hf.table_eq_iff (Table.dependsBelow_never _)
  simp only [Table.value_never] at h
  rw [← h]
  exact beq_iff_eq

/-- A function of one argument has the table of this argument exactly if it passes its value on. -/
theorem WellFormed.table_eq_first_iff (hf : f.WellFormed) {s : SignalId} (hargs : f.args = [s]) :
    f.table = Table.first ↔ ∀ value, f.evaluate value = value s := by
  have hbits : ∀ value, bitsOf value f.args 0 = value s := fun value => by simp [hargs, bitsOf]
  have h := hf.table_eq_iff (Table.dependsBelow_first (by simp [hargs]))
  simpa only [Table.value_first, hbits] using h

theorem WellFormed.isHold_iff (hf : f.WellFormed) (s : SignalId) :
    f.isHold s = true ↔ f.args = [s] ∧ ∀ value, f.evaluate value = value s := by
  have hsplit : f.isHold s = true ↔ f.args = [s] ∧ f.table = Table.first := by
    simp [isHold, and_comm]
  rw [hsplit]
  exact and_congr_right fun hargs => hf.table_eq_first_iff hargs

/-! ### A function and itself -/

/-- Two functions of the same arguments can be joined. -/
theorem connect_of_args_eq (hf : f.WellFormed) (hg : g.WellFormed) (hargs : g.args = f.args)
    (gate : Gate) : ∃ h, connect gate f g = .ok h := by
  rw [connect_answers_iff hf hg]
  rintro ⟨-, -, hmany⟩
  have hlength := hf.length_le
  rw [card_toFinset_append hf.nodup hg.nodup, hargs, joined_self] at hmany
  exact absurd hmany (not_lt.mpr hlength)

theorem WellFormed.not (hf : f.WellFormed) : f.not.WellFormed := hereditary_wellFormed.not hf

/-- A gate whose value is the same whatever the function is gives the constant of that value. -/
theorem exists_connect_constant (hf : f.WellFormed) (hg : g.WellFormed) (hargs : g.args = f.args)
    (gate : Gate) (b : Bool)
    (hvalue : ∀ value, gate.eval (f.evaluate value) (g.evaluate value) = b) :
    ∃ h, connect gate f g = .ok h ∧ h.WellFormed ∧ ∀ value, h.evaluate value = b := by
  obtain ⟨h, hok⟩ := connect_of_args_eq hf hg hargs gate
  have hcomputes := computes_connect ⟨hf, fun _ => rfl⟩ ⟨hg, fun _ => rfl⟩ hok
  exact ⟨h, hok, hcomputes.1, fun value => (hcomputes.2 value).trans (hvalue value)⟩

theorem WellFormed.evaluate_not (hf : f.WellFormed) (value : SignalId → Bool) :
    f.not.evaluate value = !f.evaluate value :=
  (computes_not ⟨hf, fun _ => rfl⟩).2 value

theorem WellFormed.and_not (hf : f.WellFormed) : ∃ h, f.and f.not = .ok h ∧ h.isFalse = true := by
  obtain ⟨h, hok, hwf, hvalue⟩ := exists_connect_constant hf hf.not rfl .and false fun value => by
    rw [hf.evaluate_not, Gate.eval, Bool.and_not_self]
  exact ⟨h, hok, hwf.isFalse_iff.mpr hvalue⟩

theorem WellFormed.or_not (hf : f.WellFormed) : ∃ h, f.or f.not = .ok h ∧ h.isTrue = true := by
  obtain ⟨h, hok, hwf, hvalue⟩ := exists_connect_constant hf hf.not rfl .or true fun value => by
    rw [hf.evaluate_not, Gate.eval, Bool.or_not_self]
  exact ⟨h, hok, hwf.isTrue_iff.mpr hvalue⟩

theorem WellFormed.xor_self (hf : f.WellFormed) : ∃ h, f.xor f = .ok h ∧ h.isFalse = true := by
  obtain ⟨h, hok, hwf, hvalue⟩ := exists_connect_constant hf hf rfl .xor false fun value => by
    rw [Gate.eval, Bool.xor_self]
  exact ⟨h, hok, hwf.isFalse_iff.mpr hvalue⟩

theorem table_not_not (f : TruthFn) : f.not.not.table = f.table := BitVec.not_not

/-! ### Built functions -/

/-- What can be read off the table of a function. -/
structure IsCanonical (f : TruthFn) : Prop where
  table_eq_iff : ∀ g : TruthFn, g.IsBuilt → f.args = g.args →
    (f.table = g.table ↔ ∀ value, f.evaluate value = g.evaluate value)
  isTrue_iff : f.isTrue = true ↔ ∀ value, f.evaluate value = true
  isFalse_iff : f.isFalse = true ↔ ∀ value, f.evaluate value = false
  isHold_iff : ∀ s, f.isHold s = true ↔ f.args = [s] ∧ ∀ value, f.evaluate value = value s
  and_not : ∃ h, f.and f.not = .ok h ∧ h.isFalse = true
  or_not : ∃ h, f.or f.not = .ok h ∧ h.isTrue = true
  xor_self : ∃ h, f.xor f = .ok h ∧ h.isFalse = true
  not_not : f.not.not.table = f.table

/-- **Tables of built functions are canonical.** -/
theorem IsBuilt.isCanonical (hf : f.IsBuilt) : f.IsCanonical := by
  have hwf := hf.wellFormed
  exact
    { table_eq_iff := fun _ hg hargs => hwf.table_eq_table_iff hg.wellFormed hargs
      isTrue_iff := hwf.isTrue_iff
      isFalse_iff := hwf.isFalse_iff
      isHold_iff := hwf.isHold_iff
      and_not := hwf.and_not
      or_not := hwf.or_not
      xor_self := hwf.xor_self
      not_not := table_not_not f }

/-- Two ways of writing a function of two arguments that does not depend on the second one: its
table is that of the first argument, and yet it does not pass that signal on. -/
theorem isCanonical_unusedArgument :
    ∃ f g : TruthFn,
      (Expr.xor (.xor (.signal ⟨0⟩) (.signal ⟨1⟩)) (.signal ⟨1⟩)).build = .ok f ∧
      (Expr.and (.or (.signal ⟨0⟩) (.signal ⟨1⟩)) (.or (.signal ⟨0⟩) (.not (.signal ⟨1⟩)))).build =
        .ok g ∧
      f.IsCanonical ∧ f.isHold ⟨0⟩ = false ∧ ∀ value, f.evaluate value = g.evaluate value := by
  have hf : (Expr.xor (.xor (.signal ⟨0⟩) (.signal ⟨1⟩)) (.signal ⟨1⟩)).build =
      .ok ⟨[⟨0⟩, ⟨1⟩], Table.first, [.arg 1, .arg 1, .arg 0, .gate .xor, .gate .xor]⟩ := by decide
  have hg : (Expr.and (.or (.signal ⟨0⟩) (.signal ⟨1⟩))
      (.or (.signal ⟨0⟩) (.not (.signal ⟨1⟩)))).build =
      .ok ⟨[⟨0⟩, ⟨1⟩], Table.first, [.arg 1, .not, .arg 0, .gate .or, .arg 1, .arg 0, .gate .or,
        .gate .and]⟩ := by decide
  have hcanonical := IsBuilt.isCanonical ⟨_, hf⟩
  exact ⟨_, _, hf, hg, hcanonical, by decide, (hcanonical.table_eq_iff _ ⟨_, hg⟩ rfl).mp rfl⟩

end TruthFn

end AluPlacement
