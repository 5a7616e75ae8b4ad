import AluPlacement.Logic.Table
import Mathlib.Tactic.IntervalCases

/-! # Tables as functions of four bits

`Table.value t b` is the entry of `t` in the row where position `p` has the bit `b p`. Through this
view a table is a function of the bits at its four positions:

* `value_congr`: only the bits at the positions below 4 matter;
* `value_transpose`: exchanging the arguments at two positions exchanges the two bits;
* `DependsBelow t n`: only the bits at the positions below `n` matter. -/

namespace AluPlacement.Table

/-- The number `p` with `i` and `j` exchanged. -/
def exchange (i j p : Nat) : Nat := if p = i then j else if p = j then i else p

/-- The row in which position `p` has the bit `b p`. -/
def rowOf (b : Nat → Bool) : Nat :=
  (b 0).toNat + 2 * ((b 1).toNat + 2 * ((b 2).toNat + 2 * (b 3).toNat))

/-- The entry for the bits `b`. -/
def value (t : Table) (b : Nat → Bool) : Bool := t.getLsbD (rowOf b)

/-- The entries are determined by the bits at the positions below `n`. -/
def DependsBelow (t : Table) (n : Nat) : Prop :=
  ∀ b b' : Nat → Bool, (∀ p < n, b p = b' p) → t.value b = t.value b'

/-! ### Rows and bits -/

theorem rowOf_lt (b : Nat → Bool) : rowOf b < 16 := by
  unfold rowOf
  have h0 := (b 0).toNat_lt
  have h1 := (b 1).toNat_lt
  have h2 := (b 2).toNat_lt
  have h3 := (b 3).toNat_lt
  omega

theorem rowOf_congr {b b' : Nat → Bool} (h : ∀ p < positions, b p = b' p) :
    rowOf b = rowOf b' := by
  unfold rowOf
  rw [h 0 (by decide), h 1 (by decide), h 2 (by decide), h 3 (by decide)]

theorem testBit_rowOf (b : Nat → Bool) {p : Nat} (hp : p < positions) :
    (rowOf b).testBit p = b p := by
  have h : ∀ b0 b1 b2 b3 : Bool, ∀ p : Fin 4,
      (b0.toNat + 2 * (b1.toNat + 2 * (b2.toNat + 2 * b3.toNat))).testBit p =
        [b0, b1, b2, b3].get p := by decide
  have hp' : p < 4 := hp
  unfold rowOf
  rw [h (b 0) (b 1) (b 2) (b 3) ⟨p, hp'⟩]
  interval_cases p <;> rfl

theorem value_congr (t : Table) {b b' : Nat → Bool} (h : ∀ p < positions, b p = b' p) :
    t.value b = t.value b' := by
  unfold value
  rw [rowOf_congr h]

theorem DependsBelow.mono {t : Table} {m n : Nat} (h : t.DependsBelow m) (hmn : m ≤ n) :
    t.DependsBelow n :=
  fun b b' hb => h b b' fun p hp => hb p (by omega)

/-! ### Entries of the elementary tables -/

theorem value_never (b : Nat → Bool) : never.value b = false := by
  simp [value, never]

theorem value_always (b : Nat → Bool) : always.value b = true := by
  have h : ∀ r : Fin 16, always.getLsbD r.val = true := by decide
  exact h ⟨rowOf b, rowOf_lt b⟩

theorem value_first (b : Nat → Bool) : first.value b = b 0 := by
  have h : ∀ r : Fin 16, first.getLsbD r.val = r.val.testBit 0 := by decide
  unfold value
  rw [h ⟨rowOf b, rowOf_lt b⟩, testBit_rowOf b (by decide)]

theorem value_not (t : Table) (b : Nat → Bool) : (~~~t).value b = !t.value b := by
  have h := rowOf_lt b
  simp [value, h]

/-! ### Transpositions -/

theorem exchange_lt {i j p n : Nat} (hi : i < n) (hj : j < n) (hp : p < n) :
    exchange i j p < n := by
  unfold exchange
  split_ifs <;> assumption

theorem exchange_self (i p : Nat) : exchange i i p = p := by
  unfold exchange
  split_ifs with h
  · exact h.symm
  · rfl

theorem getLsbD_swapRows (t : Table) {a b : Nat} (ha : a < 16) (hb : b < 16) (r : Nat) :
    (t.swapRows a b).getLsbD r = t.getLsbD (exchange a b r) := by
  unfold swapRows exchange
  by_cases heq : t.getLsbD a = t.getLsbD b
  · rw [if_pos heq]
    split_ifs with h1 h2
    · rw [h1, heq]
    · rw [h2, heq]
    · rfl
  · rw [if_neg heq]
    have hmask : (1#16 <<< a ||| 1#16 <<< b).getLsbD r = (decide (r = a) || decide (r = b)) := by
      simp only [BitVec.getLsbD_or, BitVec.getLsbD_shiftLeft, BitVec.getLsbD_one]
      grind
    rw [BitVec.getLsbD_xor, hmask]
    -- the two rows differ, so each takes the value of the other one by being flipped
    split_ifs with h1 h2
    · subst h1; cases hx : t.getLsbD r <;> cases hy : t.getLsbD b <;> simp_all
    · subst h2; cases hx : t.getLsbD r <;> cases hy : t.getLsbD a <;> simp_all
    · simp [h1, h2]

theorem getLsbD_foldl_swapRows (r : Nat) : ∀ (ps : List (Nat × Nat)) (t : Table),
    (∀ p ∈ ps, p.1 < 16 ∧ p.2 < 16) →
      (ps.foldl (fun t p => swapRows t p.1 p.2) t).getLsbD r =
        t.getLsbD (ps.foldr (fun p r => exchange p.1 p.2 r) r)
  | [], _, _ => rfl
  | p :: ps, t, h => by
    obtain ⟨h1, h2⟩ := h p (by simp)
    rw [List.foldl_cons, List.foldr_cons,
      getLsbD_foldl_swapRows r ps _ fun q hq => h q (by simp [hq]),
      getLsbD_swapRows t h1 h2]

theorem mem_exchanged_lt {i j : Nat} (hi : i < positions) (hj : j < positions) {p : Nat × Nat}
    (hp : p ∈ exchanged i j) : p.1 < 16 ∧ p.2 < 16 := by
  have h : ∀ i j : Fin 4, ∀ p ∈ exchanged i j, p.1 < 16 ∧ p.2 < 16 := by decide
  exact h ⟨i, hi⟩ ⟨j, hj⟩ p hp

/-- The exchanged pairs of rows lead from each row to the one with the two bits exchanged. -/
theorem foldr_exchanged {i j r : Nat} (hi : i < positions) (hj : j < positions) (hij : i ≠ j)
    (hr : r < 16) :
    (exchanged i j).foldr (fun p r => exchange p.1 p.2 r) r =
      rowOf fun p => r.testBit (exchange i j p) := by
  have h : ∀ i j : Fin 4, i ≠ j → ∀ r : Fin 16,
      (exchanged i j).foldr (fun p r => exchange p.1 p.2 r) r.val =
        rowOf fun p => r.val.testBit (exchange i j p) := by decide
  exact h ⟨i, hi⟩ ⟨j, hj⟩ (by simpa [Fin.ext_iff] using hij) ⟨r, hr⟩

theorem transpose_eq_ok {ε : Type} {t t' : Table} {i j : Nat} :
    (t.transpose i j : Checked ε Table) = .ok t' ↔
      (i = j ∧ t' = t) ∨ (i ≠ j ∧ (i < positions ∧ j < positions) ∧
        t' = (exchanged i j).foldl (fun t p => swapRows t p.1 p.2) t) := by
  unfold transpose
  split_ifs with h1 h2
  · simp [h1, eq_comm]
  · simp [h1, h2, eq_comm]
  · simp [h1, h2, Checked.misuse]

/-- **A transposition exchanges two bits.** -/
theorem value_transpose {ε : Type} {t t' : Table} {i j : Nat}
    (h : (t.transpose i j : Checked ε Table) = .ok t') (b : Nat → Bool) :
    t'.value b = t.value fun p => b (exchange i j p) := by
  rcases transpose_eq_ok.mp h with ⟨rfl, rfl⟩ | ⟨hij, ⟨hi, hj⟩, rfl⟩
  · simp only [exchange_self]
  · unfold value
    rw [getLsbD_foldl_swapRows _ _ _ fun p hp => mem_exchanged_lt hi hj hp,
      foldr_exchanged hi hj hij (rowOf_lt b)]
    congr 1
    exact rowOf_congr fun p hp => testBit_rowOf b (exchange_lt hi hj hp)

end AluPlacement.Table
