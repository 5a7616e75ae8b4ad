import Mathlib.Data.List.Induction
import Mathlib.Data.List.Nodup
import Mathlib.Tactic.SplitIfs

/-! # Facts about lists

What the theory of units uses about lists in general: how a list can be split, what stands in a
place, what a search finds after a change, and first occurrences. -/

namespace AluPlacement

variable {α β : Type}

/-! ### Splitting a list -/

/-- A list splits at the last occurrence of an entry in one way only. -/
theorem append_cons_inj {c : α} {l l' d d' : List α} (hd : c ∉ d) (hd' : c ∉ d')
    (h : l ++ c :: d = l' ++ c :: d') : l = l' ∧ d = d' := by
  rcases List.append_eq_append_iff.mp h with ⟨m, rfl, hm⟩ | ⟨m, rfl, hm⟩
  · cases m with
    | nil => simp_all
    | cons x m =>
      have hmem : c ∈ d := by
        rw [(List.cons.inj hm).2]
        simp
      exact absurd hmem hd
  · cases m with
    | nil => simp_all
    | cons x m =>
      have hmem : c ∈ d' := by
        rw [(List.cons.inj hm).2]
        simp
      exact absurd hmem hd'

theorem takeWhile_append_eq {p : α → Bool} {l m : List α} (hl : ∀ x ∈ l, p x = true)
    (hm : ∀ x ∈ m.head?, p x = false) : (l ++ m).takeWhile p = l := by
  rw [List.takeWhile_append_of_pos hl]
  cases m with
  | nil => simp
  | cons x m => simp [hm x rfl]

/-- A list splits in one way into entries with a property and a rest that begins with none. -/
theorem append_inj_of_all {p : α → Bool} {l l' m m' : List α} (hl : ∀ x ∈ l, p x = true)
    (hl' : ∀ x ∈ l', p x = true) (hm : ∀ x ∈ m.head?, p x = false)
    (hm' : ∀ x ∈ m'.head?, p x = false) (h : l ++ m = l' ++ m') : l = l' ∧ m = m' := by
  have hsame : l = l' := by rw [← takeWhile_append_eq hl hm, h, takeWhile_append_eq hl' hm']
  subst hsame
  exact ⟨rfl, List.append_cancel_left h⟩

theorem take_length_of_take {l pre rest : List α} {stop : Nat} (h : l.take stop = pre ++ rest) :
    l.take pre.length = pre := by
  have hle : pre.length ≤ stop := by
    have hlength := List.length_take_le stop l
    rw [h, List.length_append] at hlength
    omega
  have htake : (l.take stop).take pre.length = pre := by rw [h, List.take_left]
  rwa [List.take_take, Nat.min_eq_left hle] at htake

/-- A stretch from the start of a list that ends with this entry. -/
theorem take_eq_concat {l pre : List α} {a : α} {stop : Nat} (hstop : stop ≤ l.length)
    (h : l.take stop = pre ++ [a]) :
    stop = pre.length + 1 ∧ l[pre.length]? = some a ∧ l.take pre.length = pre := by
  have hlength : stop = pre.length + 1 := by
    have := congrArg List.length h
    simp only [List.length_take, List.length_append, List.length_singleton] at this
    omega
  refine ⟨hlength, ?_, take_length_of_take h⟩
  have hget : (l.take stop)[pre.length]? = some a := by simp [h]
  rwa [List.getElem?_take_of_lt (by omega)] at hget

/-- The next entry, and those after it. -/
theorem next_of_drop {l rest : List α} {k : Nat} {a : α} (h : l.drop k = a :: rest) :
    l[k]? = some a ∧ l.drop (k + 1) = rest := by
  rw [← List.head?_drop, ← List.drop_drop, h]
  exact ⟨rfl, rfl⟩

/-! ### Places -/

theorem getElem?_append_singleton (l : List α) (a : α) (i : Nat) :
    (l ++ [a])[i]? = if i = l.length then some a else l[i]? := by
  by_cases h : i = l.length
  · simp [h]
  · rw [if_neg h]
    rcases Nat.lt_or_ge i l.length with hlt | hge
    · exact List.getElem?_append_left hlt
    · rw [List.getElem?_eq_none hge, List.getElem?_eq_none]
      simp only [List.length_append, List.length_singleton]
      omega

/-- Changed entries, each with its place. -/
theorem zipIdx_map_zipIdx (f : α × Nat → β) (l : List α) :
    (l.zipIdx.map f).zipIdx = l.zipIdx.map fun p => (f p, p.2) := by
  refine List.ext_getElem? fun i => ?_
  simp only [List.getElem?_zipIdx, List.getElem?_map, Option.map_map]
  rfl

/-! ### Searching -/

section Search

variable {g : α → Option β} {f : α → α}

theorem findSome?_modify_of_eq {l : List α} {i : Nat}
    (h : ∀ x, l[i]? = some x → g (f x) = g x) :
    (l.modify i f).findSome? g = l.findSome? g := by
  induction l generalizing i with
  | nil => rw [List.modify_nil]
  | cons y l ih =>
    cases i with
    | zero => rw [List.modify_zero_cons, List.findSome?_cons, List.findSome?_cons, h y rfl]
    | succ i =>
      rw [List.modify_succ_cons, List.findSome?_cons, List.findSome?_cons, ih fun x hx => h x hx]

theorem findSome?_modify_of_some {l : List α} {i : Nat} {x : α} {b : β} (hx : l[i]? = some x)
    (hg : g (f x) = some b) (h : ∀ c, l.findSome? g = some c → c = b) :
    (l.modify i f).findSome? g = some b := by
  induction l generalizing i with
  | nil => cases hx
  | cons y l ih =>
    cases i with
    | zero =>
      cases hx
      rw [List.modify_zero_cons, List.findSome?_cons, hg]
    | succ i =>
      rw [List.findSome?_cons] at h
      rw [List.modify_succ_cons, List.findSome?_cons]
      cases hy : g y with
      | none =>
        rw [hy] at h
        exact ih hx h
      | some c =>
        rw [hy] at h
        exact congrArg some (h c rfl)

end Search

theorem countP_le_one {p : α → Bool} {l : List α} (hl : l.Nodup)
    (h : ∀ a ∈ l, ∀ b ∈ l, p a = true → p b = true → a = b) : l.countP p ≤ 1 := by
  rw [List.countP_eq_length_filter]
  have hmem : ∀ a ∈ l.filter p, ∀ b ∈ l.filter p, a = b := by
    intro a ha b hb
    obtain ⟨ha, hpa⟩ := List.mem_filter.mp ha
    obtain ⟨hb, hpb⟩ := List.mem_filter.mp hb
    exact h a ha b hb hpa hpb
  have hnodup := hl.filter p
  match hf : l.filter p with
  | [] => exact Nat.zero_le 1
  | [a] => exact Nat.le_refl 1
  | a :: b :: rest =>
    rw [hf] at hmem hnodup
    have heq : a = b := hmem a (by simp) b (by simp)
    rw [heq] at hnodup
    exact absurd hnodup (by simp)

/-! ### First occurrences -/

/-- Put an entry at the end of a list that does not have it. -/
def insertNew [BEq α] (l : List α) (a : α) : List α := if l.contains a then l else l ++ [a]

section FirstOccurrences

variable [BEq α] [LawfulBEq α]

theorem eraseDups_concat (l : List α) (a : α) :
    (l ++ [a]).eraseDups = insertNew l.eraseDups a := by
  unfold insertNew
  rw [List.eraseDups_append]
  split_ifs with h <;> simp_all [List.removeAll, List.eraseDups_cons]

theorem foldl_insertNew (l : List α) : l.foldl insertNew [] = l.eraseDups := by
  induction l using List.reverseRecOn with
  | nil => rfl
  | append_singleton l a ih => rw [List.foldl_concat, ih, eraseDups_concat]

end FirstOccurrences

end AluPlacement
