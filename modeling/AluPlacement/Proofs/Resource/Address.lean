import AluPlacement.Resource.Basic

/-! # Resources and their addresses

The ranges of the families and the numbers of the single resources do not meet, so an address in use
belongs to one resource: `resource?_address` leads from a resource to its address and back,
`address_of_resource?` from an address to its resource and back. An address is valid exactly if it is
that of a resource in range (`Address.ofNumber?_eq_some_iff`). -/

namespace AluPlacement

theorem Address.isIn_iff {a : Address} {family : Family} : a.isIn family = true ↔
    family.offset ≤ a.number ∧ a.number < family.offset + family.capacity := by
  unfold isIn
  rw [Bool.and_eq_true, decide_eq_true_iff, decide_eq_true_iff]

theorem Address.isIn_ofSlot {family : Family} {n : Nat} (h : n < family.capacity) :
    (Address.ofSlot family n).isIn family = true :=
  isIn_iff.mpr ⟨Nat.le_add_right _ _, Nat.add_lt_add_left h _⟩

namespace Resource

variable {r r' : Resource} {a : Address}

theorem inRange_of_single (hr : r ∈ singles) : r.inRange = true := by
  have hall : ∀ r ∈ singles, r.inRange = true := by decide
  exact hall r hr

/-- The resource at the address of a resource. -/
theorem resource?_address (h : r.inRange = true) : r.address.resource? = some r := by
  cases r with
  | slot family index =>
    have hlt : index < family.capacity := by simpa [inRange] using h
    have hall : ∀ i : Fin family.capacity,
        (slot family i).address.resource? = some (slot family i) := by
      cases family <;> decide
    exact hall ⟨index, hlt⟩
  | condBypass => decide
  | condUpdate => decide
  | builtin0 => decide
  | builtin1 => decide
  | builtinFFFF => decide

theorem address_inj (h : r.inRange = true) (h' : r'.inRange = true) (he : r.address = r'.address) :
    r = r' := by
  have := resource?_address h
  rw [he, resource?_address h'] at this
  exact (Option.some.inj this).symm

/-- The address of the resource at an address. -/
theorem address_of_resource? (h : a.resource? = some r) : r.inRange = true ∧ r.address = a := by
  unfold Address.resource? at h
  cases hfind : Family.all.find? a.isIn with
  | some family =>
    rw [hfind] at h
    cases h
    have hin := List.find?_some hfind
    rw [Address.isIn_iff] at hin
    refine ⟨?_, ?_⟩
    · simp only [inRange, decide_eq_true_eq]
      omega
    · simp only [address]
      rw [Nat.add_sub_cancel' hin.1]
  | none =>
    rw [hfind] at h
    have haddress := List.find?_some h
    exact ⟨inRange_of_single (List.mem_of_find?_eq_some h), by simpa using haddress⟩

/-- Every number in use is one of eight bits. -/
theorem number_lt (h : r.inRange = true) : r.address.number < 256 := by
  cases r with
  | slot family index =>
    have hlt : index < family.capacity := by simpa [inRange] using h
    cases family <;> simp only [Family.capacity] at hlt <;> simp only [address, Family.offset] <;>
      omega
  | condBypass => decide
  | condUpdate => decide
  | builtin0 => decide
  | builtin1 => decide
  | builtinFFFF => decide

end Resource

/-- The valid addresses are those of the resources in range. -/
theorem Address.ofNumber?_eq_some_iff {a : Address} {n : Nat} :
    ofNumber? n = some a ↔ a.number = n ∧ ∃ r : Resource, r.inRange = true ∧ r.address = a := by
  unfold ofNumber?
  cases hr : (Address.mk n).resource? with
  | some r =>
    obtain ⟨hin, haddress⟩ := Resource.address_of_resource? hr
    simp only [hr, Option.isSome_some, if_true, Option.some.injEq]
    constructor
    · rintro rfl
      exact ⟨rfl, r, hin, haddress⟩
    · rintro ⟨rfl, -⟩
      rfl
  | none =>
    simp only [hr, Option.isSome_none, Bool.false_eq_true, if_false, reduceCtorEq, false_iff]
    rintro ⟨rfl, r, hin, rfl⟩
    rw [Resource.resource?_address hin] at hr
    cases hr

end AluPlacement
