import AluPlacement.Proofs.List
import AluPlacement.Proofs.Resource.Address
import AluPlacement.Proofs.Resource.Numeral

/-! # The grammar of resource names

A name is one of five fixed names, or the stem of a family, a numeral and the tail of the family. A
stem has no digit and a tail does not begin with one, so the parts can be read off the name
(`slotName_inj`), and no fixed name is taken for that of a slot (`slotName_ne_single`). Reading a name
is therefore the same as deriving it by the grammar `Spells`, whatever the order in which the
families are tried (`ofName?_eq_some_iff`).

The grammar gives each name together with the form in which its address is shown, where the numeral
has no superfluous zeros. A name begins with a letter and a number does not, so queries by name and
by number do not get in each other's way, and an answer can be asked back. -/

namespace AluPlacement

variable {q : String} {a : Address} {r : Resource} {family family' : Family}
variable {digits digits' : List Char}

/-! ### The grammar -/

/-- The fixed names and their addresses. -/
def singleNames : List (String × Nat) :=
  [("cond_bypass", 22), ("cond_update", 23), ("builtin0", 80), ("builtin1", 81),
    ("builtinFFFF", 82)]

/-- The name of a slot whose index is written so. -/
def Family.slotName (family : Family) (digits : List Char) : String :=
  family.stem ++ String.ofList digits ++ family.tail

/-- `Spells q a shown`: the text `q` is a name of the address `a`, which is shown as `shown`. -/
inductive Spells : String → Address → String → Prop
  | single {name : String} {number : Nat} (h : (name, number) ∈ singleNames) :
      Spells name ⟨number⟩ name
  | slot (family : Family) {digits : List Char} (hd : IsNumeral digits)
      (hlt : Nat.ofDigitChars 10 digits 0 < family.capacity) :
      Spells (family.slotName digits) ⟨family.offset + Nat.ofDigitChars 10 digits 0⟩
        (family.slotName (trimZeros digits))

/-! ### The parts of a name -/

theorem toList_slotName (family : Family) (digits : List Char) :
    (family.slotName digits).toList = family.stem.toList ++ (digits ++ family.tail.toList) := by
  simp [Family.slotName]

theorem Family.stem_not_digit (family : Family) :
    ∀ c ∈ family.stem.toList, (!c.isDigit) = true := by
  rw [← List.all_eq_true]
  cases family <;> decide

theorem Family.tail_not_digit (family : Family) :
    ∀ c ∈ family.tail.toList.head?, c.isDigit = false := by
  intro c hc
  cases family <;> cases hc <;> decide

theorem Family.eq_of_affixes (hstem : family.stem = family'.stem)
    (htail : family.tail = family'.tail) : family = family' := by
  revert hstem htail
  cases family <;> cases family' <;> decide

theorem Family.mem_all (family : Family) : family ∈ Family.all := by
  cases family <;> decide

/-- After its stem the name of a slot goes on with a digit. -/
theorem IsNumeral.head_append (hd : IsNumeral digits) (tail : List Char) :
    ∀ c ∈ (digits ++ tail).head?, (!c.isDigit) = false := by
  cases digits with
  | nil => exact absurd rfl hd.ne_nil
  | cons d digits =>
    intro c hc
    obtain rfl : d = c := by simpa using hc
    simp [hd.isDigit d (by simp)]

/-- **The parts of the name of a slot can be read off it.** -/
theorem slotName_inj (hd : IsNumeral digits) (hd' : IsNumeral digits')
    (h : family.slotName digits = family'.slotName digits') :
    family = family' ∧ digits = digits' := by
  have hlist := congrArg String.toList h
  rw [toList_slotName, toList_slotName] at hlist
  obtain ⟨hstem, hrest⟩ := append_inj_of_all family.stem_not_digit family'.stem_not_digit
    (hd.head_append _) (hd'.head_append _) hlist
  obtain ⟨hdigits, htail⟩ := append_inj_of_all hd.isDigit hd'.isDigit family.tail_not_digit
    family'.tail_not_digit hrest
  refine ⟨Family.eq_of_affixes ?_ ?_, hdigits⟩
  · exact String.toList_injective hstem
  · exact String.toList_injective htail

/-- What stands before the first digit of a fixed name is not the stem of a family. -/
theorem slotName_ne_single (hr : r ∈ Resource.singles) (hd : IsNumeral digits) :
    family.slotName digits ≠ r.name := by
  have hstems : ∀ r ∈ Resource.singles, ∀ family ∈ Family.all,
      r.name.toList.takeWhile (fun c => !c.isDigit) ≠ family.stem.toList := by decide
  intro h
  refine hstems r hr family family.mem_all ?_
  rw [← h, toList_slotName]
  exact takeWhile_append_eq family.stem_not_digit (hd.head_append _)

/-! ### Reading a name -/

theorem between?_eq_some_iff {stem tail text mid : List Char} :
    between? stem tail text = some mid ↔ text = stem ++ (mid ++ tail) := by
  unfold between?
  simp only [Bool.and_eq_true, List.isPrefixOf_iff_prefix, List.isSuffixOf_iff_suffix]
  constructor
  · intro h
    split_ifs at h with haffixes
    obtain ⟨⟨rest, rfl⟩, htail⟩ := haffixes
    rw [List.drop_left] at h htail
    obtain ⟨mid', rfl⟩ := htail
    simpa [eq_comm] using h
  · rintro rfl
    rw [List.drop_left, if_pos ⟨List.prefix_append _ _, List.suffix_append _ _⟩]
    simp

theorem Family.ofName?_eq_some_iff : family.ofName? q = some r ↔
    ∃ digits, IsNumeral digits ∧ Nat.ofDigitChars 10 digits 0 < family.capacity ∧
      q = family.slotName digits ∧ r = .slot family (Nat.ofDigitChars 10 digits 0) := by
  have hindex : ∀ n, family.index? q = some n ↔
      ∃ digits, IsNumeral digits ∧ Nat.ofDigitChars 10 digits 0 = n ∧ q = family.slotName digits := by
    intro n
    unfold Family.index?
    rw [Option.bind_eq_some_iff]
    simp only [between?_eq_some_iff, decimal?_eq_some_iff, ← toList_slotName, String.toList_inj]
    constructor
    · rintro ⟨digits, hq, hd, hvalue⟩
      exact ⟨digits, hd, hvalue, hq⟩
    · rintro ⟨digits, hd, hvalue, hq⟩
      exact ⟨digits, hq, hd, hvalue⟩
  unfold Family.ofName?
  cases hn : family.index? q with
  | some n =>
    obtain ⟨digits, hd, rfl, rfl⟩ := (hindex n).mp hn
    simp only
    constructor
    · intro h
      split_ifs at h with hlt
      cases h
      exact ⟨digits, hd, hlt, rfl, rfl⟩
    · rintro ⟨digits', hd', hlt, hq, rfl⟩
      obtain ⟨-, rfl⟩ := slotName_inj hd hd' hq
      rw [if_pos hlt]
  | none =>
    simp only [reduceCtorEq, false_iff]
    rintro ⟨digits, hd, -, hq, -⟩
    rw [(hindex _).mpr ⟨digits, hd, rfl, hq⟩] at hn
    cases hn

theorem ofName?_single (hr : r ∈ Resource.singles) : Resource.ofName? r.name = some r := by
  have hall : ∀ r ∈ Resource.singles, Resource.ofName? r.name = some r := by decide
  exact hall r hr

/-- The families before that of the slot do not take its name. -/
theorem ofName?_slot (hd : IsNumeral digits)
    (hlt : Nat.ofDigitChars 10 digits 0 < family.capacity) :
    Resource.ofName? (family.slotName digits) =
      some (.slot family (Nat.ofDigitChars 10 digits 0)) := by
  have hfound : family.ofName? (family.slotName digits) =
      some (.slot family (Nat.ofDigitChars 10 digits 0)) :=
    Family.ofName?_eq_some_iff.mpr ⟨digits, hd, hlt, rfl, rfl⟩
  have hnone : Resource.singles.find? (fun r => r.name = family.slotName digits) = none := by
    rw [List.find?_eq_none]
    intro r hr
    simpa using (slotName_ne_single hr hd).symm
  unfold Resource.ofName?
  rw [hnone]
  cases hsome : Family.all.findSome? fun family' => family'.ofName? (family.slotName digits) with
  | some r =>
    obtain ⟨family', -, hr⟩ := List.exists_of_findSome?_eq_some hsome
    obtain ⟨digits', hd', -, hq, rfl⟩ := Family.ofName?_eq_some_iff.mp hr
    obtain ⟨rfl, rfl⟩ := slotName_inj hd hd' hq
    rfl
  | none =>
    rw [List.findSome?_eq_none_iff] at hsome
    rw [hsome family family.mem_all] at hfound
    cases hfound

/-! ### Names and addresses -/

theorem singleNames_eq :
    singleNames = Resource.singles.map fun r => (r.name, r.address.number) := by decide

theorem Address.name_address (h : r.inRange = true) : r.address.name = r.name := by
  unfold Address.name
  rw [Resource.resource?_address h]

theorem name_slot (family : Family) (index : Nat) :
    (Resource.slot family index).name = family.slotName (Nat.toDigits 10 index) := by
  simp only [Resource.name, Family.slotName, Nat.toString_eq_ofList_toDigits]

/-- **Reading a name is deriving it by the grammar.** -/
theorem Address.ofName?_eq_some_iff : Address.ofName? q = some a ↔ ∃ shown, Spells q a shown := by
  unfold Address.ofName?
  rw [Option.map_eq_some_iff]
  constructor
  · rintro ⟨r, hr, rfl⟩
    unfold Resource.ofName? at hr
    split at hr
    · next hfind =>
      cases hr
      have hname : r.name = q := by simpa using List.find?_some hfind
      have hmem : (q, r.address.number) ∈ singleNames := by
        rw [singleNames_eq, ← hname]
        exact List.mem_map_of_mem (List.mem_of_find?_eq_some hfind)
      exact ⟨q, .single hmem⟩
    · obtain ⟨family, -, hfamily⟩ := List.exists_of_findSome?_eq_some hr
      obtain ⟨digits, hd, hlt, rfl, rfl⟩ := Family.ofName?_eq_some_iff.mp hfamily
      exact ⟨_, .slot family hd hlt⟩
  · rintro ⟨shown, hspells⟩
    cases hspells with
    | single h =>
      rw [singleNames_eq] at h
      obtain ⟨r, hr, he⟩ := List.mem_map.mp h
      cases he
      exact ⟨r, ofName?_single hr, rfl⟩
    | slot family hd hlt => exact ⟨_, ofName?_slot hd hlt, rfl⟩

/-- A name is that of a resource in range, and it is shown as the name of this resource. -/
theorem Spells.resource {shown : String} (h : Spells q a shown) :
    ∃ r : Resource, r.inRange = true ∧ r.address = a ∧ r.name = shown := by
  cases h with
  | single h =>
    rw [singleNames_eq] at h
    obtain ⟨r, hr, he⟩ := List.mem_map.mp h
    cases he
    exact ⟨r, Resource.inRange_of_single hr, rfl, rfl⟩
  | slot family hd hlt =>
    refine ⟨.slot family _, by simpa [Resource.inRange] using hlt, rfl, ?_⟩
    rw [name_slot, trimZeros_eq hd]

/-- The address is valid, and its name is the one in the grammar. -/
theorem Spells.shows {shown : String} (h : Spells q a shown) :
    Address.ofNumber? a.number = some a ∧ a.name = shown := by
  obtain ⟨r, hr, rfl, rfl⟩ := h.resource
  exact ⟨Address.ofNumber?_eq_some_iff.mpr ⟨rfl, r, hr, rfl⟩, Address.name_address hr⟩

/-- A valid address is spelled by its own name. -/
theorem spells_name (h : Address.ofNumber? a.number = some a) : Spells a.name a a.name := by
  obtain ⟨-, r, hr, rfl⟩ := Address.ofNumber?_eq_some_iff.mp h
  rw [Address.name_address hr]
  cases r with
  | slot family index =>
    have hlt : Nat.ofDigitChars 10 (Nat.toDigits 10 index) 0 < family.capacity := by
      rw [Nat.ofDigitChars_ten_toDigits]
      simpa [Resource.inRange] using hr
    have hspells := Spells.slot family (isNumeral_toDigits index) hlt
    rw [trimZeros_toDigits, Nat.ofDigitChars_ten_toDigits, ← name_slot] at hspells
    exact hspells
  | _ => exact .single (by decide)

/-- No numeral in the text has superfluous zeros. -/
def HasNoExtraZeros (q : String) : Prop :=
  ∀ (family : Family) (digits : List Char), IsNumeral digits → q = family.slotName digits →
    trimZeros digits = digits

/-- **Reading undoes showing** where there are no superfluous zeros. -/
theorem ofName?_eq_some_iff_name (hq : HasNoExtraZeros q) :
    Address.ofName? q = some a ↔ Address.ofNumber? a.number = some a ∧ a.name = q := by
  rw [Address.ofName?_eq_some_iff]
  constructor
  · rintro ⟨shown, hspells⟩
    obtain ⟨hvalid, rfl⟩ := hspells.shows
    refine ⟨hvalid, ?_⟩
    generalize hshown : a.name = shown at hspells
    cases hspells with
    | single => rfl
    | slot family hd => rw [hq family _ hd rfl]
  · rintro ⟨hvalid, rfl⟩
    exact ⟨a.name, spells_name hvalid⟩

theorem hasNoExtraZeros_name (h : Address.ofNumber? a.number = some a) :
    HasNoExtraZeros a.name := by
  intro family digits hd hname
  obtain ⟨-, r, hr, rfl⟩ := Address.ofNumber?_eq_some_iff.mp h
  rw [Address.name_address hr] at hname
  cases r with
  | slot family' index =>
    rw [name_slot] at hname
    obtain ⟨-, rfl⟩ := slotName_inj (isNumeral_toDigits index) hd hname
    exact trimZeros_toDigits index
  | _ => exact absurd hname.symm (slotName_ne_single (by decide) hd)

/-! ### Queries -/

/-- A name begins with a letter, so it is not read as a number. -/
theorem Spells.byte?_eq_none {shown : String} (h : Spells q a shown) : byte? q = none := by
  -- neither a digit nor a sign
  have hfirst : ∃ c, q.toList.head? = some c ∧ c.isDigit = false ∧ c ≠ '+' := by
    cases h with
    | single h =>
      have hall : ∀ e ∈ singleNames, e.1.toList.head? = some 'b' ∨ e.1.toList.head? = some 'c' := by
        decide
      rcases hall _ h with hb | hc
      · exact ⟨'b', hb, by decide, by decide⟩
      · exact ⟨'c', hc, by decide, by decide⟩
    | slot family hd hlt =>
      rw [toList_slotName]
      cases family <;> exact ⟨_, rfl, by decide, by decide⟩
  obtain ⟨c, hc, hdigit, hplus⟩ := hfirst
  rw [Option.eq_none_iff_forall_ne_some]
  intro n hn
  obtain ⟨⟨digits, hd, -, hsame | hsign⟩, -⟩ := byte?_eq_some_iff.mp hn
  · rw [hsame] at hc
    rw [hd.isDigit c (List.mem_of_mem_head? hc)] at hdigit
    cases hdigit
  · rw [hsign] at hc
    cases hc
    exact hplus rfl

theorem lookup_of_spells {shown : String} (h : Spells q a shown) :
    lookup q = some (toString a.number) := by
  unfold lookup
  rw [h.byte?_eq_none, Address.ofName?_eq_some_iff.mpr ⟨shown, h⟩]
  rfl

theorem lookup_of_number (h : WritesNumber q a.number)
    (hvalid : Address.ofNumber? a.number = some a) : lookup q = some a.name := by
  have hlt : a.number < 256 := by
    obtain ⟨-, r, hr, rfl⟩ := Address.ofNumber?_eq_some_iff.mp hvalid
    exact Resource.number_lt hr
  unfold lookup
  rw [byte?_eq_some_iff.mpr ⟨h, hlt⟩]
  simp only [hvalid, Option.map_some]

/-- What the answer to a query is: the query is a number and the answer the name of its address, or
the query is a name and the answer a number. `canonical` is the query as it would be shown. -/
inductive Replies (q : String) (a : Address) : String → String → Prop
  | number (h : WritesNumber q a.number) : Replies q a a.name (toString a.number)
  | name {shown : String} (h : Spells q a shown) : Replies q a (toString a.number) shown

theorem lookup_eq_some_iff {answer : String} : lookup q = some answer ↔
    ∃ a canonical, Address.ofNumber? a.number = some a ∧ Replies q a answer canonical := by
  constructor
  · intro h
    unfold lookup at h
    split at h
    · next n hn =>
      obtain ⟨a, ha, rfl⟩ := Option.map_eq_some_iff.mp h
      obtain ⟨rfl, -⟩ := Address.ofNumber?_eq_some_iff.mp ha
      exact ⟨a, _, ha, .number (byte?_eq_some_iff.mp hn).1⟩
    · obtain ⟨a, ha, rfl⟩ := Option.map_eq_some_iff.mp h
      obtain ⟨shown, hspells⟩ := Address.ofName?_eq_some_iff.mp ha
      exact ⟨a, shown, hspells.shows.1, .name hspells⟩
  · rintro ⟨a, canonical, hvalid, hreplies⟩
    cases hreplies with
    | number h => exact lookup_of_number h hvalid
    | name h => exact lookup_of_spells h

/-- **An answer can be asked back**, and the answer to it leads to the first answer again. -/
theorem Replies.lookup {answer canonical : String} (h : Replies q a answer canonical)
    (hvalid : Address.ofNumber? a.number = some a) :
    AluPlacement.lookup answer = some canonical ∧ AluPlacement.lookup canonical = some answer := by
  cases h with
  | number =>
    exact ⟨lookup_of_spells (spells_name hvalid),
      lookup_of_number (writesNumber_toString _) hvalid⟩
  | name h =>
    obtain ⟨-, rfl⟩ := h.shows
    exact ⟨lookup_of_number (writesNumber_toString _) hvalid,
      lookup_of_spells (spells_name hvalid)⟩

/-! ### The laws of names -/

/-- How a text is read as a name and as a query. -/
structure IsReadLawfully (q : String) : Prop where
  /-- The names are those of the grammar. -/
  accepts : ∀ a, Address.ofName? q = some a ↔ ∃ shown, Spells q a shown
  /-- A name leads to a valid address, which is shown without the superfluous zeros. -/
  shows : ∀ a shown, Spells q a shown → Address.ofNumber? a.number = some a ∧ a.name = shown
  /-- Where there are no superfluous zeros, reading is the inverse of showing. -/
  inverse : HasNoExtraZeros q → ∀ a,
    (Address.ofName? q = some a ↔ Address.ofNumber? a.number = some a ∧ a.name = q)
  /-- The names of valid addresses have no superfluous zeros. -/
  canonical : ∀ a, Address.ofNumber? a.number = some a → a.name = q → HasNoExtraZeros q
  /-- A query has an answer if it is the number or a name of a valid address. -/
  answered : ∀ answer, lookup q = some answer ↔
    ∃ a canonical, Address.ofNumber? a.number = some a ∧ Replies q a answer canonical
  /-- An answer can be asked back. -/
  returns : ∀ answer, lookup q = some answer → ∃ a canonical,
    Address.ofNumber? a.number = some a ∧ Replies q a answer canonical ∧
      lookup answer = some canonical ∧ lookup canonical = some answer

/-- **Names and queries are read by the grammar**, whatever the text is. -/
theorem isReadLawfully (q : String) : IsReadLawfully q where
  accepts _ := Address.ofName?_eq_some_iff
  shows _ _ h := h.shows
  inverse hq _ := ofName?_eq_some_iff_name hq
  canonical _ hvalid hname := hname ▸ hasNoExtraZeros_name hvalid
  answered _ := lookup_eq_some_iff
  returns answer h := by
    obtain ⟨a, canonical, hvalid, hreplies⟩ := lookup_eq_some_iff.mp h
    exact ⟨a, canonical, hvalid, hreplies, hreplies.lookup hvalid⟩

example : lookup "+0010" = some "word0_reg" ∧ lookup "word000_reg" = some "10" ∧
    lookup "word9_reg" = none ∧ lookup "branch+1" = none := by decide

end AluPlacement
