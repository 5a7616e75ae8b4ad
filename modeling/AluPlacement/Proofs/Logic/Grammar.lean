import AluPlacement.Logic.Formula
import AluPlacement.Proofs.List
import Mathlib.Logic.ExistsUnique
import Mathlib.Tactic.SplitIfs

/-! # The traces that have a text

A trace is shown if it is the postfix form of one formula and every slot of it has a name.

* `ofTrace?_eq_some_iff`: the formula read from a trace is the one with this trace. The formulas on
  the stack spell the tokens that were read (`flatMap_trace_of_foldlM`).
* `Scan`: the text can also be written in one pass from the end of the trace to its start, before it
  is known whether the trace is well formed. The pass always ends (`exists_scan`), in one way
  (`Scan.unique`), at the start of the formula whose text it wrote (`Scan.sound`, `scan_of_take`).
* `renders`: reading and the backward pass show the same traces, by the same text. -/

namespace AluPlacement

namespace Formula

variable {name : Nat → Option String} {ts : List Token} {e e' : Formula}

/-! ### Reading -/

/-- One token more is spelled by the stack. -/
theorem flatMap_trace_of_push {stack stack' : List Formula} {token : Token}
    (h : push stack token = some stack') :
    stack'.reverse.flatMap Formula.trace = stack.reverse.flatMap Formula.trace ++ [token] := by
  unfold push at h
  split at h
  · cases h
    simp [Formula.trace]
  · cases h
    simp [Formula.trace]
  · cases h
    simp [Formula.trace]
  · cases h
    simp [Formula.trace]
  · cases h

theorem flatMap_trace_of_foldlM {stack stack' : List Formula}
    (h : ts.foldlM push stack = some stack') :
    stack'.reverse.flatMap Formula.trace = stack.reverse.flatMap Formula.trace ++ ts := by
  induction ts generalizing stack with
  | nil =>
    cases h
    simp
  | cons token rest ih =>
    rw [List.foldlM_cons] at h
    obtain ⟨next, hnext, h⟩ := Option.bind_eq_some_iff.mp h
    rw [ih h, flatMap_trace_of_push hnext, List.append_assoc, List.singleton_append]

/-- The formula read from a trace is the formula with this trace. -/
theorem ofTrace?_eq_some_iff : ofTrace? ts = some e ↔ e.trace = ts := by
  constructor
  · intro h
    unfold ofTrace? at h
    split at h
    · rename_i f hread
      cases h
      simpa using flatMap_trace_of_foldlM hread
    · cases h
  · rintro rfl
    exact ofTrace?_trace e

theorem trace_injective (h : e.trace = e'.trace) : e = e' := by
  have hread : ofTrace? e'.trace = some e := ofTrace?_eq_some_iff.mpr h
  rw [ofTrace?_trace] at hread
  exact (Option.some.inj hread).symm

/-! ### The text -/

/-- The fully parenthesized form of a formula. -/
def parenthesized (called : Nat → String) : Formula → String
  | .arg slot => called slot
  | .const true => "1'b1"
  | .const false => "1'b0"
  | .not f => "~" ++ f.parenthesized called
  | .gate g l r =>
    "(" ++ l.parenthesized called ++ " " ++ g.symbol.toString ++ " " ++
      r.parenthesized called ++ ")"

/-- The naming gives every slot of the trace a name. -/
def Names (name : Nat → Option String) (called : Nat → String) (ts : List Token) : Prop :=
  ∀ slot, Token.arg slot ∈ ts → name slot = some (called slot)

theorem names_of_forall {ts : List Token}
    (h : ∀ slot, Token.arg slot ∈ ts → ∃ n, name slot = some n) :
    Names name (fun slot => (name slot).getD "") ts := by
  intro slot hslot
  obtain ⟨n, hn⟩ := h slot hslot
  simp [hn]

theorem text_of_names {called : Nat → String} (h : Names name called e.trace) :
    e.text name = some (e.parenthesized called) := by
  induction e with
  | arg slot => exact h slot (by simp [Formula.trace])
  | const b => cases b <;> rfl
  | not f ih =>
    have hf := ih fun slot hslot => h slot (by simp [Formula.trace, hslot])
    simp only [text, hf, parenthesized]
    rfl
  | gate g l r ihl ihr =>
    have hl := ihl fun slot hslot => h slot (by simp [Formula.trace, hslot])
    have hr := ihr fun slot hslot => h slot (by simp [Formula.trace, hslot])
    simp only [text, hl, hr, parenthesized]
    rfl

theorem named_of_text {word : String} (h : e.text name = some word) {slot : Nat}
    (hslot : Token.arg slot ∈ e.trace) : ∃ n, name slot = some n := by
  induction e generalizing word with
  | arg k =>
    simp only [Formula.trace, List.mem_singleton, Token.arg.injEq] at hslot
    exact ⟨word, hslot ▸ h⟩
  | const b => simp [Formula.trace] at hslot
  | not f ih =>
    obtain ⟨operand, hf, -⟩ := Option.bind_eq_some_iff.mp h
    exact ih hf (by simpa [Formula.trace] using hslot)
  | gate g l r ihl ihr =>
    obtain ⟨left, hl, h⟩ := Option.bind_eq_some_iff.mp h
    obtain ⟨right, hr, -⟩ := Option.bind_eq_some_iff.mp h
    simp only [Formula.trace, List.mem_append, List.mem_singleton, reduceCtorEq, or_false] at hslot
    rcases hslot with hslot | hslot
    · exact ihr hr hslot
    · exact ihl hl hslot

theorem text_eq_some_iff {word : String} :
    e.text name = some word ↔
      ∃ called, Names name called e.trace ∧ e.parenthesized called = word := by
  constructor
  · intro h
    have hnames := names_of_forall fun slot hslot => named_of_text h hslot
    rw [text_of_names hnames] at h
    exact ⟨_, hnames, Option.some.inj h⟩
  · rintro ⟨called, hnames, rfl⟩
    exact text_of_names hnames

/-! ### The backward pass -/

/-- `Scan name ts stop out found out'`: the pass writes the formula that ends just before `stop`
behind `out`. It comes back with the position where this formula starts, or with nothing, and leaves
`out'` written. A rule that looks at a token has to find it in the trace, so a call that looked
outside the trace, or did not end, would have no derivation. -/
inductive Scan (name : Nat → Option String) (ts : List Token) :
    Nat → String → Option Nat → String → Prop
  | start {out : String} : Scan name ts 0 out none out
  | const {cursor : Nat} {b : Bool} {out : String} : ts[cursor]? = some (.const b) →
    Scan name ts (cursor + 1) out (some cursor) (out ++ if b then "1'b1" else "1'b0")
  | arg {cursor slot : Nat} {n out : String} : ts[cursor]? = some (.arg slot) →
    name slot = some n → Scan name ts (cursor + 1) out (some cursor) (out ++ n)
  | unnamed {cursor slot : Nat} {out : String} : ts[cursor]? = some (.arg slot) →
    name slot = none → Scan name ts (cursor + 1) out none out
  | not {cursor : Nat} {found : Option Nat} {out out' : String} : ts[cursor]? = some .not →
    Scan name ts cursor (out ++ "~") found out' → Scan name ts (cursor + 1) out found out'
  | noLeft {cursor : Nat} {g : Gate} {out out' : String} : ts[cursor]? = some (.gate g) →
    Scan name ts cursor (out ++ "(") none out' → Scan name ts (cursor + 1) out none out'
  | noRight {cursor middle : Nat} {g : Gate} {out left out' : String} :
    ts[cursor]? = some (.gate g) → Scan name ts cursor (out ++ "(") (some middle) left →
    Scan name ts middle (left ++ " " ++ g.symbol.toString ++ " ") none out' →
    Scan name ts (cursor + 1) out none out'
  | gate {cursor middle start : Nat} {g : Gate} {out left right : String} :
    ts[cursor]? = some (.gate g) → Scan name ts cursor (out ++ "(") (some middle) left →
    Scan name ts middle (left ++ " " ++ g.symbol.toString ++ " ") (some start) right →
    Scan name ts (cursor + 1) out (some start) (right ++ ")")

/-- The pass ends wherever it is started, further to the left. -/
theorem exists_scan (name : Nat → Option String) {stop : Nat} (hstop : stop ≤ ts.length)
    (out : String) : ∃ found out', Scan name ts stop out found out' ∧
      ∀ start, found = some start → start < stop := by
  induction stop using Nat.strongRecOn generalizing out with
  | ind stop ih =>
    cases stop with
    | zero => exact ⟨none, out, .start, nofun⟩
    | succ cursor =>
      have hget : ts[cursor]? = some ts[cursor] := List.getElem?_eq_getElem hstop
      have hcursor : cursor ≤ ts.length := by omega
      cases htoken : ts[cursor] with
      | const b =>
        rw [htoken] at hget
        exact ⟨_, _, .const hget, fun start h => by cases h; omega⟩
      | arg slot =>
        rw [htoken] at hget
        cases hn : name slot with
        | none => exact ⟨_, _, .unnamed hget hn, nofun⟩
        | some n => exact ⟨_, _, .arg hget hn, fun start h => by cases h; omega⟩
      | not =>
        rw [htoken] at hget
        obtain ⟨found, out', hscan, hlt⟩ := ih cursor (by omega) hcursor (out ++ "~")
        refine ⟨found, out', .not hget hscan, fun start h => ?_⟩
        have := hlt start h
        omega
      | gate g =>
        rw [htoken] at hget
        obtain ⟨found, left, hleft, hlt⟩ := ih cursor (by omega) hcursor (out ++ "(")
        cases found with
        | none => exact ⟨none, left, .noLeft hget hleft, nofun⟩
        | some middle =>
          have hmiddle : middle < cursor := hlt middle rfl
          obtain ⟨found, right, hright, hlt⟩ := ih middle (by omega) (by omega)
            (left ++ " " ++ g.symbol.toString ++ " ")
          cases found with
          | none => exact ⟨none, right, .noRight hget hleft hright, nofun⟩
          | some start =>
            have hstart : start < middle := hlt start rfl
            exact ⟨some start, _, .gate hget hleft hright, fun _ h => by cases h; omega⟩

/-- The pass ends in one way only. -/
theorem Scan.unique {stop : Nat} {out out₁ out₂ : String} {found₁ found₂ : Option Nat}
    (h₁ : Scan name ts stop out found₁ out₁) (h₂ : Scan name ts stop out found₂ out₂) :
    found₁ = found₂ ∧ out₁ = out₂ := by
  -- the token at the cursor fixes the rule, and the calls within it are fixed by induction
  induction h₁ generalizing found₂ out₂ with
  | start =>
    cases h₂
    exact ⟨rfl, rfl⟩
  | const hget => cases h₂ <;> simp_all
  | arg hget hn => cases h₂ <;> simp_all
  | unnamed hget hn => cases h₂ <;> simp_all
  | not hget hscan ih =>
    cases h₂ with
    | not _ hscan' => exact ih hscan'
    | _ => simp_all
  | noLeft hget hleft ihl => cases h₂ <;> grind
  | noRight hget hleft hright ihl ihr => cases h₂ <;> grind
  | gate hget hleft hright ihl ihr => cases h₂ <;> grind

/-- Where the pass finds a formula, it has written its text. -/
theorem Scan.sound {stop : Nat} {out out' : String} {found : Option Nat}
    (h : Scan name ts stop out found out') {start : Nat} (hfound : found = some start) :
    ∃ (e : Formula) (word : String), ts.take stop = ts.take start ++ e.trace ∧
      e.text name = some word ∧ out' = out ++ word := by
  induction h generalizing start with
  | start => cases hfound
  | @const cursor b out hget =>
    cases hfound
    refine ⟨.const b, _, by simp [List.take_add_one, hget, Formula.trace], ?_, rfl⟩
    cases b <;> rfl
  | @arg cursor slot n out hget hn =>
    cases hfound
    exact ⟨.arg slot, n, by simp [List.take_add_one, hget, Formula.trace], hn, rfl⟩
  | unnamed => cases hfound
  | not hget hscan ih =>
    obtain ⟨e, word, htake, htext, rfl⟩ := ih hfound
    refine ⟨.not e, "~" ++ word, ?_, ?_, String.append_assoc⟩
    · simp [List.take_add_one, hget, htake, Formula.trace]
    · simp only [text, htext]
      rfl
  | noLeft => cases hfound
  | noRight => cases hfound
  | @gate cursor middle start g out left right hget hleft hright ihl ihr =>
    cases hfound
    obtain ⟨l, leftWord, htakel, htextl, rfl⟩ := ihl rfl
    obtain ⟨r, rightWord, htaker, htextr, rfl⟩ := ihr rfl
    refine ⟨.gate g l r,
      "(" ++ leftWord ++ " " ++ g.symbol.toString ++ " " ++ rightWord ++ ")", ?_, ?_, ?_⟩
    · simp [List.take_add_one, hget, htakel, htaker, Formula.trace]
    · simp only [text, htextl, htextr]
      rfl
    · simp only [String.append_assoc]

/-- The pass finds every formula with names that ends where it is started. -/
theorem scan_of_take {word : String} (htext : e.text name = some word) {stop : Nat}
    (hstop : stop ≤ ts.length) {pre : List Token} (h : ts.take stop = pre ++ e.trace)
    (out : String) : Scan name ts stop out (some pre.length) (out ++ word) := by
  induction e generalizing word stop pre out with
  | arg slot =>
    obtain ⟨rfl, hget, -⟩ := take_eq_concat hstop h
    exact .arg hget htext
  | const b =>
    obtain ⟨rfl, hget, -⟩ := take_eq_concat hstop h
    cases b <;> cases htext <;> exact .const hget
  | not f ih =>
    obtain ⟨operand, hf, htext⟩ := Option.bind_eq_some_iff.mp htext
    cases htext
    rw [Formula.trace, ← List.append_assoc] at h
    obtain ⟨rfl, hget, htake⟩ := take_eq_concat hstop h
    have hscan := ih hf (by omega) htake (out ++ "~")
    rw [String.append_assoc] at hscan
    exact .not hget hscan
  | gate g l r ihl ihr =>
    obtain ⟨left, hl, htext⟩ := Option.bind_eq_some_iff.mp htext
    obtain ⟨right, hr, htext⟩ := Option.bind_eq_some_iff.mp htext
    cases htext
    rw [Formula.trace, ← List.append_assoc, ← List.append_assoc] at h
    obtain ⟨rfl, hget, htake⟩ := take_eq_concat hstop h
    have hleft := ihl hl (by omega) htake (out ++ "(")
    have htake' := take_length_of_take htake
    have hright := ihr hr (by simp at hstop ⊢; omega) htake'
      (out ++ "(" ++ left ++ " " ++ g.symbol.toString ++ " ")
    have hscan := Scan.gate hget hleft hright
    simpa only [String.append_assoc] using hscan

/-- No formula ends where another one ends, so the tokens in front of it are fixed too. -/
theorem eq_of_append_trace_eq {pre pre' : List Token} (h : pre ++ e.trace = pre' ++ e'.trace) :
    pre = pre' ∧ e = e' := by
  -- both formulas are found by one pass over the trace, whatever the slots are called
  have hnames : ∀ f : Formula, Names (fun _ => some "") (fun _ => "") f.trace := fun _ _ _ => rfl
  have hscan := scan_of_take (text_of_names (hnames e)) (Nat.le_refl _)
    (List.take_length (l := pre ++ e.trace)) ""
  have hscan' := scan_of_take (text_of_names (hnames e')) (Nat.le_refl _)
    (List.take_length.trans h) ""
  have hlength : pre.length = pre'.length := Option.some.inj (hscan.unique hscan').1
  obtain ⟨hpre, htrace⟩ := List.append_inj h hlength
  exact ⟨hpre, trace_injective htrace⟩

theorem eq_nil_of_append_trace_eq {pre : List Token} (h : pre ++ e.trace = e'.trace) : pre = [] :=
  (eq_of_append_trace_eq (h.trans (List.nil_append _).symm)).1

theorem trace_ne_nil (e : Formula) : e.trace ≠ [] := by
  cases e <;> simp [Formula.trace]

/-! ### The traces that are shown -/

/-- A trace without a formula has no text. -/
theorem textOfTrace?_eq_none (h : ∀ e : Formula, e.trace ≠ ts) : textOfTrace? name ts = none := by
  have hread : ofTrace? ts = none := by
    rw [Option.eq_none_iff_forall_ne_some]
    intro e he
    exact h e (ofTrace?_eq_some_iff.mp he)
  rw [textOfTrace?, hread, Option.bind_none]

theorem textOfTrace?_trace (e : Formula) : textOfTrace? name e.trace = e.text name := by
  rw [textOfTrace?, ofTrace?_trace, Option.bind_some]

theorem textOfTrace?_eq_some_iff {word : String} :
    textOfTrace? name ts = some word ↔ ∃ (e : Formula) (called : Nat → String),
      e.trace = ts ∧ Names name called ts ∧ e.parenthesized called = word := by
  unfold textOfTrace?
  simp only [Option.bind_eq_some_iff, ofTrace?_eq_some_iff, text_eq_some_iff]
  constructor
  · rintro ⟨e, rfl, called, hnames, hword⟩
    exact ⟨e, called, rfl, hnames, hword⟩
  · rintro ⟨e, called, rfl, hnames, hword⟩
    exact ⟨e, rfl, called, hnames, hword⟩

theorem textOfTrace?_of_leftover {rest : List Token} (hrest : rest ≠ []) (e : Formula) :
    textOfTrace? name (rest ++ e.trace) = none := by
  refine textOfTrace?_eq_none fun e' he' => hrest ?_
  exact eq_nil_of_append_trace_eq he'.symm

/-- A pass over the whole trace shows it if it comes back to the start. -/
theorem textOfTrace?_of_scan {found : Option Nat} {out : String}
    (h : Scan name ts ts.length "" found out) :
    textOfTrace? name ts = if found = some 0 then some out else none := by
  cases found with
  | none =>
    rw [if_neg nofun, Option.eq_none_iff_forall_ne_some]
    intro word hword
    obtain ⟨e, hread, htext⟩ := Option.bind_eq_some_iff.mp hword
    have htake : ts.take ts.length = [] ++ e.trace := by
      rw [List.take_length, List.nil_append, ofTrace?_eq_some_iff.mp hread]
    have hscan := scan_of_take htext (Nat.le_refl _) htake ""
    cases (h.unique hscan).1
  | some start =>
    obtain ⟨e, word, htake, htext, rfl⟩ := h.sound rfl
    rw [List.take_length] at htake
    split_ifs with hstart
    · cases hstart
      rw [htake, List.take_zero, List.nil_append, textOfTrace?_trace, htext, String.empty_append]
    · have hrest : ts.take start ≠ [] := by
        intro hnil
        rcases List.take_eq_nil_iff.mp hnil with rfl | rfl
        · exact hstart rfl
        · rw [List.take_nil, List.nil_append] at htake
          exact trace_ne_nil e htake.symm
      rw [htake]
      exact textOfTrace?_of_leftover hrest e

/-- The texts of a trace: which traces have one, which one it is, and that it can be written from
the end. -/
structure Renders (name : Nat → Option String) (ts : List Token) : Prop where
  accepts : ∀ word, textOfTrace? name ts = some word ↔
    ∃ (e : Formula) (called : Nat → String),
      e.trace = ts ∧ Names name called ts ∧ e.parenthesized called = word
  unique : ∀ e e' : Formula, e.trace = ts → e'.trace = ts → e = e'
  empty : ts = [] → textOfTrace? name ts = none
  leftover : ∀ (rest : List Token) (e : Formula), rest ≠ [] → rest ++ e.trace = ts →
    textOfTrace? name ts = none
  missing : ∀ (front : List Token) (e : Formula), front ≠ [] → front ++ ts = e.trace →
    textOfTrace? name ts = none
  unnamed : ∀ slot, Token.arg slot ∈ ts → name slot = none → textOfTrace? name ts = none
  ends : ∃! result : Option Nat × String, Scan name ts ts.length "" result.1 result.2
  agrees : ∀ found out, Scan name ts ts.length "" found out →
    textOfTrace? name ts = if found = some 0 then some out else none

/-- **A trace is shown exactly if it is the postfix form of a formula with names.** -/
theorem renders (name : Nat → Option String) (ts : List Token) : Renders name ts where
  accepts _ := textOfTrace?_eq_some_iff
  unique _ _ h h' := trace_injective (h.trans h'.symm)
  empty h := textOfTrace?_eq_none fun e he => trace_ne_nil e (he.trans h)
  leftover rest e hrest h := by
    rw [← h]
    exact textOfTrace?_of_leftover hrest e
  missing front e hfront h := by
    refine textOfTrace?_eq_none fun e' he' => hfront ?_
    rw [← he'] at h
    exact eq_nil_of_append_trace_eq h
  unnamed slot hslot hname := by
    rw [Option.eq_none_iff_forall_ne_some]
    intro word hword
    obtain ⟨e, called, -, hnames, -⟩ := textOfTrace?_eq_some_iff.mp hword
    rw [hnames slot hslot] at hname
    cases hname
  ends := by
    obtain ⟨found, out, hscan, -⟩ := exists_scan name (Nat.le_refl ts.length) ""
    refine ⟨(found, out), hscan, fun result hresult => ?_⟩
    obtain ⟨hfound, hout⟩ := hresult.unique hscan
    exact Prod.ext hfound hout
  agrees _ _ h := textOfTrace?_of_scan h

end Formula

end AluPlacement
