import AluPlacement.Signal.Id

/-! # Refusals and broken preconditions

A call may fail in two ways. It is *refused* when a rule of the unit forbids it; the reason is a
value that the caller can show. It is a *misuse* when the caller broke a precondition that no rule
reports, for instance by passing an identifier of another registry.

* `Fault ε`: a refusal with a reason of type `ε`, or a misuse.
* `Edit σ ε α`: a call that reads and writes a value of type `σ`. What the call wrote before it
  failed stays written, so "a refused call changes nothing" is a statement about each call.
* `Edit.zoom`: a call on a part of a value as a call on the whole.
* `Edit.collect`: many calls, going on after refusals. -/

namespace AluPlacement

/-- A broken precondition. -/
inductive Misuse where
  /-- The identifier was handed out by another registry. -/
  | foreignSignal (signal : SignalId)
  /-- Two argument positions, not both below the number of positions of a table. -/
  | positionsOutOfRange (i j : Nat)
  /-- The signal is derived from derived signals more deeply than any registry builds them. -/
  | deepDerivation (signal : SignalId)
  /-- A branch goes on to the next instruction of a program that has none. -/
  | emptyProgram
  deriving DecidableEq, Repr

/-- The text shown for a broken precondition. -/
def Misuse.message : Misuse → String
  | .foreignSignal s => s!"signal id {s.index} does not belong to this registry"
  | .positionsOutOfRange i j =>
    s!"internal error: entered unreachable code: argument positions {i} and {j} out of range"
  | .deepDerivation s => s!"signal id {s.index} has too long a chain of bases"
  | .emptyProgram => "attempt to calculate the remainder with a divisor of zero"

/-- Why a call failed: a rule refused it, or its precondition was broken. -/
inductive Fault (ε : Type) where
  | refused (reason : ε)
  | misuse (cause : Misuse)
  deriving DecidableEq, Repr

/-- Change the reason of a refusal. -/
def Fault.map {ε δ : Type} (f : ε → δ) : Fault ε → Fault δ
  | .refused reason => .refused (f reason)
  | .misuse cause => .misuse cause

/-- A question about a value that may fail. -/
abbrev Checked (ε α : Type) := Except (Fault ε) α

/-- The answer "refused", with its reason. -/
def Checked.refuse {ε α : Type} (reason : ε) : Checked ε α := .error (.refused reason)

/-- The answer "misused". -/
def Checked.misuse {ε α : Type} (cause : Misuse) : Checked ε α := .error (.misuse cause)

/-- Refuse unless `p` holds. -/
def Checked.require {ε : Type} (p : Prop) [Decidable p] (reason : ε) : Checked ε Unit :=
  if p then .ok () else .error (.refused reason)

/-- Change the reason of a refusal. -/
def Checked.mapReason {ε δ α : Type} (f : ε → δ) : Checked ε α → Checked δ α
  | .ok a => .ok a
  | .error e => .error (e.map f)

namespace Checked

variable {ε α β : Type}

theorem require_eq_ok {p : Prop} [Decidable p] {reason : ε} {a : Unit} :
    require p reason = .ok a ↔ p := by
  unfold require; split <;> simp_all

theorem require_eq_error {p : Prop} [Decidable p] {reason : ε} {e : Fault ε} :
    require p reason = .error e ↔ ¬p ∧ e = .refused reason := by
  unfold require; split <;> simp_all [eq_comm]

theorem bind_eq_ok {x : Checked ε α} {f : α → Checked ε β} {b : β} :
    (x >>= f) = .ok b ↔ ∃ a, x = .ok a ∧ f a = .ok b := by
  cases x <;> simp [bind, Except.bind]

theorem bind_eq_error {x : Checked ε α} {f : α → Checked ε β} {e : Fault ε} :
    (x >>= f) = .error e ↔ x = .error e ∨ ∃ a, x = .ok a ∧ f a = .error e := by
  cases x <;> simp [bind, Except.bind]

end Checked

/-- A call on a value of type `σ` that answers with an `α` or fails. -/
abbrev Edit (σ ε α : Type) := EStateM (Fault ε) σ α

namespace Edit

variable {σ τ ε δ α β : Type}

/-- Ask a question about the value, which stays as it is. -/
def ask (question : σ → Checked ε α) : Edit σ ε α := fun s =>
  match question s with
  | .ok a => .ok a s
  | .error e => .error e s

/-- Change the value. -/
def update (f : σ → σ) : Edit σ ε Unit := fun s => .ok () (f s)

/-- Change the value in one step that either happens or does not. -/
def attempt (step : σ → Checked ε (α × σ)) : Edit σ ε α := fun s =>
  match step s with
  | .ok (a, s') => .ok a s'
  | .error e => .error e s

/-- Change the reason of a refusal. -/
def mapReason (f : ε → δ) (call : Edit σ ε α) : Edit σ δ α := fun s =>
  match call s with
  | .ok a s' => .ok a s'
  | .error e s' => .error (e.map f) s'

/-- A call on the part of `s` that `part` reads and `put` writes. -/
def zoom (part : σ → τ) (put : τ → σ → σ) (call : Edit τ ε α) : Edit σ ε α := fun s =>
  match call (part s) with
  | .ok a t => .ok a (put t s)
  | .error e t => .error e (put t s)

/-- The reason, if the call is refused. What it wrote stays written. -/
def refusal? (call : Edit σ δ α) : Edit σ ε (Option δ) := fun s =>
  match call s with
  | .ok _ s' => .ok none s'
  | .error (.refused reason) s' => .ok (some reason) s'
  | .error (.misuse cause) s' => .error (.misuse cause) s'

/-- Make a call for each item, also after refusals, and return the reasons in order. -/
def collect {ι : Type} (call : ι → Edit σ δ α) : List ι → Edit σ ε (List δ)
  | [] => pure []
  | i :: rest => do
    let reason ← (call i).refusal?
    let others ← collect call rest
    return reason.toList ++ others

/-! ### Results of calls -/

theorem bind_eq_ok {x : Edit σ ε α} {f : α → Edit σ ε β} {s t : σ} {b : β} :
    (x >>= f) s = .ok b t ↔ ∃ a s', x s = .ok a s' ∧ f a s' = .ok b t := by
  show EStateM.bind x f s = _ ↔ _
  unfold EStateM.bind
  cases x s <;> simp [and_assoc]

theorem bind_eq_error {x : Edit σ ε α} {f : α → Edit σ ε β} {s t : σ} {e : Fault ε} :
    (x >>= f) s = .error e t ↔ x s = .error e t ∨ ∃ a s', x s = .ok a s' ∧ f a s' = .error e t := by
  show EStateM.bind x f s = _ ↔ _
  unfold EStateM.bind
  cases x s <;> simp [and_assoc]

theorem ask_eq_ok {q : σ → Checked ε α} {s t : σ} {a : α} :
    ask q s = .ok a t ↔ q s = .ok a ∧ t = s := by
  unfold ask
  cases q s <;> simp [eq_comm]

theorem ask_eq_error {q : σ → Checked ε α} {s t : σ} {e : Fault ε} :
    ask q s = .error e t ↔ q s = .error e ∧ t = s := by
  unfold ask
  cases q s <;> simp [eq_comm]

theorem update_eq (f : σ → σ) (s : σ) : (update f : Edit σ ε Unit) s = .ok () (f s) := rfl

theorem attempt_eq_ok {step : σ → Checked ε (α × σ)} {s t : σ} {a : α} :
    attempt step s = .ok a t ↔ step s = .ok (a, t) := by
  unfold attempt
  cases step s <;> simp [Prod.ext_iff]

/-- A step that does not happen changes nothing. -/
theorem attempt_eq_error {step : σ → Checked ε (α × σ)} {s t : σ} {e : Fault ε} :
    attempt step s = .error e t ↔ step s = .error e ∧ t = s := by
  unfold attempt
  cases step s <;> simp [eq_comm]

theorem mapReason_eq_ok {f : ε → δ} {call : Edit σ ε α} {s t : σ} {a : α} :
    mapReason f call s = .ok a t ↔ call s = .ok a t := by
  unfold mapReason
  cases call s <;> simp

theorem mapReason_eq_error {f : ε → δ} {call : Edit σ ε α} {s t : σ} {e : Fault δ} :
    mapReason f call s = .error e t ↔ ∃ e', call s = .error e' t ∧ e = e'.map f := by
  unfold mapReason
  cases call s <;> grind

theorem zoom_eq_ok {part : σ → τ} {put : τ → σ → σ} {call : Edit τ ε α} {s t : σ} {a : α} :
    zoom part put call s = .ok a t ↔ ∃ p, call (part s) = .ok a p ∧ t = put p s := by
  unfold zoom
  cases call (part s) <;> grind

theorem zoom_eq_error {part : σ → τ} {put : τ → σ → σ} {call : Edit τ ε α} {s t : σ}
    {e : Fault ε} :
    zoom part put call s = .error e t ↔ ∃ p, call (part s) = .error e p ∧ t = put p s := by
  unfold zoom
  cases call (part s) <;> grind

end Edit

end AluPlacement
