import AluPlacement.Error

/-! # What a call leaves behind

`call.after s` is the value that a call on `s` leaves behind, whether it answers or fails. A
property is preserved by a call if it holds of `call.after s` whenever it holds of `s`; the rules
below give this for a call from its parts.

A call is *orderly* on `s` if it is no misuse there: it answers or is refused. -/

namespace AluPlacement

/-! ### Answers to questions -/

namespace Checked

variable {ε δ α β : Type}

theorem mapReason_eq_ok {f : ε → δ} {x : Checked ε α} {a : α} :
    x.mapReason f = .ok a ↔ x = .ok a := by
  unfold mapReason
  cases x <;> simp

theorem mapReason_eq_error {f : ε → δ} {x : Checked ε α} {e : Fault δ} :
    x.mapReason f = .error e ↔ ∃ e', x = .error e' ∧ e = e'.map f := by
  unfold mapReason
  cases x <;> simp [eq_comm]

theorem bind_congr {x : Checked ε α} {f g : α → Checked ε β}
    (h : ∀ a, x = .ok a → f a = g a) : (x >>= f) = (x >>= g) := by
  cases x with
  | error e => rfl
  | ok a => exact h a rfl

/-! ### Orderly questions -/

/-- The question is answered or refused. -/
def IsOrderly (x : Checked ε α) : Prop := ∀ c, x ≠ .error (.misuse c)

theorem isOrderly_ok (a : α) : IsOrderly (.ok a : Checked ε α) := nofun

theorem isOrderly_refuse (reason : ε) : (refuse reason : Checked ε α).IsOrderly := nofun

theorem isOrderly_require {p : Prop} [Decidable p] {reason : ε} :
    (require p reason).IsOrderly := by
  intro c h
  cases (require_eq_error.mp h).2

theorem IsOrderly.bind {x : Checked ε α} {f : α → Checked ε β} (hx : x.IsOrderly)
    (hf : ∀ a, x = .ok a → (f a).IsOrderly) : (x >>= f).IsOrderly := by
  intro c h
  rcases bind_eq_error.mp h with he | ⟨a, ha, he⟩
  · exact hx c he
  · exact hf a ha c he

theorem IsOrderly.mapReason {x : Checked ε α} (h : x.IsOrderly) (f : ε → δ) :
    (x.mapReason f).IsOrderly := by
  intro c he
  cases x with
  | ok a => cases he
  | error e =>
    cases e with
    | refused reason => cases he
    | misuse cause => exact h cause rfl

theorem isOrderly_forM {f : α → Checked ε Unit} :
    ∀ {l : List α}, (∀ a ∈ l, (f a).IsOrderly) → (l.forM f).IsOrderly
  | [], _ => isOrderly_ok ()
  | a :: _, h => (h a List.mem_cons_self).bind fun _ _ =>
      isOrderly_forM fun b hb => h b (List.mem_cons_of_mem a hb)

theorem isOrderly_foldlM {f : β → α → Checked ε β} :
    ∀ {l : List α} {b : β}, (∀ c, ∀ a ∈ l, (f c a).IsOrderly) → (l.foldlM f b).IsOrderly
  | [], b, _ => isOrderly_ok b
  | a :: l, b, h => by
    rw [List.foldlM_cons]
    exact (h b a List.mem_cons_self).bind fun c _ =>
      isOrderly_foldlM fun c' x hx => h c' x (List.mem_cons_of_mem a hx)

/-- An orderly question without an answer is refused. -/
theorem IsOrderly.refused {x : Checked ε α} (h : x.IsOrderly) (hne : ∀ a, x ≠ .ok a) :
    ∃ reason, x = .error (.refused reason) := by
  cases x with
  | ok a => exact absurd rfl (hne a)
  | error e =>
    cases e with
    | refused reason => exact ⟨reason, rfl⟩
    | misuse cause => exact absurd rfl (h cause)

end Checked

namespace Edit

variable {σ τ ε δ α β ι : Type}

/-- The value that a call leaves behind. -/
def after (call : Edit σ ε α) (s : σ) : σ :=
  match call s with
  | .ok _ t => t
  | .error _ t => t

/-- The property holds after the call if it holds before. -/
def Preserves (P : σ → Prop) (call : Edit σ ε α) : Prop := ∀ s, P s → P (call.after s)

theorem after_of_ok {call : Edit σ ε α} {s t : σ} {a : α} (h : call s = .ok a t) :
    call.after s = t := by
  simp [after, h]

theorem after_of_error {call : Edit σ ε α} {s t : σ} {e : Fault ε} (h : call s = .error e t) :
    call.after s = t := by
  simp [after, h]

/-! ### The value after each kind of call -/

theorem after_ask (q : σ → Checked ε α) (s : σ) : (ask q).after s = s := by
  unfold after ask
  cases q s <;> rfl

theorem after_update (f : σ → σ) (s : σ) : (update f : Edit σ ε Unit).after s = f s := rfl

theorem after_mapReason (f : ε → δ) (call : Edit σ ε α) (s : σ) :
    (mapReason f call).after s = call.after s := by
  unfold after mapReason
  cases call s <;> rfl

theorem after_locatedAt (l : Location) (call : Edit σ Error α) (s : σ) :
    (locatedAt l call).after s = call.after s := after_mapReason _ _ _

theorem after_zoom (part : σ → τ) (put : τ → σ → σ) (call : Edit τ ε α) (s : σ) :
    (zoom part put call).after s = put (call.after (part s)) s := by
  unfold after zoom
  cases call (part s) <;> rfl

theorem after_refusal? (call : Edit σ δ α) (s : σ) :
    (refusal? call : Edit σ ε (Option δ)).after s = call.after s := by
  unfold after refusal?
  cases call s with
  | ok a t => rfl
  | error e t => cases e <;> rfl

theorem locatedAt_congr (l : Location) {call call' : Edit σ Error α} {s : σ}
    (h : call s = call' s) : locatedAt l call s = locatedAt l call' s := by
  unfold locatedAt mapReason
  rw [h]

/-- A call that begins with a question fails where the question does. -/
theorem locatedAt_ask_of_error {q : σ → Checked Error α} {f : α → Edit σ Error β} {s : σ}
    {e : Fault Error} (h : q s = .error e) (l : Location) :
    locatedAt l (ask q >>= f) s = .error (e.map fun e => e.located l) s := by
  have hask : (ask q >>= f) s = .error e s :=
    bind_eq_error.mpr (Or.inl (ask_eq_error.mpr ⟨h, rfl⟩))
  exact mapReason_eq_error.mpr ⟨e, hask, rfl⟩

/-- After a call that answers, the next one is made. -/
theorem bind_of_ok {x : Edit σ ε α} {s t : σ} {a : α} (h : x s = .ok a t) (f : α → Edit σ ε β) :
    (x >>= f) s = f a t := by
  show EStateM.bind x f s = _
  unfold EStateM.bind
  rw [h]

/-- Calls that do the same, and go on in the same way after it, do the same together. -/
theorem bind_congr {x y : Edit σ ε α} {f g : α → Edit σ ε β} {s : σ} (hx : x s = y s)
    (hf : ∀ a t, y s = .ok a t → f a t = g a t) : (x >>= f) s = (y >>= g) s := by
  show EStateM.bind x f s = EStateM.bind y g s
  unfold EStateM.bind
  rw [hx]
  cases hy : y s with
  | ok a t => exact hf a t hy
  | error e t => rfl

theorem locatedAt_ask_of_ok {q : σ → Checked Error α} {f : α → Edit σ Error β} {s : σ} {a : α}
    (h : q s = .ok a) (l : Location) :
    locatedAt l (ask q >>= f) s = locatedAt l (f a) s :=
  locatedAt_congr l (bind_of_ok (ask_eq_ok.mpr ⟨h, rfl⟩) f)

/-- A question and the call after it answer if both do. -/
theorem ask_bind_eq_ok {q : σ → Checked ε α} {f : α → Edit σ ε β} {s t : σ} {b : β} :
    (ask q >>= f) s = .ok b t ↔ ∃ a, q s = .ok a ∧ f a s = .ok b t := by
  rw [bind_eq_ok]
  constructor
  · rintro ⟨a, s', hq, hf⟩
    obtain ⟨hq, hs⟩ := ask_eq_ok.mp hq
    rw [hs] at hf
    exact ⟨a, hq, hf⟩
  · rintro ⟨a, hq, hf⟩
    exact ⟨a, s, ask_eq_ok.mpr ⟨hq, rfl⟩, hf⟩

/-- After two calls: the second is made only if the first answers. -/
theorem after_bind {x : Edit σ ε α} {f : α → Edit σ ε β} {s : σ} {P : σ → Prop}
    (hok : ∀ a t, x s = .ok a t → P ((f a).after t)) (herr : ∀ e t, x s = .error e t → P t) :
    P ((x >>= f).after s) := by
  cases hx : x s with
  | ok a t =>
    have : (x >>= f).after s = (f a).after t := by
      unfold after
      rw [bind_of_ok hx]
    rw [this]
    exact hok a t hx
  | error e t =>
    rw [after_of_error (bind_eq_error.mpr (Or.inl hx))]
    exact herr e t hx

/-- After a question the call goes on with the same value, or not at all. -/
theorem after_ask_bind {q : σ → Checked ε α} {f : α → Edit σ ε β} {s : σ} {P : σ → Prop} (h : P s)
    (h' : ∀ a, q s = .ok a → P ((f a).after s)) : P ((ask q >>= f).after s) := by
  refine after_bind (fun a t hx => ?_) fun e t hx => ?_
  · obtain ⟨hq, rfl⟩ := ask_eq_ok.mp hx
    exact h' a hq
  · rw [(ask_eq_error.mp hx).2]
    exact h

/-! ### Preservation -/

variable {P : σ → Prop}

theorem preserves_bind {x : Edit σ ε α} {f : α → Edit σ ε β} (hx : Preserves P x)
    (hf : ∀ a, Preserves P (f a)) : Preserves P (x >>= f) := by
  intro s hs
  refine after_bind (fun a t h => ?_) fun e t h => ?_
  · refine hf a t ?_
    rw [← after_of_ok h]
    exact hx s hs
  · rw [← after_of_error h]
    exact hx s hs

theorem preserves_ask (q : σ → Checked ε α) : Preserves P (ask q) := by
  intro s hs
  rwa [after_ask]

theorem preserves_update {f : σ → σ} (h : ∀ s, P s → P (f s)) :
    Preserves P (update f : Edit σ ε Unit) := h

theorem preserves_pure (a : α) : Preserves P (pure a : Edit σ ε α) := fun _ hs => hs

theorem preserves_collect {call : ι → Edit σ δ α} :
    ∀ {l : List ι}, (∀ i ∈ l, Preserves P (call i)) →
      Preserves P (collect call l : Edit σ ε (List δ))
  | [], _ => preserves_pure _
  | i :: rest, h => by
    refine preserves_bind ?_ fun reason => preserves_bind ?_ fun others => preserves_pure _
    · intro s hs
      rw [after_refusal?]
      exact h i (by simp) s hs
    · exact preserves_collect fun j hj => h j (by simp [hj])

/-! ### Orderly calls -/

/-- The call answers or is refused. -/
def IsOrderly (call : Edit σ ε α) (s : σ) : Prop := ∀ c t, call s ≠ .error (.misuse c) t

theorem isOrderly_congr {call call' : Edit σ ε α} {s : σ} (h : call s = call' s) :
    call.IsOrderly s ↔ call'.IsOrderly s := by
  unfold IsOrderly
  rw [h]

theorem isOrderly_ask {q : σ → Checked ε α} {s : σ} (h : (q s).IsOrderly) : (ask q).IsOrderly s :=
  fun c _ he => h c (ask_eq_error.mp he).1

theorem isOrderly_attempt {step : σ → Checked ε (α × σ)} {s : σ} (h : (step s).IsOrderly) :
    (attempt step).IsOrderly s := fun c _ he => h c (attempt_eq_error.mp he).1

/-- After a question the rest of the call decides. -/
theorem isOrderly_ask_bind {q : σ → Checked ε α} {f : α → Edit σ ε β} {s : σ}
    (h : (q s).IsOrderly) (h' : ∀ a, q s = .ok a → (f a).IsOrderly s) :
    (ask q >>= f).IsOrderly s := by
  intro c t he
  rcases bind_eq_error.mp he with hq | ⟨a, s', hq, hf⟩
  · exact isOrderly_ask h c t hq
  · obtain ⟨hq, rfl⟩ := ask_eq_ok.mp hq
    exact h' a hq c t hf

theorem IsOrderly.locatedAt {call : Edit σ Error α} {s : σ} (h : call.IsOrderly s) (l : Location) :
    (Edit.locatedAt l call).IsOrderly s := by
  intro c t he
  obtain ⟨e, he, hmap⟩ := mapReason_eq_error.mp he
  cases e with
  | refused reason => cases hmap
  | misuse cause => exact h cause t he

theorem IsOrderly.zoom {part : σ → τ} {put : τ → σ → σ} {call : Edit τ ε α} {s : σ}
    (h : call.IsOrderly (part s)) : (Edit.zoom part put call).IsOrderly s := by
  intro c t he
  obtain ⟨p, he, -⟩ := zoom_eq_error.mp he
  exact h c p he

theorem refusal?_isOk {call : Edit σ δ α} {s : σ} (h : call.IsOrderly s) :
    ∃ r, (refusal? call : Edit σ ε (Option δ)) s = .ok r (call.after s) := by
  unfold refusal? after
  cases hc : call s with
  | ok a t => exact ⟨none, rfl⟩
  | error e t =>
    cases e with
    | refused reason => exact ⟨some reason, rfl⟩
    | misuse c => exact absurd hc (h c t)

/-- Calls that are orderly wherever `P` holds and that preserve `P` can all be made. -/
theorem collect_isOk {call : ι → Edit σ δ α} :
    ∀ {l : List ι} {s : σ}, P s →
      (∀ i ∈ l, ∀ t, P t → (call i).IsOrderly t ∧ P ((call i).after t)) →
      ∃ ds t, (collect call l : Edit σ ε (List δ)) s = .ok ds t ∧ P t
  | [], s, hs, _ => ⟨[], s, rfl, hs⟩
  | i :: rest, s, hs, h => by
    obtain ⟨ho, hp⟩ := h i (by simp) s hs
    obtain ⟨r, hr⟩ := refusal?_isOk (ε := ε) ho
    obtain ⟨ds, t, hc, ht⟩ := collect_isOk hp fun j hj => h j (List.mem_cons_of_mem i hj)
    refine ⟨r.toList ++ ds, t, ?_, ht⟩
    exact bind_eq_ok.mpr ⟨r, _, hr, bind_eq_ok.mpr ⟨ds, t, hc, rfl⟩⟩

/-- The other calls are made after the first one, refused or not. -/
theorem exists_collect_of_cons {call : ι → Edit σ δ α} {i : ι} {rest : List ι} {s t : σ}
    {ds : List δ} (h : (collect call (i :: rest) : Edit σ ε (List δ)) s = .ok ds t) :
    ∃ ds', (collect call rest : Edit σ ε (List δ)) ((call i).after s) = .ok ds' t := by
  obtain ⟨reason, t', hfirst, h⟩ := bind_eq_ok.mp h
  obtain ⟨ds', t'', hrest, h⟩ := bind_eq_ok.mp h
  cases h
  have hafter : t' = (call i).after s := by
    rw [← after_refusal? (ε := ε), after_of_ok hfirst]
  rw [hafter] at hrest
  exact ⟨ds', hrest⟩

/-- The first call answers and the others report everything, or it is refused and its reason comes
first. -/
theorem collect_cons_eq_ok {call : ι → Edit σ δ α} {i : ι} {rest : List ι} {s t : σ}
    {ds : List δ} : (collect call (i :: rest) : Edit σ ε (List δ)) s = .ok ds t ↔
      (∃ a t', call i s = .ok a t' ∧ (collect call rest : Edit σ ε (List δ)) t' = .ok ds t) ∨
        ∃ d t' ds', call i s = .error (.refused d) t' ∧
          (collect call rest : Edit σ ε (List δ)) t' = .ok ds' t ∧ ds = d :: ds' := by
  constructor
  · intro h
    obtain ⟨r, t', hr, h⟩ := bind_eq_ok.mp h
    obtain ⟨ds', t'', hc, h⟩ := bind_eq_ok.mp h
    cases h
    unfold refusal? at hr
    cases hi : call i s with
    | ok a t₁ =>
      rw [hi] at hr
      cases hr
      exact Or.inl ⟨a, t', rfl, hc⟩
    | error e t₁ =>
      rw [hi] at hr
      cases e with
      | refused d =>
        cases hr
        exact Or.inr ⟨d, t', ds', rfl, hc, rfl⟩
      | misuse cause => cases hr
  · rintro (⟨a, t', hi, hc⟩ | ⟨d, t', ds', hi, hc, rfl⟩)
    · refine bind_eq_ok.mpr ⟨none, t', ?_, bind_eq_ok.mpr ⟨ds, t, hc, rfl⟩⟩
      unfold refusal?
      rw [hi]
    · refine bind_eq_ok.mpr ⟨some d, t', ?_, bind_eq_ok.mpr ⟨ds', t, hc, rfl⟩⟩
      unfold refusal?
      rw [hi]

/-- Nothing is reported exactly if the first call answers and nothing is reported of the others. -/
theorem collect_cons_eq_nil {call : ι → Edit σ δ α} {i : ι} {rest : List ι} {s t : σ} :
    (collect call (i :: rest) : Edit σ ε (List δ)) s = .ok [] t ↔
      ∃ a t', call i s = .ok a t' ∧ (collect call rest : Edit σ ε (List δ)) t' = .ok [] t := by
  rw [collect_cons_eq_ok, or_iff_left]
  rintro ⟨d, t', ds', -, -, hnil⟩
  cases hnil

theorem exists_collect_nil_of_ok {call : ι → Edit σ δ α} {i : ι} {rest : List ι} {s s' : σ} {a : α}
    (h : call i s = .ok a s') :
    (∃ t, (collect call (i :: rest) : Edit σ ε (List δ)) s = .ok [] t) ↔
      ∃ t, (collect call rest : Edit σ ε (List δ)) s' = .ok [] t := by
  refine exists_congr fun t => collect_cons_eq_nil.trans ?_
  rw [h]
  constructor
  · rintro ⟨a', t', heq, hc⟩
    cases heq
    exact hc
  · exact fun hc => ⟨a, s', rfl, hc⟩

theorem not_collect_nil_of_error {call : ι → Edit σ δ α} {i : ι} {rest : List ι} {s s' : σ}
    {e : Fault δ} (h : call i s = .error e s') :
    ¬ ∃ t, (collect call (i :: rest) : Edit σ ε (List δ)) s = .ok [] t := by
  rintro ⟨t, hc⟩
  obtain ⟨a, t', hok, -⟩ := collect_cons_eq_nil.mp hc
  rw [h] at hok
  cases hok

/-! ### Calls that fail -/

/-- The call is refused or a misuse. -/
def Fails (call : Edit σ ε α) (s : σ) : Prop := ∃ e t, call s = .error e t

theorem fails_iff {call : Edit σ ε α} {s : σ} : call.Fails s ↔ ∀ a t, call s ≠ .ok a t := by
  unfold Fails
  cases call s with
  | ok a t => simp
  | error e t => simp

/-- The call changes nothing where it fails. -/
def IsAtomic (call : Edit σ ε α) : Prop := ∀ s e t, call s = .error e t → t = s

theorem IsAtomic.after_of_fails {call : Edit σ ε α} {s : σ} (h : call.IsAtomic)
    (hf : call.Fails s) : call.after s = s := by
  obtain ⟨e, t, he⟩ := hf
  rw [after_of_error he]
  exact h s e t he

theorem isAtomic_ask (q : σ → Checked ε α) : (ask q).IsAtomic :=
  fun _ _ _ h => (ask_eq_error.mp h).2

/-- After a question the rest of the call decides. -/
theorem isAtomic_ask_bind {q : σ → Checked ε α} {f : α → Edit σ ε β}
    (h : ∀ a, (f a).IsAtomic) : (ask q >>= f).IsAtomic := by
  intro s e t he
  rcases bind_eq_error.mp he with hq | ⟨a, s', hq, hf⟩
  · exact (ask_eq_error.mp hq).2
  · obtain ⟨-, rfl⟩ := ask_eq_ok.mp hq
    exact h a _ e t hf

end Edit

/-! ### A question about each entry of a list -/

theorem Checked.mapM_eq_ok {ε α β : Type} {f : α → Checked ε β} {g : α → β} :
    ∀ {l : List α}, (∀ a ∈ l, f a = .ok (g a)) → l.mapM f = .ok (l.map g)
  | [], _ => rfl
  | a :: l, h => by
    rw [List.mapM_cons, h a List.mem_cons_self,
      mapM_eq_ok fun b hb => h b (List.mem_cons_of_mem a hb)]
    rfl

theorem Checked.exists_mapM {ε α β : Type} {f : α → Checked ε β} :
    ∀ {l : List α}, (∀ a ∈ l, ∃ b, f a = .ok b) → ∃ bs, l.mapM f = .ok bs
  | [], _ => ⟨[], rfl⟩
  | a :: l, h => by
    obtain ⟨b, hb⟩ := h a List.mem_cons_self
    obtain ⟨bs, hbs⟩ := exists_mapM fun c hc => h c (List.mem_cons_of_mem a hc)
    rw [List.mapM_cons, hb, hbs]
    exact ⟨b :: bs, rfl⟩

theorem Checked.exists_of_mapM {ε α β : Type} {f : α → Checked ε β} :
    ∀ {l : List α} {bs : List β}, l.mapM f = .ok bs → ∀ a ∈ l, ∃ b ∈ bs, f a = .ok b
  | [], _, _, _, ha => by cases ha
  | a :: l, bs, h, a', ha' => by
    rw [List.mapM_cons] at h
    obtain ⟨b, hb, h⟩ := bind_eq_ok.mp h
    obtain ⟨bs', hbs, h⟩ := bind_eq_ok.mp h
    cases h
    rcases List.mem_cons.mp ha' with rfl | ha'
    · exact ⟨b, List.mem_cons_self, hb⟩
    · obtain ⟨b', hb', hf⟩ := exists_of_mapM hbs a' ha'
      exact ⟨b', List.mem_cons_of_mem b hb', hf⟩

theorem Checked.forM_eq_ok {ε α : Type} {f : α → Checked ε Unit} :
    ∀ {l : List α} {a : Unit}, l.forM f = .ok a → ∀ x ∈ l, f x = .ok ()
  | [], _, _, _, hx => by cases hx
  | y :: l, _, h, x, hx => by
    obtain ⟨_, hy, h⟩ := bind_eq_ok.mp h
    rcases List.mem_cons.mp hx with rfl | hx
    · exact hy
    · exact forM_eq_ok h x hx

theorem Checked.forM_eq_ok_iff {ε α : Type} {f : α → Checked ε Unit} {l : List α} {a : Unit} :
    l.forM f = .ok a ↔ ∀ x ∈ l, f x = .ok () := by
  refine ⟨fun h => forM_eq_ok h, fun h => ?_⟩
  induction l with
  | nil => rfl
  | cons x l ih =>
    have hrest := ih fun y hy => h y (List.mem_cons_of_mem x hy)
    exact bind_eq_ok.mpr ⟨(), h x List.mem_cons_self, hrest⟩

theorem Checked.foldlM_congr {ε α β : Type} {f g : β → α → Checked ε β} :
    ∀ {l : List α} {b : β}, (∀ a ∈ l, ∀ b, f b a = g b a) → l.foldlM f b = l.foldlM g b
  | [], _, _ => rfl
  | a :: l, b, h => by
    rw [List.foldlM_cons, List.foldlM_cons, h a List.mem_cons_self]
    exact bind_congr fun c _ => foldlM_congr fun a' ha' => h a' (List.mem_cons_of_mem a ha')

/-- A fold in which every entry is used or left out. -/
theorem Checked.foldlM_eq_foldl_filter {ε α β : Type} {f : β → α → Checked ε β} {t : α → Bool}
    {g : β → α → β} : ∀ {l : List α} (b : β),
    (∀ a ∈ l, ∀ b, f b a = .ok (if t a then g b a else b)) →
      l.foldlM f b = .ok ((l.filter t).foldl g b)
  | [], _, _ => rfl
  | a :: l, b, h => by
    have hrest := foldlM_eq_foldl_filter (f := f) (t := t) (g := g) (if t a then g b a else b)
      fun a' ha' => h a' (List.mem_cons_of_mem a ha')
    refine bind_eq_ok.mpr ⟨_, h a List.mem_cons_self b, ?_⟩
    by_cases ht : t a = true
    · rw [List.filter_cons_of_pos ht, List.foldl_cons]
      rwa [if_pos ht] at hrest ⊢
    · rw [List.filter_cons_of_neg ht]
      rwa [if_neg ht] at hrest ⊢

/-- What every answer in a fold preserves holds of its result. The property may speak of the entries
that are folded so far. -/
theorem Checked.foldlM_invariant {ε α β : Type} {f : β → α → Checked ε β} {P : List α → β → Prop}
    (hstep : ∀ seen a c c', P seen c → f c a = .ok c' → P (seen ++ [a]) c') :
    ∀ {l seen : List α} {b b' : β}, P seen b → l.foldlM f b = .ok b' → P (seen ++ l) b'
  | [], seen, b, b', hb, h => by
    cases h
    rwa [List.append_nil]
  | a :: l, seen, b, b', hb, h => by
    rw [List.foldlM_cons] at h
    obtain ⟨c, hc, h⟩ := bind_eq_ok.mp h
    rw [List.append_cons]
    exact foldlM_invariant hstep (hstep seen a b c hb hc) h

end AluPlacement
