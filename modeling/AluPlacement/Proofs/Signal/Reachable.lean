import AluPlacement.Proofs.Placement.Host
import AluPlacement.Proofs.Signal.Lineage

/-! # Registries that the calls of the front end can reach

A registry stands alone, or it holds the signals of a block or a unit (`Registry.Reachable`). The
front end makes the same calls on it in all three. Blocks and units bind signals besides, and so do
calls from outside; a pass fills in values and makes constants of registers. None of this changes
what a signal is (`Mirrors`). So a property of new registries that every call on a registry
preserves, and that does not depend on such changes, holds of every registry
(`Lasting.reachable`). -/

namespace AluPlacement

namespace Registry

variable {r r' : Registry} {P : Registry → Prop}

/-- Calls preserve the property, and it does not depend on what the placement changes. -/
structure Lasting (P : Registry → Prop) : Prop where
  apply : ∀ r (c : Call), P r → P (c.apply r)
  mirror : ∀ r r', r.Mirrors r' → P r → P r'

theorem Advances.mirrors (h : r.Advances r') : r.Mirrors r' := by
  refine ⟨h.size, fun id s' hs' => ?_⟩
  obtain ⟨s, hs, hbound, -⟩ := h.of_get? hs'
  rw [hbound]
  exact ⟨s, hs, rfl, rfl, rfl, fun _ => rfl⟩

theorem mirrors_applyDefaults (r : Registry) : r.Mirrors r.applyDefaults := by
  refine ⟨size_applyDefaults r, fun id s' hs' => ?_⟩
  rw [get?_applyDefaults] at hs'
  obtain ⟨s, hs, rfl⟩ := Option.map_eq_some_iff.mp hs'
  rw [Alu.withDefault_eq]
  exact ⟨s, hs, rfl, rfl, rfl, fun _ => rfl⟩

theorem mirrors_promote {ids : List SignalId}
    (h : ∀ id ∈ ids, ∃ s, r.get? id = some s ∧ s.behavior = .register ∧ s.binding = none) :
    r.Mirrors (r.promote ids) := by
  refine ⟨size_promote ids r, fun id s' hs' => ?_⟩
  rw [get?_promote] at hs'
  split_ifs at hs' with hid
  · obtain ⟨s, hs, hregister, -⟩ := h id hid
    rw [hs] at hs'
    cases hs'
    exact ⟨s, hs, rfl, rfl, rfl, fun hne => absurd hregister hne⟩
  · exact ⟨s', hs', rfl, rfl, rfl, fun _ => rfl⟩

theorem Lasting.change {pass : Prop} (hP : Lasting P) (hc : Change pass r r') (h : P r) : P r' := by
  cases hc with
  | call c => exact hP.apply r c h
  | bind ha => exact hP.mirror r r' ha.mirrors h
  | fill => exact hP.mirror r _ r.mirrors_applyDefaults h
  | promote _ hids => exact hP.mirror r _ (mirrors_promote hids) h

theorem Lasting.changes {pass : Prop} (hP : Lasting P) (hc : Changes pass r r') (h : P r) :
    P r' := by
  induction hc with
  | refl => exact h
  | tail _ hlast ih => exact hP.change hlast ih

end Registry

/-! ### Runs -/

/-- What lasts holds after any calls on a host. -/
theorem Registry.Lasting.run {σ κ : Type} {H : Host σ κ} {Inv : σ → Prop} {P : Registry → Prop}
    (hP : Lasting P) (hH : H.Lawful Inv) {s : σ} (hs : Inv s) (h : P (H.signals s))
    (calls : List (PublicCall κ)) : P (H.signals (H.run s calls)) :=
  hH.run_induction (R := fun s calls => P (H.signals s) → P (H.signals (H.run s calls)))
    (fun _ h => h) (fun _ c _ hs ih h => ih (hP.changes (hH.changes_apply hs c) h)) hs calls h

namespace Alu

variable {u : Alu}

/-- Units with other limits have the same signals from the start. -/
theorem IsNew.signals (h : u.IsNew) : u.signals = builtinSignals .standard := by
  cases h with
  | standard name => rfl
  | limited name hlimits =>
    obtain ⟨_, -, hok⟩ := Checked.bind_eq_ok.mp hlimits
    rw [← Except.ok.inj hok]
    rfl

theorem Reachable.exists_run (h : Reachable u) : ∃ new calls, IsNew new ∧ u = new.run calls := by
  induction h with
  | new h => exact ⟨_, [], h, rfl⟩
  | call _ c ih =>
    obtain ⟨new, calls, hnew, rfl⟩ := ih
    refine ⟨new, calls ++ [c], hnew, ?_⟩
    unfold Alu.run
    rw [List.foldl_append]
    rfl

end Alu

/-! ### Registries -/

namespace Registry

variable {r : Registry} {P : Registry → Prop}

/-- Calls lead to this registry, on it alone or on the block or unit whose signals it holds. -/
inductive Reachable : Registry → Prop
  | alone (calls : List (PublicCall Call)) : Reachable (host.run {} calls)
  | block (name : String) (calls : List (PublicCall Block.Call)) :
      Reachable (Block.host.run { name := name } calls).signals
  | unit {u : Alu} (h : u.IsNew) (calls : List (PublicCall Alu.Call)) :
      Reachable (Alu.host.run u calls).signals

theorem Reachable.of_calls (calls : List Call) : Reachable (run {} calls) := by
  have h := Reachable.alone (calls.map .own)
  rwa [Host.run_own] at h

theorem Reachable.of_block (name : String) (calls : List Block.Call) :
    Reachable (Block.run { name := name } calls).signals := by
  have h := Reachable.block name (calls.map .own)
  rwa [Host.run_own] at h

theorem Reachable.of_unit {u : Alu} (h : u.Reachable) : Reachable u.signals := by
  obtain ⟨new, calls, hnew, rfl⟩ := h.exists_run
  have h := Reachable.unit hnew (calls.map .own)
  rwa [Host.run_own] at h

/-- **What lasts holds of every registry if it holds of the new ones.** -/
theorem Lasting.reachable (hP : Lasting P) (hempty : P {}) (hnew : P (Alu.builtinSignals .standard))
    (h : Reachable r) : P r := by
  cases h with
  | alone calls => exact hP.run lawful_host trivial hempty calls
  | block name calls => exact hP.run (s := { name := name }) Block.lawful_host trivial hempty calls
  | @unit u hu calls =>
    have hstart : P u.signals := by rwa [hu.signals]
    exact hP.run Alu.lawful_host hu.ready hstart calls

theorem lasting_lineage : Lasting Lineage where
  apply _ c h := h.apply c
  mirror _ _ hm h := h.mirror hm

/-- Declared signals with different names. -/
theorem lineage_of_declared (hnames : (r.signals.map Signal.name).Nodup)
    (hdeclared : ∀ s ∈ r.signals, s.origin = .declared) : r.Lineage := by
  have horigin : ∀ id s, r.get? id = some s → s.origin = .declared := fun _ s hs =>
    hdeclared s (List.mem_of_getElem? hs)
  refine ⟨⟨fun i j s t hs ht hname => ?_, fun id s base index hs ho => ?_,
    fun id s base count hs ho => ?_⟩, fun id s hs => ?_⟩
  · have hi : i.index < (r.signals.map Signal.name).length := by
      rw [List.length_map]
      exact lt_size_of_get? hs
    have hsame : (r.signals.map Signal.name)[i.index]? = (r.signals.map Signal.name)[j.index]? := by
      have hs' : r.signals[i.index]? = some s := hs
      have ht' : r.signals[j.index]? = some t := ht
      rw [List.getElem?_map, List.getElem?_map, hs', ht', Option.map_some, Option.map_some, hname]
    have hindex := (List.getElem?_inj hi hnames).mp hsame
    cases i
    cases j
    exact congrArg SignalId.mk hindex
  · rw [horigin id s hs] at ho
    cases ho
  · rw [horigin id s hs] at ho
    cases ho
  · rw [horigin id s hs]
    exact .declared

theorem Reachable.lineage (h : r.Reachable) : r.Lineage := by
  refine lasting_lineage.reachable (lineage_of_declared List.nodup_nil ?_)
    (lineage_of_declared (by decide) ?_) h
  · exact fun s hs => absurd hs List.not_mem_nil
  · intro s hs
    obtain ⟨b, -, rfl⟩ := List.mem_map.mp hs
    rfl

end Registry

end AluPlacement
