import Mathlib.Logic.Function.Basic

/-!
# Lib/Run — runs of a labelled transition system

    s₀ ──a₁──▸ s₁ ──a₂──▸ s₂ ──▸ …

A system is one function `step : σ → α → Option σ`: the state after the action, or `none` when the
action is not enabled.  A run is a list of actions, executed by `run`; `Reach` is reachability by
runs whose every step meets a side condition `ok`, and `Reach.invariant` is the induction every
safety theorem goes through.
-/

namespace Run

variable {σ α : Type*}

/-- **The state after a whole list of actions**, or `none` if one of them is not enabled. -/
def run (step : σ → α → Option σ) : σ → List α → Option σ
  | s, [] => some s
  | s, a :: as => (step s a).bind fun t => run step t as

/-- **Reachability by steps that all meet `ok`.** -/
inductive Reach (step : σ → α → Option σ) (ok : σ → α → Prop) (s₀ : σ) : σ → Prop
  | refl : Reach step ok s₀ s₀
  | tail {s t : σ} {a : α} : Reach step ok s₀ s → ok s a → step s a = some t → Reach step ok s₀ t

/-- Reachability by any steps at all. -/
abbrev Reachable (step : σ → α → Option σ) (s₀ : σ) : σ → Prop :=
  Reach step (fun _ _ => True) s₀

variable {step : σ → α → Option σ} {ok ok' : σ → α → Prop} {s₀ s t : σ} {a : α}

/-- One more step of an unconditional run. -/
theorem Reach.next (h : Reachable step s₀ s) (ha : step s a = some t) : Reachable step s₀ t :=
  .tail h trivial ha

/-- A weaker side condition reaches at least as much. -/
theorem Reach.mono (hok : ∀ s a, ok s a → ok' s a) (h : Reach step ok s₀ s) :
    Reach step ok' s₀ s := by
  induction h with
  | refl => exact .refl
  | tail _ ha hs ih => exact .tail ih (hok _ _ ha) hs

/-- **The invariant rule**: what holds at the start and is kept by every step that meets `ok`
holds of every state reached. -/
theorem Reach.invariant {P : σ → Prop} (h₀ : P s₀)
    (hstep : ∀ s a t, P s → ok s a → step s a = some t → P t) (h : Reach step ok s₀ s) : P s := by
  induction h with
  | refl => exact h₀
  | tail _ ha hs ih => exact hstep _ _ _ ih ha hs

/-- **The invariant rule over a known invariant**: a step may be taken from a state that is itself
reachable, so anything proved of reachable states is at hand. -/
theorem Reach.invariant_with {P : σ → Prop} (h₀ : P s₀)
    (hstep : ∀ s a t, Reach step ok s₀ s → P s → ok s a → step s a = some t → P t)
    (h : Reach step ok s₀ s) : P s := by
  induction h with
  | refl => exact h₀
  | tail hr ha hs ih => exact hstep _ _ _ hr ih ha hs

/-- A list of actions that executes from a reachable state ends in a reachable state. -/
theorem reachable_of_run {as : List α} :
    ∀ {s : σ}, Reachable step s₀ s → run step s as = some t → Reachable step s₀ t := by
  induction as with
  | nil =>
    intro s hs h
    obtain rfl : s = t := Option.some.inj h
    exact hs
  | cons a as ih =>
    intro s hs h
    obtain ⟨u, hu, hrest⟩ := Option.bind_eq_some_iff.mp h
    exact ih (hs.next hu) hrest

/-- The system that refuses the steps a test does not let through. -/
def guard (step : σ → α → Option σ) (test : σ → α → Bool) (s : σ) (a : α) : Option σ :=
  if test s a then step s a else none

/-- A run of the guarded system meets the condition at every step. -/
theorem reach_of_guard {test : σ → α → Bool} (htest : ∀ s a, test s a → ok s a) {as : List α} :
    ∀ {s : σ}, Reach step ok s₀ s → run (guard step test) s as = some t → Reach step ok s₀ t := by
  induction as with
  | nil =>
    intro s hs h
    obtain rfl : s = t := Option.some.inj h
    exact hs
  | cons a as ih =>
    intro s hs h
    obtain ⟨u, hu, hrest⟩ := Option.bind_eq_some_iff.mp h
    obtain ⟨ha, hu⟩ := Option.ite_none_right_eq_some.mp hu
    exact ih (.tail hs (htest s a ha) hu) hrest

/-! ## Histories

`watch` keeps a record of the run beside the state.  No step reads it. -/

section Watch

variable {η : Type*} {note : σ → α → σ → η → η} {x y : σ × η} {h₀ : η}

/-- The system with a record: `note` says what a step adds to it. -/
def watch (step : σ → α → Option σ) (note : σ → α → σ → η → η) (x : σ × η) (a : α) :
    Option (σ × η) :=
  (step x.1 a).map fun t => (t, note x.1 a t x.2)

theorem watch_eq_some_iff :
    watch step note x a = some y ↔ step x.1 a = some y.1 ∧ y.2 = note x.1 a y.1 x.2 := by
  unfold watch
  rw [Option.map_eq_some_iff]
  constructor
  · rintro ⟨t, ht, rfl⟩
    exact ⟨ht, rfl⟩
  · rintro ⟨ht, hy⟩
    exact ⟨y.1, ht, Prod.ext rfl hy.symm⟩

/-- The states of a watched run are states of a run. -/
theorem Reach.fst {ok : σ × η → α → Prop} (h : Reach (watch step note) ok (s₀, h₀) x) :
    Reachable step s₀ x.1 := by
  induction h with
  | refl => exact .refl
  | tail _ _ hs ih => exact ih.next (watch_eq_some_iff.mp hs).1

end Watch

/-! ## Conditions along a run

`Along ok` asks that every step of a run meets `ok`, `Through P` that every state it passes
satisfies `P`. -/

/-- Every step of the run meets `ok`. -/
def Along (step : σ → α → Option σ) (ok : σ → α → Prop) : σ → List α → Prop
  | _, [] => True
  | s, a :: as => ok s a ∧ ∀ t, step s a = some t → Along step ok t as

/-- Every state of the run satisfies `P`. -/
def Through (step : σ → α → Option σ) (P : σ → Prop) : σ → List α → Prop
  | s, [] => P s
  | s, a :: as => P s ∧ ∀ t, step s a = some t → Through step P t as

/-- **When the condition on the next step decides the property of the next state**, it does so along
whole runs. -/
theorem along_iff_through {I P : σ → Prop} (hI : ∀ s a t, I s → step s a = some t → I t)
    (hdec : ∀ s a t, I s → P s → step s a = some t → (ok s a ↔ P t))
    (hdis : ∀ s a, step s a = none → ok s a) {as : List α} :
    ∀ {s : σ}, I s → P s → (Along step ok s as ↔ Through step P s as) := by
  induction as with
  | nil => exact fun _ hP => ⟨fun _ => hP, fun _ => trivial⟩
  | cons a as ih =>
    intro s hs hP
    refine ⟨fun h => ⟨hP, fun t ht => ?_⟩, fun h => ⟨?_, fun t ht => ?_⟩⟩
    · exact (ih (hI s a t hs ht) ((hdec s a t hs hP ht).mp h.1)).mp (h.2 t ht)
    · cases ht : step s a with
      | none => exact hdis s a ht
      | some t =>
        refine (hdec s a t hs hP ht).mpr ?_
        have hthrough := h.2 t ht
        cases as with
        | nil => exact hthrough
        | cons b bs => exact hthrough.1
    · have hthrough := h.2 t ht
      have hPt : P t := by
        cases as with
        | nil => exact hthrough
        | cons b bs => exact hthrough.1
      exact (ih (hI s a t hs ht) hPt).mpr hthrough

/-- Two conditions that agree on the states reached agree along runs. -/
theorem along_congr (h : ∀ s, Reachable step s₀ s → ∀ a, ok s a ↔ ok' s a) {as : List α} :
    ∀ {s : σ}, Reachable step s₀ s → (Along step ok s as ↔ Along step ok' s as) := by
  induction as with
  | nil => exact fun _ => Iff.rfl
  | cons a as ih =>
    intro s hs
    exact and_congr (h s hs a) (forall_congr' fun t => imp_congr_right fun ht => ih (hs.next ht))

/-- The condition on a step of the run. -/
theorem Along.at {as bs : List α} : ∀ {s : σ}, Along step ok s (as ++ a :: bs) →
    run step s as = some t → ok t a := by
  induction as with
  | nil =>
    intro s h hrun
    obtain rfl : s = t := Option.some.inj hrun
    exact h.1
  | cons b as ih =>
    intro s h hrun
    obtain ⟨u, hu, hrest⟩ := Option.bind_eq_some_iff.mp hrun
    exact ih (h.2 u hu) hrest

end Run
