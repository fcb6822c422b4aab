import Mathlib.Logic.Function.Basic

/-!
# Lib/Hoare — what a program with a state and a panic ensures

    s ──m──▸ (a, t)      Q a t
    s ──m──▸ panic e     E e

`wp m Q E s` says both at once: a run of `m` from `s` that ends satisfies `Q`, one that panics
satisfies `E`.  With `E` false it is total correctness, with `E` true partial correctness.
-/

namespace Hoare

/-- Programs over a state that may panic. -/
abbrev Prog (σ ε : Type) : Type → Type := StateT σ (Except ε)

variable {σ τ ε α β : Type}

/-- The program that stops with a panic. -/
def panic (e : ε) : Prog σ ε α := fun _ => .error e

/-- The program that reads the state. -/
def inspect (f : σ → α) : Prog σ ε α := fun s => .ok (f s, s)

/-- The program that changes the state. -/
def alter (f : σ → σ) : Prog σ ε Unit := fun s => .ok ((), f s)

/-- A program on a part of the state. -/
def zoom (get : τ → σ) (set : σ → τ → τ) (m : Prog σ ε α) : Prog τ ε α := fun t =>
  match m (get t) with
  | .ok (a, s) => .ok (a, set s t)
  | .error e => .error e

/-- **The weakest precondition.** -/
def wp (m : Prog σ ε α) (Q : α → σ → Prop) (E : ε → Prop) (s : σ) : Prop :=
  match m s with
  | .ok (a, t) => Q a t
  | .error e => E e

variable {m : Prog σ ε α} {f : α → Prog σ ε β} {Q Q' : α → σ → Prop} {E E' : ε → Prop} {s t : σ}
  {a : α} {e : ε}

/-! ## The rules -/

@[simp] theorem wp_pure : wp (pure a) Q E s ↔ Q a s := Iff.rfl

@[simp] theorem wp_panic : wp (panic e : Prog σ ε α) Q E s ↔ E e := Iff.rfl

@[simp] theorem wp_inspect {g : σ → α} : wp (inspect g : Prog σ ε α) Q E s ↔ Q (g s) s := Iff.rfl

@[simp] theorem wp_alter {g : σ → σ} {Q : Unit → σ → Prop} :
    wp (alter g : Prog σ ε Unit) Q E s ↔ Q () (g s) := Iff.rfl

@[simp] theorem wp_bind {Q : β → σ → Prop} :
    wp (m >>= f) Q E s ↔ wp m (fun a t => wp (f a) Q E t) E s := by
  have hrun : (m >>= f) s = (m s).bind fun x => f x.1 x.2 := rfl
  unfold wp
  rw [hrun]
  cases m s with
  | ok x => rfl
  | error e => rfl

@[simp] theorem wp_map {g : α → β} {Q : β → σ → Prop} :
    wp (g <$> m) Q E s ↔ wp m (fun a t => Q (g a) t) E s := by
  have hrun : (g <$> m) s = (m s).bind fun x => .ok (g x.1, x.2) := rfl
  unfold wp
  rw [hrun]
  cases m s with
  | ok x => rfl
  | error e => rfl

theorem wp_ite {c : Prop} [Decidable c] {m' : Prog σ ε α} :
    wp (if c then m else m') Q E s ↔ (c → wp m Q E s) ∧ (¬c → wp m' Q E s) := by
  split
  · next h => exact ⟨fun hm => ⟨fun _ => hm, fun hc => absurd h hc⟩, fun hm => hm.1 h⟩
  · next h => exact ⟨fun hm => ⟨fun hc => absurd hc h, fun _ => hm⟩, fun hm => hm.2 h⟩

@[simp] theorem wp_zoom {get : τ → σ} {set : σ → τ → τ} {Q : α → τ → Prop} {x : τ} :
    wp (zoom get set m) Q E x ↔ wp m (fun a s => Q a (set s x)) E (get x) := by
  unfold wp zoom
  cases m (get x) with
  | ok y => rfl
  | error e => rfl

/-- **Consequence.** -/
theorem wp_mono (h : wp m Q E s) (hQ : ∀ a t, Q a t → Q' a t) (hE : ∀ e, E e → E' e) :
    wp m Q' E' s := by
  unfold wp at h ⊢
  cases hm : m s with
  | ok x =>
    rw [hm] at h
    exact hQ _ _ h
  | error e =>
    rw [hm] at h
    exact hE _ h

/-- Consequence for the postcondition alone. -/
theorem wp_post (h : wp m Q E s) (hQ : ∀ a t, Q a t → Q' a t) : wp m Q' E s :=
  wp_mono h hQ fun _ => id

/-- Two guarantees hold together. -/
theorem wp_and (h : wp m Q E s) (h' : wp m Q' E' s) :
    wp m (fun a t => Q a t ∧ Q' a t) (fun e => E e ∧ E' e) s := by
  unfold wp at h h' ⊢
  cases hm : m s with
  | ok x =>
    rw [hm] at h h'
    exact ⟨h, h'⟩
  | error e =>
    rw [hm] at h h'
    exact ⟨h, h'⟩

/-- Every program guarantees nothing. -/
theorem wp_true : wp m (fun _ _ => True) (fun _ => True) s := by
  unfold wp
  cases m s <;> trivial

/-! ## Runs -/

theorem wp_iff : wp m Q E s ↔ (∀ a t, m s = .ok (a, t) → Q a t) ∧ ∀ e, m s = .error e → E e := by
  unfold wp
  cases m s with
  | ok x =>
    obtain ⟨a, t⟩ := x
    simp
  | error e => simp

/-- A run goes on where its first part ended. -/
theorem bind_ok (hm : m s = .ok (a, t)) : (m >>= f) s = f a t := by
  have hrun : (m >>= f) s = (m s).bind fun x => f x.1 x.2 := rfl
  rw [hrun, hm]
  rfl

theorem bind_error (hm : m s = .error e) : (m >>= f) s = .error e := by
  have hrun : (m >>= f) s = (m s).bind fun x => f x.1 x.2 := rfl
  rw [hrun, hm]
  rfl

/-- What a run that ended has ensured. -/
theorem wp.ok (h : wp m Q E s) (hm : m s = .ok (a, t)) : Q a t := by
  rw [wp_iff] at h
  exact h.1 a t hm

/-- A run that was looked at has ended. -/
theorem ok_of_map {x : Except ε (α × σ)} {g : α × σ → β} {b : β} (h : x.toOption.map g = some b) :
    ∃ a t, x = .ok (a, t) ∧ g (a, t) = b := by
  cases x with
  | ok y => exact ⟨y.1, y.2, rfl, Option.some.inj h⟩
  | error e => cases h

/-- What a panic tells. -/
theorem wp.error (h : wp m Q E s) (hm : m s = .error e) : E e := by
  rw [wp_iff] at h
  exact h.2 e hm

/-- **No panic**: the program ends, and ends well. -/
theorem wp.ends (h : wp m Q (fun _ => False) s) : ∃ a t, m s = .ok (a, t) ∧ Q a t := by
  unfold wp at h
  cases hm : m s with
  | ok x =>
    rw [hm] at h
    exact ⟨x.1, x.2, rfl, h⟩
  | error e =>
    rw [hm] at h
    exact h.elim

/-- **Two sides of one run**: it ends well exactly under a condition. -/
theorem ends_iff {C : Prop} (h : wp m (fun a t => Q a t ↔ C) (fun _ => ¬C) s) :
    (∃ a t, m s = .ok (a, t) ∧ Q a t) ↔ C := by
  unfold wp at h
  constructor
  · rintro ⟨a, t, hm, hq⟩
    rw [hm] at h
    exact h.mp hq
  · intro hc
    cases hm : m s with
    | ok x =>
      rw [hm] at h
      exact ⟨x.1, x.2, rfl, h.mpr hc⟩
    | error e =>
      rw [hm] at h
      exact absurd hc h

end Hoare
