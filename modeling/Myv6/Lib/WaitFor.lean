import Mathlib.Logic.Relation
import Mathlib.Order.Basic

/-!
# Lib/WaitFor — the wait-for graph over a set of locks

    l ──▸ l'    some agent holds `l` and spins on `l'`

Nobody in a cycle ever goes on, so a locking discipline is judged by `Acyclic`; the proof that a
graph has no cycle is a rank that every edge raises.
-/

namespace WaitFor

variable {ι Λ : Type*} (holds : ι → Λ → Prop) (waits : ι → Option Λ)

/-- Some agent holds `l` and waits for `l'`. -/
def Edge (l l' : Λ) : Prop := ∃ c, holds c l ∧ waits c = some l'

/-- No lock leads back to itself. -/
def Acyclic : Prop := ∀ l, ¬Relation.TransGen (Edge holds waits) l l

variable {holds waits}

/-- **A rank that every edge raises excludes cycles.** -/
theorem acyclic_of_rank {α : Type*} [Preorder α] (r : Λ → α)
    (h : ∀ l l', Edge holds waits l l' → r l < r l') : Acyclic holds waits := by
  intro l hl
  have hlt : ∀ {a b : Λ}, Relation.TransGen (Edge holds waits) a b → r a < r b := by
    intro a b hab
    induction hab with
    | single hab => exact h _ _ hab
    | tail _ hbc ih => exact ih.trans (h _ _ hbc)
  exact lt_irrefl _ (hlt hl)

/-- Two agents that wait for each other's lock are a cycle. -/
theorem Acyclic.not_pair (hacyclic : Acyclic holds waits) {c d : ι} {l l' : Λ} (hc : holds c l)
    (hc' : waits c = some l') (hd : holds d l') (hd' : waits d = some l) : False :=
  hacyclic l (.tail (.single ⟨c, hc, hc'⟩) ⟨d, hd, hd'⟩)

end WaitFor
