import Mathlib.Algebra.BigOperators.Group.Finset.Basic
import Mathlib.Algebra.BigOperators.Ring.Finset
import Mathlib.Algebra.Order.BigOperators.Group.Finset
import Mathlib.Tactic.Abel

/-!
# Lib/Tally — sums and counts over a finite type that change at one point

A state that is a function on a finite type is changed one point at a time; a sum over it moves by
what that point moves by, and a count grows or shrinks by one.
-/

namespace Tally

variable {ι M : Type*} [Fintype ι]

/-- **A sum changed at one point** moves by the change there. -/
theorem sum_eq_add_sub [DecidableEq ι] [AddCommGroup M] {f g : ι → M} (i : ι) (h : ∀ j ≠ i, f j = g j) :
    ∑ j, f j = ∑ j, g j + (f i - g i) := by
  have hoff : ∑ j ∈ Finset.univ.erase i, f j = ∑ j ∈ Finset.univ.erase i, g j :=
    Finset.sum_congr rfl fun j hj => h j (Finset.ne_of_mem_erase hj)
  rw [← Finset.add_sum_erase _ f (Finset.mem_univ i), ← Finset.add_sum_erase _ g (Finset.mem_univ i),
    hoff]
  abel

/-- How many points satisfy `P`. -/
def count (P : ι → Prop) [DecidablePred P] : ℕ := (Finset.univ.filter P).card

variable {P Q : ι → Prop} [DecidablePred P] [DecidablePred Q]

theorem count_le_of_imp (h : ∀ i, P i → Q i) : count P ≤ count Q :=
  Finset.card_le_card fun i hi => by
    simp only [Finset.mem_filter, Finset.mem_univ, true_and] at hi ⊢
    exact h i hi

theorem count_pos_of {i : ι} (h : P i) : 0 < count P :=
  Finset.card_pos.mpr ⟨i, by simpa using h⟩

theorem count_eq_zero_iff : count P = 0 ↔ ∀ i, ¬P i := by
  simp [count, Finset.filter_eq_empty_iff]

/-- One point joins. -/
theorem count_le_succ [DecidableEq ι] {i : ι} (h : ∀ j ≠ i, P j → Q j) : count P ≤ count Q + 1 := by
  have hsub : Finset.univ.filter P ⊆ insert i (Finset.univ.filter Q) := fun j hj => by
    by_cases hji : j = i
    · simp [hji]
    · simp only [Finset.mem_filter, Finset.mem_univ, true_and] at hj
      simp [h j hji hj]
  exact (Finset.card_le_card hsub).trans (Finset.card_insert_le _ _)

/-- One point leaves. -/
theorem count_succ_le {i : ι} (hQ : Q i) (hP : ¬P i) (h : ∀ j, P j → Q j) :
    count P + 1 ≤ count Q := by
  refine Nat.succ_le_of_lt (Finset.card_lt_card ⟨fun j hj => ?_, fun hsub => hP ?_⟩)
  · simp only [Finset.mem_filter, Finset.mem_univ, true_and] at hj ⊢
    exact h j hj
  · simpa using hsub (by simpa using hQ : i ∈ Finset.univ.filter Q)

/-- A count is the sum of its indicator. -/
theorem count_eq_sum : (count P : ℤ) = ∑ i, if P i then 1 else 0 := by
  rw [count, Finset.sum_boole]

/-- **A count of the values of a function**, moved by changing one of them. -/
theorem count_update [DecidableEq ι] {β : Type*} (P : β → Bool) (f : ι → β) (i : ι) (b : β) :
    (count (fun j => P (Function.update f i b j)) : ℤ) =
      count (fun j => P (f j)) + ((if P b then 1 else 0) - (if P (f i) then 1 else 0)) := by
  rw [count_eq_sum, count_eq_sum,
    sum_eq_add_sub (f := fun j => if P (Function.update f i b j) then (1 : ℤ) else 0)
      (g := fun j => if P (f j) then (1 : ℤ) else 0) i fun j hj => by simp [hj]]
  simp

end Tally
