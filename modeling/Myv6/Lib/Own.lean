import Mathlib.Algebra.GroupWithZero.Nat
import Mathlib.Algebra.Notation.Pi.Basic
import Mathlib.Data.Nat.Notation

/-!
# Lib/Own — who owns which cell, counted

    c ──────────▸ c'          A p = B p     at every cell p
      A owned       B owned   c' p = c p    where A p = 0

Ownership is a count: `A p` roles hold the cell `p`.  A program turns the ownership it starts with
into another of the same total and writes only cells it owns, so whatever else is owned beside it
stays as it was.
-/

namespace Own

variable {P C : Type*}

/-- The ownership of one cell. -/
def one [DecidableEq P] (p q : P) : ℕ := if q = p then 1 else 0

@[simp] theorem one_self [DecidableEq P] (p : P) : one p p = 1 := if_pos rfl

theorem one_of_ne [DecidableEq P] {p q : P} (h : q ≠ p) : one p q = 0 := if_neg h

theorem eq_of_one_pos [DecidableEq P] {p q : P} (h : 0 < one p q) : q = p := by
  unfold one at h
  split at h
  · assumption
  · cases h

theorem count_cons_one [DecidableEq P] (p q : P) (l : List P) :
    (p :: l).count q = one p q + l.count q := by
  by_cases h : q = p
  · subst h
    rw [List.count_cons_self, one_self, Nat.add_comm]
  · rw [List.count_cons_of_ne (Ne.symm h), one_of_ne h, Nat.zero_add]

/-- **A transfer of ownership**: `A` becomes `B`, and only what `A` owns is written. -/
structure Xfer (c c' : P → C) (A B : P → ℕ) : Prop where
  same : ∀ p, B p = A p
  frame : ∀ p, A p = 0 → c' p = c p

variable {c c' c'' : P → C} {A A' B B' D R : P → ℕ} {p : P}

namespace Xfer

theorem refl : Xfer c c A A := ⟨fun _ => rfl, fun _ _ => rfl⟩

theorem trans (h : Xfer c c' A B) (h' : Xfer c' c'' B D) : Xfer c c'' A D where
  same p := (h'.same p).trans (h.same p)
  frame p hp := (h'.frame p ((h.same p).trans hp)).trans (h.frame p hp)

/-- **The frame rule**: what is owned beside comes along. -/
theorem beside (h : Xfer c c' A B) (R : P → ℕ) : Xfer c c' (A + R) (B + R) where
  same p := congrArg (· + R p) (h.same p)
  frame p hp := h.frame p (Nat.eq_zero_of_add_eq_zero_right hp)

/-- Ownership is only a count. -/
theorem congr (h : Xfer c c' A B) (hA : ∀ p, A' p = A p) (hB : ∀ p, B' p = B p) :
    Xfer c c' A' B' where
  same p := by rw [hA, hB, h.same]
  frame p hp := h.frame p ((hA p).symm.trans hp)

/-- What somebody else owns is not written. -/
theorem kept (h : Xfer c c' A B) (honce : A p + R p ≤ 1) (hR : 0 < R p) : c' p = c p :=
  h.frame p (by omega)

end Xfer

end Own
