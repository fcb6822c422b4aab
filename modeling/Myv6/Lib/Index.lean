import Mathlib.Algebra.GroupWithZero.Nat
import Mathlib.Data.Fin.Basic

/-!
# Lib/Index — the index types of tables of a fixed size

    n      8    16    64    512
    Fin n  the indices, with the literals 0, 1, 2, …

A literal of `Fin n` needs an `n` other than 0.  For the sizes in use that is stated once, so that
the same literal is the same term everywhere.
-/

instance instNeZeroEight : @NeZero ℕ Zero.ofOfNat0 8 := ⟨by decide⟩

instance instNeZeroSixteen : @NeZero ℕ Zero.ofOfNat0 16 := ⟨by decide⟩

instance instNeZeroSixtyFour : @NeZero ℕ Zero.ofOfNat0 64 := ⟨by decide⟩

instance instNeZeroPage : @NeZero ℕ Zero.ofOfNat0 512 := ⟨by decide⟩
