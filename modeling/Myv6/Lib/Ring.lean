import Mathlib.Data.Fin.Basic
import Mathlib.Data.List.Basic
import Mathlib.Data.Nat.ModEq
import Mathlib.Logic.Function.Basic
import Myv6.Lib.Index

/-!
# Lib/Ring — a ring buffer addressed by free-running counters

An array of `cap` cells and a counter that only ever grows: the cell of counter value `k` is
`k mod cap`, and the `n` queued values from `b` on are `window buf b n`.  The counters of a program
are machine words; `window_mod` says that wrapping at a multiple of `cap` is invisible, and `queued` is
the window between two such words.
-/

namespace Ring

variable {β : Type*} {cap : ℕ} [NeZero cap]

/-- The cell of a counter value. -/
def cell (cap : ℕ) [NeZero cap] (k : ℕ) : Fin cap := Fin.ofNat cap k

theorem cell_eq_iff {i j : ℕ} : cell cap i = cell cap j ↔ i % cap = j % cap := by
  simp [cell, Fin.ext_iff, Fin.ofNat]

/-- **The queued values**: `n` of them, the oldest at counter value `b`. -/
def window (buf : Fin cap → β) (b n : ℕ) : List β :=
  (List.range n).map fun i => buf (cell cap (b + i))

@[simp] theorem length_window (buf : Fin cap → β) (b n : ℕ) : (window buf b n).length = n := by
  simp [window]

@[simp] theorem window_zero (buf : Fin cap → β) (b : ℕ) : window buf b 0 = [] := rfl

/-- The oldest value, and the rest. -/
theorem window_succ (buf : Fin cap → β) (b n : ℕ) :
    window buf b (n + 1) = buf (cell cap b) :: window buf (b + 1) n := by
  simp only [window, List.range_succ_eq_map, List.map_cons, List.map_map, Nat.add_zero]
  refine congrArg _ (List.map_congr_left fun i _ => ?_)
  simp only [Function.comp_apply, Nat.succ_eq_add_one, Nat.add_assoc, Nat.add_comm 1 i]

/-- **Writing the next free cell appends**, as long as the ring is not full: within `cap`
consecutive counter values no two share a cell. -/
theorem window_push (buf : Fin cap → β) {b n : ℕ} (x : β) (h : n < cap) :
    window (Function.update buf (cell cap (b + n)) x) b (n + 1) = window buf b n ++ [x] := by
  simp only [window, List.range_succ, List.map_append, List.map_cons, List.map_nil]
  congr 1
  · refine List.map_congr_left fun i hi => ?_
    have hin : i < n := List.mem_range.mp hi
    refine Function.update_of_ne (fun hc => ?_) _ _
    have hmod : Nat.ModEq cap (b + i) (b + n) := cell_eq_iff.mp hc
    have := Nat.ModEq.eq_of_lt_of_lt (Nat.ModEq.add_left_cancel' b hmod) (by omega) h
    omega
  · rw [Function.update_self]

/-- **A counter that wraps at a multiple of `cap` addresses the same cells.** -/
theorem window_mod (buf : Fin cap → β) {M : ℕ} (hM : cap ∣ M) (b n : ℕ) :
    window buf (b % M) n = window buf b n := by
  refine List.map_congr_left fun i _ => congrArg buf (cell_eq_iff.mpr ?_)
  conv_rhs => rw [Nat.add_mod, ← Nat.mod_mod_of_dvd b hM, ← Nat.add_mod]

/-! ## Counters of 64 bits

The counters of a program are machine words: the queued values are the `e - b` from `b` on, modulo
`2^64`.  With `cap` a divisor of `2^64` nothing changes where a counter wraps. -/

/-- The cell of a counter. -/
def wordCell (cap : ℕ) [NeZero cap] (k : UInt64) : Fin cap := cell cap k.toNat

/-- **The queued values**, between two counters. -/
def queued (buf : Fin cap → β) (b e : UInt64) : List β := window buf b.toNat (e - b).toNat

variable {b e : UInt64} {buf : Fin cap → β}

@[simp] theorem length_queued (buf : Fin cap → β) : (queued buf b e).length = (e - b).toNat := length_window ..

@[simp] theorem queued_self : queued buf b b = [] := by
  simp [queued]

/-- Two different counters have something between them. -/
theorem toNat_sub_pos (h : b ≠ e) : 0 < (e - b).toNat := by
  refine Nat.pos_of_ne_zero fun hzero => h (UInt64.toNat_inj.mp ?_)
  have hb := b.toNat_lt
  have he := e.toNat_lt
  rw [UInt64.toNat_sub] at hzero
  omega

/-- **Writing the next free cell appends.** -/
theorem queued_push (hcap : cap ∣ 2 ^ 64) (x : β) (hroom : (e - b).toNat < cap)
    (hlt : (e - b).toNat + 1 < 2 ^ 64) :
    queued (Function.update buf (wordCell cap e) x) b (e + 1) = queued buf b e ++ [x] := by
  have hb := b.toNat_lt
  have he := e.toNat_lt
  have hlen : (e + 1 - b).toNat = (e - b).toNat + 1 := by
    rw [UInt64.toNat_sub] at hlt ⊢
    rw [UInt64.toNat_sub, UInt64.toNat_add]
    change (2 ^ 64 - b.toNat + (e.toNat + 1) % 2 ^ 64) % 2 ^ 64 = _
    omega
  have hend : (b.toNat + (e - b).toNat) % 2 ^ 64 = e.toNat := by
    rw [UInt64.toNat_sub]
    omega
  have hcell : wordCell cap e = cell cap (b.toNat + (e - b).toNat) := by
    rw [wordCell, cell_eq_iff, ← hend, Nat.mod_mod_of_dvd _ hcap]
  rw [queued, hlen, hcell, window_push buf x hroom]
  rfl

/-- The oldest value, and the rest. -/
theorem queued_pop (hcap : cap ∣ 2 ^ 64) (h : b ≠ e) :
    queued buf b e = buf (wordCell cap b) :: queued buf (b + 1) e := by
  have hpos := toNat_sub_pos h
  have hb := b.toNat_lt
  have he := e.toNat_lt
  have hlen : (e - b).toNat = (e - (b + 1)).toNat + 1 := by
    rw [UInt64.toNat_sub] at hpos ⊢
    rw [UInt64.toNat_sub, UInt64.toNat_add]
    change _ = (2 ^ 64 - (b.toNat + 1) % 2 ^ 64 + e.toNat) % 2 ^ 64 + 1
    omega
  have hwrap : (b + 1).toNat = (b.toNat + 1) % 2 ^ 64 := UInt64.toNat_add b 1
  rw [queued, hlen, window_succ, queued, hwrap, window_mod buf hcap]
  rfl

/-- Without the newest value. -/
theorem queued_dropLast (h : b ≠ e) : queued buf b (e - 1) = (queued buf b e).dropLast := by
  have hpos := toNat_sub_pos h
  have hb := b.toNat_lt
  have he := e.toNat_lt
  have hlen : (e - b).toNat = (e - 1 - b).toNat + 1 := by
    rw [UInt64.toNat_sub] at hpos ⊢
    rw [UInt64.toNat_sub, UInt64.toNat_sub]
    change _ = (2 ^ 64 - b.toNat + (2 ^ 64 - 1 + e.toNat) % 2 ^ 64) % 2 ^ 64 + 1
    omega
  rw [queued, queued, hlen, window, window, List.range_succ, List.map_append, List.map_singleton,
    List.dropLast_concat]

end Ring
