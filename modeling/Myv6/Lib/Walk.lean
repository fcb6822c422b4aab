import Mathlib.Data.List.Nodup
import Mathlib.Logic.Function.Basic
import Mathlib.Order.Nat

/-!
# Lib/Walk — a depth-first walk over a tree that others change

    stack  (q, i) :: …     q has been visited, its children from index i on are still to be looked at
    next   some j          j has been found as a child of the top of the stack

The walk looks for the children of a node by going through all nodes in the order of an index and
asking for their parent.  Meanwhile the tree may change, as long as nobody touches a node that the
walk has visited or found, and every new child is a leaf: the walk may miss it, but then it misses
nothing below.
-/

namespace Walk

open Function (update)

variable {α : Type*} {index : α → ℕ} {root : α} {parent parent' : α → Option α}
  {leaf leaf' : α → Prop} {next : Option α} {stack : List (α × ℕ)} {seen : α → Bool} {q j : α}
  {i : ℕ}

/-- **How far a walk has come.** -/
structure Progress (index : α → ℕ) (root : α) (parent : α → Option α) (leaf : α → Prop)
    (next : Option α) (stack : List (α × ℕ)) (seen : α → Bool) : Prop where
  orphan : parent root = none
  seen_root : seen root
  /-- Who has been visited hangs on somebody visited. -/
  seen_parent : ∀ j, seen j → j ≠ root → ∃ p, parent j = some p ∧ seen p
  stack_nodup : (stack.map Prod.fst).Nodup
  stack_seen : ∀ p i, (p, i) ∈ stack → seen p
  /-- What a loop on the stack has still to look at has not been visited. -/
  ahead : ∀ p i, (p, i) ∈ stack → ∀ j, i ≤ index j → parent j = some p →
    seen j = false ∧ next ≠ some j
  /-- What it has looked at has been visited, or is a leaf. -/
  behind : ∀ p j, seen p → parent j = some p →
    seen j ∨ leaf j ∨ next = some j ∨ ∃ i, (p, i) ∈ stack ∧ i ≤ index j
  found : ∀ q, next = some q → seen q = false ∧
    ∃ p i rest, stack = (p, i) :: rest ∧ parent q = some p

namespace Progress

/-- The parent of a visited node has been visited. -/
theorem seen_of_child (h : Progress index root parent leaf next stack seen) {p : α}
    (hj : parent j = some p) (hseen : seen j) : seen p := by
  have hne : j ≠ root := by
    rintro rfl
    simp [h.orphan] at hj
  obtain ⟨p', hp', hs⟩ := h.seen_parent j hseen hne
  obtain rfl : p' = p := Option.some.inj (hp'.symm.trans hj)
  exact hs

/-- The walk begins at the root. -/
theorem start [DecidableEq α] (hroot : parent root = none) :
    Progress index root parent leaf none [(root, 0)] fun j => decide (j = root) := by
  constructor
  case found => exact nofun
  case orphan => exact hroot
  all_goals simp
  · rintro j hj rfl
    simp [hroot] at hj
  · grind

/-- The walk visits what it has found. -/
theorem visit [DecidableEq α] (h : Progress index root parent leaf (some q) stack seen) :
    Progress index root parent leaf none ((q, 0) :: stack) (update seen q true) := by
  obtain ⟨hq, p, i, rest, hstack, hp⟩ := h.found q rfl
  have hseen : ∀ j, update seen q true j ↔ j = q ∨ seen j := by
    intro j
    by_cases hj : j = q <;> simp [hj]
  have hpseen : seen p := h.stack_seen p i (by simp [hstack])
  constructor
  case orphan => exact h.orphan
  case seen_root => exact (hseen root).mpr (.inr h.seen_root)
  case seen_parent =>
    intro j hj hne
    obtain rfl | hj := (hseen j).mp hj
    · exact ⟨p, hp, (hseen p).mpr (.inr hpseen)⟩
    · obtain ⟨p', hp', hs⟩ := h.seen_parent j hj hne
      exact ⟨p', hp', (hseen p').mpr (.inr hs)⟩
  case stack_nodup =>
    refine List.nodup_cons.mpr ⟨fun hmem => ?_, h.stack_nodup⟩
    obtain ⟨⟨p', i'⟩, hmem', heq⟩ := List.mem_map.mp hmem
    obtain rfl : p' = q := heq
    simp [h.stack_seen p' i' hmem'] at hq
  case stack_seen =>
    intro p' i' hmem
    obtain heq | hmem := List.mem_cons.mp hmem
    · exact (hseen p').mpr (.inl (Prod.mk.inj heq).1)
    · exact (hseen p').mpr (.inr (h.stack_seen p' i' hmem))
  case ahead =>
    intro p' i' hmem j hle hj
    refine ⟨?_, nofun⟩
    suffices hne : ¬(j = q ∨ seen j) by simpa [← hseen] using hne
    obtain heq | hmem := List.mem_cons.mp hmem
    · -- a child of `q` that had been visited would hang on `q`, which had not
      obtain ⟨rfl, -⟩ := Prod.mk.inj heq
      rintro (rfl | hsj)
      · obtain rfl : p = j := Option.some.inj (hp.symm.trans hj)
        simp [hq] at hpseen
      · simp [h.seen_of_child hj hsj] at hq
    · obtain ⟨hsj, hnext⟩ := h.ahead p' i' hmem j hle hj
      rintro (rfl | hsj')
      · exact hnext rfl
      · simp [hsj] at hsj'
  case behind =>
    intro p' j hp' hj
    obtain rfl | hp' := (hseen p').mp hp'
    · exact .inr (.inr (.inr ⟨0, List.mem_cons_self, Nat.zero_le _⟩))
    · obtain hs | hl | hn | ⟨i', hmem, hle⟩ := h.behind p' j hp' hj
      · exact .inl ((hseen j).mpr (.inr hs))
      · exact .inr (.inl hl)
      · exact .inl ((hseen j).mpr (.inl (Option.some.inj hn).symm))
      · exact .inr (.inr (.inr ⟨i', List.mem_cons_of_mem _ hmem, hle⟩))
  case found => exact nofun

/-- The loop on top of the stack finds a child. -/
theorem find (h : Progress index root parent leaf none ((q, i) :: stack) seen)
    (hinj : Function.Injective index) (hi : index j = i) (hj : parent j = some q) :
    Progress index root parent leaf (some j) ((q, i + 1) :: stack) seen := by
  obtain ⟨hnot, hrest⟩ := List.nodup_cons.mp h.stack_nodup
  have hsj := (h.ahead q i List.mem_cons_self j hi.ge hj).1
  constructor
  case orphan => exact h.orphan
  case seen_root => exact h.seen_root
  case seen_parent => exact h.seen_parent
  case stack_nodup => exact List.nodup_cons.mpr ⟨hnot, hrest⟩
  case stack_seen =>
    intro p' i' hmem
    obtain heq | hmem := List.mem_cons.mp hmem
    · obtain ⟨rfl, -⟩ := Prod.mk.inj heq
      exact h.stack_seen p' i List.mem_cons_self
    · exact h.stack_seen p' i' (List.mem_cons_of_mem _ hmem)
  case ahead =>
    intro p' i' hmem j' hle hj'
    obtain heq | hmem' := List.mem_cons.mp hmem
    · obtain ⟨rfl, rfl⟩ := Prod.mk.inj heq
      refine ⟨(h.ahead p' i List.mem_cons_self j' (by omega) hj').1, fun hnext => ?_⟩
      obtain rfl := Option.some.inj hnext
      omega
    · refine ⟨(h.ahead p' i' (List.mem_cons_of_mem _ hmem') j' hle hj').1, fun hnext => ?_⟩
      -- another loop on the stack has another node, so the child is not its own
      obtain rfl := Option.some.inj hnext
      obtain rfl : p' = q := Option.some.inj (hj'.symm.trans hj)
      exact hnot (List.mem_map.mpr ⟨(p', i'), hmem', rfl⟩)
  case behind =>
    intro p' j' hp' hj'
    obtain hs | hl | hn | ⟨i', hmem, hle⟩ := h.behind p' j' hp' hj'
    · exact .inl hs
    · exact .inr (.inl hl)
    · exact nomatch hn
    · refine .inr (.inr ?_)
      obtain heq | hmem := List.mem_cons.mp hmem
      · obtain ⟨rfl, rfl⟩ := Prod.mk.inj heq
        obtain heq | hlt := hle.eq_or_lt
        · exact .inl (congrArg some (hinj (hi.trans heq)))
        · exact .inr ⟨_, List.mem_cons_self, hlt⟩
      · exact .inr ⟨i', List.mem_cons_of_mem _ hmem, hle⟩
  case found =>
    rintro _ ⟨⟩
    exact ⟨hsj, q, i + 1, stack, rfl, hj⟩

/-- It goes past a node that is no child. -/
theorem skip (h : Progress index root parent leaf none ((q, i) :: stack) seen)
    (hno : ∀ j, index j = i → parent j ≠ some q) :
    Progress index root parent leaf none ((q, i + 1) :: stack) seen := by
  have hin : ∀ p' i', (p', i') ∈ (q, i + 1) :: stack → ∃ i'' ≤ i', (p', i'') ∈ (q, i) :: stack := by
    intro p' i' hmem
    obtain heq | hmem := List.mem_cons.mp hmem
    · obtain ⟨rfl, rfl⟩ := Prod.mk.inj heq
      exact ⟨i, Nat.le_succ i, List.mem_cons_self⟩
    · exact ⟨i', le_rfl, List.mem_cons_of_mem _ hmem⟩
  constructor
  case orphan => exact h.orphan
  case seen_root => exact h.seen_root
  case seen_parent => exact h.seen_parent
  case stack_nodup => exact h.stack_nodup
  case stack_seen =>
    intro p' i' hmem
    obtain ⟨i'', -, hmem⟩ := hin p' i' hmem
    exact h.stack_seen p' i'' hmem
  case ahead =>
    intro p' i' hmem j' hle hj'
    obtain ⟨i'', hle', hmem⟩ := hin p' i' hmem
    exact h.ahead p' i'' hmem j' (hle'.trans hle) hj'
  case behind =>
    intro p' j' hp' hj'
    obtain hs | hl | hn | ⟨i', hmem, hle⟩ := h.behind p' j' hp' hj'
    · exact .inl hs
    · exact .inr (.inl hl)
    · exact nomatch hn
    · refine .inr (.inr (.inr ?_))
      obtain heq | hmem := List.mem_cons.mp hmem
      · obtain ⟨rfl, rfl⟩ := Prod.mk.inj heq
        refine ⟨_, List.mem_cons_self, hle.lt_of_ne fun heq => hno j' heq.symm hj'⟩
      · exact ⟨i', List.mem_cons_of_mem _ hmem, hle⟩
  case found => exact nofun

/-- The loop on top of the stack has come to its end. -/
theorem finish (h : Progress index root parent leaf none ((q, i) :: stack) seen)
    (hend : ∀ j, index j < i) : Progress index root parent leaf none stack seen := by
  constructor
  case orphan => exact h.orphan
  case seen_root => exact h.seen_root
  case seen_parent => exact h.seen_parent
  case stack_nodup => exact (List.nodup_cons.mp h.stack_nodup).2
  case stack_seen => exact fun p' i' hmem => h.stack_seen p' i' (List.mem_cons_of_mem _ hmem)
  case ahead => exact fun p' i' hmem => h.ahead p' i' (List.mem_cons_of_mem _ hmem)
  case behind =>
    intro p' j' hp' hj'
    obtain hs | hl | hn | ⟨i', hmem, hle⟩ := h.behind p' j' hp' hj'
    · exact .inl hs
    · exact .inr (.inl hl)
    · exact nomatch hn
    · obtain heq | hmem := List.mem_cons.mp hmem
      · obtain ⟨rfl, rfl⟩ := Prod.mk.inj heq
        exact absurd hle (hend j').not_ge
      · exact .inr (.inr (.inr ⟨i', hmem, hle⟩))
  case found => exact nofun

/-- **The tree changes around the walk**: who has been visited or found stays where it is, and a
child that is new is a leaf nobody has visited. -/
theorem change (h : Progress index root parent leaf next stack seen)
    (hseen : ∀ j, seen j → parent' j = parent j) (hnext : ∀ j, next = some j → parent' j = parent j)
    (hnew : ∀ j p, parent' j = some p →
      parent j = some p ∧ (leaf j → leaf' j) ∨ leaf' j ∧ parent j = none) :
    Progress index root parent' leaf' next stack seen := by
  have hfresh : ∀ j p, parent j = none → parent' j = some p → seen j = false ∧ next ≠ some j := by
    intro j p hnone hj
    refine ⟨Bool.eq_false_iff.mpr fun hs => ?_, fun hn => ?_⟩
    · rw [hseen j hs, hnone] at hj
      cases hj
    · rw [hnext j hn, hnone] at hj
      cases hj
  constructor
  case orphan => exact (hseen root h.seen_root).trans h.orphan
  case seen_root => exact h.seen_root
  case seen_parent =>
    intro j hj hne
    rw [hseen j hj]
    exact h.seen_parent j hj hne
  case stack_nodup => exact h.stack_nodup
  case stack_seen => exact h.stack_seen
  case ahead =>
    intro p i hmem j hle hj
    obtain ⟨hold, -⟩ | ⟨-, hnone⟩ := hnew j p hj
    · exact h.ahead p i hmem j hle hold
    · exact hfresh j p hnone hj
  case behind =>
    intro p j hp hj
    obtain ⟨hold, hleaf⟩ | ⟨hleaf, -⟩ := hnew j p hj
    · exact (h.behind p j hp hold).imp_right (.imp_left hleaf)
    · exact .inr (.inl hleaf)
  case found =>
    intro q hq
    rw [hnext q hq]
    exact h.found q hq

/-- **At its end the walk has visited every node that is not a leaf.**  Going up from such a node one
gets to a visited one, since what has children is not a leaf and the rank cannot fall for ever. -/
theorem complete (h : Progress index root parent leaf none [] seen) (rank : α → ℕ)
    (hrank : ∀ j p, parent j = some p → p = root ∨ rank p < rank j)
    (hleaf : ∀ j p, parent j = some p → ¬leaf p)
    (hhang : ∀ j, ¬leaf j → j = root ∨ parent j ≠ none) : ∀ j, ¬leaf j → seen j := by
  intro j
  induction hn : rank j using Nat.strongRecOn generalizing j with
  | _ n ih =>
    intro hj
    obtain rfl | hp := hhang j hj
    · exact h.seen_root
    · obtain ⟨p, hp⟩ := Option.ne_none_iff_exists'.mp hp
      have hseen : seen p := by
        obtain rfl | hlt := hrank j p hp
        · exact h.seen_root
        · exact ih (rank p) (hn ▸ hlt) p rfl (hleaf j p hp)
      obtain hs | hl | hn | ⟨i, hmem, -⟩ := h.behind p j hseen hp
      · exact hs
      · exact absurd hl hj
      · exact nomatch hn
      · exact nomatch hmem

end Progress

end Walk
