import Myv6.Vm.Copy
import Myv6.Vm.FreeTable
import Myv6.Vm.User

/-!
# Vm/CopyTable — `copy_page_table`

    source   root ──▸ table ──▸ table ──▸ page        calls   table, table, table, page p, …, full, …
              ┆         ┆         ┆         ┆
    copy     root' ─▸ table' ─▸ table' ─▸ page'

A copy asks for a page for every table and every leaf of the source, in the order of the tree; `calls`
reads these requests off the source, and `after` says how far they are served.  `Clone` relates a tree
and its copy, where tables without a valid entry are left out.  When a request is not served every
level frees the tables it has made; the pages that full tables at level 0 map are then lost, and the
level 0 table itself takes the pages it maps for tables.
-/

namespace Vm

open Function (update)
open Hoare Own

/-- `free_page_table_aux` at level 0 and below: no level is 1 any more, so whatever the entries point
to is a table.  The count is how many more calls there is room for on the kernel stack; the windows of
the devices, which `kfree` does not take, are left out. -/
def freeBelow : ℕ → Word → Kernel Unit
  | 0, _ => panic .kernelTrap
  | stack + 1, table =>
    if InRam table then do
      freeChildren (freeBelow stack) table (List.finRange 512)
      kfree table
    else
      panic .kernelTrap

/-- What the loop of `copy_page_table_aux` does with a valid entry at level 0; `-1` for the `NULL` of
`kalloc`. -/
def copyLeaf (page : Word) : Kernel Word := do
  match ← kalloc with
  | none => pure (-1)
  | some copy =>
    memcpyPage copy page
    pure copy

/-- The loop of `copy_page_table_aux`, with the entries left. -/
def copyEntries (copySub : Word → Kernel Word) (freeCopy : Word → Kernel Unit)
    (table copyTable : Word) : List (Fin 512) → Bool → Kernel Word
  | [], hasSubPage =>
    if hasSubPage then
      pure copyTable
    else do
      kfree copyTable
      pure 0
  | i :: is, hasSubPage => do
    let pte ← inspect (·.cell table i)
    if !valid pte then
      copyEntries copySub freeCopy table copyTable is hasSubPage
    else
      let copyPage ← copySub (pteGetPa pte)
      if copyPage = 0 then
        copyEntries copySub freeCopy table copyTable is true
      else if copyPage = -1 then do
        freeCopy copyTable
        pure (-1)
      else do
        alter (·.write copyTable i (makePte copyPage (pteGetAttribute pte)))
        copyEntries copySub freeCopy table copyTable is true

def copyTableWith (copySub : Word → Kernel Word) (freeCopy : Word → Kernel Unit) (pgtable : Word) :
    Kernel Word := do
  match ← getPagetable with
  | none => pure (-1)
  | some copyTable => copyEntries copySub freeCopy pgtable copyTable (List.finRange 512) false

/-- `copy_page_table_aux`; on an error a level frees its copy with its own number as the level. -/
def copyPageTableAux (stack : ℕ) : ℕ → Word → Kernel Word
  | 0, pgtable => copyTableWith copyLeaf (freeBelow (stack + 2)) pgtable
  | level + 1, pgtable =>
    copyTableWith (copyPageTableAux stack level) (freePageTableAux (level + 1)) pgtable

/-- `NULL` is 0. -/
@[irreducible] def copyPageTable (stack : ℕ) (pgtable : Word) : Kernel Word := do
  let ret ← copyPageTableAux stack maxLevel pgtable
  pure (if ret = 0 ∨ ret = -1 then 0 else ret)

/-! ## The requests of a copy -/

/-- What a copy asks of the allocator, and where it has completed a table at level 0. -/
inductive Call
  | table
  | page (p : Word)
  | full
  | back
  deriving DecidableEq, Repr

/-- The refusals that are to come, and the pages that are free. -/
abbrev Purse := List Bool × ℕ

/-- **A request is served** if `kalloc` does not fail. -/
def Call.serve : Call → Purse → Option Purse
  | .full, s => some s
  | .back, s => some (s.1, s.2 + 1)
  | .table, s | .page _, s =>
    if s.1.head? = some true ∨ s.2 = 0 then none else some (s.1.tail, s.2 - 1)

/-- What is left when all requests are served. -/
def after : List Call → Purse → Option Purse
  | [], s => some s
  | x :: xs, s => (x.serve s).bind (after xs)

/-- **The requests that are served**, up to the first that is not. -/
def served : List Call → Purse → List Call
  | [], _ => []
  | x :: xs, s => (x.serve s).elim [] fun s' => x :: served xs s'

/-- What follows the entries of a table. -/
def closing (c : Word → Fin 512 → Word) (n : ℕ) (t : Word) : List Call :=
  if (List.finRange 512).any fun i => valid (c t i) then
    if n = 0 then [.full] else []
  else
    [.back]

/-- **The requests of a copy** of what is under an entry: at height 0 a page, at height `n + 1` a table
of level `n`. -/
def calls (c : Word → Fin 512 → Word) : ℕ → Word → List Call
  | 0, p => [.page p]
  | n + 1, t => .table ::
    ((List.finRange 512).flatMap (fun i => (layout.next (c t) i).elim [] (calls c n)) ++ closing c n t)

variable {m m' m₁ : Mem} {l l' l₁ : List Word} {xs ys : List Call} {s s' : Purse} {n : ℕ}
  {c c' c'' : Word → Fin 512 → Word} {t u p src : Word} {i : Fin 512} {E : Panic → Prop}

theorem after_append_some (h : after xs s = some s') : after (xs ++ ys) s = after ys s' := by
  induction xs generalizing s with
  | nil =>
    obtain rfl := Option.some.inj h
    rfl
  | cons x xs ih =>
    obtain ⟨s₁, hx, hxs⟩ := Option.bind_eq_some_iff.mp h
    rw [List.cons_append, after, hx]
    exact ih hxs

theorem after_append_none (h : after xs s = none) : after (xs ++ ys) s = none := by
  induction xs generalizing s with
  | nil => cases h
  | cons x xs ih =>
    rw [List.cons_append, after]
    rw [after] at h
    cases hx : x.serve s with
    | none => rfl
    | some s₁ =>
      rw [hx] at h
      exact ih h

theorem served_append_some (h : after xs s = some s') :
    served (xs ++ ys) s = xs ++ served ys s' := by
  induction xs generalizing s with
  | nil =>
    obtain rfl := Option.some.inj h
    rfl
  | cons x xs ih =>
    obtain ⟨s₁, hx, hxs⟩ := Option.bind_eq_some_iff.mp h
    rw [List.cons_append, served, hx]
    exact congrArg (x :: ·) (ih hxs)

theorem served_append_none (h : after xs s = none) : served (xs ++ ys) s = served xs s := by
  induction xs generalizing s with
  | nil => cases h
  | cons x xs ih =>
    rw [List.cons_append, served, served]
    rw [after] at h
    cases hx : x.serve s with
    | none => rfl
    | some s₁ =>
      rw [hx] at h
      exact congrArg (x :: ·) (ih h)

theorem served_of_some (h : after xs s = some s') : served xs s = xs := by
  have happ : served (xs ++ []) s = xs ++ served [] s' := served_append_some h
  rwa [List.append_nil, served, List.append_nil] at happ

theorem served_subset {x : Call} (h : x ∈ served xs s) : x ∈ xs := by
  induction xs generalizing s with
  | nil => exact h
  | cons y ys ih =>
    rw [served] at h
    cases hy : y.serve s with
    | none =>
      rw [hy] at h
      cases h
    | some s₁ =>
      rw [hy] at h
      rcases List.mem_cons.mp h with rfl | h
      · exact List.mem_cons_self
      · exact List.mem_cons_of_mem _ (ih h)

/-- The requests for what is under one entry. -/
def callsUnder (c : Word → Fin 512 → Word) (n : ℕ) (t : Word) (i : Fin 512) : List Call :=
  (layout.next (c t) i).elim [] (calls c n)

theorem calls_succ (c : Word → Fin 512 → Word) (n : ℕ) (t : Word) : calls c (n + 1) t =
    .table :: ((List.finRange 512).flatMap (callsUnder c n t) ++ closing c n t) := rfl

/-! ## A tree and its copy -/

/-- One entry and its copy: another one with the same attributes, or none if there is nothing to
copy. -/
def EntryCopied (R : Word → Word → Prop) (barren : Word → Prop) (pte pte' : Word) : Prop :=
  if valid pte then
    (∃ w, IsFrame w ∧ pte' = makePte w (pteGetAttribute pte) ∧ R (pteGetPa pte) w) ∨
      pte' = 0 ∧ barren (pteGetPa pte)
  else pte' = 0

/-- A table without a valid entry. -/
def Barren (c : Word → Fin 512 → Word) (n : ℕ) (t : Word) : Prop :=
  n ≠ 0 ∧ ∀ i, valid (c t i) = false

/-- **A tree and its copy**, of height `n`: at height 0 a page with the same words. -/
def Clone (c c' : Word → Fin 512 → Word) : ℕ → Word → Word → Prop
  | 0, p, q => c' q = c p
  | n + 1, t, u => ∀ i, EntryCopied (Clone c c' n) (Barren c n) (c t i) (c' u i)

/-- The attributes of a valid entry say that it is valid. -/
theorem valid_copy {pte : Word} (h : valid pte = true) (w : Word) :
    valid (makePte w (pteGetAttribute pte)) = true := by
  rw [valid_eq] at h ⊢
  rw [getLsbD_makePte, pteGetAttribute, BitVec.getLsbD_and, getLsbD_pteAttributeMask, h]
  rfl

theorem EntryCopied.mono {R R' : Word → Word → Prop} {barren : Word → Prop} {pte pte' : Word}
    (h : EntryCopied R barren pte pte')
    (hR : ∀ w, valid pte' = true → pteGetPa pte' = w → R (pteGetPa pte) w → R' (pteGetPa pte) w) :
    EntryCopied R' barren pte pte' := by
  unfold EntryCopied at *
  split
  · next hv =>
    rw [if_pos hv] at h
    refine h.imp_left ?_
    rintro ⟨w, hw, rfl, hcopy⟩
    exact ⟨w, hw, rfl, hR w (valid_copy hv w) (pteGetPa_makePte hw _) hcopy⟩
  · next hv =>
    rw [if_neg hv] at h
    exact h

/-- **A copy depends on its own pages alone.** -/
theorem Clone.congr (h : Clone c c' n t u)
    (hkept : ∀ p, 0 < Radix.own layout c' n u p → c'' p = c' p) : Clone c c'' n t u := by
  induction n generalizing t u with
  | zero =>
    have hcell : c' u = c t := h
    exact (hkept u Radix.own_root_pos).trans hcell
  | succ n ih =>
    intro i
    rw [hkept u Radix.own_root_pos]
    refine (h i).mono fun w hv hw hcopy => ih hcopy fun p hp => hkept p ?_
    have hnext : layout.next (c' u) i = some w := by
      rw [← hw]
      exact if_pos hv
    have hle := Radix.own_child_le (n := n) (p := p) hnext
    omega

/-- A table without a valid entry maps nothing. -/
theorem entry_barren {v : ℕ} (h : ∀ i, valid (c t i) = false) : entry c n t v = none := by
  have hnext : ∀ i, layout.next (c t) i = none := fun i => if_neg (by rw [h i]; decide)
  unfold entry
  cases hu : Radix.bottom layout c n t v with
  | none => rfl
  | some u =>
    obtain rfl := Radix.bottom_empty hnext hu
    rw [Option.bind_some]
    exact if_neg (by rw [h]; decide)

theorem entry_child {v : ℕ} {pte : Word} (hpte : c t (index v (n + 1)) = pte)
    (hv : valid pte = true) : entry c (n + 1) t v = entry c n (pteGetPa pte) v :=
  entry_succ rfl (by rw [← hpte]; exact if_pos (by rw [hpte]; exact hv))

/-- **A copy has the leaves of the tree**, with the same attributes and on pages with the same
words. -/
theorem Clone.entry {v : ℕ} (h : Clone c c' (n + 1) t u) :
    (entry c n t v = none → entry c' n u v = none) ∧
      ∀ pte, entry c n t v = some pte → ∃ w, IsFrame w ∧
        entry c' n u v = some (makePte w (pteGetAttribute pte)) ∧ c' w = c (pteGetPa pte) := by
  induction n generalizing t u with
  | zero =>
    have hentry := h (index v 0)
    have hleaf : ∀ x y, entry x 0 y v = leaf (x y) (index v 0) := fun _ _ => rfl
    simp only [hleaf, leaf]
    unfold EntryCopied at hentry
    split at hentry
    · next hv =>
      rw [if_pos hv]
      obtain ⟨w, hw, heq, hcopy⟩ | ⟨-, hbarren⟩ := hentry
      · rw [heq, if_pos (valid_copy hv w)]
        refine ⟨fun hnone => absurd hnone (Option.some_ne_none _), fun pte hpte => ?_⟩
        obtain rfl := Option.some.inj hpte
        exact ⟨w, hw, rfl, hcopy⟩
      · exact absurd rfl hbarren.1
    · next hv =>
      rw [if_neg hv, hentry, if_neg (by simp)]
      exact ⟨fun _ => rfl, fun pte hpte => by cases hpte⟩
  | succ n ih =>
    have hentry := h (index v (n + 1))
    unfold EntryCopied at hentry
    split at hentry
    · next hv =>
      rw [entry_child rfl hv]
      obtain ⟨w, hw, heq, hcopy⟩ | ⟨heq, hbarren⟩ := hentry
      · rw [entry_child heq (valid_copy hv w), pteGetPa_makePte hw]
        exact ih hcopy
      · have hnone : layout.next (c' u) (index v (n + 1)) = none :=
          if_neg (by rw [heq]; decide)
        rw [entry_barren hbarren.2, entry_succ_none rfl hnone]
        exact ⟨fun _ => rfl, fun pte hpte => by cases hpte⟩
    · next hv =>
      have hnone : layout.next (c t) (index v (n + 1)) = none := if_neg hv
      have hnone' : layout.next (c' u) (index v (n + 1)) = none := if_neg (by rw [hentry]; decide)
      rw [entry_succ_none rfl hnone, entry_succ_none rfl hnone']
      exact ⟨fun _ => rfl, fun pte hpte => by cases hpte⟩

end Vm
