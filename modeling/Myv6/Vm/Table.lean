import Mathlib.Algebra.BigOperators.Fin
import Myv6.Vm.Map

/-!
# Vm/Table — whole tables: `free_page_table`

    order    … tables below t₁, t₁, … tables below t₂, t₂, …, root

The table pages go to the list, the pages they map do not.  `freeOrder` reads off the tree, before
anything is freed, which pages `kfree` is given and in which order; no page is met twice, so the
entries of a table are all read before it is freed.
-/

namespace Vm

open Function (update)
open Hoare Own

/-- The loop of `free_page_table_aux` over the entries of a table. -/
def freeChildren (free : Word → Kernel Unit) (table : Word) : List (Fin 512) → Kernel Unit
  | [] => pure ()
  | i :: is => do
    let pte ← inspect (·.cell table i)
    if valid pte then
      free (pteGetPa pte)
    freeChildren free table is

/-- `free_page_table_aux` from level 1 on; the tables at level 0 are given to `kfree` as they are. -/
def freePageTableAux : ℕ → Word → Kernel Unit
  | 0, table => kfree table
  | level + 1, table => do
    freeChildren (freePageTableAux level) table (List.finRange 512)
    kfree table

@[irreducible] def freePageTable (pgtable : Word) : Kernel Unit := freePageTableAux maxLevel pgtable

/-- `kfree` of several pages, in order. -/
def freeAll : List Word → Kernel Unit
  | [] => pure ()
  | p :: ps => do
    kfree p
    freeAll ps

/-- **The tables of a tree**, each after the tables below it. -/
def freeOrder (c : Word → Fin 512 → Word) : ℕ → Word → List Word
  | 0, t => [t]
  | n + 1, t =>
    (List.finRange 512).flatMap (fun i => (layout.next (c t) i).elim [] (freeOrder c n)) ++ [t]

variable {m m' : Mem} {l l' ps qs : List Word} {t r : Word} {n : ℕ} {i : Fin 512}
  {c c' : Word → Fin 512 → Word} {E : Panic → Prop}

/-! ## Freeing a list of pages -/

/-- **Freeing pages** that are all different, and not free. -/
theorem freeAll_spec (ps : List Word) : ∀ {m : Mem} {l : List Word}, FreeList m l →
    (∀ p, l.count p + ps.count p ≤ 1) → (∀ p ∈ ps, m.image.IsPage p) →
    ∃ m', freeAll ps m = .ok ((), m') ∧ m'.deny = m.deny ∧
      Moves m m' l (ps.reverse ++ l) (fun p => ps.count p) 0 := by
  induction ps with
  | nil =>
    intro m l hfree _ _
    exact ⟨m, rfl, rfl, .refl hfree⟩
  | cons p ps ih =>
    intro m l hfree honce hpage
    have hp := honce p
    rw [List.count_cons_self] at hp
    obtain ⟨_, m₁, hrun, hmoves, hdeny⟩ := (wp_mono (kfree_spec hfree (p := p) (by omega))
      (fun _ _ h => h.2) fun e he => he.2 (hpage p List.mem_cons_self)).ends
    have himage := hmoves.image
    have honce₁ : ∀ q, (p :: l).count q + ps.count q ≤ 1 := by
      intro q
      have hq := honce q
      rw [count_cons_one] at hq ⊢
      omega
    obtain ⟨m₂, hrun₂, hdeny₂, hmoves₂⟩ := ih hmoves.free honce₁ fun q hq => by
      rw [himage]
      exact hpage q (List.mem_cons_of_mem p hq)
    refine ⟨m₂, (bind_ok hrun).trans hrun₂, hdeny₂.trans hdeny, ?_⟩
    rw [List.reverse_cons, List.append_assoc]
    refine (hmoves.seq (fun q => ps.count q) hmoves₂ 0 fun q => ?_).congr (fun q => ?_) fun _ => rfl
    · exact Nat.add_comm _ _
    · exact count_cons_one p q ps

theorem freeAll_append (hrun : freeAll ps m = .ok ((), m')) :
    freeAll (ps ++ qs) m = freeAll qs m' := by
  induction ps generalizing m with
  | nil =>
    obtain rfl : m = m' := congrArg Prod.snd (Except.ok.inj hrun)
    rfl
  | cons p ps ih =>
    cases hp : kfree p m with
    | ok x =>
      have hps : freeAll ps x.2 = .ok ((), m') := (bind_ok hp).symm.trans hrun
      exact (bind_ok hp).trans (ih hps)
    | error e =>
      have hps : freeAll (p :: ps) m = .error e := bind_error hp
      rw [hps] at hrun
      cases hrun

theorem freeAll_singleton (p : Word) : freeAll [p] m = kfree p m := by
  cases hp : kfree p m with
  | ok x => exact bind_ok hp
  | error e => exact bind_error hp

/-! ## The order -/

/-- The tables under one entry. -/
def under (c : Word → Fin 512 → Word) (n : ℕ) (t p : Word) (i : Fin 512) : ℕ :=
  (layout.next (c t) i).elim 0 fun u => Radix.own layout c n u p

theorem own_eq_sum (c : Word → Fin 512 → Word) (n : ℕ) (t p : Word) :
    Radix.own layout c (n + 1) t p = one t p + ((List.finRange 512).map (under c n t p)).sum := by
  have hunder : under c n t p = fun i =>
      (layout.next (c t) i).elim 0 fun u => Radix.own layout c n u p := rfl
  rw [Radix.own_succ, Fin.sum_univ_def, hunder]

/-- The order of the tables under one entry. -/
def orderUnder (c : Word → Fin 512 → Word) (n : ℕ) (t : Word) (i : Fin 512) : List Word :=
  (layout.next (c t) i).elim [] (freeOrder c n)

theorem freeOrder_succ (c : Word → Fin 512 → Word) (n : ℕ) (t : Word) :
    freeOrder c (n + 1) t = (List.finRange 512).flatMap (orderUnder c n t) ++ [t] := rfl

theorem under_congr {p : Word} (hroot : c' t = c t)
    (h : ∀ q, 0 < under c n t q i → c' q = c q) : under c' n t p i = under c n t p i := by
  unfold under at *
  rw [hroot]
  -- `Option.elim` is rewritten, not reduced: a table has 512 entries
  cases hw : layout.next (c t) i with
  | none => rw [Option.elim_none, Option.elim_none]
  | some w =>
    simp only [hw, Option.elim_some] at h ⊢
    exact (Radix.Agree.of_own h).own_eq

/-- **The order has every table as often as the tree.** -/
theorem count_freeOrder (c : Word → Fin 512 → Word) (n : ℕ) (t p : Word) :
    (freeOrder c n t).count p = Radix.own layout c n t p := by
  induction n generalizing t with
  | zero => exact count_cons_one t p []
  | succ n ih =>
    have hunder : ∀ i, (orderUnder c n t i).count p = under c n t p i := by
      intro i
      unfold orderUnder under
      cases layout.next (c t) i with
      | none => rw [Option.elim_none, Option.elim_none, List.count_nil]
      | some u => rw [Option.elim_some, Option.elim_some, ih]
    rw [freeOrder_succ, own_eq_sum, List.count_append, List.count_flatMap, Nat.add_comm]
    refine congrArg₂ _ ?_ (congrArg List.sum (List.map_congr_left fun i _ => hunder i))
    exact count_cons_one t p []

/-- The order depends on the tables alone. -/
theorem freeOrder_congr (h : ∀ p, 0 < Radix.own layout c n t p → c' p = c p) :
    freeOrder c' n t = freeOrder c n t := by
  induction n generalizing t with
  | zero => rfl
  | succ n ih =>
    have hroot : c' t = c t := h t Radix.own_root_pos
    rw [freeOrder_succ, freeOrder_succ]
    refine congrArg (· ++ [t]) (List.flatMap_congr fun i _ => ?_)
    unfold orderUnder
    rw [hroot]
    cases hu : layout.next (c t) i with
    | none => rw [Option.elim_none, Option.elim_none]
    | some u =>
      rw [Option.elim_some, Option.elim_some]
      refine ih fun p hp => h p ?_
      have hle := Radix.own_child_le (n := n) (p := p) hu
      omega

theorem orderUnder_congr (hroot : c' t = c t) (h : ∀ q, 0 < under c n t q i → c' q = c q) :
    orderUnder c' n t i = orderUnder c n t i := by
  unfold under orderUnder at *
  rw [hroot]
  cases hw : layout.next (c t) i with
  | none => rw [Option.elim_none, Option.elim_none]
  | some w =>
    simp only [hw, Option.elim_some] at h ⊢
    exact freeOrder_congr h

/-! ## `free_page_table` -/

/-- The state in which the entries `is` of a table at level `n + 1` are still to be freed, where `Q`
holds of the tables that they point to. -/
structure Freeable (Q : (Word → Fin 512 → Word) → Word → Prop) (m : Mem) (l : List Word) (n : ℕ)
    (t : Word) (is : List (Fin 512)) : Prop where
  free : FreeList m l
  once : ∀ p, l.count p + (one t p + (is.map (under m.cell n t p)).sum) ≤ 1
  page : ∀ p, 0 < (is.map (under m.cell n t p)).sum → m.image.IsPage p
  good : ∀ i ∈ is, ∀ u, layout.next (m.cell t) i = some u → Q m.cell u

/-- What frees a tree of level `n` on which `Q` holds, in its order. -/
structure Frees (free : Word → Kernel Unit) (Q : (Word → Fin 512 → Word) → Word → Prop) (n : ℕ) :
    Prop where
  run : ∀ {m : Mem} {l : List Word} {u : Word}, FreeList m l →
    (∀ p, l.count p + Radix.own layout m.cell n u p ≤ 1) →
    (∀ p, 0 < Radix.own layout m.cell n u p → m.image.IsPage p) → Q m.cell u →
    free u m = freeAll (freeOrder m.cell n u) m
  congr : ∀ {c c' : Word → Fin 512 → Word} {u : Word},
    (∀ q, 0 < Radix.own layout c n u q → c' q = c q) → Q c u → Q c' u

variable {free : Word → Kernel Unit} {Q : (Word → Fin 512 → Word) → Word → Prop}

/-- **The loop of `free_page_table_aux`** frees what is under the entries that are left. -/
theorem freeChildren_eq (ih : Frees free Q n)
    (is : List (Fin 512)) : ∀ {m : Mem} {l : List Word}, Freeable Q m l n t is →
      freeChildren free t is m = freeAll (is.flatMap (orderUnder m.cell n t)) m := by
  induction is with
  | nil => exact fun _ => rfl
  | cons i is ihis =>
    intro m l h
    have honce := h.once
    have hpage := h.page
    simp only [List.map_cons, List.sum_cons] at honce hpage
    rw [List.flatMap_cons]
    by_cases hv : valid (m.cell t i) = true
    · have hnext : layout.next (m.cell t) i = some (pteGetPa (m.cell t i)) := if_pos hv
      have hunder : ∀ p, under m.cell n t p i =
          Radix.own layout m.cell n (pteGetPa (m.cell t i)) p := by
        intro p
        rw [under, hnext, Option.elim_some]
      have horder : orderUnder m.cell n t i = freeOrder m.cell n (pteGetPa (m.cell t i)) := by
        rw [orderUnder, hnext, Option.elim_some]
      have hstep : freeChildren free t (i :: is) m =
          (free (pteGetPa (m.cell t i)) >>= fun _ => freeChildren free t is) m := by
        rw [freeChildren]
        exact congrFun (if_pos hv) m
      have hgood := h.good i List.mem_cons_self _ hnext
      rw [hstep, horder]
      simp only [hunder] at honce hpage
      generalize pteGetPa (m.cell t i) = u at *
      have honce_u : ∀ p, l.count p + Radix.own layout m.cell n u p ≤ 1 := by
        intro p
        have hp := honce p
        omega
      have hpage_u : ∀ p, 0 < Radix.own layout m.cell n u p → m.image.IsPage p :=
        fun p hp => hpage p (Nat.add_pos_left hp _)
      have hcount := count_freeOrder m.cell n u
      obtain ⟨m₁, hrun, -, hmoves⟩ := freeAll_spec (freeOrder m.cell n u) h.free
        (fun p => by rw [hcount]; exact honce_u p)
        fun p hp => hpage_u p (by rw [← hcount]; exact List.count_pos_iff.mpr hp)
      -- the table and what is under the later entries are as they were
      have hkept : ∀ p, 0 < one t p + (is.map (under m.cell n t p)).sum → m₁.cell p = m.cell p := by
        intro p hp
        have hp1 := honce p
        refine hmoves.kept (R := fun p => one t p + (is.map (under m.cell n t p)).sum) ?_ hp
        rw [hcount]
        omega
      have hroot : m₁.cell t = m.cell t := hkept t (by simp)
      have hrest : ∀ j ∈ is, ∀ q, 0 < under m.cell n t q j → m₁.cell q = m.cell q := by
        intro j hj q hq
        refine hkept q (Nat.add_pos_right _ (Nat.lt_of_lt_of_le hq ?_))
        exact List.single_le_sum (fun _ _ => Nat.zero_le _) _ (List.mem_map_of_mem hj)
      have hsame : ∀ p, is.map (under m₁.cell n t p) = is.map (under m.cell n t p) := fun p =>
        List.map_congr_left fun j hj => under_congr hroot fun q hq => hrest j hj q hq
      have horders : is.flatMap (orderUnder m₁.cell n t) = is.flatMap (orderUnder m.cell n t) :=
        List.flatMap_congr fun j hj => orderUnder_congr hroot fun q hq => hrest j hj q hq
      rw [bind_ok ((ih.run h.free honce_u hpage_u hgood).trans hrun), freeAll_append hrun, ← horders]
      refine ihis ⟨hmoves.free, fun p => ?_, fun p hp => ?_, fun j hj w hw => ?_⟩
      · have hp := honce p
        have heq := hmoves.same p
        rw [Pi.zero_apply, hcount] at heq
        rw [hsame]
        omega
      · rw [hmoves.image]
        rw [hsame] at hp
        exact hpage p (Nat.add_pos_right _ hp)
      · rw [hroot] at hw
        refine ih.congr (fun q hq => hrest j hj q ?_) (h.good j (List.mem_cons_of_mem i hj) w hw)
        rw [under, hw, Option.elim_some]
        exact hq
    · have hnone : layout.next (m.cell t) i = none := if_neg hv
      have hunder : ∀ p, under m.cell n t p i = 0 := by
        intro p
        rw [under, hnone, Option.elim_none]
      have hstep : freeChildren free t (i :: is) m = freeChildren free t is m := by
        rw [freeChildren]
        exact congrFun (if_neg hv) m
      simp only [hunder, Nat.zero_add] at honce hpage
      rw [hstep, orderUnder, hnone, Option.elim_none, List.nil_append]
      exact ihis ⟨h.free, honce, hpage, fun j hj => h.good j (List.mem_cons_of_mem i hj)⟩

/-- **The loop, and then the table itself.** -/
theorem freeTable_eq (ih : Frees free Q n) (hfree : FreeList m l)
    (honce : ∀ p, l.count p + Radix.own layout m.cell (n + 1) t p ≤ 1)
    (hpage : ∀ p, 0 < Radix.own layout m.cell (n + 1) t p → m.image.IsPage p)
    (hgood : ∀ i u, layout.next (m.cell t) i = some u → Q m.cell u) :
    (freeChildren free t (List.finRange 512) >>= fun _ => kfree t) m =
      freeAll (freeOrder m.cell (n + 1) t) m := by
  have hown := own_eq_sum m.cell n t
  have hcount := count_freeOrder m.cell (n + 1) t
  rw [freeOrder_succ] at hcount ⊢
  generalize List.finRange 512 = is at *
  simp only [hown] at honce hpage hcount
  have hloop := freeChildren_eq ih is
    ⟨hfree, honce, fun p hp => hpage p (Nat.add_pos_right _ hp), fun i _ => hgood i⟩
  have hsum : ∀ p, (is.flatMap (orderUnder m.cell n t)).count p ≤
      one t p + (is.map (under m.cell n t p)).sum := by
    intro p
    rw [← hcount, List.count_append]
    exact Nat.le_add_right _ _
  obtain ⟨m₁, hrun, -⟩ := freeAll_spec (is.flatMap (orderUnder m.cell n t)) hfree
    (fun p => (Nat.add_le_add_left (hsum p) _).trans (honce p))
    fun p hp => hpage p ((List.count_pos_iff.mpr hp).trans_le (hsum p))
  rw [freeAll_append hrun, bind_ok (hloop.trans hrun), freeAll_singleton]

/-- **`free_page_table_aux`** calls `kfree` on the tables in order. -/
theorem freePageTableAux_frees (n : ℕ) : Frees (freePageTableAux n) (fun _ _ => True) n := by
  refine ⟨?_, fun _ h => h⟩
  induction n with
  | zero =>
    intro m l t _ _ _ _
    exact (freeAll_singleton t).symm
  | succ n ih =>
    intro m l t hfree honce hpage _
    exact freeTable_eq (Q := fun _ _ => True) ⟨ih, fun _ h => h⟩ hfree honce hpage fun _ _ _ => trivial

/-- **`free_page_table_aux`** gives back every table page. -/
theorem freePageTableAux_spec (n : ℕ) (hfree : FreeList m l)
    (honce : ∀ p, l.count p + Radix.own layout m.cell n t p ≤ 1)
    (hpage : ∀ p, 0 < Radix.own layout m.cell n t p → m.image.IsPage p) :
    wp (freePageTableAux n t)
      (fun _ m' => m'.deny = m.deny ∧ ∃ l', Moves m m' l l' (Radix.own layout m.cell n t) 0) E m := by
  have hcount := count_freeOrder m.cell n t
  obtain ⟨m', hrun, hdeny, hmoves⟩ := freeAll_spec (freeOrder m.cell n t) hfree
    (fun p => by rw [hcount]; exact honce p)
    fun p hp => hpage p (by rw [← hcount]; exact List.count_pos_iff.mpr hp)
  unfold wp
  rw [(freePageTableAux_frees n).run hfree honce hpage trivial, hrun]
  exact ⟨hdeny, _, hmoves.congr (fun p => (hcount p).symm) fun _ => rfl⟩

/-- **`free_page_table`** gives back the table pages, and nothing that they map. -/
theorem freePageTable_spec (hfree : FreeList m l) (honce : ∀ p, l.count p + tables m r p ≤ 1)
    (hpage : ∀ p, 0 < tables m r p → m.image.IsPage p) :
    wp (freePageTable r) (fun _ m' => m'.deny = m.deny ∧ ∃ l', Moves m m' l l' (tables m r) 0) E m := by
  unfold freePageTable
  unfold tables at *
  generalize maxLevel = n at *
  exact freePageTableAux_spec n hfree honce hpage

end Vm
