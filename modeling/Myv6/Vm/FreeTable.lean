import Myv6.Vm.Copy
import Myv6.Vm.Table

/-!
# Vm/FreeTable — `free_page_table` frees the tables and only the tables

    root ──▸ level 1 ──▸ level 0 ──▸ leaf
    └────── freed, each once ────┘   └ not freed

A table is a tree when no table page is met twice and none of them is also the page of a leaf: that is
how `walk` and `map_page` build it, as long as what is mapped is no page of the table and not free.  On
a tree `free_page_table` is a list of calls of `kfree`, which can be read off the table before the
first of them.
-/

namespace Vm

open Function (update)
open Hoare Own

variable {m m' m₀ m₁ : Mem} {l l' l₀ : List Word} {r t u p : Word} {v n : ℕ} {i : Fin 512}
  {S : Finset ℕ} {E : Panic → Prop}

/-! ## The table pages by their level -/

/-- A valid entry of the table `t` points to `p`. -/
def PointsTo (m : Mem) (t p : Word) : Prop :=
  ∃ i, valid (m.cell t i) = true ∧ pteGetPa (m.cell t i) = p

/-- **The root, a table at level 1 or a table at level 0**, reached by valid entries. -/
def IsTablePage (m : Mem) (r p : Word) : Prop :=
  p = r ∨ PointsTo m r p ∨ ∃ u, PointsTo m r u ∧ PointsTo m u p

theorem pointsTo_iff : PointsTo m t p ↔ ∃ i, layout.next (m.cell t) i = some p := by
  refine exists_congr fun i => ?_
  unfold layout
  simp only [Option.ite_none_right_eq_some, Option.some.injEq]

theorem mem_freeOrder_zero : p ∈ freeOrder m.cell 0 t ↔ p = t := List.mem_singleton

theorem mem_freeOrder_succ :
    p ∈ freeOrder m.cell (n + 1) t ↔ p = t ∨ ∃ u, PointsTo m t u ∧ p ∈ freeOrder m.cell n u := by
  have hunder : ∀ i, p ∈ orderUnder m.cell n t i ↔
      ∃ u, layout.next (m.cell t) i = some u ∧ p ∈ freeOrder m.cell n u := by
    intro i
    unfold orderUnder
    cases layout.next (m.cell t) i with
    | none => simp
    | some u => simp
  rw [freeOrder_succ, List.mem_append, List.mem_flatMap, List.mem_singleton, or_comm]
  simp only [hunder, pointsTo_iff, List.mem_finRange, true_and]
  refine or_congr_right ⟨?_, ?_⟩
  · rintro ⟨i, u, hu, hp⟩
    exact ⟨u, ⟨i, hu⟩, hp⟩
  · rintro ⟨u, ⟨i, hu⟩, hp⟩
    exact ⟨i, u, hu, hp⟩

/-- **The order lists the table pages.** -/
theorem mem_freeOrder_iff : p ∈ freeOrder m.cell maxLevel r ↔ IsTablePage m r p := by
  have hlevel : maxLevel = 0 + 1 + 1 := rfl
  rw [hlevel, mem_freeOrder_succ]
  simp only [mem_freeOrder_succ, mem_freeOrder_zero]
  constructor
  · rintro (rfl | ⟨u, hu, rfl | ⟨w, hw, rfl⟩⟩)
    · exact .inl rfl
    · exact .inr (.inl hu)
    · exact .inr (.inr ⟨u, hu, hw⟩)
  · rintro (rfl | hp | ⟨u, hu, hp⟩)
    · exact .inl rfl
    · exact .inr ⟨p, hp, .inl rfl⟩
    · exact .inr ⟨u, hu, .inr ⟨p, hp, rfl⟩⟩

/-! ## Trees -/

/-- **A page table is a tree**: no table page is met twice or free, and none is the page of a leaf. -/
structure TreeShaped (m : Mem) (l : List Word) (r : Word) : Prop where
  free : FreeList m l
  once : ∀ p, l.count p + tables m r p ≤ 1
  page : ∀ p, 0 < tables m r p → m.image.IsPage p
  apart : ∀ v pte, pages m r v = some pte → tables m r (pteGetPa pte) = 0

/-! ## Tables that `walk` and `map_page` build -/

/-- A page that is neither free nor a table page. -/
def Unused (m : Mem) (r p : Word) : Prop := ∀ l, FreeList m l → l.count p + tables m r p = 0

/-- No leaf outside `S` is a page that the table holds at `S`. -/
def Lone (m : Mem) (r : Word) (S : Finset ℕ) : Prop :=
  ∀ v pte, v ∉ S → pages m r v = some pte → held (pages m r) S (pteGetPa pte) = 0

/-- **Leaves are apart from the tables**: a page is not free and no table page when it is mapped, and
mapped nowhere when it is given back. -/
def Op.Apart (m : Mem) (r : Word) : Op → Prop
  | .mapPage _ pa _ => Unused m r pa
  | .mapNPages _ n pa _ => ∀ j < n.toNat, Unused m r (pa + BitVec.ofNat 64 j * pgsize)
  | .unmapPageFree va => Lone m r {vpn va}
  | .unmapNPagesFree va n | .unmapNPagesFreeHole va n => Lone m r (addressed va n.toNat).toFinset
  | .kfree p => ∀ v pte, pages m r v = some pte → pteGetPa pte ≠ p
  | _ => True

/-- What the callers promise. -/
def Use.Apart (m : Mem) (r : Word) : Use → Prop
  | .op o => o.Aligned ∧ o.Owned m r ∧ o.Apart m r
  | .fill p _ => Unused m r p

/-- **A tree that is being built**: its leaves are not free either. -/
structure Growing (r : Word) (m : Mem) : Prop where
  sound : Sound r m
  page : ∀ p, 0 < tables m r p → m.image.IsPage p
  leaf : ∀ v pte, pages m r v = some pte → Unused m r (pteGetPa pte)

namespace Growing

theorem treeShaped (h : Growing r m) : ∃ l, TreeShaped m l r := by
  obtain ⟨l, hfree, honce⟩ := h.sound
  refine ⟨l, hfree, honce, h.page, fun v pte hpte => ?_⟩
  have hzero := h.leaf v pte hpte l hfree
  omega

/-- **What a transfer leaves growing**: table pages come from the list, and the leaves afterwards are
not given away. -/
theorem of_moves {A B : Word → ℕ} (h : Growing r m) (hfree : FreeList m l)
    (honce : ∀ p, l.count p + (tables m r p + A p) ≤ 1)
    (hmoves : Moves m m' l l' (fun p => tables m r p + A p) (fun p => tables m' r p + B p))
    (htab : ∀ p, 0 < tables m' r p → 0 < tables m r p ∨ A p = 0)
    (hleaf : ∀ v pte, pages m' r v = some pte →
      Unused m r (pteGetPa pte) ∧ A (pteGetPa pte) = 0) : Growing r m' where
  sound := .of_moves honce hmoves
  page p hp := by
    have hsame := hmoves.same p
    rw [hmoves.image]
    rcases Nat.eq_zero_or_pos (tables m r p) with hzero | hpos
    · have hA := (htab p hp).resolve_left (by omega)
      exact hfree.page p (List.count_pos_iff.mp (by omega))
    · exact h.page p hpos
  leaf v pte hpte l₁ hl₁ := by
    obtain ⟨hout, hA⟩ := hleaf v pte hpte
    obtain rfl := hmoves.free.unique hl₁
    have hsame := hmoves.same (pteGetPa pte)
    have hl := hout l hfree
    omega

/-- What a transfer between the list and the tables leaves growing. -/
theorem of_grown (h : Growing r m) (hfree : FreeList m l)
    (honce : ∀ p, l.count p + tables m r p ≤ 1)
    (hmoves : Moves m m' l l' (tables m r) (tables m' r))
    (hleaf : ∀ v pte, pages m' r v = some pte → Unused m r (pteGetPa pte)) : Growing r m' := by
  refine h.of_moves (A := fun _ => 0) (B := fun _ => 0) hfree (fun p => ?_)
    (hmoves.congr (fun _ => Nat.add_zero _) fun _ => Nat.add_zero _) (fun _ _ => .inr rfl)
    fun v pte hpte => ⟨hleaf v pte hpte, rfl⟩
  rw [Nat.add_zero]
  exact honce p

/-- What leaves the table pages alone, and frees no leaf. -/
theorem of_kept (h : Growing r m) (hfree : FreeList m' l') (himage : m'.image = m.image)
    (hkept : ∀ p, 0 < tables m r p → m'.cell p = m.cell p)
    (honce : ∀ p, l'.count p + tables m r p ≤ 1)
    (hleaf : ∀ v pte, pages m r v = some pte → l'.count (pteGetPa pte) = 0) : Growing r m' := by
  obtain ⟨htab, -, hpages⟩ := table_congr hkept
  refine ⟨⟨l', hfree, fun p => by rw [htab]; exact honce p⟩, fun p hp => ?_,
    fun v pte hpte l₁ hl₁ => ?_⟩
  · rw [himage]
    rw [htab] at hp
    exact h.page p hp
  · rw [hpages] at hpte
    obtain ⟨l, hl, -⟩ := h.sound
    obtain rfl := hfree.unique hl₁
    have hold := h.leaf v pte hpte l hl
    rw [htab, hleaf v pte hpte]
    omega

/-- What unmapping leaves: the entries at `ws` are gone, and the pages at `S` are free. -/
theorem of_released (ws : List ℕ) (h : Growing r m) (hfree : FreeList m l)
    (honce : ∀ p, l.count p + (tables m r p + held (pages m r) S p) ≤ 1)
    (hrel : Released m m' l l' r S) (hpages : ∀ v ∉ ws, pages m' r v = pages m r v)
    (hgone : ∀ v ∈ ws, pages m' r v = none) (hS : ∀ v ∈ S, v ∈ ws) (hlone : Lone m r S) :
    Growing r m' := by
  refine h.of_moves hfree honce hrel.moves (fun p hp => .inl ?_) fun v pte hpte => ?_
  · rwa [hrel.tables_eq] at hp
  · have hv : v ∉ ws := by
      intro hv
      rw [hgone v hv] at hpte
      cases hpte
    rw [hpages v hv] at hpte
    exact ⟨h.leaf v pte hpte, hlone v pte (fun hin => hv (hS v hin)) hpte⟩

end Growing

theorem lone_empty : Lone m r ∅ := fun _ _ _ _ => rfl

theorem mapPage_growing {va pa attr : Word} (h : Growing r m) (hal : IsFrame pa)
    (hpa : Unused m r pa) :
    wp (mapPage r va pa attr) (fun _ => Growing r) (fun _ => True) m := by
  obtain ⟨l, hfree, honce⟩ := h.sound
  refine wp_mono (mapPage_spec hfree honce) ?_ fun _ _ => trivial
  rintro (_ | _) m' hpost
  · obtain ⟨-, -, l', hmoves, hpages, -, -⟩ := hpost
    refine h.of_grown hfree honce hmoves fun v pte hpte => ?_
    rw [hpages] at hpte
    by_cases hv : v = vpn va
    · subst hv
      rw [Function.update_self] at hpte
      obtain rfl := Option.some.inj hpte
      rwa [pteGetPa_makePte hal]
    · rw [Function.update_of_ne hv] at hpte
      exact h.leaf v pte hpte
  · obtain ⟨-, l', hmoves, hpages⟩ := hpost
    refine h.of_grown hfree honce hmoves fun v pte hpte => h.leaf v pte ?_
    rwa [hpages] at hpte

theorem mapNPages_growing {va pa attr : Word} {k : ℤ} (h : Growing r m)
    (hal : ∀ j < k.toNat, IsFrame (pa + BitVec.ofNat 64 j * pgsize))
    (hpa : ∀ j < k.toNat, Unused m r (pa + BitVec.ofNat 64 j * pgsize)) :
    wp (mapNPages r va k pa attr) (fun _ => Growing r) (fun _ => True) m := by
  obtain ⟨l, hfree, honce⟩ := h.sound
  refine wp_mono (mapNPages_spec hfree honce) ?_ fun _ _ => trivial
  rintro err m' ⟨⟨l', hmoves⟩, hpost⟩
  refine h.of_grown hfree honce hmoves fun v pte hpte => ?_
  cases err with
  | true =>
    rw [hpost] at hpte
    exact h.leaf v pte hpte
  | false =>
    obtain ⟨-, -, hpages⟩ := hpost
    rw [hpages, spread] at hpte
    split at hpte
    · obtain rfl := Option.some.inj hpte
      rw [pteGetPa_makePte (hal _ (by omega))]
      exact hpa _ (by omega)
    · exact h.leaf v pte hpte

theorem unmapNPagesFlex_growing {va : Word} {k : ℤ} {free strict : Bool} (h : Growing r m)
    (honce : ∀ l, FreeList m l → ∀ p, l.count p + (tables m r p + held (pages m r) S p) ≤ 1)
    (hS : ∀ w ∈ addressed va k.toNat, free = true ↔ w ∈ S)
    (hsub : ∀ v ∈ S, v ∈ addressed va k.toNat) (hlone : Lone m r S) :
    wp (unmapNPagesFlex r va k free strict) (fun _ => Growing r) (fun _ => True) m := by
  obtain ⟨l, hfree, -⟩ := h.sound
  refine wp_mono (unmapLoop_spec k.toNat hfree (honce l hfree) hS) ?_ fun _ _ => trivial
  rintro _ m' ⟨-, hpages, l', hrel⟩
  refine h.of_released (addressed va k.toNat) hfree (honce l hfree) hrel (fun v hv => ?_)
    (fun v hv => ?_) hsub hlone
  · rw [hpages]
    exact if_neg hv
  · rw [hpages]
    exact if_pos hv

theorem unmapPageFlex_growing {va : Word} {free strict : Bool} (h : Growing r m)
    (honce : ∀ l, FreeList m l → ∀ p, l.count p + (tables m r p + held (pages m r) S p) ≤ 1)
    (hS : free = true ↔ vpn va ∈ S) (hsub : ∀ v ∈ S, v = vpn va) (hlone : Lone m r S) :
    wp (unmapPageFlex r va free strict) (fun _ => Growing r) (fun _ => True) m := by
  obtain ⟨l, hfree, -⟩ := h.sound
  refine wp_mono (unmapPageFlex_spec hfree (honce l hfree) hS) ?_ fun _ _ => trivial
  rintro _ m' ⟨-, hpages, l', hrel⟩
  refine h.of_released [vpn va] hfree (honce l hfree) hrel (fun v hv => ?_) (fun v hv => ?_)
    (fun v hv => List.mem_singleton.mpr (hsub v hv)) hlone
  · rw [hpages, Function.update_of_ne (List.mem_singleton.not.mp hv)]
  · rw [hpages, List.mem_singleton.mp hv, Function.update_self]

/-- **Every operation keeps the tree growing.** -/
theorem exec_growing {op : Op} (h : Growing r m) (hal : op.Aligned) (hown : op.Owned m r)
    (hapart : op.Apart m r) : wp (exec r op) (fun _ => Growing r) (fun _ => True) m := by
  have hnothing : ∀ l, FreeList m l →
      ∀ p, l.count p + (tables m r p + held (pages m r) ∅ p) ≤ 1 := by
    obtain ⟨l, hfree, honce⟩ := h.sound
    intro l₁ hl₁ p
    obtain rfl := hfree.unique hl₁
    rw [held_empty, Nat.add_zero]
    exact honce p
  cases op with
  | mapPage va pa attr => exact mapPage_growing h hal hapart
  | mapNPages va k pa attr => exact mapNPages_growing h hal hapart
  | unmapPage va =>
    rw [exec, wp_map]
    exact unmapPageFlex_growing h hnothing (by simp) (by simp) lone_empty
  | unmapPageFree va =>
    rw [exec, wp_map]
    exact unmapPageFlex_growing h hown (by simp) (by simp) hapart
  | unmapNPages va k =>
    rw [exec, wp_map]
    exact unmapNPagesFlex_growing h hnothing (by simp) (by simp) lone_empty
  | unmapNPagesFree va k =>
    rw [exec, wp_map]
    exact unmapNPagesFlex_growing h hown (by simp) (by simp) hapart
  | unmapNPagesFreeHole va k =>
    rw [exec, wp_map]
    exact unmapNPagesFlex_growing h hown (by simp) (by simp) hapart
  | kalloc =>
    obtain ⟨l, hfree, honce⟩ := h.sound
    rw [exec, wp_map]
    refine wp_post (kalloc_spec hfree) ?_
    have hspare : ∀ v pte, pages m r v = some pte → l.count (pteGetPa pte) = 0 := by
      intro v pte hpte
      have hout := h.leaf v pte hpte l hfree
      omega
    rintro (_ | p) m' hpost
    · obtain ⟨-, d, rfl⟩ := hpost
      exact h.of_kept (hfree.congr rfl rfl fun _ _ => rfl) rfl (fun _ _ => rfl) honce hspare
    · obtain ⟨-, l', hmoves, -⟩ := hpost
      have hle : ∀ q, l'.count q ≤ l.count q := by
        intro q
        have hsame := hmoves.same q
        rw [Pi.zero_apply] at hsame
        omega
      refine h.of_kept hmoves.free hmoves.image
        (fun q => hmoves.kept (R := tables m r) (honce q)) (fun q => ?_) fun v pte hpte => ?_
      · exact (Nat.add_le_add_right (hle q) _).trans (honce q)
      · exact Nat.le_zero.mp ((hle _).trans (hspare v pte hpte).le)
  | kfree p =>
    obtain ⟨l, hfree, honce⟩ := h.sound
    have hout := hown l hfree
    rw [exec, wp_map]
    refine wp_mono (kfree_spec (p := p) hfree (by omega)) ?_ fun _ _ => trivial
    rintro _ m' ⟨-, hmoves, -⟩
    have hthree : ∀ q, l.count q + one p q + tables m r q ≤ 1 := by
      intro q
      by_cases hqp : q = p
      · subst hqp
        rw [one_self]
        omega
      · rw [one_of_ne hqp]
        exact honce q
    refine h.of_kept hmoves.free hmoves.image (fun q => hmoves.kept (hthree q)) (fun q => ?_)
      fun v pte hpte => ?_
    · simpa using hmoves.once (hthree q)
    · have hzero := h.leaf v pte hpte l hfree
      rw [List.count_cons_of_ne (hapart v pte hpte).symm]
      omega

theorem growing_getPagetable (hfree : FreeList m₀ l₀)
    (hget : getPagetable m₀ = .ok (some r, m₁)) : Growing r m₁ := by
  obtain ⟨hpage, hzero, l₁, hmoves, -⟩ := (getClearPage_spec (E := fun _ => True) hfree).ok hget
  refine ⟨sound_getPagetable hfree hget, fun p hp => ?_, fun v pte hpte => ?_⟩
  · have hown : tables m₁ r p = one r p := Radix.own_empty (next_zero hzero)
    rw [hown] at hp
    rw [eq_of_one_pos hp, hmoves.image]
    exact hpage
  · rw [pages, entry_zero hzero, ite_self] at hpte
    cases hpte

/-- A checked use meets the conditions of a tree as well. -/
theorem Use.apart_of_meets {u : Use} (h : u.meets m r = true) : u.Apart m r := by
  cases u with
  | fill p f => exact fun l hl => spare_of_callers h hl
  | op o =>
    cases o with
    | kalloc => exact ⟨trivial, trivial, trivial⟩
    | mapPage va pa attr =>
      obtain ⟨hlead, hcall⟩ := Bool.and_eq_true_iff.mp h
      have hframe : IsFrame pa := of_decide_eq_true (Bool.and_eq_true_iff.mp hlead).1
      exact ⟨hframe, trivial, fun l hl => spare_of_callers hcall hl⟩
    | _ => cases h

/-- **In every run the table is a tree.** -/
theorem treeShaped_of_reach (hfree : FreeList m₀ l₀) (hget : getPagetable m₀ = .ok (some r, m₁))
    (hreach : Run.Reach (useStep r) (fun m u => u.Apart m r) m₁ m) : ∃ l, TreeShaped m l r := by
  refine Growing.treeShaped
    (Run.Reach.invariant (P := Growing r) (growing_getPagetable hfree hget) ?_ hreach)
  rintro m (o | ⟨p, f⟩) m' h hok hstep
  · obtain ⟨err, hexec⟩ := step_eq_some_iff.mp hstep
    exact (exec_growing h hok.1 hok.2.1 hok.2.2).ok hexec
  · obtain rfl : m.fill p f = m' := Option.some.inj hstep
    obtain ⟨l, hl, honce⟩ := h.sound
    have hout := hok l hl
    have hoff : ∀ q, 0 < l.count q + tables m r q → (m.fill p f).cell q = m.cell q := by
      intro q hq
      refine Mem.fill_cell_ne ?_
      rintro rfl
      omega
    refine h.of_kept (hl.congr rfl rfl fun q hq => hoff q ?_) rfl (fun q hq => hoff q (by omega))
      honce fun v pte hpte => ?_
    · exact Nat.add_pos_left (List.count_pos_iff.mpr hq) _
    · have hzero := h.leaf v pte hpte l hl
      omega

/-! ## Freeing a tree -/

/-- **What freeing the tables leaves**, when `kfree` is called on the pages of `order`. -/
structure FreesTables (m m' : Mem) (l : List Word) (r : Word) (order : List Word) : Prop where
  /-- the calls, one after the other -/
  calls : freeAll order m = .ok ((), m')
  nodup : order.Nodup
  tables : ∀ p, p ∈ order ↔ IsTablePage m r p
  leaves : ∀ v pte, pages m r v = some pte → pteGetPa pte ∉ order
  free : FreeList m' (order.reverse ++ l)
  frame : ∀ p, p ∉ order → p ∉ l → m'.cell p = m.cell p

/-- **`free_page_table` frees the tables and only the tables**: on a tree it ends, and is the calls of
`kfree` on the table pages, each once, in the order that the table has before the first call. -/
theorem freePageTable_frees_tables (h : TreeShaped m l r) :
    ∃ m', freePageTable r m = .ok ((), m') ∧
      FreesTables m m' l r (freeOrder m.cell maxLevel r) := by
  have hcount : ∀ p, (freeOrder m.cell maxLevel r).count p = tables m r p :=
    count_freeOrder m.cell maxLevel r
  have hmem : ∀ p, p ∈ freeOrder m.cell maxLevel r ↔ 0 < tables m r p := by
    intro p
    rw [← hcount]
    exact List.count_pos_iff.symm
  obtain ⟨m', hrun, -, hmoves⟩ := freeAll_spec (freeOrder m.cell maxLevel r) h.free
    (fun p => by rw [hcount]; exact h.once p) fun p hp => h.page p ((hmem p).mp hp)
  refine ⟨m', ?_, hrun, ?_, fun p => mem_freeOrder_iff, fun v pte hpte hin => ?_, hmoves.free,
    fun p hp hl => ?_⟩
  · unfold freePageTable
    rw [(freePageTableAux_frees maxLevel).run h.free h.once h.page trivial, hrun]
  · refine List.nodup_iff_count.mpr fun p => ?_
    rw [hcount]
    exact (Nat.le_add_left _ _).trans (h.once p)
  · have hzero := h.apart v pte hpte
    have hpos := (hmem _).mp hin
    omega
  · exact hmoves.frame (List.count_eq_zero.mpr hl) (List.count_eq_zero.mpr hp)

/-- The theorem on a table that has one page mapped. -/
theorem freePageTable_frees_tables_mapOne : ∃ m m' l, pages m smallRoot 1 ≠ none ∧
    freePageTable smallRoot m = .ok ((), m') ∧
      FreesTables m m' l smallRoot (freeOrder m.cell maxLevel smallRoot) := by
  have hrun : (useRun smallRoot smallTable mapOne).map (fun m => (pages m smallRoot 1).isSome) =
      some true := by
    decide +kernel
  obtain ⟨m, hm, hsome⟩ := Option.map_eq_some_iff.mp hrun
  obtain ⟨l₀, hfree⟩ := smallMem_free
  obtain ⟨l, htree⟩ := treeShaped_of_reach hfree smallTable_get
    (Run.reach_of_guard (fun _ _ => Use.apart_of_meets) .refl hm)
  obtain ⟨m', hfreed⟩ := freePageTable_frees_tables htree
  exact ⟨m, m', l, Option.isSome_iff_ne_none.mp hsome, hfreed⟩

end Vm
