import Mathlib.Tactic.Common
import Myv6.Lib.Radix
import Myv6.Vm.Kalloc

/-!
# Vm/Walk — the three-level page table and `walk`

    root ──index v 2──▸ table ──index v 1──▸ table ──index v 0──▸ pte

A page table is a radix tree in physical memory.  `tables` counts its table pages, `pages` reads it
as a partial map from page numbers to entries.  A walk that allocates takes pages from the free list
into the tree and changes no entry, whether it ends at a slot or runs out of memory half-way.
-/

namespace Vm

open Function (update)
open Hoare Own

/-- The page tables of `vm.c` as radix trees. -/
def layout : Radix.Layout Word (Fin 512 → Word) (Fin 512) ℕ where
  next page i := if valid (page i) then some (pteGetPa (page i)) else none
  digit := index

/-- One turn of the loop of `walk` above level 0: the table below the entry `i` of `t`. -/
def descend (t : Word) (i : Fin 512) (alloc : Bool) : Kernel (Option Word) := do
  let pte ← inspect (·.cell t i)
  if valid pte then
    pure (some (pteGetPa pte))
  else if !alloc then
    pure none
  else
    match ← getClearPage with
    | none => pure none
    | some pg =>
      alter (·.write t i (makePte pg pteV))
      let pte ← inspect (·.cell t i)
      pure (some (pteGetPa pte))

/-- The loop of `walk` from a level down: the slot of the entry, as table page and index. -/
def walkFrom : ℕ → Word → Word → Bool → Kernel (Option (Word × Fin 512))
  | 0, t, va, _ => pure (some (t, tableIndex va 0))
  | level + 1, t, va, alloc => do
    match ← descend t (tableIndex va (level + 1)) alloc with
    | none => pure none
    | some u => walkFrom level u va alloc

def walk (pgtable va : Word) (alloc : Bool) : Kernel (Option (Word × Fin 512)) :=
  if va > maxVa then pure none else walkFrom maxLevel pgtable va alloc

/-! ## The table as a map -/

/-- An entry, if it is valid. -/
def leaf (page : Fin 512 → Word) (i : Fin 512) : Option Word :=
  if valid (page i) then some (page i) else none

/-- The valid entry of a page number under a table of level `n`. -/
def entry (c : Word → Fin 512 → Word) (n : ℕ) (t : Word) (v : ℕ) : Option Word :=
  (Radix.bottom layout c n t v).bind fun u => leaf (c u) (index v 0)

/-- **The map of a page table**, from page numbers to valid entries. -/
def pages (m : Mem) (pgtable : Word) (v : ℕ) : Option Word :=
  if v < maxVpn then entry m.cell maxLevel pgtable v else none

/-- **The table pages of a page table**, counted. -/
def tables (m : Mem) (pgtable : Word) : Word → ℕ :=
  Radix.own layout m.cell maxLevel pgtable

/-- How many table pages a walk to a page number has to allocate. -/
def need (m : Mem) (pgtable : Word) (v : ℕ) : ℕ := Radix.need layout m.cell maxLevel pgtable v

/-- How many a walk to one page number leaves to allocate for another. -/
def apart (v w : ℕ) : ℕ := Radix.apart layout maxLevel v w

variable {m m' m'' : Mem} {l l' : List Word} {n : ℕ} {t u va r : Word} {v w : ℕ} {i : Fin 512}
  {E : Panic → Prop} {c c' : Word → Fin 512 → Word}

/-- Where an entry is, no table is missing. -/
theorem need_of_pages (h : pages m r v ≠ none) : need m r v = 0 := by
  unfold pages at h
  split at h
  · obtain ⟨e, he⟩ := Option.ne_none_iff_exists'.mp h
    obtain ⟨u, hu, -⟩ := Option.bind_eq_some_iff.mp he
    exact Radix.need_of_bottom hu
  · exact absurd rfl h

theorem next_makePte {page : Fin 512 → Word} {p : Word} (h : IsFrame p)
    (hi : page i = makePte p pteV) : layout.next page i = some p := by
  simp [layout, hi, valid_makePte_pteV, pteGetPa_makePte h]

theorem next_zero {page : Fin 512 → Word} (h : page = fun _ => 0) (i : Fin 512) :
    layout.next page i = none := by
  rw [h]
  exact if_neg (by simp)

/-- Memories that agree on the whole tree have the same map under it. -/
theorem entry_congr (h : ∀ p, 0 < Radix.own layout c n t p → c' p = c p) :
    entry c' n t v = entry c n t v := by
  unfold entry
  rw [(Radix.Agree.of_own h).bottom_eq]
  cases hu : Radix.bottom layout c n t v with
  | none => rfl
  | some u =>
    rw [Option.bind_some, Option.bind_some, h u (Radix.own_pos_of_bottom hu)]

/-- A table of zeros maps nothing. -/
theorem entry_zero (h : c t = fun _ => 0) : entry c n t v = none := by
  unfold entry
  cases hu : Radix.bottom layout c n t v with
  | none => rfl
  | some u =>
    obtain rfl := Radix.bottom_empty (fun i => next_zero h i) hu
    rw [Option.bind_some, h]
    exact if_neg (by simp)

theorem entry_succ {i : Fin 512} (hi : index v (n + 1) = i) (hu : layout.next (c t) i = some u) :
    entry c (n + 1) t v = entry c n u v := by
  subst hi
  have hdig : layout.digit v (n + 1) = index v (n + 1) := rfl
  rw [entry, Radix.bottom_succ, hdig, hu]
  rfl

theorem entry_succ_none {i : Fin 512} (hi : index v (n + 1) = i)
    (hu : layout.next (c t) i = none) : entry c (n + 1) t v = none := by
  subst hi
  have hdig : layout.digit v (n + 1) = index v (n + 1) := rfl
  rw [entry, Radix.bottom_succ, hdig, hu]
  rfl

/-! ## Walking without allocation -/

/-- **`walk` with `NO_ALLOC` only reads.** -/
theorem walkFrom_noAlloc (n : ℕ) (t va : Word) (m : Mem) :
    walkFrom n t va false m =
      .ok ((Radix.bottom layout m.cell n t (vpn va)).map fun u => (u, index (vpn va) 0), m) := by
  induction n generalizing t with
  | zero =>
    rw [walkFrom, tableIndex_eq]
    rfl
  | succ n ih =>
    rw [walkFrom, tableIndex_eq]
    have hdig : layout.digit (vpn va) (n + 1) = index (vpn va) (n + 1) := rfl
    rw [Radix.bottom_succ, hdig]
    by_cases hv : valid (m.cell t (index (vpn va) (n + 1))) = true
    · have hnext : layout.next (m.cell t) (index (vpn va) (n + 1)) =
          some (pteGetPa (m.cell t (index (vpn va) (n + 1)))) := if_pos hv
      have hrun : descend t (index (vpn va) (n + 1)) false m =
          .ok (some (pteGetPa (m.cell t (index (vpn va) (n + 1)))), m) := by
        simp only [descend, inspect, hv, bind, StateT.bind, Except.bind, if_true]
        rfl
      rw [hnext]
      simpa [bind, StateT.bind, hrun, Except.bind] using ih _
    · have hnext : layout.next (m.cell t) (index (vpn va) (n + 1)) = none := if_neg hv
      have hrun : descend t (index (vpn va) (n + 1)) false m = .ok (none, m) := by
        simp only [descend, inspect, hv, bind, StateT.bind, Except.bind, Bool.false_eq_true, if_false]
        rfl
      rw [hnext]
      simp only [bind, StateT.bind, hrun, Except.bind]
      rfl

/-! ## Walking with allocation -/

/-- **A tree that has grown towards a page number**: it took pages from the list, and no entry
changed. -/
structure Grown (m m' : Mem) (l l' : List Word) (n : ℕ) (t : Word) (v : ℕ) : Prop where
  moves : Moves m m' l l' (Radix.own layout m.cell n t) (Radix.own layout m'.cell n t)
  entry : ∀ w, entry m'.cell n t w = entry m.cell n t w
  need : ∀ w, min (Radix.need layout m'.cell n t w) (Radix.apart layout n v w) =
    min (Radix.need layout m.cell n t w) (Radix.apart layout n v w)

namespace Grown

variable {l'' : List Word}

theorem refl (h : FreeList m l) : Grown m m l l n t v := ⟨.refl h, fun _ => rfl, fun _ => rfl⟩

theorem trans (h : Grown m m' l l' n t v) (h' : Grown m' m'' l' l'' n t v) :
    Grown m m'' l l'' n t v :=
  ⟨h.moves.trans h'.moves, fun w => (h'.entry w).trans (h.entry w),
    fun w => (h'.need w).trans (h.need w)⟩

end Grown

/-- The entries beside a child. -/
theorem entry_beside (h : Radix.Beside layout c c' n t i) (hv : index v (n + 1) ≠ i) :
    entry c' (n + 1) t v = entry c (n + 1) t v := by
  have hnext := h.next _ hv
  cases hu : layout.next (c t) (index v (n + 1)) with
  | none => rw [entry_succ_none rfl (hnext.trans hu), entry_succ_none rfl hu]
  | some u =>
    rw [entry_succ rfl (hnext.trans hu), entry_succ rfl hu]
    exact entry_congr (h.agree _ hv u hu)

/-- **A subtree that has grown is a tree that has grown.** -/
theorem Grown.up (h : Grown m m' l l' n u v) (hu : layout.next (m.cell t) (index v (n + 1)) = some u)
    (honce : ∀ p, l.count p + Radix.own layout m.cell (n + 1) t p ≤ 1) :
    Grown m m' l l' (n + 1) t v ∧ layout.next (m'.cell t) (index v (n + 1)) = some u := by
  have hsplit : ∀ p, Radix.own layout m.cell (n + 1) t p =
      Radix.own layout m.cell n u p + Radix.around layout m.cell n t (index v (n + 1)) p := by
    intro p
    rw [Radix.own_split (index v (n + 1)), hu]
    rfl
  have hkept : ∀ p, 0 < Radix.around layout m.cell n t (index v (n + 1)) p →
      m'.cell p = m.cell p := by
    intro p hp
    have hp1 := honce p
    rw [hsplit] at hp1
    exact h.moves.kept (by omega) hp
  have hroot : m'.cell t = m.cell t := hkept t (by simp [Radix.around])
  have hnext' : layout.next (m'.cell t) (index v (n + 1)) = some u := by rw [hroot, hu]
  have hbeside : Radix.Beside layout m.cell m'.cell n t (index v (n + 1)) := by
    refine .of_around ?_ (fun j _ => by rw [hroot]) fun p _ hp => hkept p hp
    have hp1 := honce t
    rw [hsplit] at hp1
    omega
  have hdig : ∀ x, layout.digit x (n + 1) = index x (n + 1) := fun _ => rfl
  refine ⟨⟨(h.moves.beside _).congr hsplit fun p => ?_, fun w => ?_, fun w => ?_⟩, hnext'⟩
  · rw [Radix.own_split (index v (n + 1)), hnext', hbeside.around_eq]
    rfl
  · by_cases hw : index w (n + 1) = index v (n + 1)
    · rw [entry_succ hw hnext', entry_succ hw hu, h.entry]
    · exact entry_beside hbeside hw
  · by_cases hw : index w (n + 1) = index v (n + 1)
    · have happ : Radix.apart layout (n + 1) v w = Radix.apart layout n v w := if_pos hw.symm
      rw [happ, Radix.need_succ, Radix.need_succ, hdig, hw, hnext', hu]
      exact h.need w
    · rw [hbeside.need_eq hw]

/-- **Grafting a fresh table** where an entry was not valid. -/
theorem Grown.graft {p : Word} (hfree : FreeList m l) (hpage : m.image.IsPage p)
    (hzero : m'.cell p = fun _ => 0) (hmoves : Moves m m' l l' 0 (one p))
    (hnone : layout.next (m.cell t) (index v (n + 1)) = none)
    (honce : ∀ q, l.count q + Radix.own layout m.cell (n + 1) t q ≤ 1) :
    Grown m (m'.write t (index v (n + 1)) (makePte p pteV)) l l' (n + 1) t v ∧
      layout.next ((m'.write t (index v (n + 1)) (makePte p pteV)).cell t) (index v (n + 1)) =
        some p := by
  have hin : l.count p = 1 := by
    have hsame := hmoves.same p
    have hle := List.nodup_iff_count.mp hfree.nodup p
    simp only [one_self, Pi.zero_apply] at hsame
    omega
  have hout : Radix.own layout m.cell (n + 1) t p = 0 := by
    have hp1 := honce p
    omega
  have hne : p ≠ t := by
    rintro rfl
    exact absurd hout (Nat.pos_iff_ne_zero.mp Radix.own_root_pos)
  -- taking the page leaves the tree alone
  have htree : ∀ q, 0 < Radix.own layout m.cell (n + 1) t q → m'.cell q = m.cell q := by
    intro q hq
    have hq1 := honce q
    exact hmoves.frame (by omega) rfl
  have hown : ∀ q, Radix.own layout m'.cell (n + 1) t q = Radix.own layout m.cell (n + 1) t q :=
    fun q => (Radix.Agree.of_own htree).own_eq
  have hroot : m'.cell t = m.cell t := htree t Radix.own_root_pos
  have hnone' : layout.next (m'.cell t) (index v (n + 1)) = none := by rw [hroot, hnone]
  generalize hm'' : m'.write t (index v (n + 1)) (makePte p pteV) = m''
  have hself : m''.cell t = update (m'.cell t) (index v (n + 1)) (makePte p pteV) := by
    rw [← hm'', Mem.write_cell_self]
  have hoff : ∀ q ≠ t, m''.cell q = m'.cell q := by
    intro q hq
    rw [← hm'', Mem.write_cell_ne hq]
  have hnext : layout.next (m''.cell t) (index v (n + 1)) = some p :=
    next_makePte hpage.isFrame (by rw [hself, Function.update_self])
  have hbeside : Radix.Beside layout m'.cell m''.cell n t (index v (n + 1)) := by
    refine .of_around ?_ (fun j hj => ?_) fun q hq _ => hoff q hq
    · have hsplit := Radix.own_split (L := layout) (c := m'.cell) (n := n) (t := t) (p := t)
        (index v (n + 1))
      have ht1 := honce t
      rw [hown] at hsplit
      omega
    · simp [layout, hself, hj]
  have hempty : ∀ j, layout.next (m''.cell p) j = none := next_zero (by rw [hoff p hne, hzero])
  have hown' : ∀ q, Radix.own layout m''.cell (n + 1) t q =
      one p q + Radix.own layout m.cell (n + 1) t q := by
    intro q
    rw [← hown, Radix.own_split (index v (n + 1)), Radix.own_split (index v (n + 1)), hnext, hnone',
      hbeside.around_eq]
    simp [Radix.own_empty hempty]
  refine ⟨⟨?_, fun w => ?_, fun w => ?_⟩, hnext⟩
  · have hpos : 0 < Radix.own layout m.cell (n + 1) t t := Radix.own_root_pos
    have hlt : l'.count t = 0 := by
      have hsame := hmoves.same t
      have ht1 := honce t
      simp only [Pi.zero_apply] at hsame
      omega
    have hwrite : Moves m' m'' l' l'
        (fun q => one p q + Radix.own layout m.cell (n + 1) t q)
        (fun q => one p q + Radix.own layout m.cell (n + 1) t q) := by
      subst hm''
      exact .of_write hmoves.free hlt rfl rfl hoff (Nat.add_pos_right _ hpos)
    exact ((hmoves.beside _).trans hwrite).congr (fun q => (Nat.zero_add _).symm) hown'
  · rw [← entry_congr htree]
    by_cases hw : index w (n + 1) = index v (n + 1)
    · rw [entry_succ hw hnext, entry_succ_none hw hnone']
      exact entry_zero (by rw [hoff p hne, hzero])
    · exact entry_beside hbeside hw
  · rw [← (Radix.Agree.of_own htree).need_eq]
    by_cases hw : index w (n + 1) = index v (n + 1)
    · have hdig : ∀ x, layout.digit x (n + 1) = index x (n + 1) := fun _ => rfl
      have happ : Radix.apart layout (n + 1) v w = Radix.apart layout n v w := if_pos hw.symm
      have hle : Radix.apart layout n v w ≤ n := Radix.apart_le
      rw [happ, Radix.need_succ, Radix.need_succ, hdig, hw, hnext, hnone', Option.elim_some, Option.elim_none,
        Radix.need_empty hempty]
      omega
    · rw [hbeside.need_eq hw]

/-- **One turn of the loop**: the table below is there, or has been grafted, or there is no page. -/
theorem descend_spec (hfree : FreeList m l)
    (honce : ∀ p, l.count p + Radix.own layout m.cell (n + 1) t p ≤ 1) :
    wp (descend t (index v (n + 1)) true) (fun r m' => ∃ l', Grown m m' l l' (n + 1) t v ∧
      match r with
      | none => avail m.deny l.length < Radix.need layout m.cell (n + 1) t v
      | some u => layout.next (m'.cell t) (index v (n + 1)) = some u ∧
        avail m.deny l.length + Radix.need layout m'.cell (n + 1) t v =
          avail m'.deny l'.length + Radix.need layout m.cell (n + 1) t v) E m := by
  have hdig : layout.digit v (n + 1) = index v (n + 1) := rfl
  unfold descend
  rw [wp_bind, wp_inspect]
  by_cases hv : valid (m.cell t (index v (n + 1))) = true
  · rw [if_pos hv]
    exact ⟨l, .refl hfree, if_pos hv, rfl⟩
  · have hnone : layout.next (m.cell t) (index v (n + 1)) = none := if_neg hv
    have hneed : Radix.need layout m.cell (n + 1) t v = n + 1 := by
      rw [Radix.need_succ, hdig, hnone]
      rfl
    rw [if_neg hv, if_neg (by decide), wp_bind]
    refine wp_post (getClearPage_spec hfree) ?_
    rintro (_ | p) m₁ hpost
    · obtain ⟨havail, d, rfl⟩ := hpost
      exact ⟨l, ⟨⟨hfree.congr rfl rfl fun _ _ => rfl, .refl, rfl⟩, fun _ => rfl, fun _ => rfl⟩,
        by rw [havail, hneed]; exact Nat.succ_pos n⟩
    · obtain ⟨hpage, hzero, l₁, hmoves, havail⟩ := hpost
      obtain ⟨hgrown, hnext⟩ := Grown.graft hfree hpage hzero hmoves hnone honce
      simp only [wp_bind, wp_alter, wp_inspect, wp_pure]
      refine ⟨l₁, hgrown, ?_, ?_⟩
      · rw [hnext, Mem.write_cell_self, Function.update_self, pteGetPa_makePte hpage.isFrame]
      · have hpt : p ≠ t := by
          rintro rfl
          have hsame := hmoves.same p
          have hp1 := honce p
          have hpos : 0 < Radix.own layout m.cell (n + 1) p p := Radix.own_root_pos
          simp only [one_self, Pi.zero_apply] at hsame
          omega
        have hempty : ∀ j, layout.next
            ((m₁.write t (index v (n + 1)) (makePte p pteV)).cell p) j = none :=
          next_zero (by rw [Mem.write_cell_ne hpt, hzero])
        have hneed' : Radix.need layout (m₁.write t (index v (n + 1)) (makePte p pteV)).cell
            (n + 1) t v = n := by
          rw [Radix.need_succ, hdig, hnext]
          exact Radix.need_empty hempty
        rw [havail, hneed, hneed', Mem.write_deny]
        omega

/-- **The loop of `walk` with `ALLOC`.** -/
theorem walkFrom_spec (n : ℕ) : ∀ {m : Mem} {l : List Word} {t : Word}, FreeList m l →
    (∀ p, l.count p + Radix.own layout m.cell n t p ≤ 1) →
    wp (walkFrom n t va true) (fun r m' => ∃ l', Grown m m' l l' n t (vpn va) ∧
      match r with
      | none => avail m.deny l.length < Radix.need layout m.cell n t (vpn va)
      | some s => Radix.bottom layout m'.cell n t (vpn va) = some s.1 ∧ s.2 = index (vpn va) 0 ∧
        Radix.need layout m'.cell n t (vpn va) = 0 ∧
        avail m.deny l.length = avail m'.deny l'.length +
          Radix.need layout m.cell n t (vpn va)) E m := by
  induction n with
  | zero =>
    intro m l t hfree _
    exact ⟨l, .refl hfree, rfl, tableIndex_eq va 0, rfl, rfl⟩
  | succ n ih =>
    intro m l t hfree honce
    have hdig : layout.digit (vpn va) (n + 1) = index (vpn va) (n + 1) := rfl
    rw [walkFrom, tableIndex_eq, wp_bind]
    refine wp_post (descend_spec hfree honce) ?_
    rintro (_ | u) m₁ ⟨l₁, hgrown, hpost⟩
    · exact ⟨l₁, hgrown, hpost⟩
    · obtain ⟨hnext, hpaid⟩ := hpost
      have honce₁ : ∀ p, l₁.count p + Radix.own layout m₁.cell (n + 1) t p ≤ 1 := by
        intro p
        have hsame := hgrown.moves.same p
        have hp1 := honce p
        omega
      have hchild : ∀ p, l₁.count p + Radix.own layout m₁.cell n u p ≤ 1 := by
        intro p
        have hle := Radix.own_child_le (n := n) (p := p) hnext
        have hp1 := honce₁ p
        omega
      have hneed : ∀ m₂ : Mem, layout.next (m₂.cell t) (index (vpn va) (n + 1)) = some u →
          Radix.need layout m₂.cell (n + 1) t (vpn va) =
            Radix.need layout m₂.cell n u (vpn va) := by
        intro m₂ hm₂
        rw [Radix.need_succ, hdig, hm₂]
        rfl
      refine wp_post (ih hgrown.moves.free hchild) ?_
      rintro r m₂ ⟨l₂, hsub, hres⟩
      obtain ⟨hup, hnext₂⟩ := hsub.up hnext honce₁
      refine ⟨l₂, hgrown.trans hup, ?_⟩
      rw [hneed m₁ hnext] at hpaid
      cases r with
      | none =>
        have hlt : avail m₁.deny l₁.length < Radix.need layout m₁.cell n u (vpn va) := hres
        simp only
        omega
      | some s =>
        obtain ⟨hbot, hidx, hzero, havail⟩ := hres
        refine ⟨?_, hidx, (hneed m₂ hnext₂).trans hzero, ?_⟩
        · rw [Radix.bottom_succ, hdig, hnext₂]
          exact hbot
        · omega

/-- What `walk` with `ALLOC` leaves. -/
def Walked (m : Mem) (l : List Word) (r va : Word) : Option (Word × Fin 512) → Mem → Prop
  | none, m' => (maxVpn ≤ vpn va ∨ avail m.deny l.length < need m r (vpn va)) ∧
      ∃ l', Moves m m' l l' (tables m r) (tables m' r) ∧ pages m' r = pages m r
  | some s, m' => vpn va < maxVpn ∧ Radix.bottom layout m'.cell maxLevel r (vpn va) = some s.1 ∧
      s.2 = index (vpn va) 0 ∧ ∃ l', Moves m m' l l' (tables m r) (tables m' r) ∧
      pages m' r = pages m r ∧ (∀ w, need m' r w = min (need m r w) (apart (vpn va) w)) ∧
      avail m.deny l.length = avail m'.deny l'.length + need m r (vpn va)

/-- **`walk` with `ALLOC`.** -/
theorem walk_spec (hfree : FreeList m l) (honce : ∀ p, l.count p + tables m r p ≤ 1) :
    wp (walk r va true) (Walked m l r va) E m := by
  unfold walk
  by_cases hva : va > maxVa
  · rw [if_pos hva]
    exact ⟨.inl (Nat.le_of_not_lt fun hlt => (vpn_lt_iff va).mp hlt hva), l, .refl hfree, rfl⟩
  · have hlt : vpn va < maxVpn := (vpn_lt_iff va).mpr hva
    rw [if_neg hva]
    refine wp_post (walkFrom_spec maxLevel hfree honce) ?_
    rintro res m' ⟨l', hgrown, hres⟩
    have hpages : pages m' r = pages m r := by
      funext v
      simp only [pages, hgrown.entry]
    cases res with
    | none => exact ⟨.inr hres, l', hgrown.moves, hpages⟩
    | some s =>
      obtain ⟨hbot, hidx, hzero, havail⟩ := hres
      refine ⟨hlt, hbot, hidx, l', hgrown.moves, hpages, fun w => ?_, havail⟩
      have hle : need m' r w ≤ apart (vpn va) w := Radix.need_le_apart hzero
      exact (Nat.min_eq_left hle).symm.trans (hgrown.need w)

/-! ## Walking only takes pages -/

/-- **Pages are only taken from the list**, none is given back. -/
def OnlyTaken (l : List Word) (m' : Mem) : Prop :=
  ∃ l', FreeList m' l' ∧ ∀ p, l'.count p ≤ l.count p

theorem OnlyTaken.trans (h : OnlyTaken l m') (hfree : FreeList m' l')
    (h' : OnlyTaken l' m'') : OnlyTaken l m'' := by
  obtain ⟨l₁, hfree₁, hle⟩ := h
  obtain rfl := hfree.unique hfree₁
  obtain ⟨l₂, hfree₂, hle₂⟩ := h'
  exact ⟨l₂, hfree₂, fun p => (hle₂ p).trans (hle p)⟩

theorem OnlyTaken.refl (hfree : FreeList m l) : OnlyTaken l m := ⟨l, hfree, fun _ => le_rfl⟩

/-- A transfer from the list to new owners. -/
theorem Moves.onlyTaken {B : Word → ℕ} (h : Moves m m' l l' 0 B) : OnlyTaken l m' := by
  refine ⟨l', h.free, fun p => ?_⟩
  have hsame := h.same p
  rw [Pi.zero_apply] at hsame
  omega

theorem getClearPage_taken (hfree : FreeList m l) :
    wp getClearPage (fun _ m' => OnlyTaken l m') E m := by
  refine wp_post (getClearPage_spec hfree) ?_
  rintro (_ | p) m' hpost
  · obtain ⟨-, d, rfl⟩ := hpost
    exact (Moves.of_deny (A := 0) hfree d).onlyTaken
  · obtain ⟨-, -, l', hmoves, -⟩ := hpost
    exact hmoves.onlyTaken

theorem descend_taken {alloc : Bool} (hfree : FreeList m l) (ht : l.count t = 0) :
    wp (descend t i alloc) (fun _ m' => OnlyTaken l m') E m := by
  unfold descend
  rw [wp_bind, wp_inspect]
  split
  · exact .refl hfree
  split
  · exact .refl hfree
  rw [wp_bind]
  refine wp_post (getClearPage_taken hfree) ?_
  rintro (_ | p) m₁ ⟨l₁, hfree₁, hle⟩
  · exact ⟨l₁, hfree₁, hle⟩
  · simp only [wp_bind, wp_alter, wp_inspect, wp_pure]
    refine ⟨l₁, hfree₁.congr rfl rfl fun q hq => Mem.write_cell_ne ?_, hle⟩
    rintro rfl
    have hcount := hle q
    have hpos := List.count_pos_iff.mpr hq
    omega

theorem walkFrom_taken (n : ℕ) : ∀ {m : Mem} {l : List Word} {t : Word}, FreeList m l →
    (∀ p, l.count p + Radix.own layout m.cell n t p ≤ 1) →
    wp (walkFrom n t va true) (fun _ m' => OnlyTaken l m') E m := by
  induction n with
  | zero => exact fun hfree _ => .refl hfree
  | succ n ih =>
    intro m l t hfree honce
    have hroot : l.count t = 0 := by
      have ht := honce t
      have hpos : 0 < Radix.own layout m.cell (n + 1) t t := Radix.own_root_pos
      omega
    rw [walkFrom, tableIndex_eq, wp_bind]
    refine wp_mono (wp_and (descend_spec hfree honce) (descend_taken (E := E) hfree hroot)) ?_
      fun _ => And.left
    rintro (_ | u) m₁ ⟨⟨l₁, hgrown, hpost⟩, htaken⟩
    · exact htaken
    · refine wp_post (ih hgrown.moves.free fun p => ?_)
        fun _ m₂ htaken₂ => htaken.trans hgrown.moves.free htaken₂
      have hle := Radix.own_child_le (n := n) (p := p) hpost.1
      have hsame := hgrown.moves.same p
      have hp := honce p
      omega

/-- **`walk` with `ALLOC`** gives no page back. -/
theorem walk_taken (hfree : FreeList m l) (honce : ∀ p, l.count p + tables m r p ≤ 1) :
    wp (walk r va true) (fun _ m' => OnlyTaken l m') E m := by
  unfold walk
  split
  · exact .refl hfree
  · exact walkFrom_taken maxLevel hfree honce

/-- The slot that a walk without allocation finds. -/
def find (m : Mem) (r va : Word) : Option (Word × Fin 512) :=
  if vpn va < maxVpn then
    (Radix.bottom layout m.cell maxLevel r (vpn va)).map fun u => (u, index (vpn va) 0)
  else none

/-- **`walk` with `NO_ALLOC`** finds the slot and leaves the memory alone. -/
theorem walk_noAlloc (r va : Word) (m : Mem) : walk r va false m = .ok (find m r va, m) := by
  unfold walk find
  by_cases hva : va > maxVa
  · rw [if_pos hva, if_neg fun hlt => (vpn_lt_iff va).mp hlt hva]
    rfl
  · rw [if_neg hva, if_pos ((vpn_lt_iff va).mpr hva), walkFrom_noAlloc]

@[simp] theorem wp_walk_noAlloc {Q : Option (Word × Fin 512) → Mem → Prop} :
    wp (walk r va false) Q E m ↔ Q (find m r va) m := by
  unfold wp
  rw [walk_noAlloc]

/-- No slot, no entry. -/
theorem pages_of_find_none (h : find m r va = none) : pages m r (vpn va) = none := by
  unfold find at h
  unfold pages
  split
  · next hlt =>
    rw [if_pos hlt, Option.map_eq_none_iff] at h
    rw [entry, h]
    rfl
  · rfl

/-- A slot is in the bottom table of its page. -/
theorem bottom_of_find (h : find m r va = some (u, i)) : vpn va < maxVpn ∧
    Radix.bottom layout m.cell maxLevel r (vpn va) = some u ∧ i = index (vpn va) 0 ∧
    pages m r (vpn va) = leaf (m.cell u) i := by
  unfold find at h
  split at h
  · next hlt =>
    obtain ⟨x, hx, heq⟩ := Option.map_eq_some_iff.mp h
    obtain ⟨rfl, rfl⟩ := Prod.mk.inj heq
    refine ⟨hlt, hx, rfl, ?_⟩
    rw [pages, if_pos hlt, entry, hx, Option.bind_some]
  · cases h

/-- **The word in the slot of a page number**, an entry only if it is valid. -/
def slot (m : Mem) (r : Word) (v : ℕ) : Option Word :=
  if v < maxVpn then
    (Radix.bottom layout m.cell maxLevel r v).map fun u => m.cell u (index v 0)
  else none

theorem slot_of_find : slot m r (vpn va) = (find m r va).map fun s => m.cell s.1 s.2 := by
  unfold slot find
  split
  · rw [Option.map_map]
    rfl
  · rfl

/-- The map keeps what is valid. -/
theorem pages_eq_slot : pages m r v = (slot m r v).bind fun pte =>
    if valid pte then some pte else none := by
  unfold pages slot entry leaf
  split
  · rw [Option.bind_map]
    rfl
  · rfl

theorem slot_of_pages {pte : Word} (h : pages m r v = some pte) :
    slot m r v = some pte ∧ valid pte = true := by
  rw [pages_eq_slot] at h
  obtain ⟨w, hw, hpte⟩ := Option.bind_eq_some_iff.mp h
  obtain ⟨hv, heq⟩ := Option.ite_none_right_eq_some.mp hpte
  obtain rfl := Option.some.inj heq
  exact ⟨hw, hv⟩

theorem slot_congr (h : ∀ p, 0 < tables m r p → m'.cell p = m.cell p) : slot m' r = slot m r := by
  funext v
  unfold slot
  rw [(Radix.Agree.of_own h).bottom_eq]
  cases hu : Radix.bottom layout m.cell maxLevel r v with
  | none => rfl
  | some u => rw [Option.map_some, Option.map_some, h u (Radix.own_pos_of_bottom hu)]

/-! ## Writing an entry -/

/-- **Writing the slot of a page number** changes that entry and nothing else. -/
theorem pages_write {e : Word} (honce : ∀ p, tables m r p ≤ 1)
    (hbot : Radix.bottom layout m.cell maxLevel r v = some u) (hv : v < maxVpn) :
    tables (m.write u (index v 0) e) r = tables m r ∧
      need (m.write u (index v 0) e) r = need m r ∧
      pages (m.write u (index v 0) e) r =
        update (pages m r) v (if valid e then some e else none) := by
  have hnot : Radix.inner layout m.cell maxLevel r u = 0 := by
    have hlt := Radix.inner_lt_own_of_bottom hbot
    have hu := honce u
    unfold tables at hu
    omega
  have hagree : Radix.Agree layout m.cell (m.write u (index v 0) e).cell maxLevel r := by
    intro p hp
    refine Mem.write_cell_ne ?_
    rintro rfl
    omega
  refine ⟨funext fun p => hagree.own_eq, funext fun w => hagree.need_eq, funext fun w => ?_⟩
  by_cases hwv : w = v
  · subst hwv
    rw [Function.update_self, pages, if_pos hv, entry, hagree.bottom_eq, hbot, Option.bind_some,
      leaf, Mem.write_cell_self, Function.update_self]
  · rw [Function.update_of_ne hwv, pages, pages]
    by_cases hw : w < maxVpn
    · rw [if_pos hw, if_pos hw, entry, entry, hagree.bottom_eq]
      cases hx : Radix.bottom layout m.cell maxLevel r w with
      | none => rfl
      | some x =>
        rw [Option.bind_some, Option.bind_some]
        by_cases hxu : x = u
        · -- the same bottom table, so the pages differ in their last digit
          subst hxu
          have hidx : index w 0 ≠ index v 0 := by
            intro hzero
            refine hwv (eq_of_index hw hv fun level hlevel => ?_)
            rcases Nat.eq_zero_or_pos level with rfl | hpos
            · exact hzero
            · exact Radix.digit_eq_of_bottom honce hx hbot level hpos hlevel
          rw [leaf, leaf, Mem.write_cell_self, Function.update_of_ne hidx]
        · rw [Mem.write_cell_ne hxu]
    · rw [if_neg hw, if_neg hw]

end Vm
