import Myv6.Vm.Walk

/-!
# Vm/Map — `map_page`, `unmap_page` and their loops

    pages m' r = update (pages m r) (vpn va) (some pte)      map_page
    pages m' r = update (pages m r) (vpn va) none            unmap_page

Each operation is one update of the map of the table.  `held f S` counts the physical pages that the
map `f` holds at the page numbers of `S`: what a freeing unmap gives back to the list.
-/

namespace Vm

open Function (update)
open Hoare Own

/-- Returns `true` for `-1`, as all the functions below that return `int`. -/
def mapPage (pgtable va pa attr : Word) : Kernel Bool := do
  match ← walk pgtable va true with
  | none => pure true
  | some (t, i) =>
    let pte ← inspect (·.cell t i)
    if valid pte then
      panic .mapMapped
    else
      alter (·.write t i (makePte pa (attr ||| pteV)))
      pure false

/-- `free` is `FREE` and `strict` is `PANIC`. -/
def unmapPageFlex (pgtable va : Word) (free strict : Bool) : Kernel Unit := do
  match ← walk pgtable va false with
  | none => if strict then panic .unmapUnmapped else pure ()
  | some (t, i) =>
    let pte ← inspect (·.cell t i)
    if !valid pte then
      if strict then panic .unmapUnmapped else pure ()
    else
      if free then
        kfree (pteGetPa pte)
      alter (·.write t i 0)

def unmapPage (pgtable va : Word) : Kernel Unit := unmapPageFlex pgtable va false true

def unmapPageFree (pgtable va : Word) : Kernel Unit := unmapPageFlex pgtable va true true

/-- The loop of `unmap_n_pages_flex`, with the turns left. -/
def unmapLoop (pgtable : Word) (free strict : Bool) : ℕ → Word → Kernel Unit
  | 0, _ => pure ()
  | k + 1, va => do
    unmapPageFlex pgtable va free strict
    unmapLoop pgtable free strict k (va + pgsize)

/-- The `int` count may be negative: then nothing is done. -/
def unmapNPagesFlex (pgtable va : Word) (n : ℤ) (free strict : Bool) : Kernel Unit :=
  unmapLoop pgtable free strict n.toNat va

def unmapNPages (pgtable va : Word) (n : ℤ) : Kernel Unit :=
  unmapNPagesFlex pgtable va n false true

def unmapNPagesFree (pgtable va : Word) (n : ℤ) : Kernel Unit :=
  unmapNPagesFlex pgtable va n true true

def unmapNPagesFreeHole (pgtable va : Word) (n : ℤ) : Kernel Unit :=
  unmapNPagesFlex pgtable va n true false

/-- The loop of `map_n_pages`, with the turns left and the turns done. -/
def mapLoop (pgtable vaStart attr : Word) : ℕ → ℕ → Word → Word → Kernel Bool
  | 0, _, _, _ => pure false
  | k + 1, i, va, pa => do
    if ← mapPage pgtable va pa attr then
      unmapNPages pgtable vaStart i
      pure true
    else
      mapLoop pgtable vaStart attr k (i + 1) (va + pgsize) (pa + pgsize)

def mapNPages (pgtable va : Word) (n : ℤ) (pa attr : Word) : Kernel Bool :=
  mapLoop pgtable va attr n.toNat 0 va pa

/-! ## The physical pages of a map -/

/-- The physical page of an entry, counted. -/
def frameOf (e : Option Word) (p : Word) : ℕ := e.elim 0 fun e => one (pteGetPa e) p

/-- **The physical pages that a map holds at the page numbers of `S`.** -/
def held (f : ℕ → Option Word) (S : Finset ℕ) (p : Word) : ℕ := ∑ v ∈ S, frameOf (f v) p

variable {m m' m'' : Mem} {l l' l'' : List Word} {r va pa attr p : Word} {v w k : ℕ}
  {f g : ℕ → Option Word} {S : Finset ℕ} {e : Option Word} {free strict : Bool} {E : Panic → Prop}

/-- What the map holds, split at one page number. -/
theorem held_eq (hv : v ∈ S) : held f S p = frameOf (f v) p + held f (S.erase v) p :=
  (Finset.add_sum_erase S (fun v => frameOf (f v) p) hv).symm

theorem held_update_erase : held (update f v e) (S.erase v) p = held f (S.erase v) p :=
  Finset.sum_congr rfl fun w hw => by rw [Function.update_of_ne (Finset.ne_of_mem_erase hw)]

theorem held_update (hv : v ∈ S) :
    held (update f v e) S p + frameOf (f v) p = frameOf e p + held f S p := by
  rw [held_eq hv, held_eq hv, held_update_erase, Function.update_self]
  omega

theorem held_update_of_notMem (hv : v ∉ S) : held (update f v e) S p = held f S p := by
  refine Finset.sum_congr rfl fun w hw => ?_
  rw [Function.update_of_ne]
  rintro rfl
  exact hv hw

theorem frameOf_le_held (hv : v ∈ S) : frameOf (f v) p ≤ held f S p := by
  rw [held_eq hv]
  exact Nat.le_add_right _ _

/-- Only mapped pages count. -/
theorem held_subset {T : Finset ℕ} (hST : S ⊆ T) (h : ∀ v ∈ T, v ∉ S → f v = none) :
    held f T p = held f S p :=
  (Finset.sum_subset hST fun v hT hS => by rw [h v hT hS]; rfl).symm

@[simp] theorem held_empty : held f ∅ p = 0 := rfl

@[simp] theorem frameOf_none : frameOf none p = 0 := rfl

@[simp] theorem frameOf_some {pte : Word} : frameOf (some pte) p = one (pteGetPa pte) p := rfl

/-! ## Memories with the same table -/

/-- **A memory that leaves the table pages alone has the same table.** -/
theorem table_congr (h : ∀ p, 0 < tables m r p → m'.cell p = m.cell p) :
    tables m' r = tables m r ∧ need m' r = need m r ∧ pages m' r = pages m r := by
  refine ⟨funext fun p => (Radix.Agree.of_own h).own_eq, funext fun w => (Radix.Agree.of_own h).need_eq,
    funext fun w => ?_⟩
  unfold pages
  rw [entry_congr h]

/-- **A table beside a transfer** stays as it is. -/
theorem Moves.table {A B : Word → ℕ} (h : Moves m m' l l' A B)
    (honce : ∀ p, l.count p + A p + tables m r p ≤ 1) :
    tables m' r = tables m r ∧ need m' r = need m r ∧ pages m' r = pages m r :=
  table_congr fun p hp => h.kept (honce p) hp

/-! ## One page -/

/-- What `map_page` leaves. -/
def MapPaged (m : Mem) (l : List Word) (r va pa attr : Word) : Bool → Mem → Prop
  | true, m' => (maxVpn ≤ vpn va ∨ avail m.deny l.length < need m r (vpn va)) ∧
      ∃ l', Moves m m' l l' (tables m r) (tables m' r) ∧ pages m' r = pages m r
  | false, m' => vpn va < maxVpn ∧ pages m r (vpn va) = none ∧
      ∃ l', Moves m m' l l' (tables m r) (tables m' r) ∧
      pages m' r = update (pages m r) (vpn va) (some (makePte pa (attr ||| pteV))) ∧
      (∀ w, need m' r w = min (need m r w) (apart (vpn va) w)) ∧
      avail m.deny l.length = avail m'.deny l'.length + need m r (vpn va)

/-- **`map_page`** adds one entry, or returns `-1` and adds none; it panics on a mapped page. -/
theorem mapPage_spec (hfree : FreeList m l) (honce : ∀ p, l.count p + tables m r p ≤ 1) :
    wp (mapPage r va pa attr) (MapPaged m l r va pa attr)
      (fun e => e = .mapMapped ∧ pages m r (vpn va) ≠ none) m := by
  unfold mapPage
  rw [wp_bind]
  refine wp_post (walk_spec hfree honce) ?_
  rintro (_ | ⟨t, i⟩) m₁ hpost
  · exact hpost
  · obtain ⟨hlt, hbot, hi, l₁, hmoves, hpages, hneed, havail⟩ := hpost
    obtain rfl : i = index (vpn va) 0 := hi
    have hbot : Radix.bottom layout m₁.cell maxLevel r (vpn va) = some t := hbot
    have hentry : pages m₁ r (vpn va) = leaf (m₁.cell t) (index (vpn va) 0) := by
      rw [pages, if_pos hlt, entry, hbot, Option.bind_some]
    rw [wp_bind, wp_inspect]
    by_cases hv : valid (m₁.cell t (index (vpn va) 0)) = true
    · rw [if_pos hv, wp_panic]
      refine ⟨rfl, ?_⟩
      rw [← hpages, hentry, leaf, if_pos hv]
      exact Option.some_ne_none _
    · rw [if_neg hv]
      have honce₁ : ∀ p, l₁.count p + tables m₁ r p ≤ 1 := fun p => (hmoves.same p).trans_le (honce p)
      obtain ⟨htab, hneed', hpages'⟩ := pages_write (e := makePte pa (attr ||| pteV))
        (fun p => (Nat.le_add_left _ _).trans (honce₁ p)) hbot hlt
      have hpos : 0 < tables m₁ r t := Radix.own_pos_of_bottom hbot
      have hlt₁ : l₁.count t = 0 := by
        have ht := honce₁ t
        omega
      refine ⟨hlt, ?_, l₁, ?_, ?_, fun w => ?_, havail⟩
      · rw [← hpages, hentry, leaf, if_neg hv]
      · rw [htab]
        exact hmoves.trans (.of_write hmoves.free hlt₁ rfl rfl (fun q hq => Mem.write_cell_ne hq) hpos)
      · rw [hpages', hpages, if_pos (valid_makePte pa attr)]
      · rw [hneed', hneed]

/-- **`map_page`** gives no page back. -/
theorem mapPage_taken (hfree : FreeList m l) (honce : ∀ p, l.count p + tables m r p ≤ 1) :
    wp (mapPage r va pa attr) (fun _ m' => OnlyTaken l m') (fun _ => True) m := by
  unfold mapPage
  rw [wp_bind]
  refine wp_mono (wp_and (walk_spec (E := fun _ => True) hfree honce)
    (walk_taken (E := fun _ => True) hfree honce)) ?_ fun _ _ => trivial
  rintro (_ | ⟨t, i⟩) m₁ ⟨hpost, htaken⟩
  · exact htaken
  · obtain ⟨-, hbot, -, l₁, hmoves, -, -, -⟩ := hpost
    obtain ⟨l₁', hfree₁, hle⟩ := htaken
    obtain rfl := hmoves.free.unique hfree₁
    have hpos : 0 < tables m₁ r t := Radix.own_pos_of_bottom hbot
    have ht := (hmoves.same t).trans_le (honce t)
    rw [wp_bind, wp_inspect]
    split
    · trivial
    · refine ⟨l₁, hfree₁.congr rfl rfl fun q hq => Mem.write_cell_ne ?_, hle⟩
      rintro rfl
      have hmem := List.count_pos_iff.mpr hq
      omega

/-- **Pages given back**: the table and what it holds at `S` become the table and what it still
holds; the table pages stay. -/
structure Released (m m' : Mem) (l l' : List Word) (r : Word) (S : Finset ℕ) : Prop where
  moves : Moves m m' l l' (fun p => tables m r p + held (pages m r) S p)
    (fun p => tables m' r p + held (pages m' r) S p)
  tables_eq : tables m' r = tables m r
  need_eq : need m' r = need m r
  deny : m'.deny = m.deny

namespace Released

theorem refl (h : FreeList m l) : Released m m l l r S := ⟨.refl h, rfl, rfl, rfl⟩

theorem trans (h : Released m m' l l' r S) (h' : Released m' m'' l' l'' r S) :
    Released m m'' l l'' r S :=
  ⟨h.moves.trans h'.moves, h'.tables_eq.trans h.tables_eq, h'.need_eq.trans h.need_eq,
    h'.deny.trans h.deny⟩

end Released

/-- How `unmap_page_flex` panics. -/
def UnmapPanic (m : Mem) (r va : Word) (free strict : Bool) (e : Panic) : Prop :=
  (e = .unmapUnmapped ∧ strict = true ∧ pages m r (vpn va) = none) ∨
    (e = .freeInvalidPage ∧ free = true ∧
      ∃ pte, pages m r (vpn va) = some pte ∧ ¬m.image.IsPage (pteGetPa pte))

/-- **Clearing a slot** removes one entry. -/
theorem clear_slot {t : Word} {A : Word → ℕ} (hfree : FreeList m l) (hA : ∀ p, tables m r p ≤ A p)
    (honce : ∀ p, l.count p + A p ≤ 1) (hv : v < maxVpn)
    (hbot : Radix.bottom layout m.cell maxLevel r v = some t) :
    Moves m (m.write t (index v 0) 0) l l A A ∧ tables (m.write t (index v 0) 0) r = tables m r ∧
      need (m.write t (index v 0) 0) r = need m r ∧
      pages (m.write t (index v 0) 0) r = update (pages m r) v none := by
  obtain ⟨htab, hneed, hpages⟩ := pages_write (e := 0)
    (fun p => (hA p).trans ((Nat.le_add_left _ _).trans (honce p))) hbot hv
  have hpos : 0 < A t := (Radix.own_pos_of_bottom hbot).trans_le (hA t)
  have hlt : l.count t = 0 := by
    have ht := honce t
    omega
  exact ⟨.of_write hfree hlt rfl rfl (fun q hq => Mem.write_cell_ne hq) hpos, htab, hneed,
    hpages.trans (by rw [if_neg (by simp)])⟩

/-- **`unmap_page_flex`** removes one entry; with `FREE` its page goes to the list. -/
theorem unmapPageFlex_spec (hfree : FreeList m l)
    (honce : ∀ p, l.count p + (tables m r p + held (pages m r) S p) ≤ 1)
    (hS : free = true ↔ vpn va ∈ S) :
    wp (unmapPageFlex r va free strict) (fun _ m' => (strict = true → pages m r (vpn va) ≠ none) ∧
        pages m' r = update (pages m r) (vpn va) none ∧ ∃ l', Released m m' l l' r S)
      (UnmapPanic m r va free strict) m := by
  have hnothing : pages m r (vpn va) = none →
      wp (if strict then panic .unmapUnmapped else pure () : Kernel Unit)
        (fun _ m' => (strict = true → pages m r (vpn va) ≠ none) ∧
          pages m' r = update (pages m r) (vpn va) none ∧ ∃ l', Released m m' l l' r S)
        (UnmapPanic m r va free strict) m := by
    intro hnone
    cases strict with
    | true => exact .inl ⟨rfl, rfl, hnone⟩
    | false =>
      refine ⟨(fun h => nomatch h), ?_, l, .refl hfree⟩
      rw [← hnone, Function.update_eq_self]
  unfold unmapPageFlex
  rw [wp_bind, wp_walk_noAlloc]
  cases hfind : find m r va with
  | none => exact hnothing (pages_of_find_none hfind)
  | some s =>
    obtain ⟨t, i⟩ := s
    obtain ⟨hlt, hbot, rfl, hentry⟩ := bottom_of_find hfind
    simp only [wp_bind, wp_inspect]
    by_cases hv : valid (m.cell t (index (vpn va) 0)) = true
    swap
    · rw [if_pos (by simpa using hv)]
      refine hnothing ?_
      rw [hentry, leaf, if_neg hv]
    rw [if_neg (by simpa using hv)]
    have hmapped : pages m r (vpn va) = some (m.cell t (index (vpn va) 0)) := by
      rw [hentry, leaf, if_pos hv]
    generalize m.cell t (index (vpn va) 0) = pte at hmapped
    have hne : strict = true → pages m r (vpn va) ≠ none := fun _ => by simp [hmapped]
    cases free with
    | false =>
      have hnot : vpn va ∉ S := fun h => by cases hS.mpr h
      obtain ⟨hmoves, htab, hneed, hpages⟩ := clear_slot hfree (fun p => Nat.le_add_right _ _) honce
        hlt hbot
      refine ⟨hne, hpages, l, hmoves.congr (fun _ => rfl) fun p => ?_, htab, hneed, rfl⟩
      rw [htab, hpages, held_update_of_notMem hnot]
    | true =>
      have hin : vpn va ∈ S := hS.mp rfl
      have hframe : ∀ p, one (pteGetPa pte) p ≤ held (pages m r) S p := by
        intro p
        refine Nat.le_trans ?_ (frameOf_le_held hin)
        rw [hmapped]
        exact le_rfl
      have hout : l.count (pteGetPa pte) = 0 ∧ tables m r (pteGetPa pte) = 0 := by
        have hle := hframe (pteGetPa pte)
        have hp1 := honce (pteGetPa pte)
        rw [one_self] at hle
        omega
      rw [if_pos rfl, wp_bind]
      refine wp_mono (kfree_spec hfree hout.1) ?_ fun e he => .inr ⟨he.1, rfl, pte, hmapped, he.2⟩
      rintro _ m₁ ⟨-, hfreed, hdeny⟩
      rw [wp_alter]
      have hkept : ∀ p, 0 < tables m r p → m₁.cell p = m.cell p := by
        intro p hp
        have hp1 := honce p
        refine hfreed.frame (by omega) (one_of_ne ?_)
        rintro rfl
        omega
      obtain ⟨htab₁, hneed₁, hpages₁⟩ := table_congr hkept
      have hbot₁ : Radix.bottom layout m₁.cell maxLevel r (vpn va) = some t := by
        rw [(Radix.Agree.of_own hkept).bottom_eq, hbot]
      -- what the table still holds at `S`
      have hheld : ∀ p, held (update (pages m r) (vpn va) none) S p + one (pteGetPa pte) p =
          held (pages m r) S p := by
        intro p
        have hupd := held_update (f := pages m r) (e := none) (p := p) hin
        rw [hmapped] at hupd
        simpa using hupd
      have hrest : Moves m m₁ l (pteGetPa pte :: l)
          (fun p => tables m r p + held (pages m r) S p)
          (fun p => tables m r p + held (update (pages m r) (vpn va) none) S p) := by
        refine (hfreed.beside fun p =>
          tables m r p + held (update (pages m r) (vpn va) none) S p).congr (fun p => ?_) fun p => ?_
        · have hsum := hheld p
          omega
        · exact (Nat.zero_add _).symm
      obtain ⟨hmoves, htab, hneed, hpages⟩ := clear_slot hrest.free
        (fun p => by rw [htab₁]; exact Nat.le_add_right _ _)
        (fun p => (hrest.same p).trans_le (honce p)) hlt hbot₁
      rw [hpages₁] at hpages
      refine ⟨hne, hpages, _, (hrest.trans hmoves).congr (fun _ => rfl) fun p => ?_,
        htab.trans htab₁, hneed.trans hneed₁, hdeny⟩
      rw [htab, htab₁, hpages]

/-! ## Many pages -/

/-- The page numbers that a loop of `k` turns addresses from `va` on. -/
def addressed (va : Word) (k : ℕ) : List ℕ :=
  (List.range k).map fun i => vpn (va + BitVec.ofNat 64 i * pgsize)

theorem vpn_add_mul (va : Word) (i : ℕ) :
    vpn (va + BitVec.ofNat 64 i * pgsize) = (vpn va + i) % 2 ^ 52 := by
  have hsize : pgsize.toNat = 4096 := by decide
  simp only [vpn, BitVec.toNat_add, BitVec.toNat_mul, BitVec.toNat_ofNat, hsize]
  omega

theorem vpn_add_pgsize (va : Word) : vpn (va + pgsize) = (vpn va + 1) % 2 ^ 52 := by
  have hone : BitVec.ofNat 64 1 * pgsize = pgsize := by decide
  rw [← vpn_add_mul, hone]

theorem vpn_lt (va : Word) : vpn va < 2 ^ 52 := by
  have hlt := va.isLt
  unfold vpn
  omega

theorem addressed_succ (va : Word) (k : ℕ) :
    addressed va (k + 1) = vpn va :: addressed (va + pgsize) k := by
  rw [addressed, List.range_succ_eq_map, List.map_cons, List.map_map, addressed]
  refine congrArg₂ _ (by simp) (List.map_congr_left fun i _ => ?_)
  rw [Function.comp_apply, vpn_add_mul, vpn_add_mul, vpn_add_pgsize]
  omega

theorem mem_addressed_iff : w ∈ addressed va k ↔ ∃ i < k, w = (vpn va + i) % 2 ^ 52 := by
  simp only [addressed, List.mem_map, List.mem_range, vpn_add_mul]
  exact exists_congr fun i => and_congr_right fun _ => eq_comm

/-- A loop of fewer than `2 ^ 52` turns addresses no page twice. -/
theorem vpn_notMem_addressed (hk : k < 2 ^ 52) : vpn va ∉ addressed (va + pgsize) k := by
  rw [mem_addressed_iff, vpn_add_pgsize]
  rintro ⟨i, hi, heq⟩
  have hlt := vpn_lt va
  omega

/-- How the loop of `unmap_n_pages_flex` panics. -/
def UnmapLoopPanic (m : Mem) (r va : Word) (k : ℕ) (free strict : Bool) (e : Panic) : Prop :=
  (e = .unmapUnmapped ∧ strict = true ∧
      ((∃ w ∈ addressed va k, pages m r w = none) ∨ 2 ^ 52 < k)) ∨
    (e = .freeInvalidPage ∧ free = true ∧
      ∃ w ∈ addressed va k, ∃ pte, pages m r w = some pte ∧ ¬m.image.IsPage (pteGetPa pte))

/-- **The loop of `unmap_n_pages_flex`** removes the addressed entries; with `FREE` their pages go to
the list. -/
theorem unmapLoop_spec (k : ℕ) : ∀ {m : Mem} {l : List Word} {va : Word}, FreeList m l →
    (∀ p, l.count p + (tables m r p + held (pages m r) S p) ≤ 1) →
    (∀ w ∈ addressed va k, free = true ↔ w ∈ S) →
    wp (unmapLoop r free strict k va) (fun _ m' =>
        (strict = true → ∀ w ∈ addressed va k, pages m r w ≠ none) ∧
        (pages m' r = fun w => if w ∈ addressed va k then none else pages m r w) ∧
        ∃ l', Released m m' l l' r S)
      (UnmapLoopPanic m r va k free strict) m := by
  induction k with
  | zero =>
    intro m l va hfree _ _
    exact ⟨fun _ w hw => absurd hw (by simp [addressed]), by simp [addressed], l, .refl hfree⟩
  | succ k ih =>
    intro m l va hfree honce hS
    have hmem : ∀ w, w ∈ addressed va (k + 1) ↔ w = vpn va ∨ w ∈ addressed (va + pgsize) k := by
      intro w
      rw [addressed_succ, List.mem_cons]
    rw [unmapLoop, wp_bind]
    refine wp_mono (unmapPageFlex_spec hfree honce (hS _ ((hmem _).mpr (.inl rfl)))) ?_ ?_
    · rintro _ m₁ ⟨hstrict, hpages, l₁, hrel⟩
      have honce₁ : ∀ p, l₁.count p + (tables m₁ r p + held (pages m₁ r) S p) ≤ 1 :=
        fun p => (hrel.moves.same p).trans_le (honce p)
      have hold : ∀ w, w ≠ vpn va → pages m₁ r w = pages m r w := by
        intro w hw
        rw [hpages, Function.update_of_ne hw]
      refine wp_mono (ih hrel.moves.free honce₁ fun w hw => hS w ((hmem w).mpr (.inr hw))) ?_ ?_
      · rintro _ m₂ ⟨hstrict₂, hpages₂, l₂, hrel₂⟩
        refine ⟨fun hs w hw => ?_, ?_, l₂, hrel.trans hrel₂⟩
        · obtain rfl | hw := (hmem w).mp hw
          · exact hstrict hs
          · have hne := hstrict₂ hs w hw
            by_cases hwv : w = vpn va
            · rw [hwv]
              exact hstrict hs
            · rwa [hold w hwv] at hne
        · rw [hpages₂]
          funext w
          by_cases hwv : w = vpn va
          · rw [if_pos ((hmem w).mpr (.inl hwv)), hpages, hwv, Function.update_self]
            exact ite_self _
          · rw [hold w hwv]
            simp only [hmem, hwv, false_or]
      · rintro e (⟨he, hs, ⟨w, hw, hnone⟩ | hbig⟩ | ⟨he, hf, w, hw, pte, hpte, hbad⟩)
        · refine .inl ⟨he, hs, ?_⟩
          by_cases hk : k < 2 ^ 52
          · have hwv : w ≠ vpn va := fun h => vpn_notMem_addressed hk (h ▸ hw)
            exact .inl ⟨w, (hmem w).mpr (.inr hw), by rwa [hold w hwv] at hnone⟩
          · exact .inr (by omega)
        · exact .inl ⟨he, hs, .inr (by omega)⟩
        · have hwv : w ≠ vpn va := by
            rintro rfl
            rw [hpages, Function.update_self] at hpte
            cases hpte
          rw [hold w hwv] at hpte
          rw [hrel.moves.image] at hbad
          exact .inr ⟨he, hf, w, (hmem w).mpr (.inr hw), pte, hpte, hbad⟩
    · rintro e (⟨he, hs, hnone⟩ | ⟨he, hf, pte, hpte, hbad⟩)
      · exact .inl ⟨he, hs, .inl ⟨_, (hmem _).mpr (.inl rfl), hnone⟩⟩
      · exact .inr ⟨he, hf, _, (hmem _).mpr (.inl rfl), pte, hpte, hbad⟩

/-- The map `f` with `k` pages from `v` on mapped to the physical pages from `pa` on. -/
def spread (f : ℕ → Option Word) (v : ℕ) (pa attr : Word) (k w : ℕ) : Option Word :=
  if v ≤ w ∧ w < v + k then
    some (makePte (pa + BitVec.ofNat 64 (w - v) * pgsize) (attr ||| pteV))
  else f w

theorem spread_zero (v : ℕ) (pa attr : Word) : spread f v pa attr 0 = f := by
  funext w
  exact if_neg (by omega)

theorem spread_succ (v : ℕ) (pa attr : Word) (k : ℕ) : spread f v pa attr (k + 1) =
    update (spread f v pa attr k) (v + k)
      (some (makePte (pa + BitVec.ofNat 64 k * pgsize) (attr ||| pteV))) := by
  funext w
  by_cases hw : w = v + k
  · subst hw
    rw [Function.update_self, spread, if_pos (by omega), Nat.add_sub_cancel_left]
  · rw [Function.update_of_ne hw, spread, spread]
    by_cases hin : v ≤ w ∧ w < v + k
    · rw [if_pos hin, if_pos (by omega)]
    · rw [if_neg hin, if_neg (by omega)]

theorem vpn_add_mul_of_le {i : ℕ} (h : vpn va + i ≤ maxVpn) :
    vpn (va + BitVec.ofNat 64 i * pgsize) = vpn va + i := by
  rw [vpn_add_mul]
  unfold maxVpn at h
  omega

theorem mem_addressed_of_le (h : vpn va + k ≤ maxVpn) :
    w ∈ addressed va k ↔ vpn va ≤ w ∧ w < vpn va + k := by
  unfold maxVpn at h
  rw [mem_addressed_iff]
  constructor
  · rintro ⟨i, hi, rfl⟩
    omega
  · rintro ⟨hle, hlt⟩
    exact ⟨w - vpn va, by omega, by omega⟩

/-- **The rollback of `map_n_pages`** undoes what has been mapped, and does not panic. -/
theorem unmapNPages_spread {i : ℕ} (hfree : FreeList m l)
    (honce : ∀ p, l.count p + tables m r p ≤ 1) (hi : vpn va + i ≤ maxVpn)
    (hpages : pages m r = spread f (vpn va) pa attr i) (hnone : ∀ j < i, f (vpn va + j) = none) :
    wp (unmapNPages r va i) (fun _ m' => pages m' r = f ∧
      ∃ l', Moves m m' l l' (tables m r) (tables m' r)) E m := by
  unfold unmapNPages unmapNPagesFlex
  rw [Int.toNat_natCast]
  refine wp_mono (unmapLoop_spec (S := ∅) i hfree (by simpa using honce) (by simp)) ?_ ?_
  · rintro _ m' ⟨-, hpages', l', hrel⟩
    refine ⟨?_, l', hrel.moves.congr (fun p => by simp) fun p => by simp⟩
    rw [hpages', hpages]
    funext w
    simp only [mem_addressed_of_le hi, spread]
    split
    · next hw =>
      have hw' := hnone (w - vpn va) (by omega)
      rw [show vpn va + (w - vpn va) = w by omega] at hw'
      exact hw'.symm
    · rfl
  · rintro e (⟨-, -, ⟨w, hw, hw'⟩ | hbig⟩ | ⟨-, hf, -⟩)
    · rw [mem_addressed_of_le hi] at hw
      rw [hpages, spread, if_pos hw] at hw'
      cases hw'
    · unfold maxVpn at hi
      omega
    · cases hf

/-- What the loop of `map_n_pages` over a table with the map `f` leaves. -/
def MapLooped (m : Mem) (l : List Word) (f : ℕ → Option Word) (r : Word) (v : ℕ) (pa attr : Word)
    (k : ℕ) (err : Bool) (m' : Mem) : Prop :=
  (∃ l', Moves m m' l l' (tables m r) (tables m' r)) ∧
    match err with
    | true => pages m' r = f
    | false => (∀ j < k, f (v + j) = none) ∧ (k = 0 ∨ v + k ≤ maxVpn) ∧
        pages m' r = spread f v pa attr k

/-- **The loop of `map_n_pages`**, after `i` turns. -/
theorem mapLoop_spec {vaStart pa₀ : Word} (k : ℕ) :
    ∀ {i : ℕ} {m : Mem} {l : List Word}, FreeList m l → (∀ p, l.count p + tables m r p ≤ 1) →
    vpn vaStart + i ≤ maxVpn → (∀ j < i, f (vpn vaStart + j) = none) →
    pages m r = spread f (vpn vaStart) pa₀ attr i →
    wp (mapLoop r vaStart attr k i (vaStart + BitVec.ofNat 64 i * pgsize)
        (pa₀ + BitVec.ofNat 64 i * pgsize))
      (MapLooped m l f r (vpn vaStart) pa₀ attr (i + k))
      (fun e => e = .mapMapped ∧ ∃ j < i + k, f (vpn vaStart + j) ≠ none) m := by
  induction k with
  | zero =>
    intro i m l hfree _ hi hnone hpages
    exact ⟨⟨l, .refl hfree⟩, hnone, .inr hi, hpages⟩
  | succ k ih =>
    intro i m l hfree honce hi hnone hpages
    have hnext : ∀ x : Word, x + BitVec.ofNat 64 i * pgsize + pgsize =
        x + BitVec.ofNat 64 (i + 1) * pgsize := by
      intro x
      rw [BitVec.ofNat_add, BitVec.add_mul, BitVec.add_assoc]
      rfl
    have hvpn := vpn_add_mul_of_le hi
    have hhere : pages m r (vpn vaStart + i) = f (vpn vaStart + i) := by
      rw [hpages, spread, if_neg (by omega)]
    rw [mapLoop, wp_bind]
    refine wp_mono (mapPage_spec hfree honce) ?_ ?_
    · rintro (_ | _) m₁ hpost
      · obtain ⟨hlt, hfree₁, l₁, hmoves, hpages₁, -, -⟩ := hpost
        rw [hvpn] at hlt hfree₁ hpages₁
        rw [if_neg (by decide), hnext, hnext]
        refine wp_mono (ih (i := i + 1) hmoves.free (fun p => (hmoves.same p).trans_le (honce p)) hlt
          (fun j hj => ?_) ?_) ?_ ?_
        · rcases Nat.lt_succ_iff_lt_or_eq.mp hj with hj | rfl
          · exact hnone j hj
          · rw [← hhere, hfree₁]
        · rw [hpages₁, hpages, ← spread_succ]
        · rintro err m₂ ⟨⟨l₂, hmoves₂⟩, hres⟩
          rw [Nat.add_right_comm] at hres
          exact ⟨⟨l₂, hmoves.trans hmoves₂⟩, hres⟩
        · rintro e ⟨he, j, hj, hf⟩
          exact ⟨he, j, by omega, hf⟩
      · obtain ⟨-, l₁, hmoves, hpages₁⟩ := hpost
        rw [if_pos rfl, wp_bind]
        refine wp_post (unmapNPages_spread hmoves.free (fun p => (hmoves.same p).trans_le (honce p))
          hi (hpages₁.trans hpages) hnone) ?_
        rintro _ m₂ ⟨hpages₂, l₂, hmoves₂⟩
        exact ⟨⟨l₂, hmoves.trans hmoves₂⟩, hpages₂⟩
    · rintro e ⟨he, hmapped⟩
      rw [hvpn, hhere] at hmapped
      exact ⟨he, i, by omega, hmapped⟩

/-- **`map_n_pages`** maps all the pages, or none of them. -/
theorem mapNPages_spec {n : ℤ} (hfree : FreeList m l) (honce : ∀ p, l.count p + tables m r p ≤ 1) :
    wp (mapNPages r va n pa attr) (MapLooped m l (pages m r) r (vpn va) pa attr n.toNat)
      (fun e => e = .mapMapped ∧ ∃ j < n.toNat, pages m r (vpn va + j) ≠ none) m := by
  unfold mapNPages
  by_cases hva : vpn va ≤ maxVpn
  · have hstart : pages m r = spread (pages m r) (vpn va) pa attr 0 := (spread_zero ..).symm
    have hloop := mapLoop_spec n.toNat (i := 0) hfree honce hva (fun j hj => absurd hj (by omega))
      hstart
    simpa using hloop
  · cases n.toNat with
    | zero => exact ⟨⟨l, .refl hfree⟩, fun j hj => absurd hj (by omega), .inl rfl, (spread_zero ..).symm⟩
    | succ k =>
      -- an address above `MAX_VA` is refused in the first turn
      rw [mapLoop, wp_bind]
      refine wp_mono (mapPage_spec hfree honce) ?_ ?_
      · rintro (_ | _) m₁ hpost
        · exact absurd hpost.1.le hva
        · obtain ⟨-, l₁, hmoves, hpages⟩ := hpost
          exact ⟨⟨l₁, hmoves⟩, hpages⟩
      · rintro e ⟨-, hmapped⟩
        exact absurd (if_neg (by omega)) hmapped

end Vm
