import Myv6.Lib.Run
import Myv6.Vm.Table

/-!
# Vm/Refine — the page table is a finite map

    view m r  ──Spec op──▸  view m' r
       ▴                       ▴
       m     ──exec op──▸      m'

`view` reads a table as a partial map from page numbers to physical page and attributes, as a walk
without allocation and the test of `PTE_V` do.  Every operation, in every run on a table from
`get_pagetable`, does to the view what `Spec` says, provided the pages a freeing unmap gives back are
the caller's: not free, not table pages, no two of them the same.
-/

namespace Vm

open Function (update)
open Hoare Own

/-- What the callers of `vm.c` do with a table, and with `kalloc` beside it. -/
inductive Op
  | mapPage (va pa attr : Word)
  | mapNPages (va : Word) (n : ℤ) (pa attr : Word)
  | unmapPage (va : Word)
  | unmapPageFree (va : Word)
  | unmapNPages (va : Word) (n : ℤ)
  | unmapNPagesFree (va : Word) (n : ℤ)
  | unmapNPagesFreeHole (va : Word) (n : ℤ)
  /-- somebody takes a page -/
  | kalloc
  /-- somebody gives one back -/
  | kfree (p : Word)

/-- An operation on the table `r`, with what it returns; `void` returns 0. -/
def exec (r : Word) : Op → Kernel Bool
  | .mapPage va pa attr => Vm.mapPage r va pa attr
  | .mapNPages va n pa attr => Vm.mapNPages r va n pa attr
  | .unmapPage va => (fun _ => false) <$> Vm.unmapPage r va
  | .unmapPageFree va => (fun _ => false) <$> Vm.unmapPageFree r va
  | .unmapNPages va n => (fun _ => false) <$> Vm.unmapNPages r va n
  | .unmapNPagesFree va n => (fun _ => false) <$> Vm.unmapNPagesFree r va n
  | .unmapNPagesFreeHole va n => (fun _ => false) <$> Vm.unmapNPagesFreeHole r va n
  | .kalloc => (fun _ => false) <$> Vm.kalloc
  | .kfree p => (fun _ => false) <$> Vm.kfree p

/-- The state after an operation that did not panic. -/
def step (r : Word) (m : Mem) (op : Op) : Option Mem :=
  match exec r op m with
  | .ok (_, m') => some m'
  | .error _ => none

/-- A walk without allocation and the test of `PTE_V`. -/
def lookup (pgtable va : Word) : Kernel (Option (Word × Word)) := do
  match ← walk pgtable va false with
  | none => pure none
  | some (t, i) =>
    let pte ← inspect (·.cell t i)
    if valid pte then pure (some (pteGetPa pte, pteGetAttribute pte)) else pure none

/-! ## The abstract map -/

/-- Page numbers to physical page and attributes. -/
abbrev PageMap := ℕ → Option (Word × Word)

/-- The attributes of an entry made with `attribute | PTE_V`. -/
def attributes (attr : Word) : Word := pteGetAttribute (attr ||| pteV)

/-- **What an operation does to the map**, given what it returns. -/
def Spec (f : PageMap) (op : Op) (err : Bool) (g : PageMap) : Prop :=
  match op, err with
  | .mapPage va pa attr, false =>
    va ≤ maxVa ∧ f (vpn va) = none ∧ g = update f (vpn va) (some (pa, attributes attr))
  | .mapNPages va n pa attr, false => (∀ j < n.toNat, f (vpn va + j) = none) ∧
    g = fun w => if vpn va ≤ w ∧ w < vpn va + n.toNat then
        some (pa + BitVec.ofNat 64 (w - vpn va) * pgsize, attributes attr) else f w
  | .mapPage .., true | .mapNPages .., true | .kalloc, _ | .kfree _, _ => g = f
  | .unmapPage va, _ | .unmapPageFree va, _ => f (vpn va) ≠ none ∧ g = update f (vpn va) none
  | .unmapNPages va n, _ | .unmapNPagesFree va n, _ =>
    (∀ w ∈ addressed va n.toNat, f w ≠ none) ∧
      g = fun w => if w ∈ addressed va n.toNat then none else f w
  | .unmapNPagesFreeHole va n, _ => g = fun w => if w ∈ addressed va n.toNat then none else f w

/-- **The table as the abstract map.** -/
def view (m : Mem) (r : Word) : PageMap := fun v =>
  (pages m r v).map fun pte => (pteGetPa pte, pteGetAttribute pte)

/-- The physical addresses of a mapping are aligned to pages and below `2 ^ 56`. -/
def Op.Aligned : Op → Prop
  | .mapPage _ pa _ => IsFrame pa
  | .mapNPages _ n pa _ => ∀ j < n.toNat, IsFrame (pa + BitVec.ofNat 64 j * pgsize)
  | _ => True

/-- The pages the table holds at `S` have no other use: they are not free, they are not table pages,
and no two of them are the same. -/
def Unshared (m : Mem) (r : Word) (S : Finset ℕ) : Prop :=
  ∀ l, FreeList m l → ∀ p, l.count p + (tables m r p + held (pages m r) S p) ≤ 1

/-- What is given back is the caller's. -/
def Op.Owned (m : Mem) (r : Word) : Op → Prop
  | .unmapPageFree va => Unshared m r {vpn va}
  | .unmapNPagesFree va n | .unmapNPagesFreeHole va n =>
    Unshared m r (addressed va n.toNat).toFinset
  | .kfree p => ∀ l, FreeList m l → l.count p + tables m r p = 0
  | _ => True

/-- **The table refines the map**, for the operations that meet `ok`. -/
structure Refines (ok : Mem → Op → Prop) (r : Word) (m : Mem) : Prop where
  /-- no table page is shared by two slots -/
  tree : ∀ p, tables m r p ≤ 1
  look : ∀ va, lookup r va m = .ok (view m r (vpn va), m)
  finite : ∀ v, view m r v ≠ none → v < maxVpn
  sim : ∀ op err m', ok m op → exec r op m = .ok (err, m') → Spec (view m r) op err (view m' r)
  /-- `map_page` returns `-1` above `MAX_VA` and when the table pages it needs cannot be had. -/
  refused : ∀ va pa attr m' l, FreeList m l → mapPage r va pa attr m = .ok (true, m') →
    va > maxVa ∨ avail m.deny l.length < need m r (vpn va)
  /-- Mapping unmapped pages does not panic. -/
  maps : ∀ va pa attr, view m r (vpn va) = none → ∃ err m', mapPage r va pa attr m = .ok (err, m')
  mapsN : ∀ va n pa attr, (∀ j < n.toNat, view m r (vpn va + j) = none) →
    ∃ err m', mapNPages r va n pa attr m = .ok (err, m')

variable {m m' m₀ m₁ : Mem} {l l₀ : List Word} {r va : Word} {v : ℕ} {op : Op} {err : Bool}
  {E : Panic → Prop}

/-! ## The view -/

theorem view_eq_none_iff : view m r v = none ↔ pages m r v = none := Option.map_eq_none_iff

theorem view_congr (h : pages m' r = pages m r) : view m' r = view m r := by
  unfold view
  rw [h]

theorem view_update {e : Option Word} (h : pages m' r = update (pages m r) v e) :
    view m' r = update (view m r) v (e.map fun pte => (pteGetPa pte, pteGetAttribute pte)) := by
  funext w
  by_cases hw : w = v
  · subst hw
    simp [view, h]
  · simp [view, h, hw]

theorem view_remove {p : ℕ → Prop} [DecidablePred p]
    (h : pages m' r = fun w => if p w then none else pages m r w) :
    view m' r = fun w => if p w then none else view m r w := by
  funext w
  by_cases hw : p w
  · simp [view, h, hw]
  · simp [view, h, hw]

theorem view_makePte {pa attr : Word} (h : IsFrame pa) :
    (pteGetPa (makePte pa (attr ||| pteV)), pteGetAttribute (makePte pa (attr ||| pteV))) =
      (pa, attributes attr) := by
  rw [pteGetPa_makePte h, pteGetAttribute_makePte]
  rfl

/-- **The view is what a walk finds.** -/
theorem lookup_eq (r va : Word) (m : Mem) : lookup r va m = .ok (view m r (vpn va), m) := by
  have hwp : wp (lookup r va) (fun res m' => m' = m ∧ res = view m r (vpn va)) (fun _ => False) m := by
    unfold lookup
    rw [wp_bind, wp_walk_noAlloc]
    cases hfind : find m r va with
    | none =>
      refine ⟨rfl, ?_⟩
      rw [view, pages_of_find_none hfind]
      rfl
    | some s =>
      obtain ⟨t, i⟩ := s
      obtain ⟨-, -, -, hentry⟩ := bottom_of_find hfind
      simp only [wp_bind, wp_inspect]
      rw [wp_ite]
      refine ⟨fun hv => ⟨rfl, ?_⟩, fun hv => ⟨rfl, ?_⟩⟩
      · simp only [view, hentry, leaf, if_pos hv, Option.map_some]
      · simp only [view, hentry, leaf, if_neg hv, Option.map_none]
  obtain ⟨res, m', hrun, rfl, rfl⟩ := hwp.ends
  exact hrun

/-! ## One operation -/

/-- A table that shares no page with the free list or with itself. -/
def Sound (r : Word) (m : Mem) : Prop :=
  ∃ l, FreeList m l ∧ ∀ p, l.count p + tables m r p ≤ 1

theorem Sound.of_moves {A : Word → ℕ} {l' : List Word} (honce : ∀ p, l.count p + (tables m r p + A p) ≤ 1)
    {B : Word → ℕ} (h : Moves m m' l l' (fun p => tables m r p + A p) (fun p => tables m' r p + B p)) :
    Sound r m' := by
  refine ⟨l', h.free, fun p => ?_⟩
  have hsame := h.same p
  have hp1 := honce p
  omega

/-- What an operation leaves of the table. -/
def Stepped (r : Word) (m : Mem) (op : Op) (err : Bool) (m' : Mem) : Prop :=
  Sound r m' ∧ Spec (view m r) op err (view m' r)

theorem mapPage_stepped {pa attr : Word} (hfree : FreeList m l)
    (honce : ∀ p, l.count p + tables m r p ≤ 1) (hal : IsFrame pa) :
    wp (mapPage r va pa attr) (Stepped r m (.mapPage va pa attr)) (fun _ => True) m := by
  refine wp_mono (mapPage_spec hfree honce) ?_ fun _ _ => trivial
  rintro (_ | _) m' hpost
  · obtain ⟨hlt, hnone, l', hmoves, hpages, -, -⟩ := hpost
    refine ⟨⟨l', hmoves.free, fun p => (hmoves.same p).trans_le (honce p)⟩, ?_,
      view_eq_none_iff.mpr hnone, ?_⟩
    · exact BitVec.not_lt.mp fun h => (vpn_lt_iff va).mp hlt h
    · rw [view_update hpages, Option.map_some, view_makePte hal]
  · obtain ⟨-, l', hmoves, hpages⟩ := hpost
    exact ⟨⟨l', hmoves.free, fun p => (hmoves.same p).trans_le (honce p)⟩, view_congr hpages⟩

theorem mapNPages_stepped {n : ℤ} {pa attr : Word} (hfree : FreeList m l)
    (honce : ∀ p, l.count p + tables m r p ≤ 1)
    (hal : ∀ j < n.toNat, IsFrame (pa + BitVec.ofNat 64 j * pgsize)) :
    wp (mapNPages r va n pa attr) (Stepped r m (.mapNPages va n pa attr)) (fun _ => True) m := by
  refine wp_mono (mapNPages_spec hfree honce) ?_ fun _ _ => trivial
  rintro (_ | _) m' ⟨⟨l', hmoves⟩, hpost⟩
  · obtain ⟨hnone, -, hpages⟩ := hpost
    refine ⟨⟨l', hmoves.free, fun p => (hmoves.same p).trans_le (honce p)⟩,
      fun j hj => view_eq_none_iff.mpr (hnone j hj), funext fun w => ?_⟩
    rw [view, hpages, spread]
    split
    · next hw => rw [Option.map_some, view_makePte (hal _ (by omega))]
    · rfl
  · exact ⟨⟨l', hmoves.free, fun p => (hmoves.same p).trans_le (honce p)⟩, view_congr hpost⟩

/-- Unmapping one page, freed or not. -/
theorem unmapPageFlex_stepped {free : Bool} {S : Finset ℕ} (hfree : FreeList m l)
    (honce : ∀ p, l.count p + (tables m r p + held (pages m r) S p) ≤ 1)
    (hS : free = true ↔ vpn va ∈ S) :
    wp (unmapPageFlex r va free true) (fun _ m' => Sound r m' ∧ view m r (vpn va) ≠ none ∧
      view m' r = update (view m r) (vpn va) none) (fun _ => True) m := by
  refine wp_mono (unmapPageFlex_spec hfree honce hS) ?_ fun _ _ => trivial
  rintro _ m' ⟨hstrict, hpages, l', hrel⟩
  exact ⟨.of_moves honce hrel.moves, fun h => hstrict rfl (view_eq_none_iff.mp h), view_update hpages⟩

/-- Unmapping many pages. -/
theorem unmapNPagesFlex_stepped {n : ℤ} {free strict : Bool} {S : Finset ℕ} (hfree : FreeList m l)
    (honce : ∀ p, l.count p + (tables m r p + held (pages m r) S p) ≤ 1)
    (hS : ∀ w ∈ addressed va n.toNat, free = true ↔ w ∈ S) :
    wp (unmapNPagesFlex r va n free strict) (fun _ m' => Sound r m' ∧
      (strict = true → ∀ w ∈ addressed va n.toNat, view m r w ≠ none) ∧
      view m' r = fun w => if w ∈ addressed va n.toNat then none else view m r w)
      (fun _ => True) m := by
  refine wp_mono (unmapLoop_spec n.toNat hfree honce hS) ?_ fun _ _ => trivial
  rintro _ m' ⟨hstrict, hpages, l', hrel⟩
  exact ⟨.of_moves honce hrel.moves, fun hs w hw h => hstrict hs w hw (view_eq_none_iff.mp h),
    view_remove hpages⟩

/-- **Every operation keeps the table sound and does to the view what the map does.** -/
theorem exec_stepped (h : Sound r m) (hal : op.Aligned) (hown : op.Owned m r) :
    wp (exec r op) (Stepped r m op) (fun _ => True) m := by
  obtain ⟨l, hfree, honce⟩ := h
  have hnothing : ∀ p, l.count p + (tables m r p + held (pages m r) ∅ p) ≤ 1 := by
    intro p
    rw [held_empty, Nat.add_zero]
    exact honce p
  cases op with
  | mapPage va pa attr =>
    rw [exec]
    exact mapPage_stepped hfree honce hal
  | mapNPages va n pa attr =>
    rw [exec]
    exact mapNPages_stepped hfree honce hal
  | unmapPage va =>
    rw [exec, wp_map]
    exact unmapPageFlex_stepped hfree hnothing (by simp)
  | unmapPageFree va =>
    rw [exec, wp_map]
    exact unmapPageFlex_stepped hfree (hown l hfree) (by simp)
  | unmapNPages va n =>
    rw [exec, wp_map]
    refine wp_post (unmapNPagesFlex_stepped hfree hnothing (by simp)) ?_
    exact fun _ m' ⟨hsound, hmapped, hview⟩ => ⟨hsound, hmapped rfl, hview⟩
  | unmapNPagesFree va n =>
    rw [exec, wp_map]
    refine wp_post (unmapNPagesFlex_stepped hfree (hown l hfree) (by simp)) ?_
    exact fun _ m' ⟨hsound, hmapped, hview⟩ => ⟨hsound, hmapped rfl, hview⟩
  | unmapNPagesFreeHole va n =>
    rw [exec, wp_map]
    refine wp_post (unmapNPagesFlex_stepped hfree (hown l hfree) (by simp)) ?_
    exact fun _ m' ⟨hsound, _, hview⟩ => ⟨hsound, hview⟩
  | kalloc =>
    rw [exec, wp_map]
    refine wp_post (kalloc_spec hfree) ?_
    rintro (_ | p) m' hpost
    · obtain ⟨-, d, rfl⟩ := hpost
      exact ⟨⟨l, hfree.congr rfl rfl fun _ _ => rfl, honce⟩, rfl⟩
    · obtain ⟨-, l', hmoves, -⟩ := hpost
      have hkept : ∀ q, 0 < tables m r q → m'.cell q = m.cell q := fun q =>
        hmoves.kept (R := tables m r) (honce q)
      obtain ⟨htab, -, hpages⟩ := table_congr hkept
      refine ⟨⟨l', hmoves.free, fun q => ?_⟩, view_congr hpages⟩
      have hq1 := hmoves.once (honce q)
      rw [htab]
      omega
  | kfree p =>
    rw [exec, wp_map]
    have hout := hown l hfree
    refine wp_mono (kfree_spec (p := p) hfree (by omega)) ?_ fun _ _ => trivial
    rintro _ m' ⟨-, hmoves, -⟩
    have hthree : ∀ q, l.count q + one p q + tables m r q ≤ 1 := by
      intro q
      by_cases hqp : q = p
      · subst hqp
        rw [one_self]
        omega
      · rw [one_of_ne hqp]
        exact honce q
    have hkept : ∀ q, 0 < tables m r q → m'.cell q = m.cell q := fun q => hmoves.kept (hthree q)
    obtain ⟨htab, -, hpages⟩ := table_congr hkept
    refine ⟨⟨_, hmoves.free, fun q => ?_⟩, view_congr hpages⟩
    have hq1 := hmoves.once (hthree q)
    rw [htab]
    simpa using hq1

/-! ## Whole runs -/

theorem step_eq_some_iff : step r m op = some m' ↔ ∃ err, exec r op m = .ok (err, m') := by
  unfold step
  cases exec r op m with
  | ok x =>
    obtain ⟨err, m''⟩ := x
    simp
  | error e => simp

/-- A table from `get_pagetable` is sound. -/
theorem sound_getPagetable (h : FreeList m₀ l₀) (hget : getPagetable m₀ = .ok (some r, m₁)) :
    Sound r m₁ := by
  obtain ⟨-, hzero, l₁, hmoves, -⟩ := (getClearPage_spec (E := fun _ => True) h).ok hget
  refine ⟨l₁, hmoves.free, fun p => ?_⟩
  have hown : tables m₁ r p = one r p := Radix.own_empty (next_zero hzero)
  have hsame := hmoves.same p
  have hle := List.nodup_iff_count.mp h.nodup p
  simp only [Pi.zero_apply] at hsame
  omega

/-- What a sound table satisfies. -/
theorem Sound.refines (h : Sound r m) : Refines (fun m op => op.Aligned ∧ op.Owned m r) r m where
  tree := by
    obtain ⟨l, -, honce⟩ := h
    exact fun p => (Nat.le_add_left _ _).trans (honce p)
  look va := lookup_eq r va m
  finite v hv := by
    by_contra hge
    exact hv (view_eq_none_iff.mpr (if_neg hge))
  sim op err m' hop hexec := ((exec_stepped h hop.1 hop.2).ok hexec).2
  refused va pa attr m' l' hl' hrun := by
    obtain ⟨l, hfree, honce⟩ := h
    obtain rfl := hfree.unique hl'
    obtain ⟨hwhy, -⟩ := (mapPage_spec hfree honce).ok hrun
    exact hwhy.imp (fun hge => by_contra fun hva => absurd ((vpn_lt_iff va).mpr hva) (by omega)) id
  maps va pa attr hnone := by
    obtain ⟨l, hfree, honce⟩ := h
    have hspec : wp (mapPage r va pa attr) (fun _ _ => True) (fun _ => False) m :=
      wp_mono (mapPage_spec hfree honce) (fun _ _ _ => trivial) fun e he =>
        he.2 (view_eq_none_iff.mp hnone)
    obtain ⟨err, m', hrun, -⟩ := hspec.ends
    exact ⟨err, m', hrun⟩
  mapsN va n pa attr hnone := by
    obtain ⟨l, hfree, honce⟩ := h
    have hspec : wp (mapNPages r va n pa attr) (fun _ _ => True) (fun _ => False) m :=
      wp_mono (mapNPages_spec hfree honce) (fun _ _ _ => trivial) fun e ⟨_, j, hj, hmapped⟩ =>
        hmapped (view_eq_none_iff.mp (hnone j hj))
    obtain ⟨err, m', hrun, -⟩ := hspec.ends
    exact ⟨err, m', hrun⟩

/-- **The page table refines the map**: in every run on a table from `get_pagetable`, with whatever
free list and whatever refusals of `kalloc`, whose physical addresses are aligned and whose freed
pages are the caller's. -/
theorem table_refines_map (hfree : FreeList m₀ l₀) (hget : getPagetable m₀ = .ok (some r, m₁))
    (hreach : Run.Reach (step r) (fun m op => op.Aligned ∧ op.Owned m r) m₁ m) :
    Refines (fun m op => op.Aligned ∧ op.Owned m r) r m := by
  refine Sound.refines (Run.Reach.invariant (sound_getPagetable hfree hget) ?_ hreach)
  intro m op m' hm hop hstep
  obtain ⟨err, hexec⟩ := step_eq_some_iff.mp hstep
  exact ((exec_stepped hm hop.1 hop.2).ok hexec).1

/-! ## A kernel with eight pages -/

/-- A kernel that ends eight pages below `MEMORY_END`. -/
def smallImage : Image where
  etext := 0x80002000
  kernelEnd := 0x87ff8000
  userTrapEntry := 0x80001000
  base_le := by decide
  entry_lt := by decide
  etext_le := by decide
  end_le := by decide

/-- Its memory after `kalloc_init`. -/
def smallMem : Mem :=
  match kallocInit { image := smallImage, head := 0, cell := fun _ _ => 0, deny := [] } with
  | .ok (_, m) => m
  | .error _ => { image := smallImage, head := 0, cell := fun _ _ => 0, deny := [] }

theorem smallMem_free : ∃ l, FreeList smallMem l := by
  have hinit := kallocInit_spec (E := fun _ => False)
    (m := { image := smallImage, head := 0, cell := fun _ _ => 0, deny := [] })
  obtain ⟨_, m', hrun, -, -, l, hfree, -⟩ := hinit.ends
  refine ⟨l, ?_⟩
  rw [smallMem, hrun]
  exact hfree

/-- The page at the head of its list. -/
def smallRoot : Word := 0x87fff000

/-- The table `get_pagetable` makes of it. -/
def smallTable : Mem :=
  match getPagetable smallMem with
  | .ok (_, m) => m
  | .error _ => smallMem

theorem smallTable_get : getPagetable smallMem = .ok (some smallRoot, smallTable) := by
  have hret : (match getPagetable smallMem with | .ok (r, _) => r | .error _ => none) =
      some smallRoot := by decide +kernel
  unfold smallTable
  cases hrun : getPagetable smallMem with
  | ok x =>
    rw [hrun] at hret
    obtain ⟨res, m⟩ := x
    obtain rfl : res = some smallRoot := hret
    rfl
  | error e =>
    rw [hrun] at hret
    cases hret

instance (pa : Word) : Decidable (IsFrame pa) :=
  decidable_of_iff (pa.toNat % 4096 = 0 ∧ pa.toNat < 2 ^ 56)
    ⟨fun h => ⟨h.1, h.2⟩, fun h => ⟨h.1, h.2⟩⟩

/-- The first `n` pages of a list. -/
def headPages (c : Word → Fin 512 → Word) : ℕ → Word → List Word
  | 0, _ => []
  | n + 1, p => if p = 0 then [] else p :: headPages c n (c p 0)

theorem headPages_eq {c : Word → Fin 512 → Word} : ∀ {n : ℕ} {p : Word} {l : List Word},
    (∀ q ∈ l, q ≠ 0) → Chain c p l → headPages c n p = l.take n
  | 0, _, _, _, _ => rfl
  | _ + 1, _, [], _, h => if_pos h
  | n + 1, p, q :: l, hne, h => by
    obtain ⟨rfl, hl⟩ := h
    rw [headPages, if_neg (hne p List.mem_cons_self),
      headPages_eq (fun q hq => hne q (List.mem_cons_of_mem p hq)) hl, List.take_succ_cons]

/-- **Pages of the caller**, read off a memory with at most eight free pages: they are neither free nor
in the table, and all different. -/
def callers (m : Mem) (r : Word) (ps : List Word) : Bool :=
  decide ((headPages m.cell 9 m.head).length < 9 ∧
    (headPages m.cell 9 m.head ++ freeOrder m.cell maxLevel r ++ ps).Nodup)

theorem callers_once {ps : List Word} (h : callers m r ps = true) (hfree : FreeList m l) (p : Word) :
    l.count p + (tables m r p + ps.count p) ≤ 1 := by
  obtain ⟨hshort, hnodup⟩ := of_decide_eq_true h
  have hhead : headPages m.cell 9 m.head = l.take 9 :=
    headPages_eq (fun q hq => (hfree.page q hq).ne_zero) hfree.chain
  have hall : l.take 9 = l := by
    rw [hhead, List.length_take] at hshort
    exact List.take_of_length_le (by omega)
  have hcount := List.nodup_iff_count.mp hnodup p
  rw [hhead, hall, List.count_append, List.count_append, count_freeOrder] at hcount
  rwa [← Nat.add_assoc]

/-- Some of the conditions on an operation, checked. -/
def Op.meets (m : Mem) (r : Word) : Op → Bool
  | .mapPage _ pa _ => decide (IsFrame pa)
  | .unmapPageFree va => callers m r ((pages m r (vpn va)).toList.map pteGetPa)
  | .kalloc => true
  | _ => false

theorem Op.owned_of_meets (h : op.meets m r = true) : op.Aligned ∧ op.Owned m r := by
  cases op with
  | mapPage va pa attr =>
    have hframe : IsFrame pa := of_decide_eq_true h
    exact ⟨hframe, trivial⟩
  | unmapPageFree va =>
    refine ⟨trivial, fun l hl p => ?_⟩
    have honce := callers_once h hl p
    rw [held, Finset.sum_singleton]
    cases hpte : pages m r (vpn va) with
    | none => simpa [hpte] using honce
    | some pte => simpa [hpte, count_cons_one] using honce
  | kalloc => exact ⟨trivial, trivial⟩
  | _ => cases h

/-- A page from `kalloc` is mapped, then a second page at the root index next to it. -/
def mapTwo (pa : Word) : List Op :=
  [.kalloc, .mapPage 0x1000 0x87ffe000 (pteR ||| pteU), .mapPage 0x40000000 pa pteR]

/-- The theorem on the run that maps two pages from `kalloc`, and gives the second one back. -/
theorem table_refines_map_mapTwo : ∃ m, (view m smallRoot 1).isSome = true ∧
    view m smallRoot 0x40000 = none ∧ m.head = 0x87ffd000 ∧
    Refines (fun m op => op.Aligned ∧ op.Owned m smallRoot) smallRoot m := by
  have hrun : (Run.run (Run.guard (step smallRoot) fun m op => op.meets m smallRoot) smallTable
      (.kalloc :: mapTwo 0x87ffd000 ++ [.unmapPageFree 0x40000000])).map (fun m =>
        ((view m smallRoot 1).isSome, view m smallRoot 0x40000, m.head)) =
      some (true, none, 0x87ffd000) := by
    decide +kernel
  obtain ⟨m, hm, hseen⟩ := Option.map_eq_some_iff.mp hrun
  obtain ⟨hone, hseen⟩ := Prod.mk.inj hseen
  obtain ⟨htwo, hhead⟩ := Prod.mk.inj hseen
  obtain ⟨l, hfree⟩ := smallMem_free
  exact ⟨m, hone, htwo, hhead, table_refines_map hfree smallTable_get
    (Run.reach_of_guard (fun _ _ => Op.owned_of_meets) .refl hm)⟩

/-- **Freeing what is not the caller's**: the second page is the root table itself.  Unmapping it with
`unmap_page_free` links the root into the free list, through its entry 0, and the first page is
gone. -/
theorem not_table_refines_map : ¬∀ (m₀ m₁ m : Mem) (l₀ : List Word) (r : Word), FreeList m₀ l₀ →
    getPagetable m₀ = .ok (some r, m₁) → Run.Reach (step r) (fun _ op => op.Aligned) m₁ m →
    Refines (fun _ op => op.Aligned) r m := by
  intro hall
  have hrun : (Run.run (Run.guard (step smallRoot) fun m op => op.meets m smallRoot) smallTable
      (mapTwo smallRoot)).bind (fun m => (step smallRoot m (.unmapPageFree 0x40000000)).map
        fun m' => ((view m smallRoot 1).isSome, (view m' smallRoot 1).isSome)) =
      some (true, false) := by
    decide +kernel
  obtain ⟨m, hm, hrun⟩ := Option.bind_eq_some_iff.mp hrun
  obtain ⟨m', hm', hview⟩ := Option.map_eq_some_iff.mp hrun
  obtain ⟨hbefore, hafter⟩ := Prod.mk.inj hview
  obtain ⟨l, hfree⟩ := smallMem_free
  have href := hall _ _ m l _ hfree smallTable_get (Run.reach_of_guard
    (fun _ _ h => (Op.owned_of_meets h).1) .refl hm)
  obtain ⟨err, hexec⟩ := step_eq_some_iff.mp hm'
  obtain ⟨-, hspec⟩ := href.sim (.unmapPageFree 0x40000000) err m' trivial hexec
  have hother : view m' smallRoot 1 = view m smallRoot 1 := by
    rw [hspec]
    exact Function.update_of_ne (by decide) _ _
  rw [hother, hbefore] at hafter
  cases hafter

end Vm
