import Myv6.Vm.Table

/-!
# Vm/User — the page table of a process

    0x1000              USTACK_BASE   TRAPFRAME_BASE   TRAMPOLINE_BASE
    | image … heap | …  | stack       | trap frame     | trampoline    |
    └─ userPages ─────┘

What a user table owns is its `space`: its table pages and the pages it maps below the stack.  `Holds`
is the state all of the process code works in: the free list, one user table, and whatever else is
owned beside them.
-/

namespace Vm

open Function (update)
open Hoare Own

def trampolineBase : Word := vaEnd - pgsize

def procVaStart : Word := 0x1000

def procVaEnd : Word := vaEnd - pgsize * 4

def ustackBase : Word := vaEnd - pgsize * 3

def trapframeBase : Word := vaEnd - pgsize * 2

/-- `int` of a `uint64`. -/
def intOf (w : Word) : ℤ := (w.truncate 32).toInt

/-- `memcpy` of a whole page.  The kernel maps the memory from `KERNEL_BASE` on; the windows of the
devices, which are no page of anybody, are left out. -/
def memcpyPage (dst src : Word) : Kernel Unit :=
  if kernelBase ≤ src ∧ src < memoryEnd then
    alter fun m => m.fill dst (m.cell src)
  else
    panic .kernelTrap

/-- The page numbers below the stack. -/
@[irreducible] def userPages : Finset ℕ := Finset.range 67108861

theorem mem_userPages_iff {v : ℕ} : v ∈ userPages ↔ v < 67108861 := by
  unfold userPages
  exact Finset.mem_range

theorem vpn_procVaStart : vpn procVaStart = 1 := by decide

theorem vpn_ustackBase : vpn ustackBase = 67108861 := by decide

theorem vpn_trapframeBase : vpn trapframeBase = 67108862 := by decide

theorem vpn_trampolineBase : vpn trampolineBase = 67108863 := by decide

theorem maxVpn_eq : maxVpn = 67108864 := by decide

/-- **What a table owns**: its table pages and the pages it maps at the page numbers of `S`, for a
finished table those below the stack. -/
def space (S : Finset ℕ) (m : Mem) (r p : Word) : ℕ := tables m r p + held (pages m r) S p

/-- **One table** beside the free list and whatever else is owned. -/
structure Holds (S : Finset ℕ) (m : Mem) (l : List Word) (r : Word) (R : Word → ℕ) : Prop where
  free : FreeList m l
  once : ∀ p, l.count p + space S m r p + R p ≤ 1
  page : ∀ p, 0 < space S m r p → m.image.IsPage p

variable {m m' m'' : Mem} {l l' l'' : List Word} {r va p : Word} {R R' : Word → ℕ} {v w k : ℕ}
  {attr : Word} {S : Finset ℕ} {E : Panic → Prop}

namespace Holds

theorem tables_once (h : Holds S m l r R) (p : Word) : l.count p + tables m r p ≤ 1 := by
  have hp := h.once p
  unfold space at hp
  omega

theorem space_once (h : Holds S m l r R) (p : Word) :
    l.count p + (tables m r p + held (pages m r) S p) ≤ 1 := by
  have hp := h.once p
  unfold space at hp
  omega

/-- A transfer between the list and the table. -/
theorem of_moves (h : Holds S m l r R) (hmoves : Moves m m' l l' (space S m r) (space S m' r)) :
    Holds S m' l' r R where
  free := hmoves.free
  once p := by
    have hp := h.once p
    have hsame := hmoves.same p
    omega
  page p hp := by
    rw [hmoves.image]
    by_cases hs : 0 < space S m r p
    · exact h.page p hs
    · have hsame := hmoves.same p
      exact h.free.page p (List.count_pos_iff.mp (by omega))

/-- What is owned beside is not written. -/
theorem kept (h : Holds S m l r R) (hmoves : Moves m m' l l' (space S m r) (space S m' r))
    (hR : 0 < R p) : m'.cell p = m.cell p :=
  hmoves.kept (h.once p) hR

theorem congr (h : Holds S m l r R) (hR : ∀ p, R' p = R p) : Holds S m l r R' :=
  ⟨h.free, fun p => by rw [hR]; exact h.once p, h.page⟩

/-- Owning less beside. -/
theorem mono (h : Holds S m l r R) (hR : ∀ p, R' p ≤ R p) : Holds S m l r R' :=
  ⟨h.free, fun p => (Nat.add_le_add_left (hR p) _).trans (h.once p), h.page⟩

end Holds

/-- **A table beside a transfer of other pages** stays as it is. -/
theorem Moves.space {A B : Word → ℕ} (h : Moves m m' l l' A B)
    (honce : ∀ p, l.count p + A p + tables m r p ≤ 1) : space S m' r = space S m r := by
  obtain ⟨htab, -, hpages⟩ := h.table honce
  funext p
  unfold Vm.space
  rw [htab, hpages]

/-! ## A page in the hand -/

/-- What `kalloc` leaves of a process. -/
def KallocedFor (S : Finset ℕ) (m : Mem) (l : List Word) (r : Word) (R : Word → ℕ) : Option Word → Mem → Prop
  | none, m' => avail m.deny l.length = 0 ∧ Holds S m' l r R ∧ ∃ d, m' = { m with deny := d }
  | some p, m' => m.image.IsPage p ∧ ∃ l', Holds S m' l' r (fun q => R q + one p q) ∧
      Moves m m' l l' 0 (one p) ∧ tables m' r = tables m r ∧ need m' r = need m r ∧
      pages m' r = pages m r ∧ avail m.deny l.length = avail m'.deny l'.length + 1

/-- **`kalloc` takes a page in the hand.** -/
theorem kalloc_holds (h : Holds S m l r R) : wp kalloc (KallocedFor S m l r R) E m := by
  refine wp_post (kalloc_spec h.free) ?_
  rintro (_ | p) m' hpost
  · obtain ⟨havail, d, rfl⟩ := hpost
    exact ⟨havail, ⟨h.free.congr rfl rfl fun _ _ => rfl, h.once, h.page⟩, d, rfl⟩
  · obtain ⟨hpage, l', hmoves, havail⟩ := hpost
    have honce : ∀ q, l.count q + (0 : Word → ℕ) q + tables m r q ≤ 1 := h.tables_once
    obtain ⟨htab, hneed, hpages⟩ := hmoves.table honce
    refine ⟨hpage, l', ⟨hmoves.free, fun q => ?_, fun q hq => ?_⟩, hmoves, htab, hneed, hpages, havail⟩
    · have hq := h.once q
      have hsame := hmoves.same q
      rw [hmoves.space honce]
      simp only [Pi.zero_apply] at hsame
      omega
    · rw [hmoves.image]
      rw [hmoves.space honce] at hq
      exact h.page q hq

/-- What `get_pagetable` leaves: an empty table. -/
def Rooted (S : Finset ℕ) (m : Mem) (l : List Word) (R : Word → ℕ) : Option Word → Mem → Prop
  | none, m' => avail m.deny l.length = 0 ∧ ∃ d, m' = { m with deny := d }
  | some r, m' => ∃ l', Holds S m' l' r R ∧ Moves m m' l l' 0 (space S m' r) ∧
      (∀ w, pages m' r w = none) ∧ (∀ w, need m' r w = maxLevel) ∧
      avail m.deny l.length = avail m'.deny l'.length + 1

/-- **`get_pagetable` makes an empty table.** -/
theorem getPagetable_holds (hfree : FreeList m l) (honce : ∀ p, l.count p + R p ≤ 1) :
    wp getPagetable (Rooted S m l R) E m := by
  refine wp_post (getClearPage_spec hfree) ?_
  rintro (_ | r) m' hpost
  · exact hpost
  · obtain ⟨hpage, hzero, l', hmoves, havail⟩ := hpost
    have hnext : ∀ i, layout.next (m'.cell r) i = none := next_zero hzero
    have hpages : ∀ w, pages m' r w = none := by
      intro w
      rw [pages, entry_zero hzero, ite_self]
    have hspace : ∀ p, space S m' r p = one r p := by
      intro p
      have htab : tables m' r p = one r p := Radix.own_empty hnext
      have hheld : held (pages m' r) S p = 0 :=
        Finset.sum_eq_zero fun w _ => by rw [hpages]; rfl
      rw [space, htab, hheld, Nat.add_zero]
    refine ⟨l', ⟨hmoves.free, fun p => ?_, fun p hp => ?_⟩, hmoves.congr (fun _ => rfl) hspace, hpages,
      fun w => Radix.need_empty hnext, havail⟩
    · have hp := honce p
      have hsame := hmoves.same p
      rw [hspace]
      simp only [Pi.zero_apply] at hsame
      omega
    · rw [hspace] at hp
      rw [eq_of_one_pos hp, hmoves.image]
      exact hpage

/-- **`kfree` of a page in the hand.** -/
theorem kfree_holds (h : Holds S m l r (fun q => R q + one p q)) (hpage : m.image.IsPage p) :
    wp (kfree p) (fun _ m' => m'.deny = m.deny ∧ Holds S m' (p :: l) r R ∧
      Moves m m' l (p :: l) (one p) 0 ∧ tables m' r = tables m r ∧ need m' r = need m r ∧
      pages m' r = pages m r) E m := by
  have hin : l.count p = 0 := by
    have hp := h.once p
    simp only [one_self] at hp
    omega
  refine wp_mono (kfree_spec h.free hin) ?_ fun e he => absurd hpage he.2
  rintro _ m' ⟨-, hmoves, hdeny⟩
  have honce : ∀ q, l.count q + one p q + tables m r q ≤ 1 := by
    intro q
    have hq := h.once q
    unfold space at hq
    omega
  obtain ⟨htab, hneed, hpages⟩ := hmoves.table honce
  refine ⟨hdeny, ⟨hmoves.free, fun q => ?_, fun q hq => ?_⟩, hmoves, htab, hneed, hpages⟩
  · have hq := h.once q
    have hsame := hmoves.same q
    rw [hmoves.space honce]
    simp only [Pi.zero_apply] at hsame
    omega
  · rw [hmoves.image]
    rw [hmoves.space honce] at hq
    exact h.page q hq

/-- **`kfree` of an owned page**, beside whatever else is owned. -/
theorem kfree_moves {A : Word → ℕ} (hfree : FreeList m l) (hpage : m.image.IsPage p)
    (honce : ∀ q, l.count q + (A q + one p q) ≤ 1) : wp (kfree p)
      (fun _ m' => m'.deny = m.deny ∧ Moves m m' l (p :: l) (fun q => A q + one p q) A) E m := by
  have hin : l.count p = 0 := by
    have hp := honce p
    rw [one_self] at hp
    omega
  refine wp_mono (kfree_spec hfree hin) ?_ fun e he => absurd hpage he.2
  rintro _ m' ⟨-, hmoves, hdeny⟩
  exact ⟨hdeny, (hmoves.beside A).congr (fun q => Nat.add_comm _ _) fun q => (Nat.zero_add _).symm⟩

/-- **`free_page_table`** gives the table pages back; the pages that the table maps are then held by
nobody. -/
theorem freePageTable_moves {A : Word → ℕ} (hfree : FreeList m l)
    (honce : ∀ q, l.count q + (space S m r q + A q) ≤ 1)
    (hpage : ∀ q, 0 < space S m r q → m.image.IsPage q) :
    wp (freePageTable r) (fun _ m' => m'.deny = m.deny ∧ ∃ l',
      Moves m m' l l' (fun q => space S m r q + A q) (fun q => held (pages m r) S q + A q)) E m := by
  have htab : ∀ q, l.count q + tables m r q ≤ 1 := by
    intro q
    have hq := honce q
    unfold space at hq
    omega
  refine wp_post (freePageTable_spec hfree htab fun q hq => hpage q ?_) ?_
  · unfold space
    omega
  · rintro _ m' ⟨hdeny, l', hmoves⟩
    refine ⟨hdeny, l', (hmoves.beside fun q => held (pages m r) S q + A q).congr (fun q => ?_)
      fun q => (Nat.zero_add _).symm⟩
    unfold space
    omega

/-- What a table without pages at `S` holds there. -/
theorem held_eq_zero {f : ℕ → Option Word} (hnone : ∀ w ∈ S, f w = none) (q : Word) :
    held f S q = 0 :=
  Finset.sum_eq_zero fun w hw => by rw [hnone w hw]; rfl

/-- **A page owned beside is filled.** -/
theorem Holds.write (h : Holds S m l r R) (hR : 0 < R p) (f : Fin 512 → Word) :
    Holds S (m.fill p f) l r R ∧ Moves m (m.fill p f) l l R R ∧ tables (m.fill p f) r = tables m r ∧
      need (m.fill p f) r = need m r ∧ pages (m.fill p f) r = pages m r := by
  have hp := h.once p
  have hmoves : Moves m (m.fill p f) l l R R := .of_fill h.free (by omega) hR f
  have honce : ∀ q, l.count q + R q + tables m r q ≤ 1 := by
    intro q
    have hq := h.once q
    unfold space at hq
    omega
  obtain ⟨htab, hneed, hpages⟩ := hmoves.table honce
  refine ⟨⟨hmoves.free, fun q => ?_, fun q hq => ?_⟩, hmoves, htab, hneed, hpages⟩
  · rw [hmoves.space honce]
    exact h.once q
  · rw [hmoves.space honce] at hq
    exact h.page q hq

/-- What `map_page` of a page in the hand leaves. -/
def Handed (S : Finset ℕ) (m : Mem) (l : List Word) (r va p attr : Word) (R : Word → ℕ) :
    Bool → Mem → Prop
  | true, m' => (maxVpn ≤ vpn va ∨ avail m.deny l.length < need m r (vpn va)) ∧
      ∃ l', Holds S m' l' r (fun q => R q + one p q) ∧
      Moves m m' l l' (space S m r) (space S m' r) ∧ Moves m m' l l' (tables m r) (tables m' r) ∧
      pages m' r = pages m r
  | false, m' => pages m r (vpn va) = none ∧ ∃ l', Holds S m' l' r R ∧
      Moves m m' l l' (fun q => space S m r q + one p q) (space S m' r) ∧
      Moves m m' l l' (tables m r) (tables m' r) ∧
      pages m' r = update (pages m r) (vpn va) (some (makePte p (attr ||| pteV))) ∧
      (∀ w, need m' r w = min (need m r w) (apart (vpn va) w)) ∧
      avail m.deny l.length = avail m'.deny l'.length + need m r (vpn va)

/-- **`map_page` puts a page from the hand into the table.** -/
theorem mapPage_hand (h : Holds S m l r (fun q => R q + one p q)) (hpage : m.image.IsPage p)
    (hva : vpn va < maxVpn → vpn va ∈ S) : wp (mapPage r va p attr) (Handed S m l r va p attr R)
      (fun e => e = .mapMapped ∧ pages m r (vpn va) ≠ none) m := by
  refine wp_post (mapPage_spec h.free h.tables_once) ?_
  rintro (_ | _) m' hpost
  · obtain ⟨hlt, hnone, l', hmoves, hpages, hneed, havail⟩ := hpost
    have hheld : ∀ q, held (pages m' r) S q = one p q + held (pages m r) S q := by
      intro q
      have hupd := held_update (f := pages m r)
        (e := some (makePte p (attr ||| pteV))) (p := q) (hva hlt)
      rw [hnone, ← hpages] at hupd
      simpa [pteGetPa_makePte hpage.isFrame] using hupd
    have hshift : Moves m m' l l' (fun q => space S m r q + one p q) (space S m' r) := by
      refine (hmoves.beside fun q => held (pages m r) S q + one p q).congr (fun q => ?_)
        fun q => ?_
      · exact Nat.add_assoc _ _ _
      · unfold space
        rw [hheld, Nat.add_comm (one p q)]
    refine ⟨hnone, l', ⟨hshift.free, fun q => ?_, fun q hq => ?_⟩, hshift, hmoves, hpages, hneed,
      havail⟩
    · have hq := h.once q
      have hsame := hshift.same q
      omega
    · rw [hshift.image]
      have hsame := hshift.same q
      have honce := h.once q
      by_cases hs : 0 < space S m r q
      · exact h.page q hs
      · by_cases hqp : q = p
        · exact hqp ▸ hpage
        · simp only [one_of_ne hqp] at hsame
          exact h.free.page q (List.count_pos_iff.mp (by omega))
  · obtain ⟨hwhy, l', hmoves, hpages⟩ := hpost
    have hshift : Moves m m' l l' (space S m r) (space S m' r) := by
      refine (hmoves.beside (held (pages m r) S)).congr (fun q => rfl) fun q => ?_
      unfold space
      rw [hpages]
    exact ⟨hwhy, l', h.of_moves hshift, hshift, hmoves, hpages⟩

/-- **One table seen as owning less**: what it maps outside `S` is owned beside it. -/
theorem Holds.split {T : Finset ℕ} (h : Holds T m l r R) (hST : S ⊆ T) :
    Holds S m l r (fun q => R q + held (pages m r) (T \ S) q) := by
  have hsum : ∀ q, held (pages m r) (T \ S) q + held (pages m r) S q = held (pages m r) T q := fun q =>
    Finset.sum_sdiff hST
  refine ⟨h.free, fun q => ?_, fun q hq => h.page q ?_⟩
  · have hq := h.once q
    have hs := hsum q
    unfold space at hq ⊢
    omega
  · have hs := hsum q
    unfold space at hq ⊢
    omega

/-- Seen as owning it again. -/
theorem Holds.join {T : Finset ℕ} (h : Holds S m l r (fun q => R q + held (pages m r) (T \ S) q))
    (hST : S ⊆ T) (hpage : ∀ q, 0 < held (pages m r) (T \ S) q → m.image.IsPage q) :
    Holds T m l r R := by
  have hsum : ∀ q, held (pages m r) (T \ S) q + held (pages m r) S q = held (pages m r) T q := fun q =>
    Finset.sum_sdiff hST
  refine ⟨h.free, fun q => ?_, fun q hq => ?_⟩
  · have hq := h.once q
    have hs := hsum q
    unfold space at hq ⊢
    omega
  · by_cases hout : 0 < held (pages m r) (T \ S) q
    · exact hpage q hout
    · have hs := hsum q
      refine h.page q ?_
      unfold space at hq ⊢
      omega

/-- `held` looks at the page numbers of `S` alone. -/
theorem held_congr {f g : ℕ → Option Word} (h : ∀ w ∈ S, f w = g w) (q : Word) :
    held f S q = held g S q :=
  Finset.sum_congr rfl fun w hw => by rw [h w hw]

/-- What a map keeps of another it holds at most as often. -/
theorem held_le {f g : ℕ → Option Word} {T : Finset ℕ} (h : ∀ w, f w ≠ none → w ∈ S ∧ f w = g w)
    (q : Word) : held f T q ≤ held g S q := by
  calc held f T q
      ≤ held f S q := Finset.sum_le_sum_of_ne_zero fun w _ hne => (h w fun hf => hne (by rw [hf]; rfl)).1
    _ ≤ held g S q := Finset.sum_le_sum fun w _ => by
        cases hf : f w with
        | none => exact Nat.zero_le _
        | some e => rw [← (h w (by rw [hf]; nofun)).2, hf]

/-! ## Giving pages back -/

/-- **A freeing loop over a table**, none of whose turns meets a page that the table does not own. -/
theorem unmapLoop_user {strict : Bool} (h : Holds S m l r R)
    (hin : ∀ w ∈ addressed va k, w ∉ S → pages m r w = none) :
    wp (unmapLoop r true strict k va) (fun _ m' =>
        (strict = true → ∀ w ∈ addressed va k, pages m r w ≠ none) ∧
        (pages m' r = fun w => if w ∈ addressed va k then none else pages m r w) ∧
        need m' r = need m r ∧ m'.deny = m.deny ∧
        ∃ l', Holds S m' l' r R ∧ Moves m m' l l' (space S m r) (space S m' r))
      (fun e => e = .unmapUnmapped ∧ strict = true ∧
        ((∃ w ∈ addressed va k, pages m r w = none) ∨ 2 ^ 52 < k)) m := by
  have hS : S ⊆ S ∪ (addressed va k).toFinset := Finset.subset_union_left
  have hheld : ∀ p, held (pages m r) (S ∪ (addressed va k).toFinset) p =
      held (pages m r) S p := by
    intro p
    refine held_subset hS fun v hv hnot => ?_
    rw [Finset.mem_union, List.mem_toFinset] at hv
    exact hin v (hv.resolve_left hnot) hnot
  refine wp_mono (unmapLoop_spec (S := S ∪ (addressed va k).toFinset) k h.free
    (fun p => by rw [hheld]; exact h.space_once p)
    fun w hw => by simp [hw]) ?_ ?_
  · rintro _ m' ⟨hstrict, hpages, l', hrel⟩
    have hheld' : ∀ p, held (pages m' r) (S ∪ (addressed va k).toFinset) p =
        held (pages m' r) S p := by
      intro p
      refine held_subset hS fun v hv hnot => ?_
      rw [Finset.mem_union, List.mem_toFinset] at hv
      rw [hpages]
      exact if_pos (hv.resolve_left hnot)
    have hmoves : Moves m m' l l' (space S m r) (space S m' r) :=
      hrel.moves.congr (fun p => by rw [hheld]; rfl) fun p => by rw [hheld']; rfl
    exact ⟨hstrict, hpages, hrel.need_eq, hrel.deny, l', h.of_moves hmoves, hmoves⟩
  · rintro e (hbad | ⟨-, -, w, hw, pte, hpte, hbad⟩)
    · exact hbad
    · refine absurd (h.page _ ?_) hbad
      have hmem : w ∈ S := by
        by_contra hnot
        rw [hin w hw hnot] at hpte
        cases hpte
      have hle := frameOf_le_held (f := pages m r) (p := pteGetPa pte) hmem
      rw [hpte, frameOf_some, one_self] at hle
      exact Nat.lt_of_lt_of_le hle (Nat.le_add_left _ _)

/-- **The pages of a range**, all of them mapped, are given back; nothing else is touched. -/
theorem unmapNPagesFree_range (h : Holds S m l r R) (hS : ∀ w, vpn va ≤ w ∧ w < vpn va + k → w ∈ S)
    (hbound : vpn va + k ≤ maxVpn) (hmapped : ∀ w, vpn va ≤ w ∧ w < vpn va + k → pages m r w ≠ none) :
    wp (unmapNPagesFree r va k) (fun _ m' =>
        (∃ l', Holds S m' l' r R ∧ Moves m m' l l' (space S m r) (space S m' r)) ∧
        (∀ q, 0 < held (pages m r) (S \ Finset.Ico (vpn va) (vpn va + k)) q → m'.cell q = m.cell q) ∧
        (∀ w, pages m' r w = if vpn va ≤ w ∧ w < vpn va + k then none else pages m r w) ∧
        m'.deny = m.deny) E m := by
  have hsub : Finset.Ico (vpn va) (vpn va + k) ⊆ S := by
    intro w hw
    exact hS w (Finset.mem_Ico.mp hw)
  unfold unmapNPagesFree unmapNPagesFlex
  rw [Int.toNat_natCast]
  refine wp_mono (unmapLoop_user (h.split hsub) fun w hw hnot =>
    absurd (Finset.mem_Ico.mpr ((mem_addressed_of_le hbound).mp hw)) hnot) ?_ ?_
  · rintro _ m' ⟨-, hpages, -, hdeny, l', hholds, hmoves⟩
    simp only [mem_addressed_of_le hbound, funext_iff] at hpages
    have hout : ∀ w ∈ S \ Finset.Ico (vpn va) (vpn va + k), pages m' r w = pages m r w := by
      intro w hw
      rw [Finset.mem_sdiff, Finset.mem_Ico] at hw
      rw [hpages, if_neg hw.2]
    have hsum : ∀ f q, held f (S \ Finset.Ico (vpn va) (vpn va + k)) q +
        held f (Finset.Ico (vpn va) (vpn va + k)) q = held f S q := fun f q => Finset.sum_sdiff hsub
    refine ⟨⟨l', ?_, ?_⟩, fun q hq => (h.split hsub).kept hmoves (by omega), hpages, hdeny⟩
    · refine Holds.join (hholds.congr fun q => by rw [held_congr hout]) hsub fun q hq => ?_
      have hwhole := hsum (pages m r) q
      rw [held_congr hout] at hq
      rw [hmoves.image]
      exact h.page q (by unfold space; omega)
    · refine (hmoves.beside (held (pages m r) (S \ Finset.Ico (vpn va) (vpn va + k)))).congr
        (fun q => ?_) fun q => ?_
      · have hwhole := hsum (pages m r) q
        unfold space
        omega
      · have hwhole := hsum (pages m' r) q
        rw [← held_congr hout]
        unfold space
        omega
  · rintro e ⟨-, -, ⟨w, hw, hnone⟩ | hbig⟩
    · exact absurd hnone (hmapped w ((mem_addressed_of_le hbound).mp hw))
    · rw [maxVpn_eq] at hbound
      omega

/-- The page numbers of a range below the stack. -/
theorem addressed_user (h : vpn va + k ≤ 67108861) :
    ∀ w ∈ addressed va k, w ∈ userPages := by
  intro w hw
  rw [mem_addressed_of_le (by rw [maxVpn_eq]; omega)] at hw
  rw [mem_userPages_iff]
  omega

end Vm
