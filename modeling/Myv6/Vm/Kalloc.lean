import Mathlib.Tactic.Push
import Myv6.Lib.Hoare
import Myv6.Lib.Own
import Myv6.Vm.Pte

/-!
# Vm/Kalloc — physical memory and its allocator

    head ──▸ page ──▸ page ──▸ … ──▸ NULL      the list is threaded through word 0 of its pages

Memory is pages of 512 words.  `FreeList m l` reads the list off the memory, and `Moves` is the
transfer of ownership all of `vm.c` is specified by: pages go between the list and their owners,
none is lost, and no page of anybody else is written.
-/

namespace Vm

open Function (update)
open Hoare Own

def kernelBase : Word := 0x80000000

def memorySize : Word := 128 * (1#64 <<< 20)

def memoryEnd : Word := kernelBase + memorySize

/-- The symbols of the linked kernel that the code uses. -/
structure Image where
  /-- `etext`, the end of the text -/
  etext : Word
  /-- `kernel_end` -/
  kernelEnd : Word
  /-- `user_trap_entry`, in the text -/
  userTrapEntry : Word
  base_le : kernelBase.toNat ≤ userTrapEntry.toNat
  entry_lt : userTrapEntry.toNat < etext.toNat
  etext_le : etext.toNat ≤ kernelEnd.toNat
  end_le : kernelEnd.toNat ≤ memoryEnd.toNat

/-- A page that `kfree` takes: between `kernel_end` and `MEMORY_END`, aligned. -/
structure Image.IsPage (k : Image) (p : Word) : Prop where
  ge : k.kernelEnd.toNat ≤ p.toNat
  lt : p.toNat < memoryEnd.toNat
  aligned : p.toNat % 4096 = 0

/-- The panics of the memory code and of the process code on top of it. -/
inductive Panic
  /-- "free invalid page" -/
  | freeInvalidPage
  /-- "try to map page that has been mapped" -/
  | mapMapped
  /-- "unmap unmaped page" -/
  | unmapUnmapped
  /-- "kernel trap", here on an address that the kernel does not map -/
  | kernelTrap
  /-- "try to free unused pid" -/
  | freeUnusedPid
  /-- "filedup" -/
  | filedup
  /-- "fail to add child to parent's proc group" -/
  | forkIntoGroup
  /-- "mem_brk > mem_end" -/
  | brkBeyondEnd
  /-- "mem_end is not aligned to PGSIZE" -/
  | memEndUnaligned
  deriving DecidableEq, Repr

/-- Physical memory and the list of its free pages. -/
structure Mem where
  image : Image
  /-- `mem_container.head`, 0 for `NULL` -/
  head : Word
  /-- the 64-bit words of a page, by its address -/
  cell : Word → Fin 512 → Word
  /-- for each of the next calls of `kalloc`, whether the other CPUs have left it nothing; past the
  end of the list, they have not -/
  deny : List Bool

/-- The memory code. -/
abbrev Kernel := Prog Mem Panic

/-- `*(page + 8 * i) = w`. -/
def Mem.write (m : Mem) (p : Word) (i : Fin 512) (w : Word) : Mem :=
  { m with cell := update m.cell p (update (m.cell p) i w) }

/-- A page overwritten as a whole. -/
def Mem.fill (m : Mem) (p : Word) (f : Fin 512 → Word) : Mem :=
  { m with cell := update m.cell p f }

/-- What `make_garbage_value` writes. -/
def garbage : Word := 0x0505050505050505

def kalloc : Kernel (Option Word) := fun m =>
  let m' := { m with deny := m.deny.tail }
  if m.deny.head? = some true ∨ m.head = 0 then
    .ok (none, m')
  else
    .ok (some m.head, { m' with head := m.cell m.head 0 }.fill m.head fun _ => garbage)

def kfree (p : Word) : Kernel Unit := fun m =>
  if p < m.image.kernelEnd ∨ p ≥ memoryEnd ∨ p % pgsize ≠ 0 then
    .error .freeInvalidPage
  else if p = 0 then
    .ok ((), m)
  else
    .ok ((), { m.write p 0 m.head with head := p })

/-- The loop of `kalloc_init`, with the turns left. -/
def kallocInitLoop : ℕ → Word → Kernel Unit
  | 0, _ => pure ()
  | k + 1, curPage => do
    kfree curPage
    kallocInitLoop k (curPage + pgsize)

/-- The loop ends where `cur_page` meets `MEMORY_END`. -/
def kallocInit : Kernel Unit := do
  alter ({ · with head := 0 })
  let start ← inspect fun m => roundUpPgsize m.image.kernelEnd
  kallocInitLoop ((memoryEnd - start).toNat / 4096) start

def getClearPage : Kernel (Option Word) := do
  match ← kalloc with
  | none => pure none
  | some pg =>
    alter (·.fill pg fun _ => 0)
    pure (some pg)

def getPagetable : Kernel (Option Word) := getClearPage

/-! ## The free list -/

/-- The list threaded through word 0 of its pages. -/
def Chain (c : Word → Fin 512 → Word) : Word → List Word → Prop
  | h, [] => h = 0
  | h, p :: l => h = p ∧ Chain c (c p 0) l

theorem Chain.congr {c c' : Word → Fin 512 → Word} {l : List Word} :
    ∀ {h : Word}, (∀ p ∈ l, c' p = c p) → Chain c h l → Chain c' h l := by
  induction l with
  | nil => exact fun _ h => h
  | cons p l ih =>
    intro h hc hl
    refine ⟨hl.1, ?_⟩
    rw [hc p (by simp)]
    exact ih (fun q hq => hc q (by simp [hq])) hl.2

/-- **The free list of a memory.** -/
structure FreeList (m : Mem) (l : List Word) : Prop where
  chain : Chain m.cell m.head l
  page : ∀ p ∈ l, m.image.IsPage p
  nodup : l.Nodup

variable {m m' m'' : Mem} {l l' l'' : List Word} {p q : Word}

theorem Image.IsPage.ne_zero {k : Image} (h : k.IsPage p) : p ≠ 0 := by
  rintro rfl
  have hlow := h.ge
  have hent := k.entry_lt
  have htext := k.etext_le
  rw [show (0 : Word).toNat = 0 from rfl] at hlow
  omega

theorem Chain.unique {c : Word → Fin 512 → Word} {k : Image} {l : List Word} :
    ∀ {h : Word} {l' : List Word}, (∀ p ∈ l, k.IsPage p) → (∀ p ∈ l', k.IsPage p) →
      Chain c h l → Chain c h l' → l = l' := by
  induction l with
  | nil =>
    intro h l' _ hl' hc hc'
    cases l' with
    | nil => rfl
    | cons p l' => exact absurd (hc'.1.symm.trans hc) (hl' p (by simp)).ne_zero
  | cons p l ih =>
    intro h l' hl hl' hc hc'
    cases l' with
    | nil => exact absurd (hc.1.symm.trans hc') (hl p (by simp)).ne_zero
    | cons q l' =>
      obtain rfl : p = q := hc.1.symm.trans hc'.1
      rw [ih (fun x hx => hl x (by simp [hx])) (fun x hx => hl' x (by simp [hx])) hc.2 hc'.2]

/-- A memory has one free list. -/
theorem FreeList.unique (h : FreeList m l) (h' : FreeList m l') : l = l' :=
  Chain.unique h.page h'.page h.chain h'.chain

/-- How many calls of `kalloc` in a row succeed. -/
def avail : List Bool → ℕ → ℕ
  | [], n => n
  | true :: _, _ => 0
  | false :: _, 0 => 0
  | false :: d, n + 1 => avail d n + 1

theorem Image.IsPage.isFrame {k : Image} (h : k.IsPage p) : IsFrame p where
  aligned := h.aligned
  small := Nat.lt_trans h.lt (by decide)

/-- **The test of `kfree`.** -/
theorem Image.isPage_iff {k : Image} :
    k.IsPage p ↔ ¬(p < k.kernelEnd ∨ p ≥ memoryEnd ∨ p % pgsize ≠ 0) := by
  have hmod : p % pgsize = 0 ↔ p.toNat % 4096 = 0 := by
    rw [← BitVec.toNat_inj, BitVec.toNat_umod]
    exact Iff.rfl
  constructor
  · rintro ⟨hge, hlt, hal⟩ (h | h | h)
    · exact absurd (BitVec.lt_def.mp h) (by omega)
    · exact absurd (BitVec.le_def.mp h) (by omega)
    · exact h (hmod.mpr hal)
  · intro h
    push Not at h
    exact ⟨BitVec.le_def.mp (BitVec.not_lt.mp fun hc => absurd hc (by simpa using h.1)),
      by simpa [BitVec.lt_def] using h.2.1, hmod.mp h.2.2⟩

/-! ## Moving pages -/

/-- **Pages change hands**: the list `l` and the owners `A` become the list `l'` and the owners
`B`. -/
structure Moves (m m' : Mem) (l l' : List Word) (A B : Word → ℕ) : Prop where
  free : FreeList m' l'
  xfer : Xfer m.cell m'.cell (fun p => l.count p + A p) (fun p => l'.count p + B p)
  image : m'.image = m.image

variable {A A' B B' D R : Word → ℕ} {E : Panic → Prop} {i : Fin 512} {w : Word}
  {f : Fin 512 → Word}

namespace Moves

theorem refl (h : FreeList m l) : Moves m m l l A A := ⟨h, .refl, rfl⟩

theorem trans (h : Moves m m' l l' A B) (h' : Moves m' m'' l' l'' B D) : Moves m m'' l l'' A D :=
  ⟨h'.free, h.xfer.trans h'.xfer, h'.image.trans h.image⟩

theorem same (h : Moves m m' l l' A B) (p : Word) : l'.count p + B p = l.count p + A p :=
  h.xfer.same p

theorem congr (h : Moves m m' l l' A B) (hA : ∀ p, A' p = A p) (hB : ∀ p, B' p = B p) :
    Moves m m' l l' A' B' :=
  ⟨h.free, h.xfer.congr (fun p => congrArg (l.count p + ·) (hA p))
    fun p => congrArg (l'.count p + ·) (hB p), h.image⟩

/-- **The frame rule.** -/
theorem beside (h : Moves m m' l l' A B) (R : Word → ℕ) :
    Moves m m' l l' (fun p => A p + R p) (fun p => B p + R p) :=
  ⟨h.free, (h.xfer.beside R).congr (fun _ => (Nat.add_assoc ..).symm)
    fun _ => (Nat.add_assoc ..).symm, h.image⟩

/-- **Two transfers in a row**, each beside what the other does not touch. -/
theorem seq (h : Moves m m' l l' A B) (R : Word → ℕ) (h' : Moves m' m'' l' l'' A' B')
    (R' : Word → ℕ) (hmid : ∀ p, B p + R p = A' p + R' p) :
    Moves m m'' l l'' (fun p => A p + R p) (fun p => B' p + R' p) :=
  (h.beside R).trans ((h'.beside R').congr hmid fun _ => rfl)

/-- Only owned pages are written. -/
theorem frame (h : Moves m m' l l' A B) (hl : l.count p = 0) (hA : A p = 0) :
    m'.cell p = m.cell p :=
  h.xfer.frame p (by omega)

/-- Nothing else owned is written. -/
theorem kept (h : Moves m m' l l' A B) (honce : l.count p + A p + R p ≤ 1) (hR : 0 < R p) :
    m'.cell p = m.cell p :=
  h.xfer.kept honce hR

/-- No page gets a second owner. -/
theorem once (h : Moves m m' l l' A B) (honce : l.count p + A p + R p ≤ 1) :
    l'.count p + B p + R p ≤ 1 := by
  have hsame := h.same p
  omega

end Moves

/-! ## Writing a page -/

@[simp] theorem Mem.fill_cell_self : (m.fill p f).cell p = f := by simp [fill]

theorem Mem.fill_cell_ne (h : q ≠ p) : (m.fill p f).cell q = m.cell q := by simp [fill, h]

@[simp] theorem Mem.write_cell_self : (m.write p i w).cell p = update (m.cell p) i w := by
  simp [write]

theorem Mem.write_cell_ne (h : q ≠ p) : (m.write p i w).cell q = m.cell q := by simp [write, h]

@[simp] theorem Mem.fill_image : (m.fill p f).image = m.image := rfl

@[simp] theorem Mem.write_image : (m.write p i w).image = m.image := rfl

@[simp] theorem Mem.fill_deny : (m.fill p f).deny = m.deny := rfl

@[simp] theorem Mem.write_deny : (m.write p i w).deny = m.deny := rfl

/-- The list does not see the pages that are not in it. -/
theorem FreeList.congr (h : FreeList m l) (hhead : m'.head = m.head) (himage : m'.image = m.image)
    (hcell : ∀ p ∈ l, m'.cell p = m.cell p) : FreeList m' l where
  chain := by
    rw [hhead]
    exact h.chain.congr hcell
  page p hp := by
    rw [himage]
    exact h.page p hp
  nodup := h.nodup

/-- **A write to an owned page.** -/
theorem Moves.of_write (h : FreeList m l) (hl : l.count p = 0) (hhead : m'.head = m.head)
    (himage : m'.image = m.image) (hcell : ∀ q ≠ p, m'.cell q = m.cell q) (hA : 0 < A p) :
    Moves m m' l l A A where
  free := h.congr hhead himage fun q hq => hcell q fun hqp =>
    List.count_eq_zero.mp hl (hqp ▸ hq)
  xfer := ⟨fun _ => rfl, fun q hq => hcell q fun hqp => by
    subst hqp
    omega⟩
  image := himage

/-- An owned page is filled. -/
theorem Moves.of_fill (h : FreeList m l) (hl : l.count p = 0) (hA : 0 < A p) (f : Fin 512 → Word) :
    Moves m (m.fill p f) l l A A :=
  .of_write h hl rfl rfl (fun _ hq => Mem.fill_cell_ne hq) hA

/-- A call of `kalloc` that is refused changes nothing in memory. -/
theorem Moves.of_deny (h : FreeList m l) (d : List Bool) : Moves m { m with deny := d } l l A A :=
  ⟨h.congr rfl rfl fun _ _ => rfl, .refl, rfl⟩

/-! ## `kalloc` and `kfree` -/

theorem avail_eq_zero_of_deny {d : List Bool} {n : ℕ} (h : d.head? = some true) :
    avail d n = 0 := by
  match d with
  | true :: _ => rfl
  | [] => cases h
  | false :: _ => cases h

theorem avail_zero (d : List Bool) : avail d 0 = 0 := by
  match d with
  | [] | true :: _ | false :: _ => rfl

theorem avail_succ {d : List Bool} {n : ℕ} (h : d.head? ≠ some true) :
    avail d (n + 1) = avail d.tail n + 1 := by
  match d with
  | [] | false :: _ => rfl
  | true :: _ => exact absurd rfl h

/-- What `kalloc` leaves. -/
def Kalloced (m : Mem) (l : List Word) : Option Word → Mem → Prop
  | none, m' => avail m.deny l.length = 0 ∧ ∃ d, m' = { m with deny := d }
  | some p, m' => m.image.IsPage p ∧ ∃ l', Moves m m' l l' 0 (one p) ∧
      avail m.deny l.length = avail m'.deny l'.length + 1

/-- **`kalloc` hands over a page of the list**, or finds none. -/
theorem kalloc_spec (h : FreeList m l) : wp kalloc (Kalloced m l) E m := by
  unfold wp kalloc
  cases l with
  | nil =>
    have hhead : m.head = 0 := h.chain
    rw [if_pos (.inr hhead)]
    exact ⟨avail_zero _, _, rfl⟩
  | cons p l =>
    obtain ⟨hhead, hchain⟩ := h.chain
    have hpage := h.page p (by simp)
    obtain ⟨hpl, hnd⟩ := List.nodup_cons.mp h.nodup
    by_cases hdeny : m.deny.head? = some true
    · rw [if_pos (.inl hdeny)]
      exact ⟨avail_eq_zero_of_deny hdeny, _, rfl⟩
    · rw [if_neg fun hor => hor.elim hdeny fun hz => hpage.ne_zero (hhead ▸ hz)]
      refine ⟨by rw [hhead]; exact hpage, l, ⟨⟨?_, fun q hq => h.page q (by simp [hq]), hnd⟩,
        ⟨fun q => ?_, fun q hq => ?_⟩, rfl⟩, ?_⟩
      · -- the page is not in the rest of the list, so the garbage leaves the links alone
        refine Chain.congr (fun q hq => Mem.fill_cell_ne ?_) (hhead ▸ hchain)
        rintro rfl
        exact hpl (hhead ▸ hq)
      · simp only [hhead, one, List.count_cons, Pi.zero_apply, beq_iff_eq, eq_comm (a := q)]
        omega
      · refine Mem.fill_cell_ne ?_
        rintro rfl
        simp [hhead] at hq
      · exact avail_succ hdeny

/-- **`kfree` takes a page back**, and panics on what is no page. -/
theorem kfree_spec (h : FreeList m l) (hl : l.count p = 0) :
    wp (kfree p) (fun _ m' => m.image.IsPage p ∧ Moves m m' l (p :: l) (one p) 0 ∧ m'.deny = m.deny)
      (fun e => e = .freeInvalidPage ∧ ¬m.image.IsPage p) m := by
  unfold wp kfree
  by_cases hp : m.image.IsPage p
  · rw [if_neg (Image.isPage_iff.mp hp), if_neg hp.ne_zero]
    have hmem : p ∉ l := List.count_eq_zero.mp hl
    refine ⟨hp, ⟨⟨⟨rfl, ?_⟩, ?_, List.nodup_cons.mpr ⟨hmem, h.nodup⟩⟩, ⟨fun q => ?_, fun q hq => ?_⟩,
      rfl⟩, rfl⟩
    · have hnext : (m.write p 0 m.head).cell p 0 = m.head := by simp
      rw [hnext]
      exact h.chain.congr fun q hq => Mem.write_cell_ne fun hqp => hmem (hqp ▸ hq)
    · intro q hq
      obtain rfl | hq := List.mem_cons.mp hq
      · exact hp
      · exact h.page q hq
    · simp only [one, List.count_cons, Pi.zero_apply, beq_iff_eq, eq_comm (a := q)]
      omega
    · refine Mem.write_cell_ne ?_
      rintro rfl
      simp at hq
  · rw [if_pos (by_contra fun hn => hp (Image.isPage_iff.mpr hn))]
    exact ⟨rfl, hp⟩

/-- What `get_clear_page` leaves. -/
def Cleared (m : Mem) (l : List Word) : Option Word → Mem → Prop
  | none, m' => avail m.deny l.length = 0 ∧ ∃ d, m' = { m with deny := d }
  | some p, m' => m.image.IsPage p ∧ m'.cell p = (fun _ => 0) ∧ ∃ l', Moves m m' l l' 0 (one p) ∧
      avail m.deny l.length = avail m'.deny l'.length + 1

theorem getClearPage_spec (h : FreeList m l) : wp getClearPage (Cleared m l) E m := by
  unfold getClearPage
  rw [wp_bind]
  refine wp_post (kalloc_spec h) ?_
  rintro (_ | p) m₁ hpost
  · exact hpost
  · obtain ⟨hpage, l', hmoves, havail⟩ := hpost
    rw [wp_bind, wp_alter]
    have hcount := hmoves.same p
    have hnodup := List.nodup_iff_count.mp h.nodup p
    simp only [one_self, Pi.zero_apply] at hcount
    refine ⟨hpage, Mem.fill_cell_self, l', hmoves.trans ?_, havail⟩
    exact .of_fill hmoves.free (by omega) (by simp) _

/-! ## `kalloc_init` -/

theorem kallocInitLoop_spec (k : ℕ) : ∀ {m : Mem} {l : List Word} {p : Word}, FreeList m l →
    m.image.kernelEnd.toNat ≤ p.toNat → p.toNat % 4096 = 0 → p.toNat + 4096 * k = memoryEnd.toNat →
    (∀ q ∈ l, q.toNat < p.toNat) →
    wp (kallocInitLoop k p) (fun _ m' => m'.image = m.image ∧ m'.deny = m.deny ∧ ∃ l', FreeList m' l' ∧
      ∀ q, q ∈ l' ↔ q ∈ l ∨ (m.image.IsPage q ∧ p.toNat ≤ q.toNat)) E m := by
  induction k with
  | zero =>
    intro m l p hfree _ _ hend _
    refine ⟨rfl, rfl, l, hfree, fun q => ⟨.inl, fun h => h.resolve_right ?_⟩⟩
    rintro ⟨hq, hle⟩
    have hlt := hq.lt
    omega
  | succ k ih =>
    intro m l p hfree hge hal hend hbelow
    have hbound : memoryEnd.toNat = 0x88000000 := by decide
    have hpage : m.image.IsPage p := ⟨hge, by omega, hal⟩
    have hnext : (p + pgsize).toNat = p.toNat + 4096 := by
      rw [BitVec.toNat_add, show pgsize.toNat = 4096 by decide]
      omega
    have hout : l.count p = 0 := List.count_eq_zero.mpr fun h => absurd (hbelow p h) (by omega)
    rw [kallocInitLoop, wp_bind]
    refine wp_mono (kfree_spec hfree hout) ?_ fun e he => absurd hpage he.2
    rintro _ m₁ ⟨-, hmoves, hdeny⟩
    have himage := hmoves.image
    refine wp_post (ih hmoves.free (by rw [himage]; omega) (by omega) (by omega) ?_) ?_
    · intro q hq
      obtain rfl | hq := List.mem_cons.mp hq
      · omega
      · have hlt := hbelow q hq
        omega
    · rintro _ m₂ ⟨himage₂, hdeny₂, l₂, hfree₂, hmem⟩
      refine ⟨himage₂.trans himage, hdeny₂.trans hdeny, l₂, hfree₂, fun q => ?_⟩
      rw [hmem, List.mem_cons, himage, hnext]
      constructor
      · rintro ((rfl | hq) | ⟨hq, hle⟩)
        · exact .inr ⟨hpage, Nat.le_refl _⟩
        · exact .inl hq
        · exact .inr ⟨hq, by omega⟩
      · rintro (hq | ⟨hq, hle⟩)
        · exact .inl (.inr hq)
        · by_cases heq : q = p
          · exact .inl (.inl heq)
          · have hne : q.toNat ≠ p.toNat := fun h => heq (BitVec.toNat_inj.mp h)
            have hal' := hq.aligned
            exact .inr ⟨hq, by omega⟩

/-- **`kalloc_init` frees every page**, and does not panic. -/
theorem kallocInit_spec : wp kallocInit (fun _ m' => m'.image = m.image ∧ m'.deny = m.deny ∧
    ∃ l, FreeList m' l ∧ ∀ p, p ∈ l ↔ m.image.IsPage p) E m := by
  have hbound : memoryEnd.toNat = 0x88000000 := by decide
  have hend := m.image.end_le
  have hstart := roundUpPgsize_toNat (x := m.image.kernelEnd) (by omega)
  have hsub : (memoryEnd - roundUpPgsize m.image.kernelEnd).toNat =
      memoryEnd.toNat - (roundUpPgsize m.image.kernelEnd).toNat :=
    BitVec.toNat_sub_of_le (BitVec.le_def.mpr (by omega))
  unfold kallocInit
  rw [wp_bind, wp_alter, wp_bind, wp_inspect]
  simp only
  generalize hk : (memoryEnd - roundUpPgsize m.image.kernelEnd).toNat / 4096 = k
  generalize roundUpPgsize m.image.kernelEnd = start at *
  have hempty : FreeList { m with head := 0 } [] := ⟨rfl, by simp, by simp⟩
  refine wp_post (kallocInitLoop_spec k hempty ?_ (by omega) (by omega) (by simp)) ?_
  · simp only
    omega
  rintro _ m' ⟨himage, hdeny, l, hfree, hmem⟩
  refine ⟨himage, hdeny, l, hfree, fun p => ?_⟩
  rw [hmem]
  constructor
  · rintro (hp | ⟨hp, -⟩)
    · cases hp
    · exact hp
  · intro hp
    have hge := hp.ge
    have hal := hp.aligned
    exact .inr ⟨hp, by omega⟩

end Vm
