import Myv6.Loader.Image
import Myv6.Pmem.Brk

/-!
# Pmem/Exec — `exec`, and the table it builds beside the old one

    get_pagetable ──▸ load_process_elf ──▸ trampoline, trap frame, stack ──▸ argv page
                                           └── those of the old table ──┘
    old table     ──▸ freed, once the new one is whole

Until then `exec` only takes pages and gives them back: `Built` and `Abandoned` tell what a new table
owns and what a given up one leaves behind, and `Buildable` when there is one.
-/

namespace Pmem

open Function (update)
open Bytes Hoare Loader Own Vm
open Process (ProcId)

/-- What `exec` looks at in a `struct inode`. -/
structure Inode where
  /-- the type is `T_FILE` -/
  isFile : Bool
  file : File

/-- The files, as a run of `exec` finds them. -/
structure Disk where
  /-- what `namei` finds at a path: an index of the inode cache -/
  namei : List Byte → Option ℕ
  inode : ℕ → Inode

/-- The length of a string of `argv` with its room. -/
def argvStrLen : ℕ := 64

/-- Where the strings begin behind the pointers. -/
def strStart (argc : ℕ) : ℕ := 8 * (argc + 1)

/-- The page of `alloc_page_copy_argv`, over what the page held. -/
def argvPageOf (argc : ℕ) (strInArgv : ℕ → Byte) (f : Fin 512 → Word) (j : Fin 512) : Word :=
  if (j : ℕ) < argc then BitVec.ofNat 64 (strStart argc + argvStrLen * j)
  else if (j : ℕ) = argc then 0
  else poke f (strStart argc) ((List.range (argvStrLen * argc)).map strInArgv) j

def allocPageCopyArgv (argc : ℕ) (strInArgv : ℕ → Byte) : Kernel (Option Word) := do
  match ← kalloc with
  | none => pure none
  | some page =>
    alter fun m => m.fill page (argvPageOf argc strInArgv (m.cell page))
    pure (some page)

/-- The loop of `map_argv_to_page_table` over the pointers, with the words left and the words done. -/
def relocate (uva : Word) : ℕ → ℕ → (Fin 512 → Word) → Fin 512 → Word
  | 0, _, f => f
  | k + 1, i, f =>
    if f (Fin.ofNat 512 i) = 0 then f
    else relocate uva k (i + 1) (update f (Fin.ofNat 512 i) (uva + f (Fin.ofNat 512 i)))

/-- Returns `true` for `-1`. -/
def mapArgvToPageTable (pgtable uva argvPage attr : Word) : Kernel Bool := do
  if ← mapPage pgtable uva argvPage attr then
    pure true
  else
    alter fun m => m.fill argvPage (relocate uva 512 0 (m.cell argvPage))
    pure false

/-- `free_user_memory` and `free_page_table` in a row. -/
def freeTable (pgtable memEnd : Word) : Kernel Unit := do
  freeUserMemory pgtable memEnd
  freePageTable pgtable

/-- The error exits behind `load_process_elf`. -/
def buildErr (newPgtable newMemEnd : Word) : Kernel (Option (Word × Word)) := do
  freeTable newPgtable newMemEnd
  pure none

/-- `load_new_process_for_exec` from the trampoline to the argv page: the new table and its end. -/
def finishTable (newPgtable newMemEnd trapFrame ustack : Word) (argvPage : Option Word) :
    Kernel (Option (Word × Word)) := do
  if ← mapTop newPgtable trapFrame ustack then
    buildErr newPgtable newMemEnd
  else
    match argvPage with
    | none => pure (some (newPgtable, newMemEnd))
    | some page =>
      if ← mapArgvToPageTable newPgtable newMemEnd page (pteR ||| pteW ||| pteU) then
        buildErr newPgtable newMemEnd
      else
        pure (some (newPgtable, newMemEnd + pgsize))

/-- `load_new_process_for_exec` up to the new table. -/
def buildTable (inode : Inode) (trapFrame ustack : Word) (argvPage : Option Word) :
    Load (Option (Word × Word)) := do
  match ← inMem getPagetable with
  | none => pure none
  | some newPgtable =>
    if !inode.isFile then
      inMem (kfree newPgtable)
      pure none
    else
      match ← loadProcessElf inode.file newPgtable with
      | none =>
        inMem (freePageTable newPgtable)
        pure none
      | some newMemEnd => inMem (finishTable newPgtable newMemEnd trapFrame ustack argvPage)

/-- The loader, run by a process; `readi` stops short at no byte that the file has. -/
def onLoad {α : Type} (x : Load α) : Code α :=
  zoom (fun s => { mem := s.mem, short := [] }) (fun t s => { s with mem := t.mem }) x

@[simp] theorem wp_onLoad {α : Type} {x : Load α} {Q : α → Sys → Prop} {E : Panic → Prop} {s : Sys} :
    wp (onLoad x) Q E s ↔
      wp x (fun a t => Q a { s with mem := t.mem }) E { mem := s.mem, short := [] } := wp_zoom

/-- Returns `true` for `-1`. -/
def loadNewProcessForExec (i : ProcId) (inode : Inode) (argvPage : Option Word) : Code Bool := do
  let proc ← inspect fun s => s.proc i
  match ← onLoad (buildTable inode proc.trapFrame proc.ustack argvPage) with
  | none => pure true
  | some (newPgtable, newMemEnd) =>
    onMem (freeTable proc.pgtable proc.memEnd)
    setProc i fun p => { p with
      pgtable := newPgtable, memStart := newMemEnd, memBrk := newMemEnd, memEnd := newMemEnd }
    pure false

/-- The reference that `namei` takes. -/
def iget (ip : ℕ) : Code Unit :=
  alter fun s => { s with inodeRef := update s.inodeRef ip (s.inodeRef ip + 1) }

/-- The reference that `iput` gives back. -/
def iput (ip : ℕ) : Code Unit :=
  alter fun s => { s with inodeRef := update s.inodeRef ip (s.inodeRef ip - 1) }

/-- The registers of the new program in the trap frame. -/
def execRegs (argc memEnd : Word) (f : Fin 512 → Word) (j : Fin 512) : Word :=
  if j = tfA0 then argc
  else if j = tfA1 then memEnd - pgsize
  else if j = tfSp then ustackBase + pgsize
  else if j = tfSepc then procVaStart
  else f j

/-- `exec` from the load on. -/
def execLoad (disk : Disk) (i : ProcId) (ip argc : ℕ) (argvPage : Option Word) : Code Bool := do
  let err ← loadNewProcessForExec i (disk.inode ip) argvPage
  iput ip
  if err then
    match argvPage with
    | none => pure true
    | some page =>
      onMem (kfree page)
      pure true
  else
    let proc ← inspect fun s => s.proc i
    onMem (alter fun m =>
      m.fill proc.trapFrame (execRegs (BitVec.ofNat 64 argc) proc.memEnd (m.cell proc.trapFrame)))
    pure false

/-- Returns `true` for `-1`. -/
def exec (disk : Disk) (i : ProcId) (path : List Byte) (argc : ℕ) (strInArgv : ℕ → Byte) :
    Code Bool := do
  match disk.namei path with
  | none => pure true
  | some ip =>
    iget ip
    if argc = 0 then
      execLoad disk i ip argc none
    else
      match ← onMem (allocPageCopyArgv argc strInArgv) with
      | none =>
        iput ip
        pure true
      | some page => execLoad disk i ip argc (some page)

variable {m m' : Mem} {l l' : List Word} {t memEnd tf us : Word} {R R' : Word → ℕ} {argv : Option Word}
  {S : Finset ℕ} {v : ℕ} {E : Panic → Prop}

/-! ## The rest of the new table -/

/-- An end of an image, in pages. -/
structure EndsAt (memEnd : Word) (v : ℕ) : Prop where
  eq : memEnd.toNat = v * 4096
  pos : 1 ≤ v
  le : v ≤ 67108861

theorem EndsAt.vpn_eq (h : EndsAt memEnd v) : vpn memEnd = v := by
  rw [vpn, h.eq]
  exact Nat.mul_div_cancel v (by decide)

theorem EndsAt.freedPages_eq (h : EndsAt memEnd v) : freedPages memEnd = v - 1 := by
  have hpos := h.pos
  have hle := h.le
  have hstart : procVaStart.toNat = 1 * 4096 := by decide
  rw [freedPages, intOf_pages h.eq hstart (k := v - 1) (by omega) (by omega)]
  rfl

/-- The argv page, while it is in the hand. -/
def argvHand (argv : Option Word) (q : Word) : ℕ := argv.elim 0 fun p => one p q

@[simp] theorem argvHand_none (q : Word) : argvHand none q = 0 := rfl

@[simp] theorem argvHand_some (p q : Word) : argvHand (some p) q = one p q := rfl

/-- The table pages that the argv page needs, once the top is mapped. -/
def argvNeed (f : ℕ → ℕ) (v : ℕ) (argv : Bool) : ℕ := if argv then min (f v) (apart topVpn v) else 0

/-- **Freeing a table** gives back the table pages and the pages below the end. -/
theorem freeTable_spec (h : Holds userPages m l t R) (hend : EndsAt memEnd v) :
    wp (freeTable t memEnd) (fun _ m' => ∃ l', Moves m m' l l' (space userPages m t)
        (held (emptied (pages m t) (v - 1)) userPages))
      (fun e => e = .unmapUnmapped ∧ ∃ w, (1 ≤ w ∧ w < v) ∧ pages m t w = none) m := by
  have hpos := hend.pos
  have hle := hend.le
  have hfreed := hend.freedPages_eq
  unfold freeTable
  rw [wp_bind]
  refine wp_mono (freeUserMemory_spec h (by omega)) ?_ ?_
  · rintro _ m₁ ⟨-, hpages, -, l₁, hholds, hmoves⟩
    refine wp_post (freePageTable_moves (A := fun _ => 0) hholds.free (fun q => ?_) hholds.page) ?_
    · rw [Nat.add_zero]
      exact hholds.space_once q
    · rintro _ m₂ ⟨-, l₂, hmoves₂⟩
      refine ⟨l₂, hmoves.trans (hmoves₂.congr (fun _ => (Nat.add_zero _).symm) fun q => ?_)⟩
      rw [hpages, hfreed, Nat.add_zero]
  · rintro e ⟨he, w, hw, hnone⟩
    exact ⟨he, w, by omega, hnone⟩

/-- **How the table is finished**: it owns the argv page, or it has been given up. -/
def Finished (m : Mem) (l : List Word) (t memEnd : Word) (v : ℕ) (argv : Option Word) (R : Word → ℕ) :
    Option (Word × Word) → Mem → Prop
  | none, m' => (∀ w, 67108861 ≤ w → w ≤ topVpn → pages m t w = none) ∧
      avail m.deny l.length < need m t topVpn + argvNeed (need m t) v argv.isSome ∧
      (∃ m₁ l₁, Moves m m₁ l l₁ (space userPages m t) (space userPages m₁ t) ∧
        ∀ w ∈ userPages, pages m₁ t w = pages m t w) ∧
      ∃ l', Moves m m' l l' (space userPages m t) (held (emptied (pages m t) (v - 1)) userPages)
  | some (t', e'), m' => (∀ w, 67108861 ≤ w → w ≤ topVpn → pages m t w = none) ∧ t' = t ∧
      e' = memEnd + argv.elim 0 (fun _ => pgsize) ∧
      need m t topVpn + argvNeed (need m t) v argv.isSome ≤ avail m.deny l.length ∧
      (∀ p, argv = some p → pages m t v = none ∧ v < 67108861) ∧
      ∃ l', Holds userPages m' l' t R ∧
        Moves m m' l l' (fun q => space userPages m t q + argvHand argv q) (space userPages m' t) ∧
        ∀ w ∈ userPages, pages m' t w ≠ none ↔ pages m t w ≠ none ∨ (argv.isSome ∧ w = v)

/-- The image has a hole below its end. -/
def Hole (m : Mem) (t : Word) (v : ℕ) : Prop := ∃ w, (1 ≤ w ∧ w < v) ∧ pages m t w = none

/-- How finishing the table panics. -/
def FinishPanic (m : Mem) (l : List Word) (t : Word) (v : ℕ) (argv : Option Word) (e : Panic) : Prop :=
  (e = .mapMapped ∧ ((∃ w, 67108861 ≤ w ∧ w ≤ topVpn ∧ pages m t w ≠ none) ∨
      argv.isSome ∧ (v = 67108861 ∨ pages m t v ≠ none))) ∨
    (e = .unmapUnmapped ∧ Hole m t v ∧
      avail m.deny l.length < need m t topVpn + argvNeed (need m t) v argv.isSome)

/-- The error exit after pages of the table alone have been taken. -/
theorem buildErr_after {m₁ : Mem} {l₁ : List Word} (h : Holds userPages m₁ l₁ t R)
    (hend : EndsAt memEnd v) (hmoves : Moves m m₁ l l₁ (space userPages m t) (space userPages m₁ t))
    (hkeep : ∀ w ∈ userPages, pages m₁ t w = pages m t w)
    (htop : ∀ w, 67108861 ≤ w → w ≤ topVpn → pages m t w = none)
    (hshort : avail m.deny l.length < need m t topVpn + argvNeed (need m t) v argv.isSome) :
    wp (buildErr t memEnd) (Finished m l t memEnd v argv R') (FinishPanic m l t v argv) m₁ := by
  have hle := hend.le
  unfold buildErr
  rw [wp_bind]
  refine wp_mono (freeTable_spec h hend) ?_ ?_
  · rintro _ m₂ ⟨l₂, hmoves₂⟩
    refine ⟨htop, hshort, ⟨m₁, l₁, hmoves, hkeep⟩, l₂,
      (hmoves.trans hmoves₂).congr (fun _ => rfl) fun q => held_congr ?_ q⟩
    intro w hw
    unfold emptied
    rw [hkeep w hw]
  · rintro e ⟨rfl, w, hw, hnone⟩
    refine .inr ⟨rfl, ⟨w, hw, ?_⟩, hshort⟩
    rw [← hkeep w (mem_userPages_iff.mpr (by omega)), hnone]

/-- **`load_new_process_for_exec` from the trampoline on.** -/
theorem finishTable_spec (h : Holds userPages m l t (fun q => R q + argvHand argv q))
    (hpage : ∀ p, argv = some p → m.image.IsPage p) (hend : EndsAt memEnd v) :
    wp (finishTable t memEnd tf us argv) (Finished m l t memEnd v argv R) (FinishPanic m l t v argv)
      m := by
  have hle := hend.le
  unfold finishTable
  rw [wp_bind]
  refine wp_mono (wp_and (mapTop_spec h) (mapTop_top h)) ?_ fun e he => .inl ⟨he.1.1, .inl he.1.2⟩
  rintro (_ | _) m₁ ⟨⟨l₁, hholds, hmoves, hkeep, hres⟩, htop⟩
  · obtain ⟨hneed, havail⟩ := hres
    obtain ⟨htop, hstack⟩ := htop rfl
    rw [if_neg (by decide)]
    cases argv with
    | none =>
      refine ⟨htop, rfl, ?_, ?_, (fun p hp => nomatch hp), l₁, hholds.congr fun q => ?_,
        hmoves.congr (fun q => ?_) fun _ => rfl, fun w hw => ?_⟩
      · exact (BitVec.add_zero memEnd).symm
      · rw [havail]
        exact Nat.le_add_left _ _
      · rw [argvHand_none, Nat.add_zero]
      · rw [argvHand_none, Nat.add_zero]
      · rw [hkeep w hw]
        simp
    | some p =>
      have hmem : m₁.image.IsPage p := hmoves.image ▸ hpage p rfl
      have hvpn := hend.vpn_eq
      have hwant : argvNeed (need m t) v true = need m₁ t v := (hneed v).symm
      unfold mapArgvToPageTable
      simp only [wp_bind]
      by_cases hlast : v = 67108861
      · -- the page of the stack, which is mapped by now
        refine wp_mono (mapPage_spec hholds.free hholds.tables_once) ?_
          fun e he => .inl ⟨he.1, .inr ⟨rfl, .inl hlast⟩⟩
        rintro (_ | _) m₂ hpost
        · rw [MapPaged, hvpn, hlast] at hpost
          exact absurd hpost.2.1 hstack
        · rw [MapPaged, hvpn, hlast] at hpost
          have hzero := need_of_pages hstack
          rcases hpost.1 with hge | hlt
          · exact absurd hge (by decide)
          · omega
      have hin : v ∈ userPages := mem_userPages_iff.mpr (by omega)
      have hsame := hkeep v hin
      refine wp_mono (mapPage_hand hholds hmem fun _ => hvpn.symm ▸ hin) ?_ ?_
      swap
      · rintro e ⟨he, hbad⟩
        rw [hvpn, hsame] at hbad
        exact .inl ⟨he, .inr ⟨rfl, .inr hbad⟩⟩
      rintro (_ | _) m₂ hpost
      · rw [Handed, hvpn] at hpost
        obtain ⟨hnone, l₂, hholds₂, hmoves₂, -, hpages₂, -, havail₂⟩ := hpost
        rw [hsame] at hnone
        have hheld : 0 < held (pages m₂ t) userPages p := by
          have hframe := frame_held (m := m₂) (r := t) (S := userPages)
            (by rw [hpages₂, Function.update_self]) hin
          rwa [pteGetPa_makePte hmem.isFrame] at hframe
        obtain ⟨hholds₃, hmoves₃, -, hpages₃⟩ := hholds₂.fill hheld (relocate memEnd 512 0 (m₂.cell p))
        rw [if_neg (by decide), wp_bind, wp_alter]
        refine ⟨htop, rfl, rfl, ?_, fun _ _ => ⟨hnone, by omega⟩, l₂, hholds₃, ?_, fun w hw => ?_⟩
        · rw [Option.isSome_some, havail, havail₂, hwant]
          omega
        · exact (hmoves.beside (one p)).trans (hmoves₂.trans hmoves₃)
        · rw [hpages₃, hpages₂]
          by_cases hwv : w = v
          · subst hwv
            simp
          · rw [Function.update_of_ne hwv, hkeep w hw]
            simp [hwv]
      · rw [Handed, hvpn] at hpost
        obtain ⟨hwhy, l₂, hholds₂, hmoves₂, -, hpages₂⟩ := hpost
        have hlt := hwhy.resolve_left (by unfold maxVpn; omega)
        rw [if_pos rfl]
        refine buildErr_after hholds₂ hend (hmoves.trans hmoves₂) (fun w hw => ?_) htop ?_
        · rw [hpages₂, hkeep w hw]
        · rw [Option.isSome_some, havail, hwant]
          omega
  · rw [if_pos rfl]
    have htop := fun w => top_unmapped (m := m) (r := t) (w := w) (Nat.zero_lt_of_lt hres)
    exact buildErr_after hholds hend hmoves hkeep htop
      (Nat.lt_of_lt_of_le hres (Nat.le_add_right _ _))

/-! ## What a file asks for -/

/-- **The first `i` headers can be loaded into an empty table**, with `a` pages to take. -/
structure Fetchable (file : File) (a i : ℕ) : Prop where
  headers : ∀ j < i, (phdrOff (ehdr file) j).toNat + 56 ≤ file.bytes.length
  accepted : ∀ segment ∈ segments file i, checkSegment segment file.size = false
  inFile : ∀ segment ∈ segments file i, ∀ j < segment.filePages,
    (segment.readOff j).toNat + (segment.readLen j).toNat ≤ file.bytes.length
  within : ∀ segment ∈ segments file i,
    segment.numPages = 0 ∨ vpn segment.pVaddr + segment.numPages ≤ maxVpn
  apart : (segments file i).Pairwise fun a b => ∀ w, a.Covers w → ¬b.Covers w
  cost_le : cost (fun _ => maxLevel) (imagePages (segments file i)) ≤ a

variable {file : File} {inode : Inode} {a i w : ℕ} {r : Word} {e : Panic}

theorem loadable_iff (hneed : ∀ w, need m r w = maxLevel) :
    Loadable file m l r i ↔ Fetchable file (avail m.deny l.length) i := by
  have hfun : need m r = fun _ => maxLevel := funext hneed
  constructor
  · intro h
    exact ⟨h.headers, h.accepted, h.inFile, h.within, h.apart, hfun ▸ h.cost_le⟩
  · intro h
    exact ⟨h.headers, h.accepted, h.inFile, h.within, h.apart, hfun.symm ▸ h.cost_le⟩

/-- The segments that are mapped. -/
def imageSegments (file : File) : List Elf64Phdr := segments file (numHeaders file)

/-- The page belongs to the image. -/
def Covered (file : File) (w : ℕ) : Prop := ∃ segment ∈ imageSegments file, segment.Covers w

/-- The end of the image, as `load_process_elf` returns it. -/
def imageMemEnd (file : File) : Word := roundUpPgsize (memEndOf (imageSegments file))

/-- The table pages that are still missing once the image is mapped. -/
def imageNeed (file : File) : ℕ → ℕ :=
  needAfter (fun _ => maxLevel) (imagePages (imageSegments file))

/-- **The pages a new table takes**: its root, the image, and the tables for the pages above it and for
the argv page. -/
def price (file : File) (argv : Bool) : ℕ :=
  1 + cost (fun _ => maxLevel) (imagePages (imageSegments file)) + imageNeed file topVpn +
    argvNeed (imageNeed file) (vpn (imageMemEnd file)) argv

/-- **A new table can be built**, with `a` pages to take. -/
structure Buildable (inode : Inode) (argv : Bool) (a : ℕ) : Prop where
  isFile : inode.isFile = true
  header : HasHeader inode.file
  fetch : Fetchable inode.file (a - 1) (numHeaders inode.file)
  price_le : price inode.file argv ≤ a

/-- **Pages that no error exit reaches**: those of segments whose load is given up at a later header,
past the sweep of the loader, and those of a loaded image past its end. -/
def Unreached (file : File) (w : ℕ) : Prop :=
  (∃ i < numHeaders file, (∃ segment ∈ segments file i, segment.Covers w) ∧
      ¬sweep (memEndOf (segments file i)) w) ∨
    (Covered file w ∧ vpn (imageMemEnd file) ≤ w)

/-- **The pages `f` are left of a table**: where it is given up, beside the argv page in the hand, the
table maps them; its table pages are others. -/
def LeftOf (m : Mem) (l : List Word) (argv : Option Word) (f : ℕ → Option Word) : Prop :=
  ∃ S m₁ l₁ t, Moves m m₁ l l₁ 0 (fun q => space S m₁ t q + argvHand argv q) ∧
    ∀ w, f w ≠ none → w ∈ S ∧ f w = pages m₁ t w

/-- **What is left of a table that was given up**: pages that no error exit reaches. -/
def Abandoned (file : File) (m : Mem) (l : List Word) (m' : Mem) : Prop :=
  ∃ l' f, Moves m m' l l' 0 (held f allPages) ∧ (∀ w, f w ≠ none → Unreached file w) ∧
    ((∀ w, f w = none) ∨ LeftOf m l none f)

/-- **How building a table ends.** -/
def Tabled (inode : Inode) (m : Mem) (l : List Word) (argv : Option Word) (R : Word → ℕ) :
    Option (Word × Word) → Mem → Prop
  | none, m' => ¬Buildable inode argv.isSome (avail m.deny l.length) ∧ Abandoned inode.file m l m'
  | some (t, e), m' => Buildable inode argv.isSome (avail m.deny l.length) ∧
      e = imageMemEnd inode.file + argv.elim 0 (fun _ => pgsize) ∧
      (argv.isSome → vpn (imageMemEnd inode.file) < 67108861) ∧
      ∃ l', Holds userPages m' l' t R ∧ Moves m m' l l' (argvHand argv) (space userPages m' t) ∧
        ∀ w ∈ userPages, pages m' t w ≠ none ↔
          Covered inode.file w ∨ (argv.isSome ∧ w = vpn (imageMemEnd inode.file))

/-- **How building a table panics**: segments overlap each other, the pages above the heap or the argv
page; or memory runs out behind an image with a hole. -/
def TablePanic (inode : Inode) (argv : Bool) (a : ℕ) (e : Panic) : Prop :=
  inode.isFile = true ∧ HasHeader inode.file ∧
    ((e = .mapMapped ∧ ∃ i < numHeaders inode.file, Fetchable inode.file (a - 1) i ∧
        Overlaps inode.file i) ∨
      (Fetchable inode.file (a - 1) (numHeaders inode.file) ∧
        ((e = .mapMapped ∧ ((∃ w, 67108861 ≤ w ∧ w ≤ topVpn ∧ Covered inode.file w) ∨
            argv ∧ (vpn (imageMemEnd inode.file) = 67108861 ∨
              Covered inode.file (vpn (imageMemEnd inode.file))))) ∨
          (e = .unmapUnmapped ∧ a < price inode.file argv ∧
            ∃ w, (1 ≤ w ∧ w < vpn (imageMemEnd inode.file)) ∧ ¬Covered inode.file w))))

/-! ## Building the table -/

theorem endsAt_imageMemEnd (h : Fetchable file a (numHeaders file)) :
    EndsAt (imageMemEnd file) (vpn (imageMemEnd file)) := by
  obtain ⟨heq, hpos, hle, -⟩ := roundUp_memEndOf h.accepted
  rw [vpn_ustackBase] at hle
  exact ⟨heq, hpos, hle⟩

theorem userPages_subset : userPages ⊆ allPages := by
  intro w hw
  rw [mem_userPages_iff] at hw
  exact mem_allPages (by unfold maxVpn; omega)

/-- The pages outside of the heap are those of the top. -/
theorem mem_top_of_sdiff (h : w ∈ allPages \ userPages) : 67108861 ≤ w ∧ w ≤ topVpn := by
  obtain ⟨hall, hnot⟩ := Finset.mem_sdiff.mp h
  unfold allPages at hall
  have hlt := Finset.mem_range.mp hall
  unfold maxVpn at hlt
  unfold topVpn
  exact ⟨by_contra fun hge => hnot (mem_userPages_iff.mpr (by omega)), by omega⟩

theorem mem_allPages_of_pages (h : pages m r w ≠ none) : w ∈ allPages :=
  mem_allPages (Nat.lt_of_not_le fun hle => h (pages_of_le hle))

/-- A table without pages at the top owns what it maps below. -/
theorem space_eq_of_top (htop : ∀ w, 67108861 ≤ w → w ≤ topVpn → pages m t w = none) (q : Word) :
    space allPages m t q = space userPages m t q := by
  have hnone : ∀ w ∈ allPages, w ∉ userPages → pages m t w = none := by
    intro w hall hnot
    obtain ⟨hge, hle⟩ := mem_top_of_sdiff (Finset.mem_sdiff.mpr ⟨hall, hnot⟩)
    exact htop w hge hle
  rw [space, space, held_subset userPages_subset hnone]

/-- What an emptied image still maps. -/
theorem emptied_ne_none {f : ℕ → Option Word} {k : ℕ} (h : emptied f k w ≠ none) :
    f w ≠ none ∧ ¬(1 ≤ w ∧ w < 1 + k) := by
  unfold emptied at h
  split at h
  · exact absurd rfl h
  · next hout => exact ⟨h, hout⟩

/-- A table with an image is a table with its pages below the stack. -/
theorem below (h : Holds allPages m l t R) : Holds userPages m l t R := by
  have hle : ∀ q, space userPages m t q ≤ space allPages m t q := fun q =>
    Nat.add_le_add_left (Finset.sum_le_sum_of_subset userPages_subset) _
  refine ⟨h.free, fun q => ?_, fun q hq => h.page q (hq.trans_le (hle q))⟩
  have hq := h.once q
  have hsub := hle q
  omega

/-- **From the loaded image to the new table.** -/
theorem finish_loaded {m₁ : Mem} {l₁ : List Word} {e : Word}
    (hfile : inode.isFile = true) (hheader : HasHeader inode.file)
    (hpage : ∀ p, argv = some p → m.image.IsPage p)
    (hmoves₁ : Moves m m₁ l l₁ 0 (space allPages m₁ t)) (hneed₁ : ∀ w, need m₁ t w = maxLevel)
    (havail₁ : avail m.deny l.length = avail m₁.deny l₁.length + 1) {s : Loading}
    (hended : Ended inode.file m₁ l₁ t (fun q => R q + argvHand argv q) [] (some e) s) :
    wp (finishTable t e tf us argv) (Tabled inode m l argv R)
      (TablePanic inode argv.isSome (avail m.deny l.length)) s.mem := by
  obtain ⟨rfl, hloaded⟩ := hended
  obtain ⟨l₂, hholds, hmoves₂, havail₂⟩ := hloaded.laid
  have hfun : need m₁ t = fun _ => maxLevel := funext hneed₁
  have hfetch : Fetchable inode.file (avail m.deny l.length - 1) (numHeaders inode.file) := by
    rw [havail₁, Nat.add_sub_cancel]
    exact (loadable_iff hneed₁).mp hloaded.loadable
  have hend := endsAt_imageMemEnd hfetch
  have hneed : need s.mem t = imageNeed inode.file := by
    rw [hloaded.need_eq, hfun]
    rfl
  have hmapped : ∀ w, pages s.mem t w ≠ none ↔ Covered inode.file w := hloaded.mapped_iff
  have hprice : avail m.deny l.length < price inode.file argv.isSome ↔
      avail s.mem.deny l₂.length < need s.mem t topVpn +
        argvNeed (need s.mem t) (vpn (imageMemEnd inode.file)) argv.isSome := by
    rw [hneed, price, havail₁, havail₂, hfun]
    unfold imageSegments
    omega
  have himage := hmoves₂.image.trans hmoves₁.image
  refine wp_mono (finishTable_spec (below hholds) (fun p hp => himage ▸ hpage p hp) hend) ?_ ?_
  · rintro (_ | ⟨t', e'⟩) m' hpost
    · obtain ⟨htop, hshort, ⟨m₄, l₄, hmoves₄, hkeep₄⟩, l₃, hmoves₃⟩ := hpost
      have htaken : Moves m s.mem l l₂ 0 (space userPages s.mem t) :=
        (hmoves₁.trans hmoves₂).congr (fun _ => rfl) fun q => (space_eq_of_top htop q).symm
      have hinside : ∀ w, pages s.mem t w ≠ none → w ∈ userPages := by
        intro w hne
        refine by_contra fun hout => hne ?_
        obtain ⟨hge, hle⟩ :=
          mem_top_of_sdiff (Finset.mem_sdiff.mpr ⟨mem_allPages_of_pages hne, hout⟩)
        exact htop w hge hle
      refine ⟨fun hbuild => absurd hbuild.price_le (Nat.not_le_of_lt (hprice.mpr hshort)), l₃,
        emptied (pages s.mem t) (vpn (imageMemEnd inode.file) - 1), ?_, fun w hw => ?_,
        .inr ⟨userPages, m₄, l₄, t, (htaken.trans hmoves₄).congr (fun _ => rfl) fun _ =>
          Nat.add_zero _, fun w hw => ?_⟩⟩
      · have hheld : ∀ q, held (emptied (pages s.mem t) (vpn (imageMemEnd inode.file) - 1)) allPages q =
            held (emptied (pages s.mem t) (vpn (imageMemEnd inode.file) - 1)) userPages q := by
          intro q
          refine held_subset userPages_subset fun w hall hnot => ?_
          obtain ⟨hge, hle⟩ := mem_top_of_sdiff (Finset.mem_sdiff.mpr ⟨hall, hnot⟩)
          unfold emptied
          rw [htop w hge hle, ite_self]
        exact htaken.trans (hmoves₃.congr (fun _ => rfl) hheld)
      · obtain ⟨hne, hout⟩ := emptied_ne_none hw
        have hcover := (hmapped w).mp hne
        obtain ⟨segment, hmem, hin⟩ := hcover
        have hone := one_le_vpn (hloaded.loadable.accepted segment hmem)
        refine .inr ⟨⟨segment, hmem, hin⟩, ?_⟩
        unfold Elf64Phdr.Covers at hin
        omega
      · obtain ⟨hne, hout⟩ := emptied_ne_none hw
        have hin := hinside w hne
        refine ⟨hin, ?_⟩
        rw [hkeep₄ w hin]
        exact if_neg hout
    · obtain ⟨htop, rfl, rfl, hfits, hargv, l₃, hholds₃, hmoves₃, hpages₃⟩ := hpost
      refine ⟨⟨hfile, hheader, hfetch, ?_⟩, rfl, fun hsome => ?_, l₃, hholds₃, ?_, fun w hw => ?_⟩
      · exact Nat.le_of_not_lt fun hlt => absurd hfits (Nat.not_le_of_lt (hprice.mp hlt))
      · obtain ⟨p, rfl⟩ := Option.isSome_iff_exists.mp hsome
        exact (hargv p rfl).2
      · refine (((hmoves₁.trans hmoves₂).beside (argvHand argv)).congr (fun q => (Nat.zero_add _).symm)
          fun _ => rfl).trans (hmoves₃.congr (fun q => ?_) fun _ => rfl)
        rw [space_eq_of_top htop]
      · rw [hpages₃ w hw, hmapped]
  · rintro e (⟨rfl, hbad⟩ | ⟨rfl, ⟨w, hw, hnone⟩, hshort⟩)
    · refine ⟨hfile, hheader, .inr ⟨hfetch, .inl ⟨rfl, ?_⟩⟩⟩
      simp only [hmapped] at hbad
      exact hbad
    · refine ⟨hfile, hheader, .inr ⟨hfetch, .inr ⟨rfl, hprice.mpr hshort, w, hw, fun hcover => ?_⟩⟩⟩
      exact (hmapped w).mpr hcover hnone

/-- The argv page was taken before. -/
theorem LeftOf.behind {m₁ : Mem} {l₁ : List Word} {f : ℕ → Option Word} (h : LeftOf m₁ l₁ none f)
    (hmoves : Moves m m₁ l l₁ 0 (argvHand argv)) : LeftOf m l argv f := by
  obtain ⟨S, m₂, l₂, t, hmoves₂, hleft⟩ := h
  refine ⟨S, m₂, l₂, t, hmoves.trans ((hmoves₂.beside (argvHand argv)).congr
    (fun _ => (Nat.zero_add _).symm) fun q => ?_), hleft⟩
  rw [argvHand_none, Nat.add_zero]

/-- **Giving up a table**: its table pages are free again, what it maps is held by nobody. -/
theorem freePageTable_abandons (file : File) {m₁ : Mem} {l₁ : List Word}
    (hmoves : Moves m m₁ l l₁ 0 (space allPages m₁ t)) (h : Holds allPages m₁ l₁ t R)
    (hleft : ∀ w, pages m₁ t w ≠ none → Unreached file w) :
    wp (freePageTable t) (fun _ m' => Abandoned file m l m') E m₁ := by
  refine wp_post (freePageTable_moves (A := fun _ => 0) h.free (fun q => ?_) h.page) ?_
  · rw [Nat.add_zero]
    exact h.space_once q
  · rintro _ m' ⟨-, l', hmoves'⟩
    exact ⟨l', pages m₁ t, hmoves.trans (hmoves'.congr (fun _ => (Nat.add_zero _).symm) fun _ =>
      (Nat.add_zero _).symm), hleft, .inr ⟨allPages, m₁, l₁, t, hmoves.congr (fun _ => rfl) fun _ =>
        Nat.add_zero _, fun w hw => ⟨mem_allPages_of_pages hw, rfl⟩⟩⟩

/-- **`load_new_process_for_exec` up to the new table.** -/
theorem buildTable_spec (hfree : FreeList m l) (honce : ∀ q, l.count q + (R q + argvHand argv q) ≤ 1)
    (hpage : ∀ p, argv = some p → m.image.IsPage p) :
    wp (buildTable inode tf us argv) (fun ret s => Tabled inode m l argv R ret s.mem)
      (TablePanic inode argv.isSome (avail m.deny l.length)) { mem := m, short := [] } := by
  have hnothing : ∀ {m' : Mem} {l' : List Word}, Moves m m' l l' 0 0 → Abandoned inode.file m l m' :=
    fun {m' l'} hmoves => ⟨l', fun _ => none, hmoves.congr (fun _ => rfl) fun q =>
      held_eq_zero (fun _ _ => rfl) q, fun w hw => absurd rfl hw, .inl fun _ => rfl⟩
  unfold buildTable
  rw [wp_bind, wp_inMem]
  refine wp_mono (wp_and (getPagetable_holds (S := allPages) (E := fun _ => False) hfree honce)
    (getClearPage_spec (E := fun _ => False) hfree)) ?_ fun _ he => he.2.elim
  rintro (_ | t) m₁ ⟨hpost, hclear⟩
  · obtain ⟨hzero, d, rfl⟩ := hpost
    refine ⟨fun hbuild => ?_, hnothing (.of_deny hfree d)⟩
    have hprice := hbuild.price_le
    rw [hzero, price] at hprice
    omega
  obtain ⟨l₁, hholds, hmoves₁, hnone, hneed₁, havail₁⟩ := hpost
  obtain ⟨hroot, hcell, -⟩ := hclear
  cases hfile : inode.isFile with
  | false =>
    have hspace : ∀ q, space allPages m₁ t q = one t q := by
      intro q
      have htab : tables m₁ t q = one t q := Radix.own_empty (next_zero hcell)
      rw [space, htab, held_eq_zero fun w _ => hnone w, Nat.add_zero]
    simp only [Bool.not_false, if_true, wp_bind, wp_inMem]
    have hin : l₁.count t = 0 := by
      have ht := hholds.once t
      rw [hspace, one_self] at ht
      omega
    refine wp_mono (kfree_spec hholds.free hin) ?_ fun e he => absurd (hmoves₁.image ▸ hroot) he.2
    rintro _ m₂ ⟨-, hmoves₂, -⟩
    refine ⟨fun hbuild => ?_, hnothing (hmoves₁.trans (hmoves₂.congr hspace fun _ => rfl))⟩
    rw [hbuild.isFile] at hfile
    cases hfile
  | true =>
    simp only [Bool.not_true, Bool.false_eq_true, if_false, wp_bind]
    refine wp_mono (loadProcessElf_spec hholds hnone) ?_ ?_
    · rintro (_ | e) s hpost
      · simp only [wp_bind, wp_inMem]
        rcases hpost with ⟨hmem, hnot⟩ | ⟨hheader, i, hi, hload, ⟨l₂, hholds₂, hmoves₂, hleft⟩, hnot⟩
        · rw [hmem]
          refine wp_post (freePageTable_abandons inode.file hmoves₁ hholds fun w hw => ?_) ?_
          · exact absurd (hnone w) hw
          · exact fun _ m₂ hleft => ⟨fun hbuild => hnot ⟨hbuild.header, rfl⟩, hleft⟩
        · refine wp_post (freePageTable_abandons inode.file (hmoves₁.trans hmoves₂) hholds₂
            fun w hw => .inl ⟨i, hi, (hleft w).mp hw⟩) ?_
          refine fun _ m₂ hleft => ⟨fun hbuild => hnot ⟨?_, fun _ => rfl⟩, hleft⟩
          have hfetch := hbuild.fetch
          rw [havail₁, Nat.add_sub_cancel] at hfetch
          exact ((loadable_iff hneed₁).mpr hfetch).of_le hi
      · obtain ⟨hheader, hended⟩ := hpost
        rw [wp_inMem]
        exact finish_loaded hfile hheader hpage hmoves₁ hneed₁ havail₁ hended
    · rintro e ⟨hheader, rfl, n, hn, hload, hover⟩
      refine ⟨hfile, hheader, .inl ⟨rfl, n, hn, ?_, hover⟩⟩
      rw [havail₁, Nat.add_sub_cancel]
      exact (loadable_iff hneed₁).mp hload

/-! ## `exec` -/

section Exec

variable {s s' : Sys} {j : ProcId} {n ip argc : ℕ} {disk : Disk} {path : List Byte}
  {strInArgv : ℕ → Byte} {K : Word → ℕ}

/-- A process on its new table. -/
def Proc.loaded (proc : Proc) (pgtable memEnd : Word) : Proc :=
  { proc with pgtable := pgtable, memStart := memEnd, memBrk := memEnd, memEnd := memEnd }

/-- What the old table leaves: the pages that it maps past its end. -/
def leftover (s : Sys) (j : ProcId) (n : ℕ) : Word → ℕ :=
  held (emptied (pages s.mem (s.proc j).pgtable) (n - 1)) userPages

/-- **How `load_new_process_for_exec` ends**: as it began, but for what no error exit reaches; or with
the process on the new table, and the old one freed. -/
def Switched (s : Sys) (l : List Word) (j : ProcId) (inode : Inode) (argv : Option Word) (n : ℕ)
    (K : Word → ℕ) : Bool → Sys → Prop
  | true, s' => ¬Buildable inode argv.isSome (avail s.mem.deny l.length) ∧ s' = { s with mem := s'.mem } ∧
      Abandoned inode.file s.mem l s'.mem
  | false, s' => Buildable inode argv.isSome (avail s.mem.deny l.length) ∧
      ∃ t e, e = imageMemEnd inode.file + argv.elim 0 (fun _ => pgsize) ∧
      (argv.isSome → vpn (imageMemEnd inode.file) < 67108861) ∧
      s' = { s with mem := s'.mem, proc := update s.proc j ((s.proc j).loaded t e) } ∧
      ∃ l', Holds userPages s'.mem l' t (fun q => K q + leftover s j n q) ∧
        Moves s.mem s'.mem l l' (fun q => space userPages s.mem (s.proc j).pgtable q + argvHand argv q)
          (fun q => space userPages s'.mem t q + leftover s j n q) ∧
        ∀ w ∈ userPages, pages s'.mem t w ≠ none ↔
          Covered inode.file w ∨ (argv.isSome ∧ w = vpn (imageMemEnd inode.file))

/-- **`load_new_process_for_exec`.** -/
theorem loadNewProcessForExec_spec
    (h : Holds userPages s.mem l (s.proc j).pgtable (fun q => K q + argvHand argv q))
    (hpage : ∀ p, argv = some p → s.mem.image.IsPage p) (hend : EndsAt (s.proc j).memEnd n) :
    wp (loadNewProcessForExec j inode argv) (Switched s l j inode argv n K)
      (fun e => TablePanic inode argv.isSome (avail s.mem.deny l.length) e ∨
        e = .unmapUnmapped ∧ Buildable inode argv.isSome (avail s.mem.deny l.length) ∧
          Hole s.mem (s.proc j).pgtable n) s := by
  have honce : ∀ q, l.count q +
      (K q + space userPages s.mem (s.proc j).pgtable q + argvHand argv q) ≤ 1 := by
    intro q
    have hq := h.once q
    omega
  unfold loadNewProcessForExec
  rw [wp_bind, wp_inspect, wp_bind, wp_onLoad]
  refine wp_mono (buildTable_spec h.free honce hpage) ?_ fun e he => .inl he
  rintro (_ | ⟨t, e⟩) ⟨m₁, short⟩ hpost
  · exact ⟨hpost.1, rfl, hpost.2⟩
  obtain ⟨hbuild, rfl, hargv, l₁, hholds₁, hmoves₁, hpages₁⟩ := hpost
  dsimp only at hholds₁ hmoves₁ hpages₁
  -- the old table has stayed as it was
  have hold : ∀ q, l.count q + argvHand argv q + tables s.mem (s.proc j).pgtable q ≤ 1 := by
    intro q
    have hq := honce q
    unfold space at hq
    omega
  have hspace := hmoves₁.space (S := userPages) hold
  have hpages := (hmoves₁.table hold).2.2
  have hholds₂ : Holds userPages m₁ l₁ (s.proc j).pgtable (fun q => K q + space userPages m₁ t q) := by
    refine ⟨hholds₁.free, fun q => ?_, fun q hq => ?_⟩
    · have hq := hholds₁.once q
      rw [hspace]
      omega
    · rw [hspace] at hq
      exact hmoves₁.image ▸ h.page q hq
  rw [wp_bind, wp_onMem]
  refine wp_mono (freeTable_spec hholds₂ hend) ?_ ?_
  · rintro _ m₂ ⟨l₂, hmoves₂⟩
    dsimp only at hmoves₂
    rw [hspace, hpages] at hmoves₂
    have hnew : ∀ q, l₁.count q + space userPages s.mem (s.proc j).pgtable q + tables m₁ t q ≤ 1 := by
      intro q
      have hq := hholds₁.once q
      unfold space at hq ⊢
      omega
    have hspace₂ := hmoves₂.space (S := userPages) hnew
    have hpages₂ := (hmoves₂.table hnew).2.2
    rw [wp_bind, wp_setProc]
    refine ⟨hbuild, t, _, rfl, hargv, rfl, l₂, ⟨hmoves₂.free, fun q => ?_, fun q hq => ?_⟩, ?_,
      fun w hw => ?_⟩
    · have hq := hholds₁.once q
      have hsame := hmoves₂.same q
      dsimp only
      rw [hspace₂]
      unfold leftover
      omega
    · rw [hspace₂] at hq
      exact hmoves₂.image ▸ hholds₁.page q hq
    · rw [hspace₂]
      refine ((hmoves₁.beside (space userPages s.mem (s.proc j).pgtable)).congr
        (fun q => Nat.add_comm _ _) fun _ => rfl).trans ?_
      exact (hmoves₂.beside (space userPages m₁ t)).congr (fun q => Nat.add_comm _ _)
        fun q => Nat.add_comm _ _
    · rw [hpages₂]
      exact hpages₁ w hw
  · rintro e ⟨rfl, w, hw, hnone⟩
    rw [hpages] at hnone
    exact .inr ⟨rfl, hbuild, w, hw, hnone⟩

/-- `kalloc` hands over the head of the list. -/
theorem kalloc_head : wp kalloc (fun ret _ => ∀ p, ret = some p → p = m.head) E m := by
  unfold wp kalloc
  by_cases hnone : m.deny.head? = some true ∨ m.head = 0
  · rw [if_pos hnone]
    exact fun p hp => nomatch hp
  · rw [if_neg hnone]
    exact fun p hp => (Option.some.inj hp).symm

/-- The page for `argv`, filled. -/
theorem allocPageCopyArgv_spec (h : Holds userPages m l r R) :
    wp (allocPageCopyArgv argc strInArgv) (fun ret m' => match ret with
      | none => avail m.deny l.length = 0 ∧ Moves m m' l l 0 0
      | some p => m.image.IsPage p ∧ p = m.head ∧ ∃ l', Moves m m' l l' 0 (one p) ∧
        avail m.deny l.length = avail m'.deny l'.length + 1) E m := by
  unfold allocPageCopyArgv
  rw [wp_bind]
  refine wp_mono (wp_and (kalloc_holds (E := E) h) (kalloc_head (E := E))) ?_ fun e he => he.1
  rintro (_ | p) m₁ ⟨hpost, hhead⟩
  · obtain ⟨hzero, -, d, rfl⟩ := hpost
    exact ⟨hzero, .of_deny h.free d⟩
  · obtain ⟨hpage, l₁, hholds, hmoves, -, -, -, havail⟩ := hpost
    rw [wp_bind, wp_alter]
    have hin := hholds.once p
    rw [one_self] at hin
    refine ⟨hpage, hhead p rfl, l₁, hmoves.trans ?_, havail⟩
    exact .of_fill hmoves.free (by omega) (by simp) _

/-- The reference of `namei` is given back. -/
theorem update_update_ref (f : ℕ → ℕ) (ip : ℕ) :
    update (update f ip (f ip + 1)) ip (update f ip (f ip + 1) ip - 1) = f := by
  rw [Function.update_self, Nat.add_sub_cancel, Function.update_idem, Function.update_eq_self]

/-- **The process has what `exec` needs**: the path names a file, and a table can be built for it with
the pages that the argv page leaves. -/
def Executable (disk : Disk) (path : List Byte) (argc a : ℕ) : Prop :=
  ∃ ip, disk.namei path = some ip ∧
    Buildable (disk.inode ip) (argc ≠ 0) (a - if argc = 0 then 0 else 1)

/-- **How `exec` ends.** -/
def Execed (s : Sys) (l : List Word) (j : ProcId) (disk : Disk) (path : List Byte) (argc n : ℕ)
    (K : Word → ℕ) : Bool → Sys → Prop
  | true, s' => ¬Executable disk path argc (avail s.mem.deny l.length) ∧ s' = { s with mem := s'.mem } ∧
      ∃ l' f, Moves s.mem s'.mem l l' 0 (held f allPages) ∧
        (∀ w, f w ≠ none → ∃ ip, disk.namei path = some ip ∧ Unreached (disk.inode ip).file w) ∧
        ((∀ w, f w = none) ∨ ∃ argv : Option Word, argv.isSome = decide (argc ≠ 0) ∧
          (∀ p, argv = some p → p = s.mem.head) ∧ LeftOf s.mem l argv f)
  | false, s' => ∃ ip, disk.namei path = some ip ∧
      Buildable (disk.inode ip) (argc ≠ 0) (avail s.mem.deny l.length - if argc = 0 then 0 else 1) ∧
      ∃ t e, e = imageMemEnd (disk.inode ip).file + (if argc = 0 then 0 else pgsize) ∧
      (argc ≠ 0 → vpn (imageMemEnd (disk.inode ip).file) < 67108861) ∧
      s' = { s with mem := s'.mem, proc := update s.proc j ((s.proc j).loaded t e) } ∧
      s'.mem.cell (s.proc j).trapFrame =
        execRegs (BitVec.ofNat 64 argc) e (s.mem.cell (s.proc j).trapFrame) ∧
      ∃ l', Holds userPages s'.mem l' t (fun q => K q + leftover s j n q) ∧
        Moves s.mem s'.mem l l'
          (fun q => space userPages s.mem (s.proc j).pgtable q + one (s.proc j).trapFrame q)
          (fun q => space userPages s'.mem t q + leftover s j n q + one (s.proc j).trapFrame q) ∧
        ∀ w ∈ userPages, pages s'.mem t w ≠ none ↔ Covered (disk.inode ip).file w ∨
          (argc ≠ 0 ∧ w = vpn (imageMemEnd (disk.inode ip).file))

/-- **How `exec` panics**: the new table does, or the old one has a hole. -/
def ExecPanic (s : Sys) (j : ProcId) (disk : Disk) (path : List Byte) (argc n a : ℕ) (e : Panic) : Prop :=
  ∃ ip, disk.namei path = some ip ∧
    (TablePanic (disk.inode ip) (argc ≠ 0) (a - if argc = 0 then 0 else 1) e ∨
      e = .unmapUnmapped ∧ Buildable (disk.inode ip) (argc ≠ 0) (a - if argc = 0 then 0 else 1) ∧
        Hole s.mem (s.proc j).pgtable n)

/-- **`exec` from the load on**, with the argv page in the hand and the reference to the inode taken. -/
theorem execLoad_spec {m₁ : Mem} {l₁ : List Word} (h : Holds userPages s.mem l (s.proc j).pgtable K)
    (htf : 0 < K (s.proc j).trapFrame) (hend : EndsAt (s.proc j).memEnd n)
    (hip : disk.namei path = some ip) (hargv : argv.isSome = decide (argc ≠ 0))
    (hpage : ∀ p, argv = some p → s.mem.image.IsPage p) (hhead : ∀ p, argv = some p → p = s.mem.head)
    (hmoves : Moves s.mem m₁ l l₁ 0 (argvHand argv))
    (havail : avail m₁.deny l₁.length = avail s.mem.deny l.length - if argc = 0 then 0 else 1) :
    wp (execLoad disk j ip argc argv) (Execed s l j disk path argc n K)
      (ExecPanic s j disk path argc n (avail s.mem.deny l.length))
      { s with mem := m₁, inodeRef := update s.inodeRef ip (s.inodeRef ip + 1) } := by
  have honce : ∀ q, l.count q + (0 : Word → ℕ) q + tables s.mem (s.proc j).pgtable q ≤ 1 := h.tables_once
  have hspace := hmoves.space (S := userPages) honce
  have hpages := (hmoves.table honce).2.2
  have hholds : Holds userPages m₁ l₁ (s.proc j).pgtable (fun q => K q + argvHand argv q) := by
    refine ⟨hmoves.free, fun q => ?_, fun q hq => ?_⟩
    · have hq := h.once q
      have hsame := hmoves.same q
      rw [Pi.zero_apply] at hsame
      rw [hspace]
      omega
    · rw [hspace] at hq
      exact hmoves.image ▸ h.page q hq
  unfold execLoad
  rw [wp_bind]
  refine wp_mono (loadNewProcessForExec_spec (s := { s with mem := m₁, inodeRef := _ }) hholds
    (fun p hp => hmoves.image ▸ hpage p hp) hend) ?_ ?_
  swap
  · simp only [hargv, havail, Hole, hpages]
    exact fun e he => ⟨ip, hip, he⟩
  simp only [Switched, hargv, havail, leftover, hspace, hpages]
  rintro (_ | _) s₂ hpost
  · obtain ⟨hbuild, t, e, he, hlow, hs₂, l₂, hholds₂, hmoves₂, hpages₂⟩ := hpost
    generalize s₂.mem = m₂ at hs₂ hholds₂ hmoves₂ hpages₂
    subst hs₂
    unfold iput
    rw [wp_bind, wp_alter, if_neg (by decide), wp_bind, wp_inspect, wp_bind, wp_onMem, wp_alter, wp_pure]
    dsimp only
    rw [Function.update_self, update_update_ref]
    have hown : Moves s.mem m₂ l l₂ (space userPages s.mem (s.proc j).pgtable)
        (fun q => space userPages m₂ t q + leftover s j n q) :=
      ((hmoves.beside (space userPages s.mem (s.proc j).pgtable)).congr
        (fun q => (Nat.zero_add _).symm) fun q => Nat.add_comm _ _).trans hmoves₂
    have hkeep : m₂.cell (s.proc j).trapFrame = s.mem.cell (s.proc j).trapFrame :=
      hown.kept (h.once _) htf
    have hout : l₂.count (s.proc j).trapFrame = 0 := by
      have hq := hholds₂.once (s.proc j).trapFrame
      omega
    obtain ⟨hholds₃, -, htables₃, -, hpages₃⟩ :=
      hholds₂.write (Nat.lt_of_lt_of_le htf (Nat.le_add_right _ _))
        (execRegs (BitVec.ofNat 64 argc) e (m₂.cell (s.proc j).trapFrame))
    refine ⟨ip, hip, hbuild, t, e, ?_, fun hc => hlow (decide_eq_true hc), rfl, ?_, l₂, hholds₃, ?_,
      fun w hw => ?_⟩
    · rw [he]
      cases argv with
      | none =>
        rw [if_pos (by simpa using hargv)]
        rfl
      | some p =>
        rw [if_neg (by simpa using hargv)]
        rfl
    · rw [← hkeep]
      exact Mem.fill_cell_self
    · refine ((hown.beside (one (s.proc j).trapFrame)).trans
        (.of_fill hown.free hout ?_ _)).congr (fun _ => rfl) fun q => ?_
      · rw [one_self]
        exact Nat.succ_pos _
      · unfold space
        exact congrArg₂ (fun x y => x q + held y userPages q + leftover s j n q +
          one (s.proc j).trapFrame q) htables₃ hpages₃
    · refine (iff_of_eq (congrArg (fun f => f w ≠ none) hpages₃)).trans ((hpages₂ w hw).trans ?_)
      rw [decide_eq_true_iff]
  · obtain ⟨hnot, hs₂, l₂, f, hmoves₂, hunreached, hleft⟩ := hpost
    have href : update s₂.inodeRef ip (s₂.inodeRef ip - 1) = s.inodeRef := by
      rw [hs₂]
      exact update_update_ref s.inodeRef ip
    unfold iput
    rw [wp_bind, wp_alter, if_pos rfl, href]
    have hrest : ∀ {m₃ : Mem} {l₃ : List Word}, Moves s.mem m₃ l l₃ 0 (held f allPages) →
        Execed s l j disk path argc n K true { s₂ with mem := m₃, inodeRef := s.inodeRef } := by
      intro m₃ l₃ hmoves₃
      refine ⟨?_, ?_, l₃, f, hmoves₃, fun w hw => ⟨ip, hip, hunreached w hw⟩,
        hleft.imp_right fun hleft => ⟨argv, hargv, hhead, hleft.behind hmoves⟩⟩
      · rintro ⟨ip', hip', hbuild⟩
        obtain rfl : ip = ip' := Option.some.inj (hip.symm.trans hip')
        exact hnot hbuild
      · rw [hs₂]
    cases argv with
    | none => exact hrest (hmoves.trans hmoves₂)
    | some p =>
      have hboth : Moves s.mem s₂.mem l l₂ 0 (fun q => held f allPages q + one p q) :=
        (hmoves.congr (fun _ => rfl) fun q => rfl).trans
          ((hmoves₂.beside (one p)).congr (fun q => (Nat.zero_add _).symm) fun _ => rfl)
      rw [wp_bind, wp_onMem]
      refine wp_post (kfree_moves (A := held f allPages) hboth.free (hboth.image ▸ hpage p rfl)
        fun q => ?_) ?_
      · have hq := h.once q
        have hsame := hboth.same q
        rw [Pi.zero_apply] at hsame
        omega
      · rintro _ m₃ ⟨-, hmoves₃⟩
        exact hrest (hboth.trans hmoves₃)

/-- **`exec`.** -/
theorem exec_spec (h : Holds userPages s.mem l (s.proc j).pgtable K) (htf : 0 < K (s.proc j).trapFrame)
    (hend : EndsAt (s.proc j).memEnd n) :
    wp (exec disk j path argc strInArgv) (Execed s l j disk path argc n K)
      (ExecPanic s j disk path argc n (avail s.mem.deny l.length)) s := by
  have hnothing : ∀ {m' : Mem}, ¬Executable disk path argc (avail s.mem.deny l.length) →
      Moves s.mem m' l l 0 0 → Execed s l j disk path argc n K true { s with mem := m' } :=
    fun {m'} hnot hmoves => ⟨hnot, rfl, l, fun _ => none, hmoves.congr (fun _ => rfl) fun q =>
      held_eq_zero (fun _ _ => rfl) q, fun w hw => absurd rfl hw, .inl fun _ => rfl⟩
  unfold exec
  cases hip : disk.namei path with
  | none =>
    refine hnothing ?_ (.refl h.free)
    rintro ⟨ip, hsome, -⟩
    rw [hip] at hsome
    cases hsome
  | some ip =>
    dsimp only
    unfold iget
    rw [wp_bind, wp_alter, wp_ite]
    refine ⟨fun hargc => ?_, fun hargc => ?_⟩
    · refine execLoad_spec h htf hend hip ?_ (fun p hp => nomatch hp) (fun p hp => nomatch hp)
        (.refl h.free) ?_
      · rw [hargc]
        rfl
      · rw [if_pos hargc, Nat.sub_zero]
    · rw [wp_bind, wp_onMem]
      refine wp_post (allocPageCopyArgv_spec h) ?_
      rintro (_ | p) m₁ hpost
      · obtain ⟨hzero, hmoves⟩ := hpost
        unfold iput
        rw [wp_bind, wp_alter, wp_pure]
        dsimp only
        rw [update_update_ref]
        refine hnothing ?_ hmoves
        rintro ⟨ip', -, hbuild⟩
        have hprice := hbuild.price_le
        rw [hzero, price] at hprice
        omega
      · obtain ⟨hpage, hhead, l₁, hmoves, havail⟩ := hpost
        refine execLoad_spec h htf hend hip ?_ (fun p' hp => ?_) (fun p' hp => ?_) hmoves ?_
        · exact (decide_eq_true hargc).symm
        · exact Option.some.inj hp ▸ hpage
        · exact Option.some.inj hp ▸ hhead
        · rw [if_neg hargc, havail, Nat.add_sub_cancel]

end Exec

end Pmem
