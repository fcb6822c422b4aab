import Myv6.Loader.Load
import Myv6.Pmem.Graceful

/-!
# Loader/Image — what a loaded file looks like, and what a failed load leaves

    PROC_VA_START                          mem_end
    | segment | segment | gap | segment    |
                          └─ GapFree says there is none

Headers are checked one at a time, so nothing keeps the segments together: the image is free of gaps
exactly when they are `Contiguous`.  The error exit goes over `(int)mem_end` pages: it takes all pages
back exactly when `SweepReaches` them.
-/

namespace Loader

open Function (update)
open Bytes Hoare Own Vm

variable {file : File} {m m' : Mem} {l l' : List Word} {r memEnd : Word} {R : Word → ℕ} {i j k w : ℕ}
  {s s' : Loading} {short : List (Option ℕ)} {segment : Elf64Phdr} {segs : List Elf64Phdr}

/-! ## A small machine

An empty table in a memory of 32 pages, and files made of their headers. -/

def smallSetup : Kernel (Option Word) := do
  kallocInit
  getPagetable

/-- The memory and the table that a run ends with. -/
def tableOf (m : Mem) : Except Panic (Option Word × Mem) → Mem × Word
  | .ok (some r, m') => (m', r)
  | _ => (m, 0)

@[irreducible] def smallTable : Mem × Word :=
  tableOf (Pmem.smallMem []) (smallSetup (Pmem.smallMem []))

theorem smallSetup_spec : wp smallSetup (fun ret m' => ∀ r, ret = some r →
    ∃ l, Holds allPages m' l r 0 ∧ ∀ w, pages m' r w = none) (fun _ => True) m := by
  unfold smallSetup
  rw [wp_bind]
  refine wp_post kallocInit_spec ?_
  rintro _ m ⟨-, -, l, hfree, -⟩
  refine wp_post (getPagetable_holds (S := allPages) (R := 0) hfree fun q =>
    List.nodup_iff_count.mp hfree.nodup q) ?_
  rintro (_ | r) m' hpost r' hr
  · cases hr
  · obtain rfl := Option.some.inj hr
    obtain ⟨l', hholds, -, hnone, -⟩ := hpost
    exact ⟨l', hholds, hnone⟩

theorem tableOf_eq {x : Except Panic (Option Word × Mem)} (hne : (tableOf m x).2 ≠ 0) :
    x = .ok (some (tableOf m x).2, (tableOf m x).1) := by
  rcases x with e | ⟨_ | r, m'⟩
  · exact absurd rfl hne
  · exact absurd rfl hne
  · rfl

theorem smallTable_spec : ∃ l, Holds allPages smallTable.1 l smallTable.2 0 ∧
    ∀ w, pages smallTable.1 smallTable.2 w = none := by
  have hne : smallTable.2 ≠ 0 := by decide +kernel
  unfold smallTable at hne ⊢
  exact smallSetup_spec.ok (tableOf_eq hne) _ rfl

/-- The header of a file with the program headers right behind it. -/
def smallHeader (phnum : ℕ) : Elf64Ehdr where
  eIdent := eiMagic ++ [elfclass64, elfdata2lsb] ++ .replicate 10 0
  eType := etExec
  eEntry := procVaStart
  ePhoff := 64
  ePhentsize := 56
  ePhnum := BitVec.ofNat 16 phnum

/-- A file of program headers and data. -/
def smallFile (segs : List Elf64Phdr) (data : List Byte) : File :=
  let bytes := (smallHeader segs.length).toBytes ++ segs.flatMap Elf64Phdr.toBytes ++ data
  if h : bytes.length < 2 ^ 32 then ⟨bytes, h⟩ else ⟨[], by decide⟩

/-- A segment without bytes in the file. -/
def bss (pVaddr pMemsz : Word) : Elf64Phdr where
  pType := ptLoad
  pFlags := 7
  pOffset := 0
  pVaddr := pVaddr
  pFilesz := 0
  pMemsz := pMemsz
  pAlign := pgsize

/-! ## The end of the image -/

/-- `memEndOf` from any end on stays between it and the stack. -/
theorem foldl_memEnd_bounds (h : ∀ segment ∈ segs, checkSegment segment file.size = false)
    (hmemEnd : memEnd ≤ ustackBase) :
    memEnd ≤ segs.foldl (fun memEnd segment =>
      if memEnd > segment.pVaddr + segment.pMemsz then memEnd else segment.pVaddr + segment.pMemsz)
      memEnd ∧
    segs.foldl (fun memEnd segment =>
      if memEnd > segment.pVaddr + segment.pMemsz then memEnd else segment.pVaddr + segment.pMemsz)
      memEnd ≤ ustackBase := by
  induction segs generalizing memEnd with
  | nil => exact ⟨BitVec.le_refl _, hmemEnd⟩
  | cons a segs ih =>
    rw [List.foldl_cons]
    have hrest := fun segment hmem => h segment (List.mem_cons_of_mem _ hmem)
    have hle := (checkSegment_eq_false_iff.mp (h a (List.mem_cons_self ..))).2.2.2.1
    split
    · exact ih hrest hmemEnd
    · next hgt =>
      obtain ⟨hge, hle'⟩ := ih hrest hle
      exact ⟨BitVec.le_trans (BitVec.not_lt.mp hgt) hge, hle'⟩

/-- Where the image may end. -/
theorem memEndOf_bounds (h : ∀ segment ∈ segs, checkSegment segment file.size = false) :
    procVaStart ≤ memEndOf segs ∧ memEndOf segs ≤ ustackBase :=
  foldl_memEnd_bounds h (by decide)

/-- The page number of the end, and what the loader returns. -/
theorem roundUp_memEndOf (h : ∀ segment ∈ segs, checkSegment segment file.size = false) :
    (roundUpPgsize (memEndOf segs)).toNat = vpn (roundUpPgsize (memEndOf segs)) * 4096 ∧
    1 ≤ vpn (roundUpPgsize (memEndOf segs)) ∧
    vpn (roundUpPgsize (memEndOf segs)) ≤ vpn ustackBase ∧
    vpn (roundUpPgsize (memEndOf segs)) = ((memEndOf segs).toNat + 4095) / 4096 := by
  have hstack : ustackBase.toNat = 67108861 * 4096 := by decide
  have hstart : procVaStart.toNat = 4096 := by decide
  obtain ⟨hge, hle⟩ := memEndOf_bounds h
  rw [BitVec.le_def] at hge hle
  have hup := roundUpPgsize_toNat (x := memEndOf segs) (by omega)
  rw [vpn_ustackBase, vpn, hup]
  omega

/-- The pages of a segment begin behind `PROC_VA_START`. -/
theorem one_le_vpn (h : checkSegment segment file.size = false) : 1 ≤ vpn segment.pVaddr := by
  have hge := (checkSegment_eq_false_iff.mp h).2.2.1
  have hstart : procVaStart.toNat = 4096 := by decide
  rw [BitVec.le_def, hstart] at hge
  rw [vpn]
  omega

/-! ## Gaps -/

/-- **An image without gaps**: mapped up to its end, and nowhere above. -/
def GapFree (m : Mem) (r memEnd : Word) : Prop :=
  (∀ w, vpn procVaStart ≤ w → w < vpn memEnd → pages m r w ≠ none) ∧
    ∀ w, vpn memEnd ≤ w → pages m r w = none

/-- **The segments of the file hang together**: one that has pages begins at `PROC_VA_START` or behind a
page of another, none has a page past the end, and the page before the end belongs to one.  The end is
the largest `p_vaddr + p_memsz` in 64 bits. -/
structure Contiguous (segs : List Elf64Phdr) : Prop where
  behind : ∀ a ∈ segs, a.numPages ≠ 0 → vpn a.pVaddr = vpn procVaStart ∨
    ∃ b ∈ segs, b.Covers (vpn a.pVaddr - 1)
  below : ∀ a ∈ segs, a.numPages ≠ 0 →
    vpn a.pVaddr + a.numPages ≤ vpn (roundUpPgsize (memEndOf segs))
  reached : vpn (roundUpPgsize (memEndOf segs)) = vpn procVaStart ∨
    ∃ a ∈ segs, a.Covers (vpn (roundUpPgsize (memEndOf segs)) - 1)

/-- From the last page down, every page belongs to a segment. -/
theorem Contiguous.covered (h : Contiguous segs) (d : ℕ) :
    ∀ {w : ℕ}, 1 ≤ w → w + 1 + d = vpn (roundUpPgsize (memEndOf segs)) →
    ∃ a ∈ segs, a.Covers w := by
  induction d with
  | zero =>
    intro w hw hd
    rcases h.reached with hnone | ⟨a, ha, hcover⟩
    · rw [vpn_procVaStart] at hnone
      omega
    · exact ⟨a, ha, by rwa [← hd] at hcover⟩
  | succ d ih =>
    intro w hw hd
    obtain ⟨a, ha, hge, hlt⟩ := ih (w := w + 1) (by omega) (by omega)
    by_cases hfirst : vpn a.pVaddr = w + 1
    · rcases h.behind a ha (by omega) with hstart | ⟨b, hb, hcover⟩
      · rw [vpn_procVaStart] at hstart
        omega
      · exact ⟨b, hb, by rwa [hfirst, Nat.add_sub_cancel] at hcover⟩
    · exact ⟨a, ha, by omega, by omega⟩

/-- A loaded image is free of gaps exactly when its segments hang together. -/
theorem Loaded.gapFree_iff (h : Loaded file m l r R short i s) :
    GapFree s.mem r (roundUpPgsize (memEndOf (segments file i))) ↔ Contiguous (segments file i) := by
  have haccept := h.loadable.accepted
  obtain ⟨-, hend, -, -⟩ := roundUp_memEndOf haccept
  have hstart := vpn_procVaStart
  constructor
  · rintro ⟨hmapped, hnone⟩
    have hcovered : ∀ w, 1 ≤ w → w < vpn (roundUpPgsize (memEndOf (segments file i))) →
        ∃ a ∈ segments file i, a.Covers w :=
      fun w hw hlt => (h.mapped_iff w).mp (hmapped w (by omega) hlt)
    have hlt : ∀ a ∈ segments file i, ∀ w, a.Covers w →
        w < vpn (roundUpPgsize (memEndOf (segments file i))) := by
      intro a ha w hw
      by_contra hge
      exact (h.mapped_iff w).mpr ⟨a, ha, hw⟩ (hnone w (by omega))
    refine ⟨fun a ha hpages => ?_, fun a ha hpages => ?_, ?_⟩
    · have hone := one_le_vpn (haccept a ha)
      have hfirst := hlt a ha (vpn a.pVaddr) ⟨Nat.le_refl _, by omega⟩
      by_cases hv : vpn a.pVaddr = vpn procVaStart
      · exact .inl hv
      · exact .inr (hcovered _ (by omega) (by omega))
    · have hlast := hlt a ha (vpn a.pVaddr + a.numPages - 1) ⟨by omega, by omega⟩
      omega
    · by_cases hv : vpn (roundUpPgsize (memEndOf (segments file i))) = vpn procVaStart
      · exact .inl hv
      · exact .inr (hcovered _ (by omega) (by omega))
  · intro hcont
    refine ⟨fun w hge hlt => (h.mapped_iff w).mpr ?_, fun w hge => ?_⟩
    · exact hcont.covered (vpn (roundUpPgsize (memEndOf (segments file i))) - w - 1) (by omega)
        (by omega)
    · by_contra hne
      obtain ⟨a, ha, hcover⟩ := (h.mapped_iff w).mp hne
      have hbelow := hcont.below a ha (by unfold Elf64Phdr.Covers at hcover; omega)
      unfold Elf64Phdr.Covers at hcover
      omega

/-- **When a loaded image has no gaps.** -/
theorem load_gapFree_iff (h : Holds allPages m l r R) (hnone : ∀ w, pages m r w = none)
    (hload : loadProcessElf file r { mem := m, short := short } = .ok (some memEnd, s')) :
    GapFree s'.mem r memEnd ↔ Contiguous (segments file (numHeaders file)) := by
  obtain ⟨-, rfl, hloaded⟩ := (loadProcessElf_spec h hnone).ok hload
  exact hloaded.gapFree_iff

/-- The theorem on a file of one segment. -/
theorem load_gapFree_iff_small : ∃ l s', Holds allPages smallTable.1 l smallTable.2 0 ∧
    loadProcessElf (smallFile [bss 0x1000 0x1000] []) smallTable.2 { mem := smallTable.1, short := [] } =
      .ok (some 0x2000, s') ∧
    (GapFree s'.mem smallTable.2 0x2000 ↔
      Contiguous (segments (smallFile [bss 0x1000 0x1000] [])
        (numHeaders (smallFile [bss 0x1000 0x1000] [])))) := by
  obtain ⟨l, hholds, hnone⟩ := smallTable_spec
  have hrun : ((loadProcessElf (smallFile [bss 0x1000 0x1000] []) smallTable.2
      { mem := smallTable.1, short := [] }).toOption.map fun x => x.1) = some (some 0x2000) := by
    decide +kernel
  obtain ⟨ret, s', hload, rfl⟩ := ok_of_map hrun
  exact ⟨l, s', hholds, hload, load_gapFree_iff hholds hnone hload⟩

/-- **One segment at `0x3000`**: the two pages before it are not mapped. -/
theorem not_load_gapFree : ¬∀ (file : File) (m : Mem) (l : List Word) (r memEnd : Word) (R : Word → ℕ)
    (short : List (Option ℕ)) (s' : Loading), Holds allPages m l r R → (∀ w, pages m r w = none) →
    loadProcessElf file r { mem := m, short := short } = .ok (some memEnd, s') →
    GapFree s'.mem r memEnd := by
  intro hall
  obtain ⟨l, hholds, hnone⟩ := smallTable_spec
  have hrun : ((loadProcessElf (smallFile [bss 0x3000 0x1000] []) smallTable.2
      { mem := smallTable.1, short := [] }).toOption.map fun x => (x.1, pages x.2.mem smallTable.2 1)) =
      some (some 0x4000, none) := by
    decide +kernel
  obtain ⟨ret, s', hload, hres⟩ := ok_of_map hrun
  obtain ⟨rfl, hpage⟩ := Prod.mk.inj hres
  exact (hall _ _ l _ _ 0 [] s' hholds hnone hload).1 1 (by decide) (by decide) hpage

/-! ## What a failed load leaves -/

/-- **Nothing but page-table pages is left**: no page is mapped, and what is not in the free list any more
is a page of the table. -/
def Clean (m : Mem) (l : List Word) (r : Word) (m' : Mem) : Prop :=
  (∀ w, pages m' r w = none) ∧ ∃ l', FreeList m' l' ∧
    ∀ q, l'.count q + tables m' r q = l.count q + tables m r q

/-- **The error exit reaches every page**, at whichever header the loader stops: the pages of the
segments before it are among the `(int)mem_end` pages from `PROC_VA_START` on. -/
def SweepReaches (file : File) (m : Mem) (l : List Word) (r : Word) : Prop :=
  HasHeader file → ∀ i < numHeaders file, Loadable file m l r i →
    ∀ segment ∈ segments file i, ∀ w, segment.Covers w → sweep (memEndOf (segments file i)) w

/-- A transfer between tables without pages is one of table pages. -/
theorem clean_of_moves (hnone : ∀ w, pages m r w = none) (hnone' : ∀ w, pages m' r w = none)
    (hmoves : Moves m m' l l' (space allPages m r) (space allPages m' r)) : Clean m l r m' := by
  have htables : ∀ {m : Mem}, (∀ w, pages m r w = none) → ∀ q, space allPages m r q = tables m r q := by
    intro m hnone q
    unfold space
    rw [held_eq_zero fun w _ => hnone w, Nat.add_zero]
  refine ⟨hnone', l', hmoves.free, fun q => ?_⟩
  have hsame := hmoves.same q
  rwa [htables hnone, htables hnone'] at hsame

/-- What is left of the segments decides. -/
theorem Swept.clean_iff (h : Swept file m l r R i m') (hnone : ∀ w, pages m r w = none) :
    Clean m l r m' ↔
      ∀ segment ∈ segments file i, ∀ w, segment.Covers w → sweep (memEndOf (segments file i)) w := by
  obtain ⟨l', -, hmoves, hmapped⟩ := h
  constructor
  · rintro ⟨hnone', -⟩ segment hmem w hcover
    by_contra hout
    exact (hmapped w).mpr ⟨⟨segment, hmem, hcover⟩, hout⟩ (hnone' w)
  · intro hreach
    refine clean_of_moves hnone (fun w => ?_) hmoves
    by_contra hne
    obtain ⟨⟨segment, hmem, hcover⟩, hout⟩ := (hmapped w).mp hne
    exact hout (hreach segment hmem w hcover)

/-- A reader that stops at once at the header that comes after `n` whole reads. -/
def stopAfter (n : ℕ) : List (Option ℕ) := .replicate n none ++ [some 0]

theorem stopAfter_lt {n : ℕ} (h : j < n) : (stopAfter n).getD j none = none := by
  rw [stopAfter, List.getD_eq_getElem?_getD, List.getElem?_append_left (by simpa using h),
    List.getElem?_replicate, if_pos h]
  rfl

theorem stopAfter_self (n : ℕ) : (stopAfter n).getD n none = some 0 := by
  rw [stopAfter, List.getD_eq_getElem?_getD, List.getElem?_append_right (by simp)]
  simp

/-- **The load that stops at a header** leaves what the error exit does not reach. -/
theorem load_stops (h : Holds allPages m l r R) (hnone : ∀ w, pages m r w = none)
    (hheader : HasHeader file) (hi : i < numHeaders file) (hload : Loadable file m l r i) :
    ∃ short, wp (loadProcessElf file r) (fun ret s' => ret = none ∧ Swept file m l r R i s'.mem)
      (fun _ => False) { mem := m, short := short } := by
  refine ⟨none :: stopAfter (i + pageReads (segments file i)), loadProcessElf_header (fun _ => ?_)
    fun hnot => absurd ⟨hheader, rfl⟩ hnot⟩
  refine loadLoop_reach hload hi.le (fun s' h' => ?_) (fun j hj => stopAfter_lt hj) i
    (Loaded.zero h hnone) (Nat.zero_add _)
  have hsucc : numHeaders file - i = numHeaders file - i - 1 + 1 := by omega
  have hcut : s'.short.getD 0 none = some 0 := by
    rw [h'.short_eq, getD_drop]
    exact stopAfter_self _
  obtain ⟨l', hholds, hmoves, -⟩ := h'.laid
  rw [hsucc, loadLoop, wp_bind]
  refine wp_post (readCheck_stops hcut (by decide)) ?_
  rintro _ s₂ ⟨rfl, rfl⟩
  exact loadErr_spec (s := { s' with short := s'.short.tail }) hholds hmoves h'.mapped_iff

/-- **When a failed load frees everything**: whatever the reader does, `-1` means that nothing but
page-table pages is left, exactly when the error exit reaches every page. -/
theorem load_clean_iff (h : Holds allPages m l r R) (hnone : ∀ w, pages m r w = none) :
    (∀ short ret s', loadProcessElf file r { mem := m, short := short } = .ok (ret, s') →
      ret = none → Clean m l r s'.mem) ↔ SweepReaches file m l r := by
  constructor
  · intro hclean hheader i hi hload
    obtain ⟨short, hstop⟩ := load_stops h hnone hheader hi hload
    obtain ⟨ret, s', hrun, hret, hswept⟩ := hstop.ends
    exact (hswept.clean_iff hnone).mp (hclean short ret s' hrun hret)
  · rintro hreach short ret s' hrun rfl
    rcases (loadProcessElf_spec h hnone).ok hrun with
      ⟨hmem, -⟩ | ⟨hheader, i, hi, hload, hswept, -⟩
    · rw [hmem]
      exact clean_of_moves hnone hnone (.refl h.free)
    · exact (hswept.clean_iff hnone).mpr (hreach hheader i hi hload)

/-- A file of two segments. -/
@[irreducible] def twoSegments : File := smallFile [bss 0x1000 0x1000, bss 0x2000 0x1000] []

/-- The theorem on that file: every load of it that fails is clean. -/
theorem load_clean_iff_small : ∃ l, Holds allPages smallTable.1 l smallTable.2 0 ∧
    ∀ short ret s', loadProcessElf twoSegments smallTable.2 { mem := smallTable.1, short := short } =
        .ok (ret, s') → ret = none → Clean smallTable.1 l smallTable.2 s'.mem := by
  obtain ⟨l, hholds, hnone⟩ := smallTable_spec
  refine ⟨l, hholds, (load_clean_iff hholds hnone).mpr ?_⟩
  intro _ i hi _ segment hmem w hcover
  have hsmall : decide (numHeaders twoSegments = 2 ∧ segments twoSegments 0 = [] ∧
      segments twoSegments 1 = [bss 0x1000 0x1000]) = true := by
    decide +kernel
  obtain ⟨hnum, hzero, hone⟩ := of_decide_eq_true hsmall
  rw [hnum] at hi
  interval_cases i
  · rw [hzero] at hmem
    cases hmem
  · rw [hone] at hmem ⊢
    obtain rfl := List.mem_singleton.mp hmem
    -- the page of the first segment is in front of its end
    have hpage : vpn (bss 0x1000 0x1000).pVaddr = 1 := by decide
    have hpages : (bss 0x1000 0x1000).numPages = 1 := by decide
    have hend : (intOf (memEndOf [bss 0x1000 0x1000])).toNat = 0x2000 := by decide
    rw [Elf64Phdr.Covers, hpage, hpages] at hcover
    rw [sweep, hend]
    omega

/-- **A segment that ends at 2³²**, and a header that is refused: `(int)mem_end` is 0. -/
theorem not_load_clean : ¬∀ (file : File) (m : Mem) (l : List Word) (r : Word) (R : Word → ℕ)
    (short : List (Option ℕ)) (ret : Option Word) (s' : Loading), Holds allPages m l r R →
    (∀ w, pages m r w = none) →
    loadProcessElf file r { mem := m, short := short } = .ok (ret, s') → ret = none →
    Clean m l r s'.mem := by
  intro hall
  obtain ⟨l, hholds, hnone⟩ := smallTable_spec
  have hrun : ((loadProcessElf (smallFile [bss 0xfffff000 0x1000, bss 0 0x1000] []) smallTable.2
      { mem := smallTable.1, short := [] }).toOption.map fun x =>
        (x.1, (pages x.2.mem smallTable.2 0xfffff).isSome)) = some (none, true) := by
    decide +kernel
  obtain ⟨ret, s', hload, hres⟩ := ok_of_map hrun
  obtain ⟨rfl, hpage⟩ := Prod.mk.inj hres
  have hclean := (hall _ _ l _ 0 [] none s' hholds hnone hload rfl).1 0xfffff
  simp only [hclean] at hpage
  cases hpage

/-! ## What a loaded file holds -/

/-- The page holds a byte of the segment. -/
def Elf64Phdr.OnPage (segment : Elf64Phdr) (w : ℕ) : Prop :=
  segment.pVaddr.toNat < 4096 * (w + 1) ∧ 4096 * w < segment.pVaddr.toNat + segment.pMemsz.toNat

/-- The end of the image, as an integer. -/
def imageEnd (segs : List Elf64Phdr) : ℕ :=
  segs.foldl (fun e segment => max e (segment.pVaddr.toNat + segment.pMemsz.toNat)) procVaStart.toNat

/-- **A file that can be loaded**: its headers are inside it and accepted, the bounds of its segments hold
as integers, and no two of them share a page. -/
structure WellFormed (file : File) : Prop where
  header : HasHeader file
  table : ∀ i < numHeaders file,
    (ehdr file).ePhoff.toNat + (ehdr file).ePhentsize.toNat * i + 56 ≤ file.bytes.length
  accepted : ∀ segment ∈ segments file (numHeaders file), checkSegment segment file.size = false
  bounds : ∀ segment ∈ segments file (numHeaders file), InBounds segment file.size
  apart : (segments file (numHeaders file)).Pairwise fun a b => ∀ w, a.OnPage w → ¬b.OnPage w

/-- **The image of a file.** -/
structure ImageOf (file : File) (m : Mem) (r memEnd : Word) : Prop where
  bytes : ∀ segment ∈ segments file (numHeaders file),
    ∀ k < (segment.pMemsz.toNat + 4095) / 4096 * 4096,
    byteOfVa m r (segment.pVaddr.toNat + k) =
      if k < segment.pFilesz.toNat then file.bytes[segment.pOffset.toNat + k]? else some 0
  mapped_iff : ∀ w, pages m r w ≠ none ↔ ∃ segment ∈ segments file (numHeaders file), segment.OnPage w
  memEnd_eq : memEnd.toNat = (imageEnd (segments file (numHeaders file)) + 4095) / 4096 * 4096

/-- In bounds, a segment covers the pages that hold its bytes. -/
theorem covers_iff (h : InBounds segment file.size) (haligned : segment.pVaddr % pgsize = 0) :
    segment.Covers w ↔ segment.OnPage w := by
  obtain ⟨-, -, -, hnum, hstart, -⟩ := h.pages haligned
  rw [Elf64Phdr.Covers, Elf64Phdr.OnPage, hnum]
  omega

/-- In bounds, the running maximum is that of the integers. -/
theorem foldl_memEnd_toNat (h : ∀ segment ∈ segs, InBounds segment file.size) :
    (segs.foldl (fun memEnd segment =>
      if memEnd > segment.pVaddr + segment.pMemsz then memEnd else segment.pVaddr + segment.pMemsz)
      memEnd).toNat =
    segs.foldl (fun e segment => max e (segment.pVaddr.toNat + segment.pMemsz.toNat)) memEnd.toNat := by
  induction segs generalizing memEnd with
  | nil => rfl
  | cons a segs ih =>
    have hend := (h a (List.mem_cons_self ..)).end_le
    have hstack : ustackBase.toNat = 274877894656 := by decide
    have hsum : (a.pVaddr + a.pMemsz).toNat = a.pVaddr.toNat + a.pMemsz.toNat := by
      rw [BitVec.toNat_add]
      omega
    have hmax : (if memEnd > a.pVaddr + a.pMemsz then memEnd else a.pVaddr + a.pMemsz).toNat =
        max memEnd.toNat (a.pVaddr.toNat + a.pMemsz.toNat) := by
      split
      · next hgt =>
        rw [gt_iff_lt, BitVec.lt_def] at hgt
        omega
      · next hle =>
        rw [gt_iff_lt, BitVec.lt_def] at hle
        omega
    rw [List.foldl_cons, List.foldl_cons, ih fun segment hmem => h segment (List.mem_cons_of_mem _ hmem),
      hmax]

/-- A byte of a segment in bounds. -/
theorem byte_eq (h : InBounds segment file.size) (haligned : segment.pVaddr % pgsize = 0) :
    some (segment.byte file k) =
      if k < segment.pFilesz.toNat then file.bytes[segment.pOffset.toNat + k]? else some 0 := by
  obtain ⟨hfull, hrest, hpages, -, -, -⟩ := h.pages haligned
  have hlen := h.file_le
  rw [file.size_toNat] at hlen
  have hall : segment.fullPages * 4096 + segment.restSize = segment.pFilesz.toNat := by omega
  unfold Elf64Phdr.byte
  rw [hall]
  by_cases hk : k < segment.pFilesz.toNat
  · have hoff := (h.faithful haligned).readOff_eq (k / 4096) (by omega)
    have hat : (segment.readOff (k / 4096)).toNat + k % 4096 = segment.pOffset.toNat + k := by omega
    rw [if_pos hk, if_pos hk, hat, List.getD_eq_getElem?_getD,
      List.getElem?_eq_getElem (by omega), Option.getD_some]
  · rw [if_neg hk, if_neg hk]

/-- A well-formed file can be loaded where the memory suffices. -/
theorem WellFormed.loadable (h : WellFormed file)
    (hcost : cost (need m r) (imagePages (segments file (numHeaders file))) ≤ avail m.deny l.length) :
    Loadable file m l r (numHeaders file) := by
  have haligned := fun segment hmem => (checkSegment_eq_false_iff.mp (h.accepted segment hmem)).2.1
  refine ⟨fun j hj => ?_, h.accepted, fun segment hmem j hj => ?_, fun segment hmem => ?_, ?_, hcost⟩
  · have htable := h.table j hj
    have hlt := file.length_lt
    have hoff : (phdrOff (ehdr file) j).toNat =
        (ehdr file).ePhoff.toNat + (ehdr file).ePhentsize.toNat * j := by
      rw [phdrOff, BitVec.toNat_setWidth, BitVec.toNat_add, BitVec.toNat_ofNat]
      omega
    omega
  · have hin := h.bounds segment hmem
    have hfile := hin.file_le
    have hfaithful := hin.faithful (haligned segment hmem)
    rw [file.size_toNat] at hfile
    have hpages := (hin.pages (haligned segment hmem)).2.2.1
    rw [hfaithful.readOff_eq j hj, hfaithful.readLen_eq j hj]
    omega
  · have hle := ((h.bounds segment hmem).pages (haligned segment hmem)).2.2.2.2.2
    rw [vpn_ustackBase] at hle
    exact .inr (by rw [maxVpn_eq]; omega)
  · refine h.apart.imp_of_mem fun {a b} ha hb happart w => ?_
    rw [covers_iff (h.bounds a ha) (haligned a ha), covers_iff (h.bounds b hb) (haligned b hb)]
    exact happart w

/-- The image that the loader leaves. -/
theorem Loaded.imageOf (h : Loaded file m l r R short (numHeaders file) s) (hwell : WellFormed file) :
    ImageOf file s.mem r (roundUpPgsize (memEndOf (segments file (numHeaders file)))) := by
  have haligned := fun segment hmem => (checkSegment_eq_false_iff.mp (hwell.accepted segment hmem)).2.1
  refine ⟨fun segment hmem k hk => ?_, fun w => ?_, ?_⟩
  · obtain ⟨-, -, -, hnum, hstart, -⟩ := (hwell.bounds segment hmem).pages (haligned segment hmem)
    obtain ⟨p, hp, hmap, hcell⟩ := h.content segment hmem (k / 4096) (by omega)
    have hdiv : (segment.pVaddr.toNat + k) / 4096 = vpn segment.pVaddr + k / 4096 := by omega
    have hmod : (segment.pVaddr.toNat + k) % 4096 = k % 4096 := by omega
    have hk' : 4096 * (k / 4096) + k % 4096 = k := by omega
    rw [byteOfVa, hdiv, hmap, hmod, Option.map_some, pteGetPa_makePte hp.isFrame, hcell,
      Elf64Phdr.content, byteAt_pageOf (Nat.mod_lt _ (by decide)), hk']
    exact byte_eq (hwell.bounds segment hmem) (haligned segment hmem)
  · rw [h.mapped_iff]
    exact exists_congr fun segment => and_congr_right fun hmem =>
      covers_iff (hwell.bounds segment hmem) (haligned segment hmem)
  · have hend := @foldl_memEnd_toNat _ procVaStart _ hwell.bounds
    obtain ⟨hup, -, -, hvpn⟩ := roundUp_memEndOf hwell.accepted
    rw [hup, hvpn, memEndOf, hend]
    rfl

/-- **A well-formed file is loaded**, with its bytes and zeros behind them, given enough memory and a
reader that does not stop short. -/
theorem load_contents (h : Holds allPages m l r R) (hnone : ∀ w, pages m r w = none)
    (hwell : WellFormed file)
    (hcost : cost (need m r) (imagePages (segments file (numHeaders file))) ≤ avail m.deny l.length)
    (hread : ∀ j, short.getD j none = none) :
    ∃ memEnd s', loadProcessElf file r { mem := m, short := short } = .ok (some memEnd, s') ∧
      ImageOf file s'.mem r memEnd := by
  have hload := hwell.loadable hcost
  have hends : wp (loadProcessElf file r) (fun ret s' => ∃ memEnd, ret = some memEnd ∧
      ImageOf file s'.mem r memEnd) (fun _ => False) { mem := m, short := short } := by
    refine wp_mono (loadProcessElf_spec h hnone) ?_ ?_
    · rintro (_ | memEnd) s' hended
      · rcases hended with ⟨-, hnot⟩ | ⟨-, i, hi, -, -, hnot⟩
        · exact absurd ⟨hwell.header, hread 0⟩ hnot
        · refine absurd ⟨hload.of_le (by omega), fun j => ?_⟩ hnot
          have hj := hread (j + 1)
          rwa [List.getD_eq_getElem?_getD, ← List.getElem?_tail, ← List.getD_eq_getElem?_getD] at hj
      · obtain ⟨-, rfl, hloaded⟩ := hended
        exact ⟨_, rfl, hloaded.imageOf hwell⟩
    · rintro e ⟨-, -, i, hi, -, hloads, a, ha, w, haw, hiw⟩
      have happart := (hload.of_le (i := i + 1) (by omega)).apart
      rw [segments_of_loads hloads, List.pairwise_append] at happart
      exact happart.2.2 a ha _ (List.mem_singleton_self _) w haw hiw
  obtain ⟨ret, s', hrun, memEnd, rfl, himage⟩ := hends.ends
  exact ⟨memEnd, s', hrun, himage⟩

/-- Five bytes of text. -/
def smallText : Elf64Phdr where
  pType := ptLoad
  pFlags := 5
  pOffset := 176
  pVaddr := 0x1000
  pFilesz := 5
  pMemsz := 0x800
  pAlign := pgsize

/-- Text and a page of zeros behind it. -/
def smallProgram : File := smallFile [smallText, bss 0x2000 0x1000] [0x13, 0x05, 0xa0, 0x02, 0x73]

theorem smallProgram_wellFormed : WellFormed smallProgram := by
  have hsegs : segments smallProgram (numHeaders smallProgram) = [smallText, bss 0x2000 0x1000] := by
    decide +kernel
  have hsize : smallProgram.size = 181 := by decide +kernel
  refine ⟨⟨by decide +kernel, by decide +kernel⟩, by decide +kernel, by decide +kernel, ?_, ?_⟩
  · rw [hsegs, hsize]
    intro segment hmem
    rw [List.mem_cons, List.mem_singleton] at hmem
    rcases hmem with rfl | rfl
    · exact ⟨by decide, by decide, by decide, by decide⟩
    · exact ⟨by decide, by decide, by decide, by decide⟩
  · rw [hsegs, List.pairwise_pair]
    rintro w ⟨-, htext⟩ ⟨hbss, -⟩
    have hend : smallText.pVaddr.toNat + smallText.pMemsz.toNat = 6144 := rfl
    have hstart : (bss 0x2000 0x1000).pVaddr.toNat = 8192 := rfl
    omega

/-- The theorem on that file. -/
theorem load_contents_small : ∃ l memEnd s', Holds allPages smallTable.1 l smallTable.2 0 ∧
    loadProcessElf smallProgram smallTable.2 { mem := smallTable.1, short := [] } =
      .ok (some memEnd, s') ∧
    ImageOf smallProgram s'.mem smallTable.2 memEnd := by
  obtain ⟨l, hholds, hnone⟩ := smallTable_spec
  have hrun : ((loadProcessElf smallProgram smallTable.2
      { mem := smallTable.1, short := [] }).toOption.map fun x => x.1) = some (some 0x3000) := by
    decide +kernel
  obtain ⟨ret, s', hload, rfl⟩ := ok_of_map hrun
  obtain ⟨-, -, hloaded⟩ := (loadProcessElf_spec hholds hnone).ok hload
  obtain ⟨memEnd, s', hload', himage⟩ := load_contents hholds hnone smallProgram_wellFormed
    hloaded.loadable.cost_le (fun _ => rfl : ∀ j, ([] : List (Option ℕ)).getD j none = none)
  exact ⟨l, memEnd, s', hholds, hload', himage⟩

end Loader
