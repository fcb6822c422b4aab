import Myv6.Loader.Bounds

/-!
# Loader/Load — `load_process_elf`

    Ehdr ──▸ Phdr 0 ──▸ Phdr 1 ──▸ … ──▸ ROUND_UP_PGSIZE(mem_end)
                │          │
                └──────────┴──▸ err_ret: unmap (int)mem_end pages from PROC_VA_START

The program headers are read one after the other, and each segment is mapped before the next header is
looked at.  `Loaded` is what the first headers have left; `Loadable` says of the file and the memory
alone that they can be loaded at all.
-/

namespace Loader

open Function (update)
open Bytes Hoare Own Vm

/-- `read_check` into a local variable; `none` for an error. -/
def readCheck (file : File) (off n : BitVec 32) : Load (Option (List Byte)) := do
  let data ← elfRead file off n
  if data.length ≠ n.toNat then
    pure none
  else
    pure (some data)

/-- The error exit of `load_process_elf`. -/
def loadErr (pgtable memEnd : Word) : Load (Option Word) := do
  inMem (unmapNPagesFreeHole pgtable procVaStart (intOf memEnd))
  pure none

/-- The offset of a program header, an `unsigned int`.  The product is an `int` in the source; its low
32 bits are these. -/
def phdrOff (header : Elf64Ehdr) (i : ℕ) : BitVec 32 :=
  (header.ePhoff + BitVec.ofNat 64 (header.ePhentsize.toNat * i)).setWidth 32

/-- The loop over the program headers, with the headers left and the headers done. -/
def loadLoop (file : File) (pgtable : Word) (header : Elf64Ehdr) : ℕ → ℕ → Word → Load (Option Word)
  | 0, _, memEnd => pure (some (roundUpPgsize memEnd))
  | k + 1, i, memEnd => do
    match ← readCheck file (phdrOff header i) phdrSize with
    | none => loadErr pgtable memEnd
    | some data =>
      let segment := Elf64Phdr.ofBytes data
      if segment.pType ≠ ptLoad ∨ segment.pMemsz = 0 then
        loadLoop file pgtable header k (i + 1) memEnd
      else if checkSegment segment file.size then
        loadErr pgtable memEnd
      else if ← mapSegmentForSegment file pgtable segment then
        loadErr pgtable memEnd
      else
        let newEnd := segment.pVaddr + segment.pMemsz
        loadLoop file pgtable header k (i + 1) (if memEnd > newEnd then memEnd else newEnd)

/-- Returns `none` for `-1`, which is no multiple of the page size. -/
def loadProcessElf (file : File) (pgtable : Word) : Load (Option Word) := do
  match ← readCheck file 0 ehdrSize with
  | none => pure none
  | some data =>
    let header := Elf64Ehdr.ofBytes data
    if checkElfHeader header then
      pure none
    else
      loadLoop file pgtable header header.ePhnum.toNat 0 procVaStart

/-! ## What a file asks for -/

/-- The file header, where the file has one. -/
def ehdr (file : File) : Elf64Ehdr := Elf64Ehdr.ofBytes (readi file 0 ehdrSize)

/-- The file has a header, and `check_elf_header` accepts it. -/
structure HasHeader (file : File) : Prop where
  size_le : 64 ≤ file.bytes.length
  accepted : checkElfHeader (ehdr file) = false

/-- The `i`-th program header, where the file has one. -/
def segmentAt (file : File) (i : ℕ) : Elf64Phdr :=
  Elf64Phdr.ofBytes (readi file (phdrOff (ehdr file) i) phdrSize)

/-- The segment is mapped: it is `PT_LOAD`, and not empty. -/
def Elf64Phdr.loads (segment : Elf64Phdr) : Bool := segment.pType = ptLoad ∧ segment.pMemsz ≠ 0

/-- The segments of the first `i` headers. -/
def segments (file : File) (i : ℕ) : List Elf64Phdr :=
  ((List.range i).map (segmentAt file)).filter Elf64Phdr.loads

/-- A page of the segment. -/
def Elf64Phdr.Covers (segment : Elf64Phdr) (w : ℕ) : Prop :=
  vpn segment.pVaddr ≤ w ∧ w < vpn segment.pVaddr + segment.numPages

/-- The running maximum of `load_process_elf`. -/
def memEndOf (segs : List Elf64Phdr) : Word :=
  segs.foldl (fun memEnd segment =>
    if memEnd > segment.pVaddr + segment.pMemsz then memEnd else segment.pVaddr + segment.pMemsz)
    procVaStart

/-- The pages of the segments in the order in which they are mapped. -/
def imagePages (segs : List Elf64Phdr) : List ℕ :=
  segs.flatMap fun segment => List.range' (vpn segment.pVaddr) segment.numPages

/-- The reads of pages. -/
def pageReads (segs : List Elf64Phdr) : ℕ := (segs.map Elf64Phdr.filePages).sum

/-- All page numbers. -/
@[irreducible] def allPages : Finset ℕ := Finset.range maxVpn

theorem mem_allPages {w : ℕ} (h : w < maxVpn) : w ∈ allPages := by
  unfold allPages
  exact Finset.mem_range.mpr h

/-- **The first `i` headers can be loaded**, given the memory that there is and a reader that does not
stop short. -/
structure Loadable (file : File) (m : Mem) (l : List Word) (r : Word) (i : ℕ) : Prop where
  headers : ∀ j < i, (phdrOff (ehdr file) j).toNat + 56 ≤ file.bytes.length
  accepted : ∀ segment ∈ segments file i, checkSegment segment file.size = false
  inFile : ∀ segment ∈ segments file i, ∀ j < segment.filePages,
    (segment.readOff j).toNat + (segment.readLen j).toNat ≤ file.bytes.length
  within : ∀ segment ∈ segments file i,
    segment.numPages = 0 ∨ vpn segment.pVaddr + segment.numPages ≤ maxVpn
  apart : (segments file i).Pairwise fun a b => ∀ w, a.Covers w → ¬b.Covers w
  cost_le : cost (need m r) (imagePages (segments file i)) ≤ avail m.deny l.length

/-- **What the first `i` headers have left.** -/
structure Loaded (file : File) (m : Mem) (l : List Word) (r : Word) (R : Word → ℕ)
    (short : List (Option ℕ)) (i : ℕ) (s : Loading) : Prop where
  laid : ∃ l', Holds allPages s.mem l' r R ∧
    Moves m s.mem l l' (space allPages m r) (space allPages s.mem r) ∧
    avail m.deny l.length =
      avail s.mem.deny l'.length + cost (need m r) (imagePages (segments file i))
  need_eq : need s.mem r = needAfter (need m r) (imagePages (segments file i))
  mapped_iff : ∀ w, pages s.mem r w ≠ none ↔ ∃ segment ∈ segments file i, segment.Covers w
  content : ∀ segment ∈ segments file i, ∀ j < segment.numPages, ∃ p, m.image.IsPage p ∧
    pages s.mem r (vpn segment.pVaddr + j) =
      some (makePte p (getAttributeFromPFlages segment.pFlags ||| pteV)) ∧
    s.mem.cell p = segment.content file j
  loadable : Loadable file m l r i
  short_eq : s.short = short.drop (i + pageReads (segments file i))

variable {file : File} {m m' : Mem} {l l' : List Word} {r memEnd : Word} {R : Word → ℕ} {i j k w : ℕ}
  {s s' : Loading} {short : List (Option ℕ)} {segment : Elf64Phdr} {segs : List Elf64Phdr}
  {E : Panic → Prop}

theorem segments_succ (file : File) (i : ℕ) : segments file (i + 1) =
    segments file i ++ if (segmentAt file i).loads then [segmentAt file i] else [] := by
  unfold segments
  rw [List.range_succ, List.map_append, List.filter_append, List.map_singleton, List.filter_singleton,
    Bool.cond_eq_ite]

theorem segments_of_not_loads (h : (segmentAt file i).loads = false) :
    segments file (i + 1) = segments file i := by
  rw [segments_succ, h, if_neg (by decide), List.append_nil]

theorem segments_of_loads (h : (segmentAt file i).loads = true) :
    segments file (i + 1) = segments file i ++ [segmentAt file i] := by
  rw [segments_succ, if_pos h]

/-- The first headers are among the others. -/
theorem segments_prefix (h : i ≤ j) : segments file i <+: segments file j := by
  induction j with
  | zero =>
    obtain rfl : i = 0 := by omega
    exact List.prefix_rfl
  | succ j ih =>
    rcases Nat.lt_or_eq_of_le h with hlt | rfl
    · refine (ih (by omega)).trans ?_
      rw [segments_succ]
      exact List.prefix_append _ _
    · exact List.prefix_rfl

/-- Fewer headers can be loaded too. -/
theorem Loadable.of_le (h : Loadable file m l r j) (hij : i ≤ j) : Loadable file m l r i := by
  obtain ⟨rest, hrest⟩ : segments file i <+: segments file j := segments_prefix hij
  have hmem : ∀ segment ∈ segments file i, segment ∈ segments file j := fun segment hin => by
    rw [← hrest]
    exact List.mem_append_left _ hin
  refine ⟨fun k hk => h.headers k (by omega), fun segment hin => h.accepted segment (hmem _ hin),
    fun segment hin => h.inFile segment (hmem _ hin), fun segment hin => h.within segment (hmem _ hin),
    ?_, ?_⟩
  · have happart := h.apart
    rw [← hrest, List.pairwise_append] at happart
    exact happart.1
  · have hcost := h.cost_le
    rw [← hrest, imagePages, List.flatMap_append, cost_append] at hcost
    exact (Nat.le_add_right _ _).trans hcost

/-! ## The error exit -/

theorem intOf_lt (x : Word) : (intOf x).toNat < 2 ^ 31 := by
  have hlt := BitVec.toInt_lt (x := x.setWidth 32)
  rw [intOf, BitVec.truncate_eq_setWidth]
  omega

/-- The page numbers that the error exit goes over. -/
def sweep (memEnd : Word) (w : ℕ) : Prop := 1 ≤ w ∧ w < 1 + (intOf memEnd).toNat

theorem mem_addressed_sweep : w ∈ addressed procVaStart (intOf memEnd).toNat ↔ sweep memEnd w := by
  have hlt := intOf_lt memEnd
  rw [mem_addressed_iff, vpn_procVaStart, sweep]
  constructor
  · rintro ⟨i, hi, rfl⟩
    omega
  · rintro ⟨hge, hle⟩
    exact ⟨w - 1, by omega, by omega⟩

/-- **What the error exit leaves**: the pages of the segments that the sweep does not reach. -/
def Swept (file : File) (m : Mem) (l : List Word) (r : Word) (R : Word → ℕ) (i : ℕ) (m' : Mem) : Prop :=
  ∃ l', Holds allPages m' l' r R ∧ Moves m m' l l' (space allPages m r) (space allPages m' r) ∧
    ∀ w, pages m' r w ≠ none ↔ (∃ segment ∈ segments file i, segment.Covers w) ∧
      ¬sweep (memEndOf (segments file i)) w

theorem loadErr_spec (h : Holds allPages s.mem l' r R)
    (hmoves : Moves m s.mem l l' (space allPages m r) (space allPages s.mem r))
    (hmapped : ∀ w, pages s.mem r w ≠ none ↔ ∃ segment ∈ segments file i, segment.Covers w) :
    wp (loadErr r (memEndOf (segments file i)))
      (fun ret s' => ret = none ∧ Swept file m l r R i s'.mem) E s := by
  unfold loadErr
  rw [wp_bind, wp_inMem]
  unfold unmapNPagesFreeHole unmapNPagesFlex
  refine wp_mono (unmapLoop_user h fun w _ hnot => pages_of_le ?_) ?_ ?_
  · by_contra hlt
    exact hnot (mem_allPages (by omega))
  · rintro _ m' ⟨-, hpages, -, -, l'', hholds, hmoves'⟩
    refine ⟨rfl, l'', hholds, hmoves.trans hmoves', fun w => ?_⟩
    rw [← hmapped, hpages, ← mem_addressed_sweep]
    simp only
    split
    · next hin => exact ⟨fun hne => absurd rfl hne, fun hand => absurd hin hand.2⟩
    · next hin => exact ⟨fun hne => ⟨hne, hin⟩, fun hand => hand.1⟩
  · rintro e ⟨-, hs, -⟩
    cases hs

/-! ## The loop over the program headers -/

/-- **A read into a local variable**: the bytes of the file, or an error because the file is too short or
the reader stops short. -/
theorem readCheck_spec {off n : BitVec 32} (hn : 0 < n.toNat) :
    wp (readCheck file off n) (fun ret s' => s' = { s with short := s.short.tail } ∧ match ret with
      | none => ¬(s.short.getD 0 none = none ∧ off.toNat + n.toNat ≤ file.bytes.length)
      | some data => data = readi file off n ∧ off.toNat + n.toNat ≤ file.bytes.length) E s := by
  unfold readCheck elfRead
  simp only [wp_bind, wp_inspect, wp_alter, wp_pure]
  split
  · next hshort =>
    rw [wp_pure]
    refine ⟨rfl, ?_⟩
    rintro ⟨hnone, hle⟩
    refine hshort ?_
    rw [hnone]
    exact (readi_length_eq_iff hn).mpr hle
  · next hwhole =>
    rw [wp_pure]
    exact ⟨rfl, readUpTo_whole hn (not_not.mp hwhole)⟩

/-- A read that stops at once. -/
theorem readCheck_stops {off n : BitVec 32} (hcut : s.short.getD 0 none = some 0) (hn : 0 < n.toNat) :
    wp (readCheck file off n)
      (fun ret s' => ret = none ∧ s' = { s with short := s.short.tail }) E s := by
  unfold readCheck elfRead
  simp only [wp_bind, wp_inspect, wp_alter, wp_pure, hcut]
  rw [if_pos (by simp [readUpTo]; omega), wp_pure]
  exact ⟨rfl, rfl⟩

/-- The reads of one turn. -/
def turnReads (file : File) (i : ℕ) : ℕ :=
  1 + if (segmentAt file i).loads then (segmentAt file i).filePages else 0

/-- **The next header can be loaded**, and the reader does not stop short on the way. -/
def Goes (file : File) (m : Mem) (l : List Word) (r : Word) (i : ℕ) (short : List (Option ℕ)) : Prop :=
  Loadable file m l r (i + 1) ∧ ∀ j < turnReads file i, short.getD j none = none

/-- A header that is not mapped. -/
theorem Loaded.skip (h : Loaded file m l r R short i s) (hloads : (segmentAt file i).loads = false)
    (hin : (phdrOff (ehdr file) i).toNat + 56 ≤ file.bytes.length) :
    Loaded file m l r R short (i + 1) { s with short := s.short.tail } := by
  have hsame := segments_of_not_loads hloads
  have hload := h.loadable
  refine ⟨?_, ?_, ?_, ?_, ⟨fun j hj => ?_, ?_, ?_, ?_, ?_, ?_⟩, ?_⟩
  · rw [hsame]
    exact h.laid
  · rw [hsame]
    exact h.need_eq
  · rw [hsame]
    exact h.mapped_iff
  · rw [hsame]
    exact h.content
  · by_cases hji : j = i
    · rw [hji]
      exact hin
    · exact hload.headers j (by omega)
  · rw [hsame]
    exact hload.accepted
  · rw [hsame]
    exact hload.inFile
  · rw [hsame]
    exact hload.within
  · rw [hsame]
    exact hload.apart
  · rw [hsame]
    exact hload.cost_le
  · rw [hsame, Nat.add_right_comm, ← List.tail_drop, ← h.short_eq]

theorem readLen_pos (hj : j < segment.filePages) : 0 < (segment.readLen j).toNat := by
  by_cases hfull : j < segment.fullPages
  · rw [readLen_toNat_full hfull]
    decide
  · rw [readLen_toNat_rest (by omega)]
    unfold Elf64Phdr.filePages at hj
    split at hj <;> omega

/-- A header that is mapped. -/
theorem Loaded.map (h : Loaded file m l r R short i s) (hloads : (segmentAt file i).loads = true)
    (hin : (phdrOff (ehdr file) i).toNat + 56 ≤ file.bytes.length)
    (haccept : checkSegment (segmentAt file i) file.size = false)
    (hmapped : SegmentMapped allPages file s.mem l' r R (segmentAt file i) s.short.tail false s')
    (hl : Holds allPages s.mem l' r R ∧
      Moves m s.mem l l' (space allPages m r) (space allPages s.mem r) ∧
      avail m.deny l.length =
        avail s.mem.deny l'.length + cost (need m r) (imagePages (segments file i))) :
    Loaded file m l r R short (i + 1) s' := by
  have hsucc := segments_of_loads hloads
  have hload := h.loadable
  obtain ⟨hcan, hshort, l'', hlaid⟩ := hmapped
  obtain ⟨-, hmoves, havail⟩ := hl
  have hput := hlaid.put
  have himage : imagePages (segments file (i + 1)) = imagePages (segments file i) ++
      List.range' (vpn (segmentAt file i).pVaddr) (segmentAt file i).numPages := by
    rw [hsucc, imagePages, List.flatMap_append, List.flatMap_singleton]
    rfl
  have hcost : cost (need m r) (imagePages (segments file (i + 1))) =
      cost (need m r) (imagePages (segments file i)) +
      cost (need s.mem r) (List.range' (vpn (segmentAt file i).pVaddr) (segmentAt file i).numPages) := by
    rw [himage, cost_append, h.need_eq]
  have hsplit : ∀ (P : Elf64Phdr → Prop), (∀ segment ∈ segments file i, P segment) →
      P (segmentAt file i) → ∀ segment ∈ segments file (i + 1), P segment := by
    intro P hold hnew segment hmem
    rw [hsucc, List.mem_append, List.mem_singleton] at hmem
    rcases hmem with hmem | rfl
    · exact hold segment hmem
    · exact hnew
  have hfree : ∀ segment ∈ segments file i, ∀ w, segment.Covers w → ¬(segmentAt file i).Covers w :=
    fun segment hmem w hw hin => (h.mapped_iff w).mpr ⟨segment, hmem, hw⟩ (hput.fresh w hin)
  refine ⟨⟨l'', hput.holds, hmoves.trans hput.moves, ?_⟩, ?_, fun w => ?_, ?_, ⟨fun j hj => ?_, ?_, ?_,
    ?_, ?_, ?_⟩, ?_⟩
  · rw [hcost, havail, hlaid.avail_eq]
    omega
  · rw [himage, needAfter_append, ← h.need_eq]
    exact funext hlaid.need_eq
  · rw [hsucc]
    simp only [List.mem_append, List.mem_singleton, or_and_right, exists_or, exists_eq_left]
    by_cases hw : (segmentAt file i).Covers w
    · exact ⟨fun _ => .inr hw, fun _ => hput.mapped w hw⟩
    · rw [hput.outside w hw, h.mapped_iff]
      exact ⟨.inl, fun hor => hor.resolve_right hw⟩
  · refine hsplit _ (fun segment hmem j hj => ?_) fun j hj => ?_
    · obtain ⟨p, hp, hmap, hcell⟩ := h.content segment hmem j hj
      have hcover : segment.Covers (vpn segment.pVaddr + j) := ⟨by omega, by omega⟩
      have hlt : vpn segment.pVaddr + j < maxVpn := by
        by_contra hge
        rw [pages_of_le (by omega)] at hmap
        cases hmap
      have hheld := frame_held hmap (mem_allPages hlt)
      rw [pteGetPa_makePte hp.isFrame] at hheld
      refine ⟨p, hp, ?_, ?_⟩
      · rw [hput.outside _ (hfree segment hmem _ hcover), hmap]
      · rw [hput.kept p hheld, hcell]
    · obtain ⟨p, hp, hmap, hcell⟩ := hlaid.content j hj
      exact ⟨p, hmoves.image ▸ hp, hmap, hcell⟩
  · by_cases hji : j = i
    · rw [hji]
      exact hin
    · exact hload.headers j (by omega)
  · exact hsplit _ hload.accepted haccept
  · exact hsplit _ hload.inFile fun j hj => (readUpTo_whole (readLen_pos hj) (hcan.whole j hj)).2
  · exact hsplit _ hload.within hcan.within
  · rw [hsucc, List.pairwise_append]
    refine ⟨hload.apart, List.pairwise_singleton _ _, fun a ha b hb w hw => ?_⟩
    rw [List.mem_singleton] at hb
    exact hb ▸ hfree a ha w hw
  · have hle := hlaid.avail_eq
    omega
  · rw [hshort, h.short_eq, List.tail_drop, List.drop_drop, hsucc, pageReads, pageReads,
      List.map_append, List.sum_append, List.map_singleton, List.sum_singleton]
    congr 1
    omega

/-- A header that can be loaded has its segment mapped. -/
theorem Goes.canMap (hgoes : Goes file m l r i s.short) (h : Loaded file m l r R short i s)
    (hloads : (segmentAt file i).loads = true)
    (havail : avail m.deny l.length =
      avail s.mem.deny l'.length + cost (need m r) (imagePages (segments file i))) :
    CanMap file s.mem l' r (segmentAt file i) s.short.tail := by
  obtain ⟨hload, hshort⟩ := hgoes
  have hmem : segmentAt file i ∈ segments file (i + 1) := by
    rw [segments_of_loads hloads]
    exact List.mem_append_right _ (List.mem_singleton_self _)
  refine ⟨hload.within _ hmem, ?_, fun j hj => ?_⟩
  · have hle := hload.cost_le
    rw [segments_of_loads hloads, imagePages, List.flatMap_append, List.flatMap_singleton,
      cost_append, ← imagePages, ← h.need_eq] at hle
    omega
  · have hcut : s.short.tail.getD j none = none := by
      have hlt := hshort (j + 1) (by
        rw [turnReads, if_pos hloads]
        omega)
      rwa [List.getD_eq_getElem?_getD, ← List.getElem?_tail, ← List.getD_eq_getElem?_getD] at hlt
    rw [Whole, hcut]
    exact (readi_length_eq_iff (readLen_pos hj)).mpr (hload.inFile _ hmem j hj)

/-- The next segment overlaps one that is mapped. -/
def Overlaps (file : File) (i : ℕ) : Prop :=
  (segmentAt file i).loads = true ∧ ∃ a ∈ segments file i, ∃ w, a.Covers w ∧ (segmentAt file i).Covers w

/-- **One turn of the loop over the program headers.** -/
theorem loadLoop_turn {Q : Option Word → Loading → Prop} (h : Loaded file m l r R short i s)
    (hnext : ∀ s', Loaded file m l r R short (i + 1) s' →
      wp (loadLoop file r (ehdr file) k (i + 1) (memEndOf (segments file (i + 1)))) Q E s')
    (hfail : ∀ s', Swept file m l r R i s'.mem → ¬Goes file m l r i s.short → Q none s')
    (hpanic : Overlaps file i → E .mapMapped) :
    wp (loadLoop file r (ehdr file) (k + 1) i (memEndOf (segments file i))) Q E s := by
  obtain ⟨l', hholds, hmoves, havail⟩ := h.laid
  rw [loadLoop, wp_bind]
  refine wp_post (readCheck_spec (by decide)) ?_
  rintro (_ | data) s₁ ⟨rfl, hread⟩
  · refine wp_post (loadErr_spec (s := { s with short := s.short.tail }) hholds hmoves h.mapped_iff) ?_
    rintro _ s' ⟨rfl, hswept⟩
    refine hfail s' hswept fun hgoes => hread ⟨hgoes.2 0 ?_, hgoes.1.headers i (by omega)⟩
    rw [turnReads]
    omega
  obtain ⟨rfl, hin⟩ := hread
  have hseg : Elf64Phdr.ofBytes (readi file (phdrOff (ehdr file) i) phdrSize) = segmentAt file i := rfl
  have hin : (phdrOff (ehdr file) i).toNat + 56 ≤ file.bytes.length := hin
  simp only [hseg]
  by_cases hskip : (segmentAt file i).pType ≠ ptLoad ∨ (segmentAt file i).pMemsz = 0
  · have hloads : (segmentAt file i).loads = false := by
      rw [Elf64Phdr.loads, decide_eq_false_iff_not]
      tauto
    rw [if_pos hskip, ← segments_of_not_loads hloads]
    exact hnext _ (h.skip hloads hin)
  have hloads : (segmentAt file i).loads = true := by
    rw [Elf64Phdr.loads, decide_eq_true_eq]
    tauto
  have hmem : segmentAt file i ∈ segments file (i + 1) := by
    rw [segments_of_loads hloads]
    exact List.mem_append_right _ (List.mem_singleton_self _)
  rw [if_neg hskip]
  cases hcheck : checkSegment (segmentAt file i) file.size with
  | true =>
    rw [if_pos rfl]
    refine wp_post (loadErr_spec (s := { s with short := s.short.tail }) hholds hmoves h.mapped_iff) ?_
    rintro _ s' ⟨rfl, hswept⟩
    refine hfail s' hswept fun hgoes => ?_
    rw [hgoes.1.accepted _ hmem] at hcheck
    cases hcheck
  | false =>
    have haligned := (checkSegment_eq_false_iff.mp hcheck).2.1
    rw [if_neg (by decide), wp_bind]
    refine wp_mono (mapSegmentForSegment_spec (s := { s with short := s.short.tail })
      (fun w hw => mem_allPages hw) haligned hholds) ?_ ?_
    swap
    · rintro e ⟨rfl, w, hge, hlt, hbad⟩
      obtain ⟨a, ha, hcover⟩ := (h.mapped_iff w).mp hbad
      exact hpanic ⟨hloads, a, ha, w, hcover, hge, hlt⟩
    rintro (_ | _) s₂ hmapped
    · have hmemEnd : memEndOf (segments file (i + 1)) =
          if memEndOf (segments file i) > (segmentAt file i).pVaddr + (segmentAt file i).pMemsz then
            memEndOf (segments file i)
          else (segmentAt file i).pVaddr + (segmentAt file i).pMemsz := by
        rw [segments_of_loads hloads, memEndOf, List.foldl_append]
        rfl
      rw [if_neg (by decide), ← hmemEnd]
      exact hnext _ (h.map hloads hin hcheck hmapped ⟨hholds, hmoves, havail⟩)
    · obtain ⟨⟨l₂, hundone⟩, hnot⟩ := hmapped
      rw [if_pos rfl]
      refine wp_post (loadErr_spec hundone.holds (hmoves.trans hundone.moves)
        (by rw [hundone.pages_eq]; exact h.mapped_iff)) ?_
      rintro _ s' ⟨rfl, hswept⟩
      exact hfail s' hswept fun hgoes => hnot (hgoes.canMap h hloads havail)

/-! ## `load_process_elf` -/

/-- How many program headers the file has. -/
def numHeaders (file : File) : ℕ := (ehdr file).ePhnum.toNat

/-- Before the first header. -/
theorem Loaded.zero (h : Holds allPages m l r R) (hnone : ∀ w, pages m r w = none) :
    Loaded file m l r R short 0 { mem := m, short := short } where
  laid := ⟨l, h, .refl h.free, rfl⟩
  need_eq := rfl
  mapped_iff w := by
    rw [hnone]
    exact ⟨fun hne => absurd rfl hne, fun ⟨_, hmem, _⟩ => by cases hmem⟩
  content _ hmem := by cases hmem
  loadable :=
    { headers := fun j hj => by omega
      accepted := fun _ hmem => by cases hmem
      inFile := fun _ hmem => by cases hmem
      within := fun _ hmem => by cases hmem
      apart := .nil
      cost_le := Nat.zero_le _ }
  short_eq := rfl

/-- **How the loop over the headers ends**: with all of them loaded, or at one that cannot be. -/
def Ended (file : File) (m : Mem) (l : List Word) (r : Word) (R : Word → ℕ) (short : List (Option ℕ)) :
    Option Word → Loading → Prop
  | none, s' => ∃ i < numHeaders file, Loadable file m l r i ∧ Swept file m l r R i s'.mem ∧
      ¬(Loadable file m l r (i + 1) ∧ ∀ j, short.getD j none = none)
  | some memEnd, s' => memEnd = roundUpPgsize (memEndOf (segments file (numHeaders file))) ∧
      Loaded file m l r R short (numHeaders file) s'

/-- A header that can be reached overlaps one before it. -/
def Collides (file : File) (m : Mem) (l : List Word) (r : Word) (e : Panic) : Prop :=
  e = .mapMapped ∧ ∃ i < numHeaders file, Loadable file m l r i ∧ Overlaps file i

theorem getD_drop {α : Type} (as : List α) (i j : ℕ) (d : α) :
    (as.drop i).getD j d = as.getD (i + j) d := by
  rw [List.getD_eq_getElem?_getD, List.getElem?_drop, ← List.getD_eq_getElem?_getD]

/-- **The loop over the program headers.** -/
theorem loadLoop_spec (k : ℕ) : ∀ {i : ℕ} {s : Loading}, Loaded file m l r R short i s →
    i + k = numHeaders file →
    wp (loadLoop file r (ehdr file) k i (memEndOf (segments file i))) (Ended file m l r R short)
      (Collides file m l r) s := by
  induction k with
  | zero =>
    intro i s h hk
    obtain rfl : i = numHeaders file := by omega
    exact ⟨rfl, h⟩
  | succ k ih =>
    intro i s h hk
    refine loadLoop_turn h (fun s' h' => ih h' (by omega)) (fun s' hswept hnot => ?_) fun hover => ?_
    · refine ⟨i, by omega, h.loadable, hswept, fun ⟨hload, hshort⟩ => hnot ⟨hload, fun j _ => ?_⟩⟩
      rw [h.short_eq, getD_drop]
      exact hshort _
    · exact ⟨rfl, i, by omega, h.loadable, hover⟩

theorem reads_succ (file : File) (i : ℕ) : i + 1 + pageReads (segments file (i + 1)) =
    i + pageReads (segments file i) + turnReads file i := by
  rw [segments_succ, turnReads]
  unfold pageReads
  split
  · rw [List.map_append, List.sum_append, List.map_singleton, List.sum_singleton]
    omega
  · rw [List.append_nil]
    omega

theorem reads_mono (h : i ≤ j) :
    i + pageReads (segments file i) ≤ j + pageReads (segments file j) := by
  induction j with
  | zero =>
    obtain rfl : i = 0 := by omega
    exact Nat.le_refl _
  | succ j ih =>
    rcases Nat.lt_or_eq_of_le h with hlt | rfl
    · have hle := ih (by omega)
      rw [reads_succ]
      omega
    · exact Nat.le_refl _

/-- **The loop gets to a header**: the headers before it are loaded, and it goes on from there. -/
theorem loadLoop_reach {Q : Option Word → Loading → Prop} {n : ℕ} (hload : Loadable file m l r n)
    (hn : n ≤ numHeaders file)
    (hgo : ∀ s', Loaded file m l r R short n s' →
      wp (loadLoop file r (ehdr file) (numHeaders file - n) n (memEndOf (segments file n))) Q E s')
    (hshort : ∀ j < n + pageReads (segments file n), short.getD j none = none) (d : ℕ) :
    ∀ {i : ℕ} {s : Loading}, Loaded file m l r R short i s → i + d = n →
    wp (loadLoop file r (ehdr file) (numHeaders file - i) i (memEndOf (segments file i))) Q E s := by
  induction d with
  | zero =>
    intro i s h hd
    obtain rfl : i = n := by omega
    exact hgo s h
  | succ d ih =>
    intro i s h hd
    have hsucc : numHeaders file - i = numHeaders file - (i + 1) + 1 := by omega
    have hnext := hload.of_le (i := i + 1) (by omega)
    rw [hsucc]
    refine loadLoop_turn h (fun s' h' => ih h' (by omega)) (fun s' _ hnot => ?_) ?_
    · refine absurd ⟨hnext, fun j hj => ?_⟩ hnot
      rw [h.short_eq, getD_drop]
      refine hshort _ (Nat.lt_of_lt_of_le ?_ (reads_mono (i := i + 1) (by omega)))
      rw [reads_succ]
      omega
    · rintro ⟨hloads, a, ha, w, haw, hiw⟩
      have happart := hnext.apart
      rw [segments_of_loads hloads, List.pairwise_append] at happart
      exact absurd hiw (happart.2.2 a ha _ (List.mem_singleton_self _) w haw)

/-- What `load_process_elf` leaves. -/
def LoadEnded (file : File) (m : Mem) (l : List Word) (r : Word) (R : Word → ℕ)
    (short : List (Option ℕ)) : Option Word → Loading → Prop
  | none, s' => (s'.mem = m ∧ ¬(HasHeader file ∧ short.getD 0 none = none)) ∨
      HasHeader file ∧ Ended file m l r R short.tail none s'
  | some memEnd, s' => HasHeader file ∧ Ended file m l r R short.tail (some memEnd) s'

/-- The file header is read and accepted, or nothing happens. -/
theorem loadProcessElf_header {Q : Option Word → Loading → Prop}
    (hgo : HasHeader file → wp (loadLoop file r (ehdr file) (numHeaders file) 0 procVaStart) Q E
      { mem := m, short := short.tail })
    (hfail : ¬(HasHeader file ∧ short.getD 0 none = none) → ∀ s' : Loading, s'.mem = m → Q none s') :
    wp (loadProcessElf file r) Q E { mem := m, short := short } := by
  unfold loadProcessElf
  rw [wp_bind]
  refine wp_post (readCheck_spec (by decide)) ?_
  rintro (_ | data) s₁ ⟨rfl, hread⟩
  · exact hfail (fun ⟨hheader, hnone⟩ => hread ⟨hnone, (Nat.zero_add 64).le.trans hheader.size_le⟩) _ rfl
  obtain ⟨rfl, hin⟩ := hread
  have hsize : 64 ≤ file.bytes.length := (Nat.zero_add 64).ge.trans hin
  have hhdr : Elf64Ehdr.ofBytes (readi file 0 ehdrSize) = ehdr file := rfl
  simp only [hhdr]
  cases hcheck : checkElfHeader (ehdr file) with
  | true =>
    rw [if_pos rfl, wp_pure]
    refine hfail (fun ⟨hheader, _⟩ => ?_) _ rfl
    rw [hheader.accepted] at hcheck
    cases hcheck
  | false =>
    rw [if_neg (by decide)]
    exact hgo ⟨hsize, hcheck⟩

/-- **`load_process_elf`** loads all segments or none of the later ones; it panics on segments that
overlap. -/
theorem loadProcessElf_spec (h : Holds allPages m l r R) (hnone : ∀ w, pages m r w = none) :
    wp (loadProcessElf file r) (LoadEnded file m l r R short)
      (fun e => HasHeader file ∧ Collides file m l r e) { mem := m, short := short } := by
  refine loadProcessElf_header (fun hheader => ?_) fun hnot s' hs' => .inl ⟨hs', hnot⟩
  refine wp_mono (loadLoop_spec (numHeaders file) (Loaded.zero h hnone) (Nat.zero_add _)) ?_
    fun e he => ⟨hheader, he⟩
  rintro (_ | memEnd) s' hended
  · exact .inr ⟨hheader, hended⟩
  · exact ⟨hheader, hended⟩

end Loader
