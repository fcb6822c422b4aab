import Myv6.Loader.Elf
import Myv6.Vm.Lay

/-!
# Loader/Segment — one segment, mapped and read

    p_vaddr                                      p_vaddr + ROUND_UP_PGSIZE(p_memsz)
    | full pages of the file | partial page | zero pages |
      fileLoop                 restPage       zeroLoop

Three loops one after the other append pages, each with one read or none.  What they do is told by
numbers of the header alone: how many pages come from the file, how many there are in all, and what
each of them holds.
-/

namespace Loader

open Function (update)
open Bytes Hoare Own Vm

/-- The kernel while it loads a file. -/
structure Loading where
  mem : Mem
  /-- for each of the next reads, after how many bytes `elf_read` stops; past the end of the list, none
  stops short -/
  short : List (Option ℕ)

abbrev Load := Prog Loading Panic

/-- The memory code, run by the loader. -/
def inMem {α : Type} (x : Kernel α) : Load α :=
  zoom Loading.mem (fun m s => { s with mem := m }) x

@[simp] theorem wp_inMem {α : Type} {x : Kernel α} {Q : α → Loading → Prop} {E : Panic → Prop}
    {s : Loading} : wp (inMem x) Q E s ↔ wp x (fun a m => Q a { s with mem := m }) E s.mem := wp_zoom

/-- What a read gives that stops after `cut` bytes. -/
def readUpTo (file : File) (cut : Option ℕ) (off n : BitVec 32) : List Byte :=
  match cut with
  | none => readi file off n
  | some c => (readi file off n).take c

def elfRead (file : File) (off n : BitVec 32) : Load (List Byte) := do
  let short ← inspect (·.short)
  alter fun s => { s with short := s.short.tail }
  pure (readUpTo file (short.getD 0 none) off n)

/-- `read_check` into a page. -/
def readCheckPage (file : File) (page : Word) (off n : BitVec 32) : Load Bool := do
  let data ← elfRead file off n
  inMem (alter fun m => m.fill page (poke (m.cell page) 0 data))
  pure (data.length ≠ n.toNat)

/-- `memset(page + off, 0, PGSIZE - off)` -/
def clearFrom (page : Word) (off : ℕ) : Kernel Unit :=
  alter fun m => m.fill page (poke (m.cell page) off (.replicate (4096 - off) 0))

/-- The error exit of `map_segment_for_segment`. -/
def segmentErr {α : Type} (pgtable vaStart va : Word) : Load (Option α) := do
  inMem (unmapNPagesFree pgtable vaStart (intOf ((va - vaStart) / pgsize)))
  pure none

/-- The loop over the full pages, with a bound on the turns; returns the file offset and the address it
has come to. -/
def fileLoop (file : File) (pgtable vaStart attr fileNPagesEnd : Word) :
    ℕ → Word → Word → Load (Option (Word × Word))
  | 0, fileOff, va => pure (some (fileOff, va))
  | k + 1, fileOff, va =>
    if fileOff < fileNPagesEnd then do
      match ← inMem (appendMapPage pgtable va attr) with
      | none => segmentErr pgtable vaStart va
      | some page =>
        if ← readCheckPage file page (fileOff.setWidth 32) (pgsize.setWidth 32) then
          segmentErr pgtable vaStart (va + pgsize)
        else
          fileLoop file pgtable vaStart attr fileNPagesEnd k (fileOff + pgsize) (va + pgsize)
    else pure (some (fileOff, va))

/-- The partial page; returns the address it has come to. -/
def restPage (file : File) (pgtable vaStart attr fileEnd fileOff va : Word) : Load (Option Word) :=
  if fileOff < fileEnd then do
    match ← inMem (appendMapPage pgtable va attr) with
    | none => segmentErr pgtable vaStart va
    | some page =>
      let restSize := fileEnd - fileOff
      if ← readCheckPage file page (fileOff.setWidth 32) (restSize.setWidth 32) then
        segmentErr pgtable vaStart (va + pgsize)
      else
        inMem (clearFrom page restSize.toNat)
        pure (some (va + pgsize))
  else pure (some va)

/-- The loop over the zero pages, with a bound on the turns. -/
def zeroLoop (pgtable vaStart attr vaNPagesEnd : Word) : ℕ → Word → Load (Option Unit)
  | 0, _ => pure (some ())
  | k + 1, va =>
    if va < vaNPagesEnd then do
      match ← inMem (appendMapPage pgtable va attr) with
      | none => segmentErr pgtable vaStart va
      | some page =>
        inMem (clearFrom page 0)
        zeroLoop pgtable vaStart attr vaNPagesEnd k (va + pgsize)
    else pure (some ())

/-- Returns `true` for `-1`.  The loops make no more turns than there are pages before their ends. -/
def mapSegmentForSegment (file : File) (pgtable : Word) (segment : Elf64Phdr) : Load Bool := do
  let fileSize : BitVec 32 := segment.pFilesz.setWidth 32
  let attr := getAttributeFromPFlages segment.pFlags
  let fileNPagesEnd := segment.pOffset + roundDownPgsize (fileSize.setWidth 64)
  match ← fileLoop file pgtable segment.pVaddr attr fileNPagesEnd (fileSize.toNat / 4096)
      segment.pOffset segment.pVaddr with
  | none => pure true
  | some (fileOff, va) =>
    let fileEnd := segment.pOffset + fileSize.setWidth 64
    match ← restPage file pgtable segment.pVaddr attr fileEnd fileOff va with
    | none => pure true
    | some va =>
      let vaNPagesEnd := segment.pVaddr + roundUpPgsize segment.pMemsz
      match ← zeroLoop pgtable segment.pVaddr attr vaNPagesEnd
          ((vaNPagesEnd.toNat - va.toNat + 4095) / 4096) va with
      | none => pure true
      | some () => pure false

/-! ## The pages of a segment -/

namespace Elf64Phdr

/-- `p_filesz`, as the loader keeps it. -/
def fileSize (segment : Elf64Phdr) : BitVec 32 := segment.pFilesz.setWidth 32

/-- The full pages that are read. -/
def fullPages (segment : Elf64Phdr) : ℕ :=
  if segment.pOffset.toNat + segment.fileSize.toNat / 4096 * 4096 < 2 ^ 64 then
    segment.fileSize.toNat / 4096
  else 0

/-- The bytes of the partial page. -/
def restSize (segment : Elf64Phdr) : ℕ :=
  if segment.pOffset.toNat + segment.fileSize.toNat < 2 ^ 64 then segment.fileSize.toNat % 4096
  else 0

/-- The pages that are read, one read each. -/
def filePages (segment : Elf64Phdr) : ℕ :=
  segment.fullPages + if segment.restSize = 0 then 0 else 1

/-- The page number at which the zero pages end. -/
def endVpn (segment : Elf64Phdr) : ℕ := vpn (segment.pVaddr + roundUpPgsize segment.pMemsz)

/-- All pages of the segment. -/
def numPages (segment : Elf64Phdr) : ℕ := max segment.filePages (segment.endVpn - vpn segment.pVaddr)

/-- The offset of a read, an `unsigned int`. -/
def readOff (segment : Elf64Phdr) (i : ℕ) : BitVec 32 :=
  (segment.pOffset + BitVec.ofNat 64 i * pgsize).setWidth 32

def readLen (segment : Elf64Phdr) (i : ℕ) : BitVec 32 :=
  if i < segment.fullPages then 4096 else BitVec.ofNat 32 segment.restSize

/-- Byte `k` of the segment. -/
def byte (file : File) (segment : Elf64Phdr) (k : ℕ) : Byte :=
  if k < segment.fullPages * 4096 + segment.restSize then
    file.bytes.getD ((segment.readOff (k / 4096)).toNat + k % 4096) 0
  else 0

/-- Page `i` of the segment. -/
def content (file : File) (segment : Elf64Phdr) (i : ℕ) : Fin 512 → Word :=
  pageOf fun k => segment.byte file (4096 * i + k)

end Elf64Phdr

variable {file : File} {segment : Elf64Phdr} {m m' : Mem} {l l' : List Word} {r p : Word}
  {R : Word → ℕ} {S : Finset ℕ} {i j k : ℕ} {s : Loading} {short : List (Option ℕ)}

theorem restSize_lt : segment.restSize < 4096 := by
  unfold Elf64Phdr.restSize
  split
  · exact Nat.mod_lt _ (by decide)
  · decide

/-- Where the reads have come to. -/
theorem fileOff_toNat (hj : j ≤ segment.fullPages) :
    (segment.pOffset + BitVec.ofNat 64 j * pgsize).toNat = segment.pOffset.toNat + j * 4096 := by
  have hsize : pgsize.toNat = 4096 := by decide
  have hoff := segment.pOffset.isLt
  have hfs := segment.fileSize.isLt
  rw [BitVec.toNat_add, BitVec.toNat_mul, BitVec.toNat_ofNat, hsize]
  unfold Elf64Phdr.fullPages at hj
  split at hj
  · omega
  · omega

/-- The guard of the loop over the full pages. -/
theorem fileOff_lt_iff (hj : j ≤ segment.fullPages) :
    segment.pOffset + BitVec.ofNat 64 j * pgsize <
      segment.pOffset + roundDownPgsize ((segment.pFilesz.setWidth 32).setWidth 64) ↔
    j < segment.fullPages := by
  have hoff := segment.pOffset.isLt
  have hfs := segment.fileSize.isLt
  have hdown : (roundDownPgsize ((segment.pFilesz.setWidth 32).setWidth 64)).toNat =
      segment.fileSize.toNat / 4096 * 4096 := by
    rw [roundDownPgsize_toNat, BitVec.toNat_setWidth, ← Elf64Phdr.fileSize]
    omega
  rw [BitVec.lt_def, fileOff_toNat hj, BitVec.toNat_add, hdown]
  unfold Elf64Phdr.fullPages at hj ⊢
  split at hj
  · next h =>
    rw [if_pos h]
    omega
  · next h =>
    rw [if_neg h]
    omega

/-- The guard of the partial page, and its size. -/
theorem rest_lt_iff {fileOff : Word}
    (hoff : fileOff = segment.pOffset + BitVec.ofNat 64 segment.fullPages * pgsize) :
    (fileOff < segment.pOffset + (segment.pFilesz.setWidth 32).setWidth 64 ↔ segment.restSize ≠ 0) ∧
    (segment.restSize ≠ 0 →
      (segment.pOffset + (segment.pFilesz.setWidth 32).setWidth 64 - fileOff).toNat =
        segment.restSize) := by
  have hoffLt := segment.pOffset.isLt
  have hfs := segment.fileSize.isLt
  have hat : fileOff.toNat = segment.pOffset.toNat + segment.fullPages * 4096 :=
    hoff ▸ fileOff_toNat (Nat.le_refl _)
  have hend : (segment.pOffset + (segment.pFilesz.setWidth 32).setWidth 64).toNat =
      (segment.pOffset.toNat + segment.fileSize.toNat) % 2 ^ 64 := by
    rw [BitVec.toNat_add, BitVec.toNat_setWidth, ← Elf64Phdr.fileSize]
    omega
  rw [BitVec.lt_def, BitVec.toNat_sub, hend, hat]
  unfold Elf64Phdr.restSize Elf64Phdr.fullPages
  split <;> split <;> omega

/-- Where the mapping has come to. -/
theorem vpn_va {vaStart : Word} (h : j = 0 ∨ vpn vaStart + j ≤ maxVpn) :
    vpn (vaStart + BitVec.ofNat 64 j * pgsize) = vpn vaStart + j := by
  rcases h with rfl | h
  · simp
  · exact vpn_add_mul_of_le h

theorem va_next (vaStart : Word) (j : ℕ) : vaStart + BitVec.ofNat 64 j * pgsize + pgsize =
    vaStart + BitVec.ofNat 64 (j + 1) * pgsize := by
  rw [BitVec.ofNat_add, BitVec.add_mul, BitVec.add_assoc]
  rfl

/-- The guard of the loop over the zero pages. -/
theorem va_lt_iff (haligned : segment.pVaddr % pgsize = 0)
    (h : j = 0 ∨ vpn segment.pVaddr + j ≤ maxVpn) :
    segment.pVaddr + BitVec.ofNat 64 j * pgsize <
      segment.pVaddr + roundUpPgsize segment.pMemsz ↔ vpn segment.pVaddr + j < segment.endVpn := by
  have hsize : pgsize.toNat = 4096 := by decide
  have hmax := maxVpn_eq
  have hstart : segment.pVaddr.toNat % 4096 = 0 := by
    rw [← hsize, ← BitVec.toNat_umod, haligned]
    rfl
  have hup : (roundUpPgsize segment.pMemsz).toNat % 4096 = 0 := by
    have hdown : roundUpPgsize segment.pMemsz = roundDownPgsize (segment.pMemsz + pgsize - 1) := rfl
    rw [hdown, roundDownPgsize_toNat]
    omega
  have hva : (segment.pVaddr + BitVec.ofNat 64 j * pgsize).toNat =
      segment.pVaddr.toNat + j * 4096 := by
    have hlt := segment.pVaddr.isLt
    rw [BitVec.toNat_add, BitVec.toNat_mul, BitVec.toNat_ofNat, hsize]
    unfold vpn at h
    omega
  have hlt := segment.pVaddr.isLt
  rw [BitVec.lt_def, hva, Elf64Phdr.endVpn, vpn, vpn, BitVec.toNat_add]
  omega

/-! ## What a read leaves in a page -/

/-- A whole read is the bytes of the file. -/
theorem readUpTo_whole {cut : Option ℕ} {off n : BitVec 32} (hn : 0 < n.toNat)
    (h : (readUpTo file cut off n).length = n.toNat) :
    readUpTo file cut off n = readi file off n ∧ off.toNat + n.toNat ≤ file.bytes.length := by
  have hle : (readi file off n).length ≤ n.toNat := readi_length_le
  have hwhole : readUpTo file cut off n = readi file off n := by
    cases cut with
    | none => rfl
    | some c =>
      unfold readUpTo at h ⊢
      rw [List.length_take] at h
      exact List.take_of_length_le (by omega)
  rw [hwhole] at h
  exact ⟨hwhole, (readi_length_eq_iff hn).mp h⟩

theorem readCheckPage_spec {page : Word} {off n : BitVec 32} {E : Panic → Prop} :
    wp (readCheckPage file page off n) (fun err s' => ∃ data,
      data = readUpTo file (s.short.getD 0 none) off n ∧ (err = false ↔ data.length = n.toNat) ∧
      s' = { mem := s.mem.fill page (poke (s.mem.cell page) 0 data), short := s.short.tail }) E s := by
  unfold readCheckPage elfRead
  simp only [wp_bind, wp_inspect, wp_alter, wp_pure, wp_inMem]
  exact ⟨_, rfl, by simp, rfl⟩

/-- Every read of a page, whole. -/
def Whole (file : File) (segment : Elf64Phdr) (short : List (Option ℕ)) (i : ℕ) : Prop :=
  (readUpTo file (short.getD i none) (segment.readOff i) (segment.readLen i)).length =
    (segment.readLen i).toNat

theorem readLen_toNat_full (hi : i < segment.fullPages) : (segment.readLen i).toNat = 4096 := by
  rw [Elf64Phdr.readLen, if_pos hi]
  rfl

theorem readLen_toNat_rest (hi : segment.fullPages ≤ i) :
    (segment.readLen i).toNat = segment.restSize := by
  have hlt : segment.restSize < 4096 := restSize_lt
  rw [Elf64Phdr.readLen, if_neg (by omega), BitVec.toNat_ofNat]
  omega

/-- A byte of the segment that comes from the file. -/
theorem byte_of_read (hwhole : Whole file segment short i) (hk : k < (segment.readLen i).toNat)
    (hk' : k < 4096) (hin : 4096 * i + k < segment.fullPages * 4096 + segment.restSize) :
    (readUpTo file (short.getD i none) (segment.readOff i) (segment.readLen i)).getD k 0 =
      segment.byte file (4096 * i + k) := by
  obtain ⟨hdata, hle⟩ := readUpTo_whole (by omega) hwhole
  have hdiv : (4096 * i + k) / 4096 = i := by omega
  have hmod : (4096 * i + k) % 4096 = k := by omega
  rw [hdata, readi_getD hle hk, Elf64Phdr.byte, if_pos hin, hdiv, hmod]

/-- **A full page.** -/
theorem poke_full {f : Fin 512 → Word} (hwhole : Whole file segment short i)
    (hi : i < segment.fullPages) :
    poke f 0 (readUpTo file (short.getD i none) (segment.readOff i) (segment.readLen i)) =
      segment.content file i := by
  have hlen := readLen_toNat_full hi
  refine page_ext fun k hk => ?_
  rw [byteAt_poke hk, if_pos (by rw [hwhole, hlen]; omega), Elf64Phdr.content, byteAt_pageOf hk]
  exact byte_of_read hwhole (by omega) hk (by omega)

/-- **The partial page**, cleared behind the read. -/
theorem poke_rest {f : Fin 512 → Word} (hwhole : Whole file segment short segment.fullPages) :
    poke (poke f 0 (readUpTo file (short.getD segment.fullPages none)
        (segment.readOff segment.fullPages) (segment.readLen segment.fullPages))) segment.restSize
      (.replicate (4096 - segment.restSize) 0) = segment.content file segment.fullPages := by
  have hlen : (segment.readLen segment.fullPages).toNat = segment.restSize :=
    readLen_toNat_rest (Nat.le_refl _)
  have hlt : segment.restSize < 4096 := restSize_lt
  refine page_ext fun k hk => ?_
  rw [byteAt_poke hk, Elf64Phdr.content, byteAt_pageOf hk]
  by_cases hk' : k < segment.restSize
  · rw [if_neg (by omega), byteAt_poke hk, if_pos (by rw [hwhole, hlen]; omega)]
    exact byte_of_read hwhole (by omega) hk (by omega)
  · rw [if_pos (by rw [List.length_replicate]; omega), Elf64Phdr.byte, if_neg (by omega),
      List.getD_eq_getElem?_getD, List.getElem?_replicate]
    split <;> rfl

/-- **A zero page.** -/
theorem poke_zero {f : Fin 512 → Word} (hi : segment.filePages ≤ i) :
    poke f 0 (.replicate (4096 - 0) 0) = segment.content file i := by
  have hlt : segment.restSize < 4096 := restSize_lt
  refine page_ext fun k hk => ?_
  rw [byteAt_poke hk, Elf64Phdr.content, byteAt_pageOf hk, if_pos (by rw [List.length_replicate]; omega),
    Elf64Phdr.byte, if_neg, List.getD_eq_getElem?_getD, List.getElem?_replicate]
  · split <;> rfl
  · unfold Elf64Phdr.filePages at hi
    split at hi <;> omega

/-! ## The loops -/

/-- **The segment can be mapped**: its pages are below `VA_END`, there is memory for them, and no read
of theirs stops short. -/
structure CanMap (file : File) (m : Mem) (l : List Word) (r : Word) (segment : Elf64Phdr)
    (short : List (Option ℕ)) : Prop where
  within : segment.numPages = 0 ∨ vpn segment.pVaddr + segment.numPages ≤ maxVpn
  cost_le : cost (need m r) (List.range' (vpn segment.pVaddr) segment.numPages) ≤
    avail m.deny l.length
  whole : ∀ i < segment.filePages, Whole file segment short i

/-- The first `j` pages are in the table. -/
structure Stage (S : Finset ℕ) (file : File) (m : Mem) (l : List Word) (r : Word) (R : Word → ℕ)
    (segment : Elf64Phdr) (short : List (Option ℕ)) (j : ℕ) (s : Loading) : Prop where
  laid : ∃ l', Laid S m l r R (vpn segment.pVaddr) (getAttributeFromPFlages segment.pFlags)
    (segment.content file) j s.mem l'
  short_eq : s.short = short.drop (min j segment.filePages)
  within : j = 0 ∨ vpn segment.pVaddr + j ≤ maxVpn
  whole : ∀ i < j, i < segment.filePages → Whole file segment short i

/-- The segment cannot be mapped, and none of it is. -/
def Failed (S : Finset ℕ) (file : File) (m : Mem) (l : List Word) (r : Word) (R : Word → ℕ)
    (segment : Elf64Phdr) (short : List (Option ℕ)) (s : Loading) : Prop :=
  (∃ l', Undone S m l r R s.mem l') ∧ ¬CanMap file m l r segment short

/-- A page that is mapped already is in the way. -/
def InTheWay (m : Mem) (r : Word) (segment : Elf64Phdr) (e : Panic) : Prop :=
  e = .mapMapped ∧ ∃ w, vpn segment.pVaddr ≤ w ∧ w < vpn segment.pVaddr + segment.numPages ∧
    pages m r w ≠ none

variable {va : Word} {E : Panic → Prop}

theorem fullPages_le : segment.fullPages ≤ segment.filePages := Nat.le_add_right _ _

theorem filePages_le : segment.filePages ≤ segment.numPages := Nat.le_max_left _ _

/-- **The error exit.** -/
theorem segmentErr_failed {α : Type} (hall : ∀ w < maxVpn, w ∈ S)
    (hput : Put S m l r R (vpn segment.pVaddr) j s.mem l')
    (hj : j = 0 ∨ vpn segment.pVaddr + j ≤ maxVpn)
    (hva : va = segment.pVaddr + BitVec.ofNat 64 j * pgsize)
    (hnot : ¬CanMap file m l r segment short) :
    wp (segmentErr r segment.pVaddr va : Load (Option α))
      (fun ret s' => ret = none ∧ Failed S file m l r R segment short s') E s := by
  have hmax := maxVpn_eq
  unfold segmentErr
  rw [wp_bind, wp_inMem, intOf_div (by omega) hva]
  refine wp_post (hput.undo hall hj) ?_
  rintro _ m' hundone
  exact ⟨rfl, hundone, hnot⟩

/-- **A turn**: the next page is in the table, waiting for its content, or cannot be had. -/
theorem append_turn (hall : ∀ w < maxVpn, w ∈ S) (h : Stage S file m l r R segment short j s)
    (hj : j < segment.numPages) (hva : va = segment.pVaddr + BitVec.ofNat 64 j * pgsize) :
    wp (inMem (appendMapPage r va (getAttributeFromPFlages segment.pFlags))) (fun ret s₁ =>
      s₁.short = s.short ∧ match ret with
      | none => (∃ l', Put S m l r R (vpn segment.pVaddr) j s₁.mem l') ∧
          ¬CanMap file m l r segment short
      | some page => vpn segment.pVaddr + (j + 1) ≤ maxVpn ∧ ∀ g, ∃ l',
          Put S m l r R (vpn segment.pVaddr) (j + 1) (s₁.mem.fill page g) l' ∧
          (g = segment.content file j → Laid S m l r R (vpn segment.pVaddr)
            (getAttributeFromPFlages segment.pFlags) (segment.content file) (j + 1)
            (s₁.mem.fill page g) l')) (InTheWay m r segment) s := by
  obtain ⟨l', hlaid⟩ := h.laid
  have hvpn : vpn va = vpn segment.pVaddr + j := hva ▸ vpn_va h.within
  rw [wp_inMem]
  refine wp_mono (appendMapPage_turn hall hlaid hvpn) ?_ ?_
  · rintro (_ | page) m₁ hturn
    · obtain ⟨hput, hwhy⟩ := hturn
      refine ⟨rfl, hput, fun hcan => ?_⟩
      have hcost := cost_range_mono (need m r) (vpn segment.pVaddr) (show j + 1 ≤ segment.numPages by omega)
      have hwithin := hcan.within
      have hle := hcan.cost_le
      omega
    · exact ⟨rfl, hturn⟩
  · rintro e ⟨he, hbad⟩
    exact ⟨he, _, Nat.le_add_right _ _, by omega, hbad⟩

/-- **The read into a new page**, into which `g` puts what is read: a read that stops short is an
error. -/
theorem Stage.read (h : Stage S file m l r R segment short j s) (hj : j < segment.filePages)
    {data : List Byte}
    (hdata : data = readUpTo file (s.short.getD 0 none) (segment.readOff j) (segment.readLen j)) :
    data = readUpTo file (short.getD j none) (segment.readOff j) (segment.readLen j) ∧
      s.short.tail = short.drop (min (j + 1) segment.filePages) := by
  have hshort := h.short_eq
  rw [Nat.min_eq_left hj.le] at hshort
  rw [Nat.min_eq_left hj, hdata, hshort, List.tail_drop, List.getD_eq_getElem?_getD,
    List.getElem?_drop, Nat.add_zero, List.getD_eq_getElem?_getD]
  exact ⟨rfl, rfl⟩

/-- A read that stops short. -/
theorem not_canMap_of_short (hj : j < segment.filePages) {data : List Byte}
    (hdata : data = readUpTo file (short.getD j none) (segment.readOff j) (segment.readLen j))
    (herr : data.length ≠ (segment.readLen j).toNat) : ¬CanMap file m l r segment short :=
  fun hcan => herr (hdata ▸ hcan.whole j hj)

/-- One page more. -/
theorem Stage.next {s' : Loading} (h : Stage S file m l r R segment short j s)
    (hlaid : ∃ l', Laid S m l r R (vpn segment.pVaddr) (getAttributeFromPFlages segment.pFlags)
      (segment.content file) (j + 1) s'.mem l')
    (hshort : s'.short = short.drop (min (j + 1) segment.filePages))
    (hmax : vpn segment.pVaddr + (j + 1) ≤ maxVpn)
    (hwhole : j < segment.filePages → Whole file segment short j) :
    Stage S file m l r R segment short (j + 1) s' := by
  refine ⟨hlaid, hshort, .inr hmax, fun i hi hfile => ?_⟩
  by_cases hij : i = j
  · exact hij ▸ hwhole (hij ▸ hfile)
  · exact h.whole i (by omega) hfile

/-- What one of the loops leaves. -/
def Went (S : Finset ℕ) (file : File) (m : Mem) (l : List Word) (r : Word) (R : Word → ℕ)
    (segment : Elf64Phdr) (short : List (Option ℕ)) {α : Type} (j : ℕ) (Q : α → Prop) :
    Option α → Loading → Prop
  | none, s' => Failed S file m l r R segment short s'
  | some a, s' => Q a ∧ Stage S file m l r R segment short j s'

/-- **The loop over the full pages.** -/
theorem fileLoop_spec (hall : ∀ w < maxVpn, w ∈ S) (k : ℕ) : ∀ {j : ℕ} {s : Loading},
    Stage S file m l r R segment short j s → j ≤ segment.fullPages → segment.fullPages ≤ j + k →
    wp (fileLoop file r segment.pVaddr (getAttributeFromPFlages segment.pFlags)
        (segment.pOffset + roundDownPgsize ((segment.pFilesz.setWidth 32).setWidth 64)) k
        (segment.pOffset + BitVec.ofNat 64 j * pgsize) (segment.pVaddr + BitVec.ofNat 64 j * pgsize))
      (Went S file m l r R segment short segment.fullPages fun dest =>
        dest = (segment.pOffset + BitVec.ofNat 64 segment.fullPages * pgsize,
          segment.pVaddr + BitVec.ofNat 64 segment.fullPages * pgsize))
      (InTheWay m r segment) s := by
  induction k with
  | zero =>
    intro j s h hle hge
    obtain rfl : j = segment.fullPages := by omega
    exact ⟨rfl, h⟩
  | succ k ih =>
    intro j s h hle hge
    rw [fileLoop]
    by_cases hlt : j < segment.fullPages
    swap
    · rw [if_neg (by rw [fileOff_lt_iff hle]; exact hlt), wp_pure]
      obtain rfl : j = segment.fullPages := by omega
      exact ⟨rfl, h⟩
    have hfile : j < segment.filePages := hlt.trans_le fullPages_le
    rw [if_pos ((fileOff_lt_iff hle).mpr hlt), wp_bind]
    refine wp_post (append_turn hall h (hfile.trans_le filePages_le) rfl) ?_
    rintro (_ | page) s₁ ⟨hshort₁, hturn⟩
    · obtain ⟨⟨l₁, hput⟩, hnot⟩ := hturn
      refine wp_post (segmentErr_failed hall hput h.within rfl hnot) ?_
      rintro _ s' ⟨rfl, hfailed⟩
      exact hfailed
    obtain ⟨hmax, hturn⟩ := hturn
    have hlen : (pgsize.setWidth 32) = segment.readLen j := by
      rw [Elf64Phdr.readLen, if_pos hlt]
      rfl
    have hoff : (segment.pOffset + BitVec.ofNat 64 j * pgsize).setWidth 32 = segment.readOff j := rfl
    simp only
    rw [wp_bind, hlen, hoff]
    refine wp_post readCheckPage_spec ?_
    rintro err s₂ ⟨data, hdata, herr, rfl⟩
    rw [hshort₁] at hdata ⊢
    obtain ⟨hdata, htail⟩ := h.read hfile hdata
    obtain ⟨l₂, hput, hlaid⟩ := hturn (poke (s₁.mem.cell page) 0 data)
    cases err with
    | true =>
      rw [if_pos rfl]
      refine wp_post (segmentErr_failed hall hput (.inr hmax) (va_next _ _)
        (not_canMap_of_short hfile hdata fun hwhole => (by cases herr.mpr hwhole))) ?_
      rintro _ s' ⟨rfl, hfailed⟩
      exact hfailed
    | false =>
      have hwhole : Whole file segment short j := by
        rw [Whole, ← hdata]
        exact herr.mp rfl
      rw [if_neg (by decide), va_next, va_next]
      refine ih (h.next ⟨l₂, hlaid ?_⟩ htail hmax fun _ => hwhole) hlt (by omega)
      rw [hdata]
      exact poke_full hwhole hlt

theorem fill_fill (m : Mem) (p : Word) (f g : Fin 512 → Word) : (m.fill p f).fill p g = m.fill p g := by
  unfold Mem.fill
  simp only [Function.update_idem]

/-- **The partial page.** -/
theorem restPage_spec (hall : ∀ w < maxVpn, w ∈ S)
    (h : Stage S file m l r R segment short segment.fullPages s) :
    wp (restPage file r segment.pVaddr (getAttributeFromPFlages segment.pFlags)
        (segment.pOffset + (segment.pFilesz.setWidth 32).setWidth 64)
        (segment.pOffset + BitVec.ofNat 64 segment.fullPages * pgsize)
        (segment.pVaddr + BitVec.ofNat 64 segment.fullPages * pgsize))
      (Went S file m l r R segment short segment.filePages fun dest =>
        dest = segment.pVaddr + BitVec.ofNat 64 segment.filePages * pgsize)
      (InTheWay m r segment) s := by
  obtain ⟨hguard, hsize⟩ := @rest_lt_iff segment _ rfl
  unfold restPage
  by_cases hrest : segment.restSize = 0
  · have hsame : segment.filePages = segment.fullPages := by
      rw [Elf64Phdr.filePages, if_pos hrest, Nat.add_zero]
    rw [if_neg (by rw [hguard]; exact not_not.mpr hrest), wp_pure, hsame]
    exact ⟨rfl, h⟩
  have hsucc : segment.filePages = segment.fullPages + 1 := by
    rw [Elf64Phdr.filePages, if_neg hrest]
  have hfile : segment.fullPages < segment.filePages := by omega
  rw [if_pos (hguard.mpr hrest), wp_bind]
  refine wp_post (append_turn hall h (hfile.trans_le filePages_le) rfl) ?_
  rintro (_ | page) s₁ ⟨hshort₁, hturn⟩
  · obtain ⟨⟨l₁, hput⟩, hnot⟩ := hturn
    refine wp_post (segmentErr_failed hall hput h.within rfl hnot) ?_
    rintro _ s' ⟨rfl, hfailed⟩
    exact hfailed
  obtain ⟨hmax, hturn⟩ := hturn
  have hlen : (segment.pOffset + (segment.pFilesz.setWidth 32).setWidth 64 -
      (segment.pOffset + BitVec.ofNat 64 segment.fullPages * pgsize)).setWidth 32 =
      segment.readLen segment.fullPages := by
    refine BitVec.eq_of_toNat_eq ?_
    have hlt : segment.restSize < 4096 := restSize_lt
    rw [readLen_toNat_rest (Nat.le_refl _), BitVec.toNat_setWidth, hsize hrest]
    omega
  have hoff : (segment.pOffset + BitVec.ofNat 64 segment.fullPages * pgsize).setWidth 32 =
      segment.readOff segment.fullPages := rfl
  simp only
  rw [wp_bind, hlen, hoff]
  refine wp_post readCheckPage_spec ?_
  rintro err s₂ ⟨data, hdata, herr, rfl⟩
  rw [hshort₁] at hdata ⊢
  obtain ⟨hdata, htail⟩ := h.read hfile hdata
  cases err with
  | true =>
    obtain ⟨l₂, hput, -⟩ := hturn (poke (s₁.mem.cell page) 0 data)
    rw [if_pos rfl]
    refine wp_post (segmentErr_failed hall hput (.inr hmax) (va_next _ _)
      (not_canMap_of_short hfile hdata fun hwhole => (by cases herr.mpr hwhole))) ?_
    rintro _ s' ⟨rfl, hfailed⟩
    exact hfailed
  | false =>
    have hwhole : Whole file segment short segment.fullPages := by
      rw [Whole, ← hdata]
      exact herr.mp rfl
    rw [if_neg (by decide), wp_bind, wp_inMem, clearFrom, wp_alter, wp_pure, va_next, hsize hrest]
    obtain ⟨l₂, -, hlaid⟩ := hturn (poke (poke (s₁.mem.cell page) 0 data) segment.restSize
      (.replicate (4096 - segment.restSize) 0))
    rw [Mem.fill_cell_self, fill_fill]
    rw [hsucc]
    rw [hsucc] at htail
    refine ⟨rfl, h.next ⟨l₂, hlaid ?_⟩ ?_ hmax fun _ => hwhole⟩
    · rw [hdata]
      exact poke_rest hwhole
    · rw [hsucc]
      exact htail

/-- **The loop over the zero pages.** -/
theorem zeroLoop_spec (hall : ∀ w < maxVpn, w ∈ S) (haligned : segment.pVaddr % pgsize = 0) (k : ℕ) :
    ∀ {j : ℕ} {s : Loading}, Stage S file m l r R segment short j s → segment.filePages ≤ j →
    j ≤ segment.numPages → segment.numPages ≤ j + k →
    wp (zeroLoop r segment.pVaddr (getAttributeFromPFlages segment.pFlags)
        (segment.pVaddr + roundUpPgsize segment.pMemsz) k
        (segment.pVaddr + BitVec.ofNat 64 j * pgsize))
      (Went S file m l r R segment short segment.numPages fun _ => True)
      (InTheWay m r segment) s := by
  have hnum : segment.numPages = max segment.filePages (segment.endVpn - vpn segment.pVaddr) := rfl
  induction k with
  | zero =>
    intro j s h _ hle hge
    obtain rfl : j = segment.numPages := by omega
    exact ⟨trivial, h⟩
  | succ k ih =>
    intro j s h hfile hle hge
    rw [zeroLoop]
    have hguard := va_lt_iff haligned h.within
    by_cases hlt : j < segment.numPages
    swap
    · rw [if_neg (by rw [hguard]; omega), wp_pure]
      obtain rfl : j = segment.numPages := by omega
      exact ⟨trivial, h⟩
    rw [if_pos (hguard.mpr (by omega)), wp_bind]
    refine wp_post (append_turn hall h hlt rfl) ?_
    rintro (_ | page) s₁ ⟨hshort₁, hturn⟩
    · obtain ⟨⟨l₁, hput⟩, hnot⟩ := hturn
      refine wp_post (segmentErr_failed hall hput h.within rfl hnot) ?_
      rintro _ s' ⟨rfl, hfailed⟩
      exact hfailed
    obtain ⟨hmax, hturn⟩ := hturn
    obtain ⟨l₂, -, hlaid⟩ := hturn (poke (s₁.mem.cell page) 0 (.replicate (4096 - 0) 0))
    simp only
    rw [wp_bind, wp_inMem, clearFrom, wp_alter, va_next]
    refine ih (h.next ⟨l₂, hlaid (poke_zero hfile)⟩ ?_ hmax fun hlt => by omega) (by omega) hlt
      (by omega)
    rw [hshort₁, h.short_eq, Nat.min_eq_right hfile, Nat.min_eq_right (by omega)]

/-- The bound on the turns suffices. -/
theorem numPages_le_turns (haligned : segment.pVaddr % pgsize = 0)
    (h : segment.filePages = 0 ∨ vpn segment.pVaddr + segment.filePages ≤ maxVpn) :
    segment.numPages ≤ segment.filePages +
      ((segment.pVaddr + roundUpPgsize segment.pMemsz).toNat -
        (segment.pVaddr + BitVec.ofNat 64 segment.filePages * pgsize).toNat + 4095) / 4096 := by
  have hnum : segment.numPages = max segment.filePages (segment.endVpn - vpn segment.pVaddr) := rfl
  have hsize : pgsize.toNat = 4096 := by decide
  have hmax := maxVpn_eq
  have hlt := segment.pVaddr.isLt
  have hstart : segment.pVaddr.toNat % 4096 = 0 := by
    rw [← hsize, ← BitVec.toNat_umod, haligned]
    rfl
  have hva : (segment.pVaddr + BitVec.ofNat 64 segment.filePages * pgsize).toNat =
      segment.pVaddr.toNat + segment.filePages * 4096 := by
    rw [BitVec.toNat_add, BitVec.toNat_mul, BitVec.toNat_ofNat, hsize]
    unfold vpn at h
    omega
  rw [hva]
  rw [Elf64Phdr.endVpn, vpn, vpn] at hnum
  omega

/-- What `map_segment_for_segment` leaves. -/
def SegmentMapped (S : Finset ℕ) (file : File) (m : Mem) (l : List Word) (r : Word) (R : Word → ℕ)
    (segment : Elf64Phdr) (short : List (Option ℕ)) : Bool → Loading → Prop
  | true, s' => Failed S file m l r R segment short s'
  | false, s' => CanMap file m l r segment short ∧ s'.short = short.drop segment.filePages ∧
      ∃ l', Laid S m l r R (vpn segment.pVaddr) (getAttributeFromPFlages segment.pFlags)
        (segment.content file) segment.numPages s'.mem l'

/-- **`map_segment_for_segment`** maps all pages of a segment, each with its content, or none; it panics
when it meets a page that is mapped. -/
theorem mapSegmentForSegment_spec (hall : ∀ w < maxVpn, w ∈ S)
    (haligned : segment.pVaddr % pgsize = 0) (h : Holds S s.mem l r R) :
    wp (mapSegmentForSegment file r segment) (SegmentMapped S file s.mem l r R segment s.short)
      (InTheWay s.mem r segment) s := by
  have hstart : ∀ x : Word, x = x + BitVec.ofNat 64 0 * pgsize := by simp
  have hstage : Stage S file s.mem l r R segment s.short 0 s :=
    ⟨⟨l, .refl h⟩, by simp, .inl rfl, fun i hi => by omega⟩
  have hfull : segment.fullPages ≤ 0 + (segment.pFilesz.setWidth 32).toNat / 4096 := by
    rw [Nat.zero_add, ← Elf64Phdr.fileSize]
    unfold Elf64Phdr.fullPages
    split <;> omega
  have hloop := fileLoop_spec hall _ hstage (Nat.zero_le _) hfull
  rw [← hstart, ← hstart] at hloop
  unfold mapSegmentForSegment
  rw [wp_bind]
  refine wp_post hloop ?_
  rintro (_ | ⟨fileOff, va⟩) s₁ hwent
  · exact hwent
  obtain ⟨hdest, hstage₁⟩ := hwent
  obtain ⟨rfl, rfl⟩ := Prod.mk.inj hdest
  simp only
  rw [wp_bind]
  refine wp_post (restPage_spec hall hstage₁) ?_
  rintro (_ | va) s₂ hwent
  · exact hwent
  obtain ⟨rfl, hstage₂⟩ := hwent
  simp only
  rw [wp_bind]
  refine wp_post (zeroLoop_spec hall haligned _ hstage₂ (Nat.le_refl _) filePages_le
    (numPages_le_turns haligned hstage₂.within)) ?_
  rintro (_ | _) s₃ hwent
  · exact hwent
  obtain ⟨-, hstage₃⟩ := hwent
  refine ⟨⟨hstage₃.within, ?_, fun i hi => hstage₃.whole i (hi.trans_le filePages_le) hi⟩, ?_,
    hstage₃.laid⟩
  · obtain ⟨l', hlaid⟩ := hstage₃.laid
    have havail := hlaid.avail_eq
    omega
  · rw [hstage₃.short_eq, Nat.min_eq_right filePages_le]

end Loader
