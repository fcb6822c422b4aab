import Myv6.Lib.Bytes
import Myv6.Vm.User

/-!
# Loader/Elf — the file format and the checks on it

    file   Elf64_Ehdr │ … │ Elf64_Phdr │ Elf64_Phdr │ … │ bytes of the segments
             e_phoff ──────▸           └ e_phentsize

The headers are read off the bytes of the file.  `check_segment` adds 64-bit numbers that the file
chooses: it compares their sums after they have wrapped.
-/

namespace Loader

open Bytes Vm

/-- An inode of type `T_FILE`: its bytes, as many as `size`, an `unsigned int`, counts. -/
structure File where
  bytes : List Byte
  length_lt : bytes.length < 2 ^ 32

/-- `size` of the inode -/
def File.size (file : File) : BitVec 32 := BitVec.ofNat 32 file.bytes.length

theorem File.size_toNat (file : File) : file.size.toNat = file.bytes.length := by
  rw [File.size, BitVec.toNat_ofNat]
  exact Nat.mod_eq_of_lt file.length_lt

/-- `readi`, less the blocks that it goes through. -/
def readi (file : File) (off n : BitVec 32) : List Byte :=
  if off > file.size ∨ off + n < off then
    []
  else
    let n := if off + n > file.size then file.size - off else n
    (file.bytes.drop off.toNat).take n.toNat

/-- The little-endian number at byte `off` of a header. -/
def field (w : ℕ) (bs : List Byte) (off : ℕ) : BitVec w :=
  BitVec.ofNat w (leNat ((bs.drop off).take (w / 8)))

/-- `struct Elf64_Ehdr`, less what nothing reads. -/
structure Elf64Ehdr where
  eIdent : List Byte
  eType : BitVec 16
  eEntry : Word
  ePhoff : Word
  ePhentsize : BitVec 16
  ePhnum : BitVec 16

/-- `sizeof(struct Elf64_Ehdr)` -/
def ehdrSize : BitVec 32 := 64

def Elf64Ehdr.ofBytes (bs : List Byte) : Elf64Ehdr where
  eIdent := bs.take 16
  eType := field 16 bs 16
  eEntry := field 64 bs 24
  ePhoff := field 64 bs 32
  ePhentsize := field 16 bs 54
  ePhnum := field 16 bs 56

/-- `struct Elf64_Phdr`, less `p_paddr`, which nothing reads. -/
structure Elf64Phdr where
  pType : BitVec 32
  pFlags : BitVec 32
  pOffset : Word
  pVaddr : Word
  pFilesz : Word
  pMemsz : Word
  pAlign : Word
  deriving DecidableEq

/-- `sizeof(struct Elf64_Phdr)` -/
def phdrSize : BitVec 32 := 56

def Elf64Phdr.ofBytes (bs : List Byte) : Elf64Phdr where
  pType := field 32 bs 0
  pFlags := field 32 bs 4
  pOffset := field 64 bs 8
  pVaddr := field 64 bs 16
  pFilesz := field 64 bs 32
  pMemsz := field 64 bs 40
  pAlign := field 64 bs 48

def eiMagic : List Byte := [0x7f, 0x45, 0x4c, 0x46]

def elfclass64 : Byte := 2

def elfdata2lsb : Byte := 1

def etExec : BitVec 16 := 2

def ptLoad : BitVec 32 := 1

def pfX : BitVec 32 := 0x1

/-- Returns `true` for `-1`, as the functions below. -/
def checkElfHeader (header : Elf64Ehdr) : Bool :=
  if (List.range 4).any fun i => header.eIdent.getD i 0 ≠ eiMagic.getD i 0 then true
  else if header.eIdent.getD 4 0 ≠ elfclass64 then true
  else if header.eIdent.getD 5 0 ≠ elfdata2lsb then true
  else if header.eType ≠ etExec then true
  else if header.eEntry ≠ procVaStart then true
  else if header.ePhoff = 0 ∨ header.ePhentsize = 0 ∨ header.ePhnum = 0 then true
  else false

def checkSegment (segment : Elf64Phdr) (fileSize : BitVec 32) : Bool :=
  if segment.pFilesz > segment.pMemsz then true
  else if segment.pVaddr % pgsize ≠ 0 ∨ segment.pVaddr < procVaStart then true
  else if segment.pVaddr + segment.pMemsz > ustackBase then true
  else if segment.pOffset + segment.pFilesz > fileSize.setWidth 64 then true
  else if segment.pAlign > pgsize then true
  else false

/-- The tests are `PF_X` and two bits of page table entries. -/
def getAttributeFromPFlages (pFlages : BitVec 32) : Word :=
  let attr := pteU
  let attr :=
    if pFlages &&& pfX ≠ 0 ∨ pFlages.setWidth 64 &&& pteR ≠ 0 then attr ||| (pteR ||| pteX)
    else attr
  if pFlages.setWidth 64 &&& pteW ≠ 0 then attr ||| (pteR ||| pteW ||| pteX) else attr

variable {file : File} {off n : BitVec 32} {segment : Elf64Phdr} {fileSize : BitVec 32} {k : ℕ}

/-! ## Writing headers -/

def Elf64Ehdr.toBytes (header : Elf64Ehdr) : List Byte :=
  header.eIdent ++ (leBytes 2 header.eType.toNat ++ (leBytes 6 0 ++ (leBytes 8 header.eEntry.toNat ++
    (leBytes 8 header.ePhoff.toNat ++ (leBytes 14 0 ++ (leBytes 2 header.ePhentsize.toNat ++
      (leBytes 2 header.ePhnum.toNat ++ leBytes 6 0)))))))

def Elf64Phdr.toBytes (segment : Elf64Phdr) : List Byte :=
  leBytes 4 segment.pType.toNat ++ (leBytes 4 segment.pFlags.toNat ++
    (leBytes 8 segment.pOffset.toNat ++ (leBytes 8 segment.pVaddr.toNat ++ (leBytes 8 0 ++
      (leBytes 8 segment.pFilesz.toNat ++ (leBytes 8 segment.pMemsz.toNat ++
        leBytes 8 segment.pAlign.toNat))))))

/-- What stands before a field does not count. -/
theorem field_skip {w pos : ℕ} {front back : List Byte} (h : front.length ≤ pos) :
    field w (front ++ back) pos = field w back (pos - front.length) := by
  rw [field, field, List.drop_append, List.drop_of_length_le h, List.nil_append]

/-- A field is read where it was written. -/
theorem field_here {w n : ℕ} {x : BitVec w} {back : List Byte} (hn : n = w / 8) (hw : 256 ^ n = 2 ^ w) :
    field w (leBytes n x.toNat ++ back) 0 = x := by
  have htake : ((leBytes n x.toNat ++ back).drop 0).take (w / 8) = leBytes n x.toNat := by
    rw [List.drop_zero, ← hn]
    exact List.take_left' leBytes_length
  rw [field, htake, leNat_leBytes (hw ▸ x.isLt), BitVec.ofNat_toNat, BitVec.setWidth_eq]

/-- **A program header written and read.** -/
theorem Elf64Phdr.ofBytes_toBytes (segment : Elf64Phdr) : ofBytes segment.toBytes = segment := by
  obtain ⟨pType, pFlags, pOffset, pVaddr, pFilesz, pMemsz, pAlign⟩ := segment
  simp only [ofBytes, Elf64Phdr.mk.injEq]
  refine ⟨?_, ?_, ?_, ?_, ?_, ?_, ?_⟩
  all_goals
    unfold toBytes
    simp (disch := simp) only [field_skip, leBytes_length, Nat.reduceSub]
  · exact field_here rfl rfl
  · exact field_here rfl rfl
  · exact field_here rfl rfl
  · exact field_here rfl rfl
  · exact field_here rfl rfl
  · exact field_here rfl rfl
  · rw [← List.append_nil (leBytes 8 _)]
    exact field_here rfl rfl

/-- **A file header written and read.** -/
theorem Elf64Ehdr.ofBytes_toBytes (header : Elf64Ehdr) (h : header.eIdent.length = 16) :
    ofBytes header.toBytes = header := by
  obtain ⟨eIdent, eType, eEntry, ePhoff, ePhentsize, ePhnum⟩ := header
  simp only [ofBytes, Elf64Ehdr.mk.injEq]
  refine ⟨List.take_left' h, ?_, ?_, ?_, ?_, ?_⟩
  all_goals
    unfold toBytes
    simp only at h
    simp (disch := simp [h]) only [field_skip, leBytes_length, h, Nat.reduceSub]
    exact field_here rfl rfl

/-! ## Reading -/

/-- A read never gives more than it was asked for. -/
theorem readi_length_le : (readi file off n).length ≤ n.toNat := by
  unfold readi
  split
  · exact Nat.zero_le _
  · next hin =>
    rw [not_or, gt_iff_lt, BitVec.not_lt, BitVec.le_def] at hin
    have hsub : (file.size - off).toNat = file.size.toNat - off.toNat := BitVec.toNat_sub_of_le hin.1
    have hadd := BitVec.toNat_add off n
    refine (List.length_take_le _ _).trans ?_
    split
    · next hbeyond =>
      rw [gt_iff_lt, BitVec.lt_def] at hbeyond
      rw [BitVec.not_lt, BitVec.le_def] at hin
      rw [hsub]
      omega
    · exact Nat.le_refl _

/-- **A whole read** is one inside the file. -/
theorem readi_length_eq_iff (hn : 0 < n.toNat) :
    (readi file off n).length = n.toNat ↔ off.toNat + n.toNat ≤ file.bytes.length := by
  have hsize := file.size_toNat
  have hlt := file.length_lt
  have hoff := off.isLt
  have hnlt := n.isLt
  have hadd := BitVec.toNat_add off n
  unfold readi
  split
  · next hout =>
    rw [gt_iff_lt, BitVec.lt_def, BitVec.lt_def] at hout
    simp only [List.length_nil]
    omega
  · next hin =>
    rw [not_or, gt_iff_lt, BitVec.not_lt, BitVec.le_def, BitVec.not_lt, BitVec.le_def] at hin
    have hsub : (file.size - off).toNat = file.size.toNat - off.toNat :=
      BitVec.toNat_sub_of_le (BitVec.le_def.mpr hin.1)
    simp only [List.length_take, List.length_drop]
    split
    · next hbeyond =>
      rw [gt_iff_lt, BitVec.lt_def] at hbeyond
      omega
    · next hwithin =>
      rw [gt_iff_lt, BitVec.lt_def] at hwithin
      omega

/-- Its bytes. -/
theorem readi_getD (h : off.toNat + n.toNat ≤ file.bytes.length) (hk : k < n.toNat) :
    (readi file off n).getD k 0 = file.bytes.getD (off.toNat + k) 0 := by
  have hlen : (readi file off n).length = n.toNat := (readi_length_eq_iff (by omega)).mpr h
  have hidx : k < (readi file off n).length := by omega
  unfold readi at hlen hidx ⊢
  split at hlen
  · simp only [List.length_nil] at hlen
    omega
  · next hin =>
    rw [if_neg hin] at hidx ⊢
    simp only [List.length_take] at hidx
    rw [List.getD_eq_getElem?_getD, List.getElem?_take_of_lt (by omega), List.getElem?_drop,
      List.getD_eq_getElem?_getD]

/-! ## The bounds of a segment -/

/-- **The bounds of a segment, as integers.** -/
structure InBounds (segment : Elf64Phdr) (fileSize : BitVec 32) : Prop where
  filesz_le : segment.pFilesz.toNat ≤ segment.pMemsz.toNat
  start_le : procVaStart.toNat ≤ segment.pVaddr.toNat
  end_le : segment.pVaddr.toNat + segment.pMemsz.toNat ≤ ustackBase.toNat
  file_le : segment.pOffset.toNat + segment.pFilesz.toNat ≤ fileSize.toNat

/-- Neither sum wraps. -/
structure Unwrapped (segment : Elf64Phdr) : Prop where
  memsz_lt : segment.pVaddr.toNat + segment.pMemsz.toNat < 2 ^ 64
  filesz_lt : segment.pOffset.toNat + segment.pFilesz.toNat < 2 ^ 64

/-- What `check_segment` lets through. -/
theorem checkSegment_eq_false_iff : checkSegment segment fileSize = false ↔
    segment.pFilesz ≤ segment.pMemsz ∧ segment.pVaddr % pgsize = 0 ∧ procVaStart ≤ segment.pVaddr ∧
      segment.pVaddr + segment.pMemsz ≤ ustackBase ∧
      segment.pOffset + segment.pFilesz ≤ fileSize.setWidth 64 ∧ segment.pAlign ≤ pgsize := by
  unfold checkSegment
  constructor
  · intro h
    split at h
    · cases h
    split at h
    · cases h
    split at h
    · cases h
    split at h
    · cases h
    split at h
    · cases h
    next h₁ h₂ h₃ h₄ h₅ =>
    rw [not_or, not_not, BitVec.not_lt] at h₂
    exact ⟨BitVec.not_lt.mp h₁, h₂.1, h₂.2, BitVec.not_lt.mp h₃, BitVec.not_lt.mp h₄, BitVec.not_lt.mp h₅⟩
  · rintro ⟨h₁, h₂, h₃, h₄, h₅, h₆⟩
    rw [if_neg (BitVec.not_lt.mpr h₁), if_neg (by rw [not_or, not_not, BitVec.not_lt]; exact ⟨h₂, h₃⟩),
      if_neg (BitVec.not_lt.mpr h₄), if_neg (BitVec.not_lt.mpr h₅), if_neg (BitVec.not_lt.mpr h₆)]

/-- **Without wrapping, the comparisons are those of the integers.** -/
theorem inBounds_iff (h : checkSegment segment fileSize = false) :
    InBounds segment fileSize ↔ Unwrapped segment := by
  obtain ⟨hfilesz, -, hstart, hend, hfile, -⟩ := checkSegment_eq_false_iff.mp h
  have hstack : ustackBase.toNat = 274877894656 := by decide
  have hsize := fileSize.isLt
  rw [BitVec.le_def] at hfilesz hstart hend hfile
  rw [BitVec.toNat_add, hstack] at hend
  rw [BitVec.toNat_add, BitVec.toNat_setWidth] at hfile
  constructor
  · intro hin
    have hend' := hin.end_le
    have hfile' := hin.file_le
    exact ⟨by omega, by omega⟩
  · intro hun
    have hmem := hun.memsz_lt
    have hoff := hun.filesz_lt
    exact ⟨hfilesz, hstart, by omega, by omega⟩

end Loader
