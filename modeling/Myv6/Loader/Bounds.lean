import Myv6.Loader.Segment

/-!
# Loader/Bounds — segments whose bounds hold as integers

    check_segment ──▸ p_vaddr + p_memsz, p_offset + p_filesz      as they come out in 64 bits
                  ──▸ InBounds                                    as integers

When neither sum wraps, nothing that `map_segment_for_segment` computes wraps either, and the pages of
the segment are those that cover it.  A header may have its sums wrap and be let through.
-/

namespace Loader

open Bytes Hoare Own Vm

variable {segment : Elf64Phdr} {fileSize : BitVec 32} {file : File} {i k : ℕ}

/-- Nothing that the loops compute wraps or is cut off. -/
structure Faithful (segment : Elf64Phdr) : Prop where
  fileSize_eq : segment.fileSize.toNat = segment.pFilesz.toNat
  fileEnd_eq : (segment.pOffset + segment.fileSize.setWidth 64).toNat =
    segment.pOffset.toNat + segment.pFilesz.toNat
  fileNPagesEnd_eq : (segment.pOffset + roundDownPgsize (segment.fileSize.setWidth 64)).toNat =
    segment.pOffset.toNat + segment.pFilesz.toNat / 4096 * 4096
  vaNPagesEnd_eq : (segment.pVaddr + roundUpPgsize segment.pMemsz).toNat =
    segment.pVaddr.toNat + (segment.pMemsz.toNat + 4095) / 4096 * 4096
  va_eq : ∀ i ≤ segment.numPages, (segment.pVaddr + BitVec.ofNat 64 i * pgsize).toNat =
    segment.pVaddr.toNat + 4096 * i
  newEnd_eq : (segment.pVaddr + segment.pMemsz).toNat = segment.pVaddr.toNat + segment.pMemsz.toNat
  readOff_eq : ∀ i < segment.filePages, (segment.readOff i).toNat = segment.pOffset.toNat + 4096 * i
  readLen_eq : ∀ i < segment.filePages, (segment.readLen i).toNat =
    min 4096 (segment.pFilesz.toNat - 4096 * i)

/-- The pages of the segment in bounds. -/
theorem InBounds.pages (h : InBounds segment fileSize) (haligned : segment.pVaddr % pgsize = 0) :
    segment.fullPages = segment.pFilesz.toNat / 4096 ∧
    segment.restSize = segment.pFilesz.toNat % 4096 ∧
    segment.filePages = (segment.pFilesz.toNat + 4095) / 4096 ∧
    segment.numPages = (segment.pMemsz.toNat + 4095) / 4096 ∧
    vpn segment.pVaddr * 4096 = segment.pVaddr.toNat ∧
    vpn segment.pVaddr + segment.numPages ≤ vpn ustackBase := by
  have hsize : pgsize.toNat = 4096 := by decide
  have hstack : ustackBase.toNat = 274877894656 := by decide
  have hfs := fileSize.isLt
  have hfile := h.file_le
  have hend := h.end_le
  have hle := h.filesz_le
  have hstart : segment.pVaddr.toNat % 4096 = 0 := by
    rw [← hsize, ← BitVec.toNat_umod, haligned]
    rfl
  have hfileSize : segment.fileSize.toNat = segment.pFilesz.toNat := by
    rw [Elf64Phdr.fileSize, BitVec.toNat_setWidth]
    omega
  have hfull : segment.fullPages = segment.pFilesz.toNat / 4096 := by
    unfold Elf64Phdr.fullPages
    rw [hfileSize, if_pos (by omega)]
  have hrest : segment.restSize = segment.pFilesz.toNat % 4096 := by
    unfold Elf64Phdr.restSize
    rw [hfileSize, if_pos (by omega)]
  have hpages : segment.filePages = (segment.pFilesz.toNat + 4095) / 4096 := by
    unfold Elf64Phdr.filePages
    rw [hfull, hrest]
    split <;> omega
  have hendVpn : segment.endVpn = (segment.pVaddr.toNat + segment.pMemsz.toNat + 4095) / 4096 := by
    rw [Elf64Phdr.endVpn, vpn, BitVec.toNat_add, roundUpPgsize_toNat (by omega)]
    omega
  have hnum : segment.numPages = (segment.pMemsz.toNat + 4095) / 4096 := by
    rw [Elf64Phdr.numPages, hpages, hendVpn, vpn]
    omega
  refine ⟨hfull, hrest, hpages, hnum, ?_, ?_⟩
  · rw [vpn]
    omega
  · rw [hnum, vpn, vpn, hstack]
    omega

/-- **In bounds, the computations are those of the integers.** -/
theorem InBounds.faithful (h : InBounds segment fileSize) (haligned : segment.pVaddr % pgsize = 0) :
    Faithful segment := by
  obtain ⟨hfull, hrest, hpages, hnum, -, -⟩ := h.pages haligned
  have hsize : pgsize.toNat = 4096 := by decide
  have hstack : ustackBase.toNat = 274877894656 := by decide
  have hfs := fileSize.isLt
  have hfile := h.file_le
  have hend := h.end_le
  have hfileSize : segment.fileSize.toNat = segment.pFilesz.toNat := by
    rw [Elf64Phdr.fileSize, BitVec.toNat_setWidth]
    omega
  refine ⟨hfileSize, ?_, ?_, ?_, fun i hi => ?_, ?_, fun i hi => ?_, fun i hi => ?_⟩
  · rw [BitVec.toNat_add, BitVec.toNat_setWidth, hfileSize]
    omega
  · rw [BitVec.toNat_add, roundDownPgsize_toNat, BitVec.toNat_setWidth, hfileSize]
    omega
  · rw [BitVec.toNat_add, roundUpPgsize_toNat (by omega)]
    omega
  · rw [BitVec.toNat_add, BitVec.toNat_mul, BitVec.toNat_ofNat, hsize]
    omega
  · rw [BitVec.toNat_add]
    omega
  · rw [Elf64Phdr.readOff, BitVec.toNat_setWidth, BitVec.toNat_add, BitVec.toNat_mul,
      BitVec.toNat_ofNat, hsize]
    omega
  · by_cases hi' : i < segment.fullPages
    · rw [readLen_toNat_full hi']
      omega
    · rw [readLen_toNat_rest (by omega)]
      omega

/-- **The pages are those that cover the segment**: a run that succeeds has mapped them, and no others. -/
def MapsItself (segment : Elf64Phdr) : Prop :=
  ∀ (S : Finset ℕ) (file : File) (s : Loading) (l : List Word) (r : Word) (R : Word → ℕ),
    (∀ w < maxVpn, w ∈ S) → Holds S s.mem l r R →
    wp (mapSegmentForSegment file r segment) (fun err s' => err = false →
      ∀ w, pages s'.mem r w ≠ none ↔ pages s.mem r w ≠ none ∨
        segment.pVaddr.toNat ≤ 4096 * w ∧
          4096 * w < segment.pVaddr.toNat + segment.pMemsz.toNat) (fun _ => True) s

theorem InBounds.mapsItself (h : InBounds segment fileSize) (haligned : segment.pVaddr % pgsize = 0) :
    MapsItself segment := by
  obtain ⟨-, -, -, hnum, hstart, -⟩ := h.pages haligned
  intro S file s l r R hall hholds
  refine wp_mono (mapSegmentForSegment_spec hall haligned hholds) ?_ fun _ _ => trivial
  rintro (_ | _) s' hmapped herr
  swap
  · cases herr
  intro w
  obtain ⟨-, -, l', hlaid⟩ := hmapped
  have hput := hlaid.put
  rw [hnum] at hput
  by_cases hin : vpn segment.pVaddr ≤ w ∧ w < vpn segment.pVaddr + (segment.pMemsz.toNat + 4095) / 4096
  · exact ⟨fun _ => .inr (by omega), fun _ => hput.mapped w hin⟩
  · rw [hput.outside w hin]
    refine ⟨.inl, fun hor => hor.resolve_right fun hcover => hin (by omega)⟩

/-- The tests of `check_segment`, one of which fails. -/
def Refused (segment : Elf64Phdr) (fileSize : BitVec 32) : Prop :=
  segment.pMemsz < segment.pFilesz ∨ segment.pVaddr % pgsize ≠ 0 ∨ segment.pVaddr < procVaStart ∨
    ustackBase < segment.pVaddr + segment.pMemsz ∨
    fileSize.setWidth 64 < segment.pOffset + segment.pFilesz ∨ pgsize < segment.pAlign

theorem checkSegment_eq_true_iff : checkSegment segment fileSize = true ↔ Refused segment fileSize := by
  rw [← Bool.not_eq_false, checkSegment_eq_false_iff]
  unfold Refused
  simp only [not_and_or, BitVec.not_le]

/-- **When the bounds of a segment are exact**: what `check_segment` lets through is in bounds, and is
mapped without a computation that wraps, exactly when neither sum wraps or a test refuses the header
all the same. -/
theorem checkSegment_exact_iff (segment : Elf64Phdr) (fileSize : BitVec 32) :
    (checkSegment segment fileSize = false →
      InBounds segment fileSize ∧ Faithful segment ∧ MapsItself segment) ↔
    Unwrapped segment ∨ Refused segment fileSize := by
  constructor
  · intro h
    cases hcheck : checkSegment segment fileSize with
    | false => exact .inl ((inBounds_iff hcheck).mp (h hcheck).1)
    | true => exact .inr (checkSegment_eq_true_iff.mp hcheck)
  · rintro (hun | hrefused) hcheck
    · have hin := (inBounds_iff hcheck).mpr hun
      have haligned := (checkSegment_eq_false_iff.mp hcheck).2.1
      exact ⟨hin, hin.faithful haligned, hin.mapsItself haligned⟩
    · rw [checkSegment_eq_true_iff.mpr hrefused] at hcheck
      cases hcheck

/-- **A segment of almost 2⁶⁴ bytes** at `0x2000`: it ends at `0x1000`. -/
theorem not_checkSegment_exact : ¬∀ (segment : Elf64Phdr) (fileSize : BitVec 32),
    checkSegment segment fileSize = false →
      InBounds segment fileSize ∧ Faithful segment ∧ MapsItself segment := by
  intro hall
  have hexact := hall
    { pType := 1, pFlags := 7, pOffset := 0, pVaddr := 0x2000, pFilesz := 0,
      pMemsz := 0xfffffffffffff000, pAlign := 0x1000 } 0 (by decide)
  exact absurd hexact.1.end_le (by decide)

end Loader
