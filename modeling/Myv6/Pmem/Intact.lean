import Myv6.Pmem.Exec

/-!
# Pmem/Intact — what a call that fails leaves

    exec = -1             ⇒   process, table, pages, references: as before
                              free list: as before, but for pages of the image that no error exit reaches
    alloc_process = NULL  ⇒   slots, pids, free list: as before

Whatever `exec` takes for a table that it gives up, the table pages and the argv page among it, is free
again; the exception is the loader's (`Unreached`).
-/

namespace Pmem

open Bytes Hoare Loader Own Vm
open Process (ProcId)

variable {s s' : Sys} {l : List Word} {j : ProcId} {n argc : ℕ} {disk : Disk} {path : List Byte}
  {strInArgv : ℕ → Byte}

/-- **An ordinary process**: its pages are its own, and its image ends at a page. -/
structure Ordinary (s : Sys) (l : List Word) (j : ProcId) (n : ℕ) : Prop where
  free : FreeList s.mem l
  once : ∀ q, l.count q + (s.proc j).owns s.mem q ≤ 1
  page : ∀ q, 0 < space userPages s.mem (s.proc j).pgtable q → s.mem.image.IsPage q
  ends : EndsAt (s.proc j).memEnd n

/-- The pages of a process outside of its table. -/
def Proc.beside (proc : Proc) (q : Word) : ℕ := one proc.trapFrame q + one proc.ustack q + one proc.kstack q

theorem Proc.beside_trapFrame (proc : Proc) : 0 < proc.beside proc.trapFrame := by
  unfold beside
  rw [one_self]
  omega

namespace Ordinary

theorem holds (h : Ordinary s l j n) : Holds userPages s.mem l (s.proc j).pgtable (s.proc j).beside := by
  refine ⟨h.free, fun q => ?_, h.page⟩
  have hq := h.once q
  unfold Proc.owns at hq
  unfold Proc.beside
  omega

/-- What `exec` does to an ordinary process. -/
theorem exec (h : Ordinary s l j n) : wp (Pmem.exec disk j path argc strInArgv)
    (Execed s l j disk path argc n (s.proc j).beside)
    (ExecPanic s j disk path argc n (avail s.mem.deny l.length)) s :=
  exec_spec h.holds (s.proc j).beside_trapFrame h.ends

end Ordinary

/-- **What is free again after an `exec` that failed**: all that was free but the pages `f`, of the image,
which no error exit reaches.  Where the new table is given up it maps the pages `f`; its table pages and
the argv page, which was the first of the list, are free again. -/
structure FreeAgain (s s' : Sys) (l : List Word) (disk : Disk) (path : List Byte) (argc : ℕ) (l' : List Word)
    (f : ℕ → Option Word) : Prop where
  free : FreeList s'.mem l'
  mem_iff : ∀ q, q ∈ l' ↔ q ∈ l ∧ held f allPages q = 0
  unreached : ∀ w, f w ≠ none → ∃ ip, disk.namei path = some ip ∧ Unreached (disk.inode ip).file w
  tables : (∀ w, f w = none) ∨ ∃ (argv : Option Word) (S : Finset ℕ) (m : Mem) (l₁ : List Word) (t : Word),
    Moves s.mem m l l₁ 0 (fun q => space S m t q + argvHand argv q) ∧
    (∀ w, f w ≠ none → w ∈ S ∧ f w = pages m t w) ∧ (∀ q, 0 < Vm.tables m t q → q ∈ l') ∧
    argv.isSome = decide (argc ≠ 0) ∧ ∀ p, argv = some p → p = s.mem.head ∧ p ∈ l'

/-- **The caller is intact.** -/
structure Intact (s s' : Sys) (l : List Word) (j : ProcId) (disk : Disk) (path : List Byte) (argc : ℕ) :
    Prop where
  proc : s'.proc = s.proc
  fileRef : s'.fileRef = s.fileRef
  inodeRef : s'.inodeRef = s.inodeRef
  rest : s'.pidSet = s.pidSet ∧ s'.group = s.group
  table : pages s'.mem (s.proc j).pgtable = pages s.mem (s.proc j).pgtable
  memory : ∀ q, 0 < (s.proc j).owns s.mem q → s'.mem.cell q = s.mem.cell q
  others : ∀ q ∉ l, s'.mem.cell q = s.mem.cell q
  freeAgain : ∃ l' f, FreeAgain s s' l disk path argc l' f
  allFree : (∀ ip, disk.namei path = some ip → ∀ w, ¬Unreached (disk.inode ip).file w) →
    ∃ l', FreeList s'.mem l' ∧ ∀ q, q ∈ l' ↔ q ∈ l

section

variable {m m' : Mem} {l' : List Word} {f : ℕ → Option Word}

/-- A page is on the list, or it is not. -/
theorem mem_iff_of_moves (h : FreeList m l) (hmoves : Moves m m' l l' 0 (held f allPages)) (q : Word) :
    q ∈ l' ↔ q ∈ l ∧ held f allPages q = 0 := by
  have hsame := hmoves.same q
  have hnodup := List.nodup_iff_count.mp h.nodup q
  rw [Pi.zero_apply] at hsame
  rw [← List.count_pos_iff, ← List.count_pos_iff]
  omega

/-- What else was in the hand where the table was given up is free again. -/
theorem free_again {S : Finset ℕ} {m₁ : Mem} {l₁ : List Word} {t q : Word} {B : Word → ℕ}
    (h : FreeList m l) (hmoves : Moves m m' l l' 0 (held f allPages))
    (htaken : Moves m m₁ l l₁ 0 (fun q => space S m₁ t q + B q))
    (hleft : ∀ w, f w ≠ none → w ∈ S ∧ f w = pages m₁ t w) (hq : 0 < Vm.tables m₁ t q + B q) : q ∈ l' := by
  have hle : held f allPages q ≤ held (pages m₁ t) S q := held_le hleft q
  have hsame := hmoves.same q
  have htake := htaken.same q
  have hnodup := List.nodup_iff_count.mp h.nodup q
  rw [Pi.zero_apply] at hsame htake
  unfold space at htake
  rw [← List.count_pos_iff]
  omega

end

/-- **A failed `exec` leaves the caller intact.** -/
theorem exec_intact (h : Ordinary s l j n) (hrun : exec disk j path argc strInArgv s = .ok (true, s')) :
    Intact s s' l j disk path argc := by
  obtain ⟨-, hs', l', f, hmoves, hunreached, hleft⟩ := h.exec.ok hrun
  have htable : ∀ q, l.count q + (0 : Word → ℕ) q + Vm.tables s.mem (s.proc j).pgtable q ≤ 1 :=
    h.holds.tables_once
  have hmem := mem_iff_of_moves h.free hmoves
  refine ⟨?_, ?_, ?_, ?_, (hmoves.table htable).2.2, fun q hq => ?_, fun q hq => ?_,
    ⟨l', f, hmoves.free, hmem, hunreached, ?_⟩, fun hall => ⟨l', hmoves.free, fun q => ?_⟩⟩
  · rw [hs']
  · rw [hs']
  · rw [hs']
  · rw [hs']
    exact ⟨rfl, rfl⟩
  · exact hmoves.kept (h.once q) hq
  · exact hmoves.frame (List.count_eq_zero.mpr hq) rfl
  · refine hleft.imp_right ?_
    rintro ⟨argv, hargv, hhead, S, m, l₁, t, htaken, hpages⟩
    refine ⟨argv, S, m, l₁, t, htaken, hpages, fun q hq => ?_, hargv, fun p hp => ⟨hhead p hp, ?_⟩⟩
    · exact free_again h.free hmoves htaken hpages (by omega)
    · refine free_again h.free hmoves htaken hpages ?_
      rw [hp, argvHand_some, one_self]
      omega
  · have hnone : ∀ w, f w = none := by
      intro w
      by_contra hne
      obtain ⟨ip, hip, hout⟩ := hunreached w hne
      exact hall ip hip w hout
    rw [hmem, held_eq_zero fun w _ => hnone w]
    exact and_iff_left rfl

/-- A disk with one file, at the path `a`. -/
def oneFile (file : File) : Disk where
  namei path := if path = [0x61] then some 0 else none
  inode _ := { isFile := true, file := file }

/-- The process of the small machine. -/
theorem smallSys_ordinary {deny : List Bool} {slotEnd : Word} {exclusive : Bool}
    (hrun : ((smallSys deny slotEnd exclusive).proc 0).status = .running) :
    ∃ l, Ordinary (smallSys deny slotEnd exclusive) l 0 2 := by
  obtain ⟨⟨l, hready, hone⟩, -⟩ := smallSys_onePage hrun
  obtain ⟨-, -, hend⟩ := hone.ends
  refine ⟨l, hready.free, hready.once, hone.holds.page, ?_, by decide, by decide⟩
  rw [hend]
  decide

/-- A file of one segment. -/
@[irreducible] def onePageDisk : Disk := oneFile (smallFile [bss 0x1000 0x1000] [])

/-- The small machine, whose memory runs out where the pages above the heap are mapped. -/
@[irreducible] def scarceSys : Sys := smallSys (.replicate 15 false ++ [true]) 0 false

/-- The theorem for that file and that machine. -/
theorem exec_intact_small : ∃ l s', Ordinary scarceSys l 0 2 ∧
    exec onePageDisk 0 [0x61] 1 (fun _ => 0x62) scarceSys = .ok (true, s') ∧
    Intact scarceSys s' l 0 onePageDisk [0x61] 1 := by
  have hsmall : decide ((scarceSys.proc 0).status = .running ∧
      ((exec onePageDisk 0 [0x61] 1 (fun _ => 0x62) scarceSys).toOption.map fun x => x.1) =
        some true) = true := by
    decide +kernel
  obtain ⟨hrunning, hrun⟩ := of_decide_eq_true hsmall
  obtain ⟨l, hordinary⟩ : ∃ l, Ordinary scarceSys l 0 2 := by
    unfold scarceSys at hrunning ⊢
    exact smallSys_ordinary hrunning
  obtain ⟨ret, s', hexec, hret⟩ := ok_of_map hrun
  obtain rfl : ret = true := hret
  exact ⟨l, s', hordinary, hexec, exec_intact hordinary hexec⟩

/-! ## `alloc_process` -/

/-- **Nothing was allocated.**  What is not free is not written, so the tables of all processes are as they
were; of the slots only the first unused one has been touched, and it is unused. -/
structure NotAllocated (s s' : Sys) (l : List Word) : Prop where
  pidSet : s'.pidSet = s.pidSet
  status : ∀ i, (s'.proc i).status = (s.proc i).status
  proc : ∀ i, firstUnused s ≠ some i → s'.proc i = s.proc i
  rest : s'.group = s.group ∧ s'.fileRef = s.fileRef ∧ s'.inodeRef = s.inodeRef
  free : ∃ l', FreeList s'.mem l' ∧ ∀ q, q ∈ l' ↔ q ∈ l
  memory : ∀ q ∉ l, s'.mem.cell q = s.mem.cell q
  table : ∀ t, (∀ q, 0 < tables s.mem t q → q ∉ l) →
    tables s'.mem t = tables s.mem t ∧ pages s'.mem t = pages s.mem t

theorem NotAllocated.of_moves {m : Mem} {l' : List Word}
    (hmoves : Moves s.mem m l l' 0 0) (hmem : s'.mem = m) (hpid : s'.pidSet = s.pidSet)
    (hstatus : ∀ i, (s'.proc i).status = (s.proc i).status)
    (hproc : ∀ i, firstUnused s ≠ some i → s'.proc i = s.proc i)
    (hrest : s'.group = s.group ∧ s'.fileRef = s.fileRef ∧ s'.inodeRef = s.inodeRef) :
    NotAllocated s s' l := by
  subst hmem
  refine ⟨hpid, hstatus, hproc, hrest, ⟨l', hmoves.free, fun q => ?_⟩, fun q hq => ?_, fun t ht => ?_⟩
  · have hsame : l'.count q = l.count q := hmoves.same q
    rw [← List.count_pos_iff, hsame, List.count_pos_iff]
  · exact hmoves.frame (List.count_eq_zero.mpr hq) rfl
  · have hcell : ∀ q, 0 < tables s.mem t q → s'.mem.cell q = s.mem.cell q := fun q hq =>
      hmoves.frame (List.count_eq_zero.mpr (ht q hq)) rfl
    obtain ⟨htables, -, hpages⟩ := table_congr hcell
    exact ⟨htables, hpages⟩

/-- **A failed `alloc_process` is undone.** -/
theorem allocProcess_atomic (hfree : FreeList s.mem l) :
    ∃ ret s', allocProcess s = .ok (ret, s') ∧ (ret = none → NotAllocated s s' l) := by
  have honce : ∀ q, l.count q + (0 : Word → ℕ) q ≤ 1 := fun q => List.nodup_iff_count.mp hfree.nodup q
  obtain ⟨ret, s', hrun, hpost⟩ := (allocProcess_spec (E := fun _ => False) hfree honce).ends
  refine ⟨ret, s', hrun, ?_⟩
  rintro rfl
  rcases hpost with ⟨-, rfl⟩ | ⟨i, hfirst, -, m', l', t, us, tf, ks, hmoves, rfl⟩
  · exact .of_moves (.refl hfree) rfl rfl (fun _ => rfl) (fun _ _ => rfl) ⟨rfl, rfl, rfl⟩
  · refine .of_moves hmoves rfl rfl (fun j => ?_) (fun j hj => ?_) ⟨rfl, rfl, rfl⟩
    · by_cases hji : j = i
      · subst hji
        simp
      · simp [hji]
    · have hji : j ≠ i := by
        rintro rfl
        exact hj hfirst
      simp [hji]

/-- The small machine, where `kalloc` refuses the third page of a child. -/
@[irreducible] def childlessSys : Sys := smallSys (.replicate 11 false ++ [true]) 0 false

/-- The theorem on that machine: the table and the trap frame of the child are given back. -/
theorem allocProcess_atomic_small : ∃ l s', FreeList childlessSys.mem l ∧
    allocProcess childlessSys = .ok (none, s') ∧ NotAllocated childlessSys s' l := by
  have hsmall : decide ((childlessSys.proc 0).status = .running ∧
      ((allocProcess childlessSys).toOption.map fun x => x.1.isNone) = some true) = true := by
    decide +kernel
  obtain ⟨hrunning, hnone⟩ := of_decide_eq_true hsmall
  obtain ⟨l, hordinary⟩ : ∃ l, Ordinary childlessSys l 0 2 := by
    unfold childlessSys at hrunning ⊢
    exact smallSys_ordinary hrunning
  obtain ⟨ret, s', hrun, hundone⟩ := allocProcess_atomic hordinary.free
  rw [hrun] at hnone
  cases ret with
  | some i => cases hnone
  | none => exact ⟨l, s', hordinary.free, hrun, hundone rfl⟩

end Pmem
