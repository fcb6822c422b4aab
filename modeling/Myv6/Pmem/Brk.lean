import Mathlib.Order.Interval.Finset.Nat
import Myv6.Lib.Run
import Myv6.Pmem.Graceful
import Myv6.Vm.Lay

/-!
# Pmem/Brk — the heap of a process

    mem_start      mem_brk   mem_end           PROC_VA_END
        |  heap        |   ··· |  not mapped        |
                               └─ ROUND_UP_PGSIZE(mem_brk)

`brk` and `sbrk` map and unmap whole pages at `mem_end`.  The heap is exactly the pages from
`mem_start` to `mem_end` whatever the calls ask for and wherever memory runs out.
-/

namespace Pmem

open Function (update)
open Hoare Own Vm
open Process (ProcId GroupId Status)

/-- Returns `true` for `-1`. -/
def brk (i : ProcId) (newBrk : Word) : Code Bool := do
  let proc ← inspect fun s => s.proc i
  if proc.memBrk > proc.memEnd then
    panic .brkBeyondEnd
  else if proc.memEnd % pgsize ≠ 0 then
    panic .memEndUnaligned
  else if newBrk < proc.memStart ∨ newBrk ≥ procVaEnd then
    pure true
  else do
    let newMemEnd := roundUpPgsize newBrk
    let err ←
      if newBrk > proc.memEnd then
        onMem (incrementMemEnd proc.pgtable proc.memEnd ((newMemEnd - proc.memEnd) / pgsize))
      else if newBrk < proc.memBrk ∧ newMemEnd < proc.memEnd then do
        onMem (unmapNPagesFree proc.pgtable newMemEnd (intOf ((proc.memEnd - newMemEnd) / pgsize)))
        pure false
      else
        pure false
    if err then
      pure true
    else
      setProc i ({ · with memEnd := newMemEnd, memBrk := newBrk })
      pure false

/-- Returns `none` for `-1`. -/
def sbrk (i : ProcId) (increment : Word) : Code (Option Word) := do
  let preMemBrk ← inspect fun s => (s.proc i).memBrk
  if ← brk i (preMemBrk + increment) then
    pure none
  else
    pure (some preMemBrk)

/-- The two calls. -/
inductive HeapCall
  | brk (newBrk : Word)
  | sbrk (increment : Word)

/-- What the process gets back, `none` for `-1`. -/
def HeapCall.exec (i : ProcId) : HeapCall → Code (Option Word)
  | .brk newBrk => do
    if ← Pmem.brk i newBrk then
      pure none
    else
      pure (some 0)
  | .sbrk increment => Pmem.sbrk i increment

/-- The break that a call asks for. -/
def HeapCall.wants (memBrk : Word) : HeapCall → Word
  | .brk newBrk => newBrk
  | .sbrk increment => memBrk + increment

/-- One call of process `i`; a panic is no step. -/
def heapStep (i : ProcId) (s : Sys) (call : HeapCall) : Option Sys :=
  match call.exec i s with
  | .ok (_, s') => some s'
  | .error _ => none

variable {m m' : Mem} {l l' : List Word} {r q : Word} {R : Word → ℕ} {v w k : ℕ}
  {E : Panic → Prop} {s s' : Sys} {i : ProcId} {call : HeapCall} {newBrk : Word}

/-! ## The pages -/

/-- **The heap grows**, or stays; what is not mapped anew is not written. -/
theorem incrementMemEnd_user {memEnd : Word} (h : Holds userPages m l r R)
    (hbound : vpn memEnd + k ≤ 67108861)
    (hnone : ∀ w, vpn memEnd ≤ w ∧ w < vpn memEnd + k → pages m r w = none) :
    wp (incrementMemEnd r memEnd (BitVec.ofNat 64 k)) (fun err m' =>
      (∃ l', Holds userPages m' l' r R) ∧
      (∀ q, 0 < held (pages m r) userPages q + R q → m'.cell q = m.cell q) ∧
      match err with
      | true => pages m' r = pages m r
      | false => ∀ w, if vpn memEnd ≤ w ∧ w < vpn memEnd + k then pages m' r w ≠ none
          else pages m' r w = pages m r w) E m := by
  have hsub : Finset.Ico (vpn memEnd) (vpn memEnd + k) ⊆ userPages := by
    intro w hw
    rw [Finset.mem_Ico] at hw
    exact mem_userPages_iff.mpr (by omega)
  have hsum : ∀ q, held (pages m r) (userPages \ Finset.Ico (vpn memEnd) (vpn memEnd + k)) q =
      held (pages m r) userPages q := fun q =>
    (held_subset Finset.sdiff_subset fun w hw hout => hnone w (by
      rw [Finset.mem_sdiff, Finset.mem_Ico, not_and_not_right] at hout
      exact hout hw)).symm
  refine wp_post (incrementMemEnd_spec (h.split hsub) (fun w hw => Finset.mem_Ico.mpr hw) hbound hnone) ?_
  rintro err m' ⟨l', hholds, hmoves, hpages⟩
  have hout : ∀ w ∈ userPages \ Finset.Ico (vpn memEnd) (vpn memEnd + k),
      pages m' r w = pages m r w := by
    intro w hw
    rw [Finset.mem_sdiff, Finset.mem_Ico] at hw
    cases err with
    | true => exact congrFun hpages w
    | false =>
      have hw' := hpages w
      rwa [if_neg hw.2] at hw'
  refine ⟨⟨l', ?_⟩, fun q hq => ?_, hpages⟩
  · refine Holds.join (hholds.congr fun q => by rw [held_congr hout]) hsub fun q hq => ?_
    rw [held_congr hout, hsum] at hq
    rw [hmoves.image]
    exact h.page q (by unfold space; omega)
  · refine (h.split hsub).kept hmoves ?_
    rw [hsum]
    omega

/-! ## The invariant -/

/-- **The heap is whole pages**: mapped from `mem_start` to `mem_end` and nowhere above. -/
structure Heap (s : Sys) (i : ProcId) (l : List Word) (R : Word → ℕ) : Prop where
  holds : Holds userPages s.mem l (s.proc i).pgtable R
  memStart_aligned : (s.proc i).memStart % pgsize = 0
  memStart_le : (s.proc i).memStart ≤ (s.proc i).memBrk
  memBrk_le : (s.proc i).memBrk ≤ (s.proc i).memEnd
  memEnd_eq : (s.proc i).memEnd = roundUpPgsize (s.proc i).memBrk
  memEnd_le : (s.proc i).memEnd ≤ procVaEnd
  mapped_iff : ∀ w, vpn (s.proc i).memStart ≤ w → w < vpn ustackBase →
    (pages s.mem (s.proc i).pgtable w ≠ none ↔ w < vpn (s.proc i).memEnd)

/-- A process as `exec` leaves it: an empty heap, and nothing mapped from `mem_end` to the stack. -/
structure NoHeap (s : Sys) (i : ProcId) (l : List Word) (R : Word → ℕ) : Prop where
  holds : Holds userPages s.mem l (s.proc i).pgtable R
  memBrk_eq : (s.proc i).memBrk = (s.proc i).memEnd
  memStart_eq : (s.proc i).memStart = (s.proc i).memEnd
  aligned : (s.proc i).memEnd % pgsize = 0
  memEnd_le : (s.proc i).memEnd ≤ procVaEnd
  unmapped : ∀ w, vpn (s.proc i).memEnd ≤ w → w < vpn ustackBase →
    pages s.mem (s.proc i).pgtable w = none

theorem mod_pgsize {x : Word} : x % pgsize = 0 ↔ x.toNat % 4096 = 0 := by
  have hsize : pgsize.toNat = 4096 := by decide
  rw [← BitVec.toNat_inj, BitVec.toNat_umod, hsize]
  rfl

/-- `ROUND_UP_PGSIZE` of a break below `PROC_VA_END`, in pages. -/
theorem roundUp_brk {x : Word} (h : x ≤ procVaEnd) :
    (roundUpPgsize x).toNat = vpn (roundUpPgsize x) * 4096 ∧ x ≤ roundUpPgsize x ∧
      vpn (roundUpPgsize x) = (x.toNat + 4095) / 4096 ∧ roundUpPgsize x ≤ procVaEnd := by
  have hend : procVaEnd.toNat = 274877890560 := by decide
  rw [BitVec.le_def, hend] at h
  have hup := roundUpPgsize_toNat (x := x) (by omega)
  refine ⟨?_, ?_, ?_, ?_⟩
  · rw [vpn, hup]
    omega
  · rw [BitVec.le_def, hup]
    omega
  · rw [vpn, hup]
    omega
  · rw [BitVec.le_def, hup, hend]
    omega

theorem NoHeap.heap (h : NoHeap s i l R) : Heap s i l R := by
  have haligned := mod_pgsize.mp h.aligned
  obtain ⟨hup, -, hvpn, -⟩ := roundUp_brk h.memEnd_le
  refine ⟨h.holds, ?_, ?_, ?_, ?_, h.memEnd_le, fun w hlow hhigh => ?_⟩
  · rw [h.memStart_eq]
    exact h.aligned
  · rw [h.memStart_eq, h.memBrk_eq]
    exact BitVec.le_refl _
  · rw [h.memBrk_eq]
    exact BitVec.le_refl _
  · rw [h.memBrk_eq]
    refine BitVec.eq_of_toNat_eq ?_
    omega
  · rw [h.memStart_eq] at hlow
    exact ⟨fun hmapped => absurd (h.unmapped w hlow hhigh) hmapped, fun hlt => absurd hlow (by omega)⟩

/-- The process after a call that succeeded. -/
def Proc.broken (proc : Proc) (newBrk : Word) : Proc :=
  { proc with memEnd := roundUpPgsize newBrk, memBrk := newBrk }

/-- What a call of `brk` leaves. -/
def Broke (s : Sys) (i : ProcId) (R : Word → ℕ) (newBrk : Word) : Bool → Sys → Prop
  | true, s' => s' = { s with mem := s'.mem } ∧
      pages s'.mem (s.proc i).pgtable = pages s.mem (s.proc i).pgtable ∧
      ∀ q, 0 < held (pages s.mem (s.proc i).pgtable) userPages q + R q → s'.mem.cell q = s.mem.cell q
  | false, s' =>
      s' = { s with mem := s'.mem, proc := update s.proc i ((s.proc i).broken newBrk) } ∧
      ∀ w, w < vpn (s.proc i).memEnd → w < vpn (roundUpPgsize newBrk) →
        pages s'.mem (s.proc i).pgtable w = pages s.mem (s.proc i).pgtable w ∧
        ∀ pte, pages s.mem (s.proc i).pgtable w = some pte →
          s'.mem.cell (pteGetPa pte) = s.mem.cell (pteGetPa pte)

/-! ## The calls -/

/-- The whole pages from one address to another. -/
theorem pages_between {x y : Word} {a b : ℕ} (hx : x.toNat = a * 4096) (hy : y.toNat = b * 4096)
    (h : a = b + k) : (x - y) / pgsize = BitVec.ofNat 64 k := by
  have hsize : pgsize.toNat = 4096 := by decide
  have hlt := x.isLt
  refine BitVec.eq_of_toNat_eq ?_
  rw [BitVec.toNat_udiv, BitVec.toNat_sub, BitVec.toNat_ofNat, hsize]
  omega

theorem intOf_pages {x y : Word} {a b : ℕ} (hx : x.toNat = a * 4096) (hy : y.toNat = b * 4096)
    (h : a = b + k) (hk : k < 2 ^ 31) : intOf ((x - y) / pgsize) = k := by
  rw [pages_between hx hy h, intOf, BitVec.toInt_eq_toNat_of_lt]
  · rw [BitVec.toNat_setWidth, BitVec.toNat_ofNat]
    omega
  · rw [BitVec.toNat_setWidth, BitVec.toNat_ofNat]
    omega

/-- The heap after a call that failed. -/
theorem Heap.same (h : Heap s i l R) (hholds : Holds userPages m' l' (s.proc i).pgtable R)
    (hpages : pages m' (s.proc i).pgtable = pages s.mem (s.proc i).pgtable) :
    Heap { s with mem := m' } i l' R :=
  ⟨hholds, h.memStart_aligned, h.memStart_le, h.memBrk_le, h.memEnd_eq, h.memEnd_le,
    fun w hlow hhigh => by
      have hw := h.mapped_iff w hlow hhigh
      rwa [← hpages] at hw⟩

/-- The heap after a call that succeeded. -/
theorem Heap.moved (h : Heap s i l R) (hlow : (s.proc i).memStart ≤ newBrk) (hhigh : newBrk ≤ procVaEnd)
    (hholds : Holds userPages m' l' (s.proc i).pgtable R)
    (hmapped : ∀ w, vpn (s.proc i).memStart ≤ w → w < vpn ustackBase →
      (pages m' (s.proc i).pgtable w ≠ none ↔ w < vpn (roundUpPgsize newBrk))) :
    Heap { s with mem := m', proc := update s.proc i ((s.proc i).broken newBrk) } i l' R := by
  obtain ⟨-, hle, -, hend⟩ := roundUp_brk hhigh
  constructor <;> simp only [Function.update_self, Proc.broken]
  · exact hholds
  · exact h.memStart_aligned
  · exact hlow
  · exact hle
  · exact hend
  · exact hmapped

/-- **`brk`** moves the break and keeps the heap whole, or changes nothing. -/
theorem brk_spec (h : Heap s i l R) : wp (brk i newBrk)
    (fun err s' => Broke s i R newBrk err s' ∧ ∃ l', Heap s' i l' R) E s := by
  generalize hproc : s.proc i = proc
  have hstart := h.memStart_le
  have hbrk := h.memBrk_le
  have haligned := h.memEnd_eq
  have hend := h.memEnd_le
  have hmapped := h.mapped_iff
  have hholds := h.holds
  rw [hproc] at hstart hbrk haligned hend hmapped hholds
  have hold := roundUp_brk (BitVec.le_trans hbrk hend)
  rw [← haligned] at hold
  obtain ⟨hold, -, holdVpn, -⟩ := hold
  have hfinish : ∀ {m' l'}, proc.memStart ≤ newBrk → newBrk < procVaEnd →
      Holds userPages m' l' proc.pgtable R →
      (∀ w, vpn proc.memStart ≤ w → w < vpn ustackBase →
        (pages m' proc.pgtable w ≠ none ↔ w < vpn (roundUpPgsize newBrk))) →
      (∀ w, w < vpn proc.memEnd → w < vpn (roundUpPgsize newBrk) →
        pages m' proc.pgtable w = pages s.mem proc.pgtable w ∧
        ∀ pte, pages s.mem proc.pgtable w = some pte →
          m'.cell (pteGetPa pte) = s.mem.cell (pteGetPa pte)) →
      wp (do
          if false = true then
            pure true
          else
            setProc i ({ · with memEnd := roundUpPgsize newBrk, memBrk := newBrk })
            pure false)
        (fun err s' => Broke s i R newBrk err s' ∧ ∃ l', Heap s' i l' R) E { s with mem := m' } := by
    intro m' l' hlow hhigh hholds' hmapped' hkept
    rw [if_neg (by decide), wp_bind, wp_setProc, wp_pure]
    have hmoved : Heap { s with mem := m', proc := update s.proc i ((s.proc i).broken newBrk) } i l' R :=
      h.moved (by rw [hproc]; exact hlow) (BitVec.le_of_lt hhigh) (by rw [hproc]; exact hholds')
        (by rw [hproc]; exact hmapped')
    refine ⟨⟨rfl, ?_⟩, l', hmoved⟩
    rw [hproc]
    exact hkept
  unfold brk
  rw [wp_bind, wp_inspect]
  simp only [hproc]
  rw [if_neg (by rw [BitVec.not_lt]; exact hbrk), if_neg (by rw [not_not, mod_pgsize]; omega)]
  by_cases hrefuse : newBrk < proc.memStart ∨ newBrk ≥ procVaEnd
  · rw [if_pos hrefuse, wp_pure]
    exact ⟨⟨rfl, rfl, fun _ _ => rfl⟩, l, h⟩
  rw [if_neg hrefuse]
  rw [not_or, BitVec.not_lt, ge_iff_le, BitVec.not_le] at hrefuse
  obtain ⟨hlow, hhigh⟩ := hrefuse
  obtain ⟨hnew, hle, hnewVpn, hnewEnd⟩ := roundUp_brk (BitVec.le_of_lt hhigh)
  have hvaEnd : procVaEnd.toNat = 67108860 * 4096 := by decide
  have hbound : vpn (roundUpPgsize newBrk) ≤ 67108860 := by
    rw [BitVec.le_def, hvaEnd] at hnewEnd
    omega
  have hboundOld : vpn proc.memEnd ≤ 67108860 := by
    rw [BitVec.le_def, hvaEnd] at hend
    omega
  have hlowVpn : vpn proc.memStart ≤ vpn (roundUpPgsize newBrk) :=
    Nat.div_le_div_right (BitVec.le_def.mp (BitVec.le_trans hlow hle))
  have hstartVpn : vpn proc.memStart ≤ vpn proc.memEnd :=
    Nat.div_le_div_right (BitVec.le_def.mp (BitVec.le_trans hstart hbrk))
  rw [vpn_ustackBase] at hmapped
  by_cases hgrow : newBrk > proc.memEnd
  · rw [if_pos hgrow, wp_bind, wp_onMem]
    have hmore : vpn proc.memEnd ≤ vpn (roundUpPgsize newBrk) := by
      rw [gt_iff_lt, BitVec.lt_def] at hgrow
      rw [BitVec.le_def] at hle
      omega
    obtain ⟨k, hk⟩ := Nat.exists_eq_add_of_le hmore
    rw [pages_between hnew hold hk]
    refine wp_post (incrementMemEnd_user hholds (by omega) fun w hw => ?_) ?_
    · by_contra hsome
      have hin := (hmapped w (by omega) (by omega)).mp hsome
      omega
    rintro (_ | _) m' ⟨⟨l', hholds'⟩, hkept, hpages⟩
    · refine hfinish hlow hhigh hholds' (fun w hw hw' => ?_) fun w hw _ => ?_
      · rw [vpn_ustackBase] at hw'
        have hthis := hpages w
        split at hthis
        · next hin => exact ⟨fun _ => by omega, fun _ => hthis⟩
        · next hin =>
          rw [hthis, hmapped w hw hw']
          omega
      · have hthis := hpages w
        rw [if_neg (by omega)] at hthis
        exact ⟨hthis, fun pte hpte => hkept _ (by
          have hheld := frame_held hpte (mem_userPages_iff.mpr (by omega))
          omega)⟩
    · rw [if_pos rfl, wp_pure]
      have hsame : Heap { s with mem := m' } i l' R :=
        h.same (by rw [hproc]; exact hholds') (by rw [hproc]; exact hpages)
      refine ⟨⟨rfl, ?_⟩, l', hsame⟩
      rw [hproc]
      exact ⟨hpages, hkept⟩
  rw [if_neg hgrow]
  have hless : vpn (roundUpPgsize newBrk) ≤ vpn proc.memEnd := by
    rw [gt_iff_lt, BitVec.lt_def] at hgrow
    omega
  by_cases hshrink : newBrk < proc.memBrk ∧ roundUpPgsize newBrk < proc.memEnd
  · rw [if_pos hshrink, wp_bind, wp_onMem]
    obtain ⟨k, hk⟩ := Nat.exists_eq_add_of_le hless
    rw [intOf_pages hold hnew hk (by omega)]
    refine wp_post (unmapNPagesFree_range hholds (fun w hw => mem_userPages_iff.mpr (by omega))
      (by rw [maxVpn_eq]; omega) fun w hw => ?_) ?_
    · exact (hmapped w (by omega) (by omega)).mpr (by omega)
    rintro _ m' ⟨⟨l', hholds', -⟩, hkept, hpages, -⟩
    refine hfinish hlow hhigh hholds' (fun w hw hw' => ?_) fun w hw hw' => ?_
    · rw [vpn_ustackBase] at hw'
      rw [hpages]
      split
      · next hin => exact ⟨fun hnone => absurd rfl hnone, fun hlt => by omega⟩
      · next hin =>
        rw [hmapped w hw hw']
        omega
    · refine ⟨by rw [hpages, if_neg (by omega)], fun pte hpte => hkept _ ?_⟩
      have hmem : w ∈ userPages \ Finset.Ico (vpn (roundUpPgsize newBrk)) (vpn (roundUpPgsize newBrk) + k) := by
        rw [Finset.mem_sdiff, mem_userPages_iff, Finset.mem_Ico]
        omega
      exact frame_held hpte hmem
  · rw [if_neg hshrink, wp_bind, wp_pure]
    have hsame : roundUpPgsize newBrk = proc.memEnd := by
      refine BitVec.eq_of_toNat_eq ?_
      rw [BitVec.lt_def, BitVec.lt_def] at hshrink
      omega
    refine hfinish hlow hhigh hholds (fun w hw hw' => ?_) fun w hw hw' => ⟨rfl, fun _ _ => rfl⟩
    rw [hsame]
    exact hmapped w hw (by rwa [vpn_ustackBase] at hw')

/-- **What a call may answer**: `-1` and nothing has changed, or what it was asked for, and no page
below both ends of the heap has moved or been written. -/
structure Answered (s : Sys) (i : ProcId) (R : Word → ℕ) (call : HeapCall) (ret : Option Word)
    (s' : Sys) : Prop where
  failed : ret = none → Broke s i R (call.wants (s.proc i).memBrk) true s'
  moved : ret ≠ none → Broke s i R (call.wants (s.proc i).memBrk) false s'
  old : ∀ increment v, call = .sbrk increment → ret = some v → v = (s.proc i).memBrk

theorem heapCall_spec (h : Heap s i l R) : wp (call.exec i)
    (fun ret s' => Answered s i R call ret s' ∧ ∃ l', Heap s' i l' R) E s := by
  cases call with
  | brk newBrk =>
    unfold HeapCall.exec
    rw [wp_bind]
    refine wp_post (brk_spec h) ?_
    rintro (_ | _) s' ⟨hbroke, hheap⟩
    · rw [if_neg (by decide), wp_pure]
      exact ⟨⟨fun hnone => (by cases hnone), fun _ => hbroke, fun _ _ hcall => (by cases hcall)⟩, hheap⟩
    · rw [if_pos rfl, wp_pure]
      exact ⟨⟨fun _ => hbroke, fun hsome => absurd rfl hsome, fun _ _ hcall => (by cases hcall)⟩, hheap⟩
  | sbrk increment =>
    unfold HeapCall.exec sbrk
    rw [wp_bind, wp_inspect, wp_bind]
    refine wp_post (brk_spec h) ?_
    rintro (_ | _) s' ⟨hbroke, hheap⟩
    · rw [if_neg (by decide), wp_pure]
      exact ⟨⟨fun hnone => (by cases hnone), fun _ => hbroke,
        fun _ v _ hret => (Option.some.inj hret).symm⟩, hheap⟩
    · rw [if_pos rfl, wp_pure]
      exact ⟨⟨fun _ => hbroke, fun hsome => absurd rfl hsome, fun _ _ _ hret => (by cases hret)⟩, hheap⟩

/-- The heap is kept by every call. -/
theorem Heap.step (h : ∃ l, Heap s i l R) (hstep : heapStep i s call = some s') :
    ∃ l, Heap s' i l R := by
  obtain ⟨l, hheap⟩ := h
  unfold heapStep at hstep
  cases hrun : call.exec i s with
  | ok x =>
    rw [hrun] at hstep
    obtain rfl := Option.some.inj hstep
    exact ((heapCall_spec (E := fun _ => True) hheap).ok hrun).2
  | error e =>
    rw [hrun] at hstep
    cases hstep

/-- **The heap through any calls**: after every one of them it is exactly the pages from `mem_start` to
`mem_end`, and the next call ends with an answer, wherever memory runs out. -/
theorem heap_of_calls {s₀ : Sys} (h : NoHeap s₀ i l R) (hs : Run.Reachable (heapStep i) s₀ s) :
    (∃ l', Heap s i l' R) ∧
      ∀ call, ∃ ret s', HeapCall.exec i call s = .ok (ret, s') ∧ Answered s i R call ret s' := by
  have hheap : ∃ l', Heap s i l' R :=
    hs.invariant (P := fun s => ∃ l', Heap s i l' R) ⟨l, h.heap⟩
      fun _ _ _ hinv _ hstep => Heap.step hinv hstep
  refine ⟨hheap, fun call => ?_⟩
  obtain ⟨l', hl'⟩ := hheap
  have hcall : wp (call.exec i) _ (fun _ => False) s := heapCall_spec hl'
  obtain ⟨ret, s', hrun, hanswer, -⟩ := hcall.ends
  exact ⟨ret, s', hrun, hanswer⟩

/-- The small machine has no heap. -/
theorem smallSys_noHeap : ∃ l R, NoHeap (smallSys [] 0 false) 0 l R := by
  have hrun : ((smallSys [] 0 false).proc 0).status = .running := by decide +kernel
  obtain ⟨⟨l, -, hone⟩, -⟩ := smallSys_onePage hrun
  obtain ⟨hstart, hbrk, hend⟩ := hone.ends
  refine ⟨l, _, hone.holds, ?_, ?_, ?_, ?_, fun w hlow hhigh => hone.unmapped w ?_ hhigh⟩
  · rw [hbrk, hend]
  · rw [hstart, hend]
  · rw [hend]
    decide
  · rw [hend]
    decide
  · rw [hend] at hlow
    exact hlow

/-- The theorem on the small machine, after a page and a byte. -/
theorem heap_of_calls_small : ∃ l R s, NoHeap (smallSys [] 0 false) 0 l R ∧
    Run.Reachable (heapStep 0) (smallSys [] 0 false) s ∧ (s.proc 0).memEnd = 0x4000 ∧
    (∃ l', Heap s 0 l' R) ∧
    ∀ call, ∃ ret s', HeapCall.exec 0 call s = .ok (ret, s') ∧ Answered s 0 R call ret s' := by
  obtain ⟨l, R, hno⟩ := smallSys_noHeap
  have hend : ((heapStep 0 (smallSys [] 0 false) (.sbrk 0x1001)).map fun s => (s.proc 0).memEnd) =
      some 0x4000 := by
    decide +kernel
  obtain ⟨s, hstep, hend⟩ := Option.map_eq_some_iff.mp hend
  have hreach : Run.Reachable (heapStep 0) (smallSys [] 0 false) s := Run.Reach.refl.next hstep
  exact ⟨l, R, s, hno, hreach, hend, heap_of_calls hno hreach⟩

end Pmem
