import Myv6.Pmem.Alloc

/-!
# Pmem/Free — taking a process apart

    pid   user pages   stack   trap frame   page table   kernel stack
                 │
                 └─ from PROC_VA_START to mem_end, each of them mapped or the kernel panics

`free_process` trusts the `mem_end` of the process.  A page that the table maps beyond it is given
back to nobody.
-/

namespace Pmem

open Function (update)
open Hoare Own Vm
open Process (ProcId GroupId Status)

variable {m m' : Mem} {l l' : List Word} {r va p q : Word} {R : Word → ℕ} {w k : ℕ}
  {E : Panic → Prop} {s s' : Sys} {i : ProcId}

/-- How many pages `free_user_memory` asks for, as an `int` no less than 0. -/
def freedPages (memEnd : Word) : ℕ := (intOf ((memEnd - procVaStart) / pgsize)).toNat

/-- `free_user_memory` panics at once when the first page is not mapped. -/
theorem freeUserMemory_unmapped {memEnd : Word} (hfree : FreeList m l)
    (honce : ∀ q, l.count q + tables m r q ≤ 1) (hnone : pages m r 1 = none)
    (hk : 0 < freedPages memEnd) :
    wp (freeUserMemory r memEnd) (fun _ _ => False) (fun _ => True) m := by
  unfold freeUserMemory unmapNPagesFree unmapNPagesFlex
  rw [← freedPages]
  obtain ⟨k, hk⟩ := Nat.exists_eq_succ_of_ne_zero hk.ne'
  have hheld : ∀ q, held (pages m r) {1} q = 0 := held_eq_zero fun w hw => by
    rw [Finset.mem_singleton.mp hw, hnone]
  rw [hk, unmapLoop, wp_bind]
  refine wp_mono (unmapPageFlex_spec (S := {1}) hfree (fun q => ?_)
    (by simp [vpn_procVaStart])) ?_ fun _ _ => trivial
  · rw [hheld, Nat.add_zero]
    exact honce q
  · rintro _ m' ⟨hstrict, -⟩
    rw [vpn_procVaStart] at hstrict
    exact absurd hnone (hstrict rfl)

/-- The map of a table without the pages from `PROC_VA_START` on. -/
def emptied (f : ℕ → Option Word) (k w : ℕ) : Option Word :=
  if 1 ≤ w ∧ w < 1 + k then none else f w

/-- **`free_user_memory`** gives the pages below `mem_end` back, and panics where one is missing. -/
theorem freeUserMemory_spec {memEnd : Word} (h : Holds userPages m l r R)
    (hk : freedPages memEnd ≤ 67108860) :
    wp (freeUserMemory r memEnd) (fun _ m' =>
        (∀ w, 1 ≤ w ∧ w < 1 + freedPages memEnd → pages m r w ≠ none) ∧
        pages m' r = emptied (pages m r) (freedPages memEnd) ∧ m'.deny = m.deny ∧
        ∃ l', Holds userPages m' l' r R ∧
          Moves m m' l l' (space userPages m r) (space userPages m' r))
      (fun e => e = .unmapUnmapped ∧
        ∃ w, (1 ≤ w ∧ w < 1 + freedPages memEnd) ∧ pages m r w = none) m := by
  have hbound : vpn procVaStart + freedPages memEnd ≤ 67108861 := by
    rw [vpn_procVaStart]
    omega
  have haddr : ∀ w, w ∈ addressed procVaStart (freedPages memEnd) ↔
      1 ≤ w ∧ w < 1 + freedPages memEnd := by
    intro w
    rw [mem_addressed_of_le (by rw [maxVpn_eq]; omega), vpn_procVaStart]
  unfold freeUserMemory unmapNPagesFree unmapNPagesFlex
  rw [← freedPages]
  refine wp_mono (unmapLoop_user h fun w hw hnot => absurd (addressed_user hbound w hw) hnot) ?_ ?_
  · rintro _ m' ⟨hmapped, hpages, -, hdeny, l', hholds, hmoves⟩
    refine ⟨fun w hw => hmapped rfl w ((haddr w).mpr hw), ?_, hdeny, l', hholds, hmoves⟩
    rw [hpages]
    funext w
    unfold emptied
    simp only [← haddr]
  · rintro e ⟨he, -, ⟨w, hw, hnone⟩ | hbig⟩
    · exact ⟨he, w, (haddr w).mp hw, hnone⟩
    · omega

/-- `free_pid` clears the pid of a process that has one. -/
theorem freePid_spec {pid : Option Pid} : wp (freePid pid)
    (fun _ s' => ∃ n, pid = some n ∧ s' = { s with pidSet := update s.pidSet n false })
    (fun _ => ∀ n, pid = some n → s.pidSet n = false) s := by
  cases pid with
  | none => exact fun n hn => nomatch hn
  | some n =>
    unfold freePid
    rw [wp_bind, wp_inspect, wp_ite]
    refine ⟨fun hfree => ?_, fun _ => ⟨n, rfl, rfl⟩⟩
    rintro _ ⟨rfl⟩
    simpa using hfree

/-- What belongs to a process. -/
def Proc.owns (proc : Proc) (m : Mem) (q : Word) : ℕ :=
  space userPages m proc.pgtable q + one proc.trapFrame q + one proc.ustack q + one proc.kstack q

/-- A process as `free_process` leaves it. -/
def Proc.freed (proc : Proc) : Proc :=
  { proc with pid := none, status := .unused, xstatus := 0, parent := none, pgroupId := none }

/-- **`free_process`** gives everything back but the pages mapped beyond `mem_end`. -/
theorem freeProcess_spec {proc : Proc} (hproc : s.proc i = proc)
    (h : Holds userPages s.mem l proc.pgtable
      (fun q => R q + one proc.trapFrame q + one proc.ustack q + one proc.kstack q))
    (htf : s.mem.image.IsPage proc.trapFrame) (hus : s.mem.image.IsPage proc.ustack)
    (hks : s.mem.image.IsPage proc.kstack) (hk : freedPages proc.memEnd ≤ 67108860) :
    wp (freeProcess i) (fun _ s' => ∃ n m' l', proc.pid = some n ∧ m'.deny = s.mem.deny ∧
        Moves s.mem m' l l' (proc.owns s.mem)
          (held (emptied (pages s.mem proc.pgtable) (freedPages proc.memEnd)) userPages) ∧
        s' = { s with
          mem := m'
          pidSet := update s.pidSet n false
          proc := update s.proc i proc.freed })
      (fun _ => (∀ n, proc.pid = some n → s.pidSet n = false) ∨
        ∃ w, (1 ≤ w ∧ w < 1 + freedPages proc.memEnd) ∧ pages s.mem proc.pgtable w = none) s := by
  have hclear := freeUserMemory_spec h hk
  unfold freeProcess
  rw [wp_bind, wp_inspect, hproc, wp_bind]
  refine wp_mono freePid_spec ?_ fun e he => .inl he
  rintro _ _ ⟨n, hn, rfl⟩
  rw [wp_bind, wp_onMem]
  refine wp_mono hclear ?_ fun e he => .inr he.2
  rintro _ m₁ ⟨-, hpages₁, hdeny₁, l₁, hholds₁, hmoves₁⟩
  have himage₁ : m₁.image = s.mem.image := hmoves₁.image
  rw [wp_bind, wp_onMem]
  have h₁ : Holds userPages m₁ l₁ proc.pgtable
      (fun q => R q + one proc.trapFrame q + one proc.kstack q + one proc.ustack q) :=
    hholds₁.congr fun q => Nat.add_right_comm _ _ _
  refine wp_post (kfree_holds h₁ (himage₁ ▸ hus)) ?_
  rintro _ m₂ ⟨hdeny₂, hholds₂, hmoves₂, htab₂, -, hpages₂⟩
  have himage₂ : m₂.image = s.mem.image := hmoves₂.image.trans himage₁
  have h₂ : Holds userPages m₂ (proc.ustack :: l₁) proc.pgtable
      (fun q => R q + one proc.kstack q + one proc.trapFrame q) :=
    hholds₂.congr fun q => Nat.add_right_comm _ _ _
  rw [wp_bind, wp_onMem]
  refine wp_post (kfree_holds h₂ (himage₂ ▸ htf)) ?_
  rintro _ m₃ ⟨hdeny₃, hholds₃, hmoves₃, htab₃, -, hpages₃⟩
  have himage₃ : m₃.image = s.mem.image := hmoves₃.image.trans himage₂
  have hspace₃ : space userPages m₃ proc.pgtable = space userPages m₁ proc.pgtable := by
    funext q
    rw [space, htab₃, htab₂, hpages₃, hpages₂, space]
  have honce₃ : ∀ q, (proc.trapFrame :: proc.ustack :: l₁).count q +
      (space userPages m₃ proc.pgtable q + one proc.kstack q) ≤ 1 := by
    intro q
    have hq := hholds₃.once q
    omega
  rw [wp_bind, wp_onMem]
  refine wp_post (freePageTable_moves hholds₃.free honce₃ hholds₃.page) ?_
  rintro _ m₄ ⟨hdeny₄, l₄, hmoves₄⟩
  rw [hpages₃, hpages₂, hpages₁] at hmoves₄
  rw [wp_bind, wp_onMem]
  refine wp_post (kfree_moves hmoves₄.free (by rw [hmoves₄.image, himage₃]; exact hks)
    fun q => (hmoves₄.same q).trans_le (honce₃ q)) ?_
  rintro _ m₅ ⟨hdeny₅, hmoves₅⟩
  rw [wp_setProc]
  refine ⟨n, m₅, _, hn, hdeny₅.trans (hdeny₄.trans (hdeny₃.trans (hdeny₂.trans hdeny₁))),
    ((hmoves₁.beside fun q => one proc.trapFrame q + one proc.ustack q + one proc.kstack q).trans
      (((hmoves₂.beside fun q => space userPages m₁ proc.pgtable q + one proc.trapFrame q +
        one proc.kstack q).congr (fun q => ?_) fun _ => rfl).trans
      (((hmoves₃.beside fun q => space userPages m₁ proc.pgtable q +
        one proc.kstack q).congr (fun q => ?_) fun q => ?_).trans
      (hmoves₄.trans hmoves₅)))).congr (fun q => ?_) fun _ => rfl, ?_⟩
  · omega
  · simp only [Pi.zero_apply]
    omega
  · rw [hspace₃, Pi.zero_apply, Nat.zero_add]
  · unfold Proc.owns
    omega
  · rw [← hproc]
    rfl

end Pmem
