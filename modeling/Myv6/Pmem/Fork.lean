import Myv6.Pmem.Free

/-!
# Pmem/Fork — `fork` when memory runs out, and in a group that refuses members

    alloc_process ──▸ merge_page_table_in_interval ──▸ files, cwd ──▸ forkproc_into_pgroup
       6 pages          bill … 1 n pages                                panic on refusal
          │                   │
          ▾                   ▾
        undone        free_process of the child, with the `mem_end` of the slot's last process

`fork` leaves no trace of a child it cannot make when it fails before the copies, or between two of
them in a slot whose `mem_end` claims no page.  When the pages run out at a page table, the copy that
was to be mapped is lost.
-/

namespace Pmem

open Function (update)
open Hoare Own Vm
open Process (ProcId GroupId Status)

variable {m m' : Mem} {l l' : List Word} {r va p q : Word} {B R : Word → ℕ} {w k n : ℕ}
  {E : Panic → Prop} {s s' : Sys} {i c : ProcId} {f : ℕ → ℕ} {v : ℕ}

/-! ## The bill -/

theorem bill_lt_succ (k : ℕ) : ∀ {f : ℕ → ℕ} {v : ℕ}, bill f v k < bill f v (k + 1) := by
  induction k with
  | zero =>
    intro f v
    rw [bill, bill]
    omega
  | succ k ih =>
    intro f v
    rw [bill, bill]
    exact Nat.add_lt_add_left ih _

/-- Every page costs something. -/
theorem bill_strictMono : StrictMono (bill f v) := strictMono_nat_of_lt_succ fun k => bill_lt_succ k

/-! ## The files -/

/-- **The loop over `ofile`** adds one reference for each open file, and copies what is open. -/
theorem dupFiles_spec (hic : i ≠ c) (ks : List (Fin 16)) : ∀ {s : Sys},
    (∀ k file, (s.proc i).ofile k = some file → 1 ≤ s.fileRef file) →
    wp (dupFiles i c ks) (fun _ s' => ∃ refs files, s' = { s with
        fileRef := refs
        proc := update s.proc c { s.proc c with ofile := files } } ∧
      (∀ f, refs f = s.fileRef f + ks.countP fun k => (s.proc i).ofile k = some f) ∧
      ∀ k, files k = if k ∈ ks then ((s.proc i).ofile k).or ((s.proc c).ofile k)
        else (s.proc c).ofile k) E s := by
  induction ks with
  | nil =>
    intro s _
    exact ⟨s.fileRef, (s.proc c).ofile, by rw [Function.update_eq_self], fun _ => rfl, fun _ => rfl⟩
  | cons k ks ih =>
    intro s hrefs
    rw [dupFiles, wp_bind, wp_inspect, wp_bind]
    cases hfile : (s.proc i).ofile k with
    | none =>
      rw [filedup, wp_pure]
      refine wp_post (ih hrefs) ?_
      rintro _ _ ⟨refs, files, rfl, hcount, hfiles⟩
      refine ⟨refs, files, rfl, fun f => ?_, fun k' => ?_⟩
      · rw [hcount, List.countP_cons, hfile]
        simp
      · rw [hfiles]
        by_cases hk : k' = k
        · subst hk
          simp [hfile]
        · simp [hk]
    | some file =>
      rw [filedup, wp_bind, wp_inspect, if_neg (Nat.not_lt.mpr (hrefs k file hfile)), wp_alter]
      simp only [Option.isSome_some, if_true]
      rw [wp_bind, wp_setProc]
      refine wp_post (ih fun k' file' hfile' => ?_) ?_
      · simp only [Function.update_of_ne hic] at hfile' ⊢
        have hone := hrefs k' file' hfile'
        by_cases heq : file' = file
        · rw [heq, Function.update_self]
          omega
        · rwa [Function.update_of_ne heq]
      · rintro _ _ ⟨refs, files, rfl, hcount, hfiles⟩
        simp only [Function.update_of_ne hic, Function.update_self] at hcount hfiles
        refine ⟨refs, files, by simp, fun f => ?_, fun k' => ?_⟩
        · rw [hcount, List.countP_cons, hfile]
          by_cases heq : f = file
          · subst heq
            simp only [Function.update_self, decide_true, if_true]
            omega
          · simp [Function.update_of_ne heq, Ne.symm heq]
        · rw [hfiles]
          by_cases hk : k' = k
          · subst hk
            simp [hfile]
          · simp [hk]

theorem idup_spec {cwd : Option ℕ} (hcwd : cwd ≠ none) : wp (idup cwd) (fun _ s' => s' = { s with
    inodeRef := fun ip => s.inodeRef ip + if cwd = some ip then 1 else 0 }) E s := by
  cases cwd with
  | none => exact absurd rfl hcwd
  | some ip =>
    unfold idup
    rw [wp_alter]
    congr 1
    funext ip'
    by_cases heq : ip' = ip
    · simp [heq]
    · simp [heq, Ne.symm heq]

/-- `forkproc_into_pgroup` puts the child in front, or refuses it. -/
theorem forkprocIntoPgroup_spec {pg : Option GroupId} : wp (forkprocIntoPgroup pg c) (fun err s' =>
    match err with
    | true => ¬∃ g, pg = some g ∧ (s.group g).live = true ∧ (s.group g).exclusivelyOccupy = false
    | false => ∃ g, (pg = some g ∧ (s.group g).live = true ∧ (s.group g).exclusivelyOccupy = false) ∧
        s' = { s with
          group := update s.group g { s.group g with procs := c :: (s.group g).procs }
          proc := update s.proc c { s.proc c with pgroupId := some g } }) E s := by
  cases pg with
  | none =>
    rintro ⟨g, hg, -⟩
    cases hg
  | some g =>
    unfold forkprocIntoPgroup
    rw [wp_bind, wp_inspect, wp_ite]
    refine ⟨?_, fun htakes => ?_⟩
    · rintro hrefuses ⟨g', ⟨rfl⟩, hlive, hshared⟩
      simp [hlive, hshared] at hrefuses
    · simp only [Bool.or_eq_true, Bool.not_eq_true', not_or, Bool.not_eq_true,
        Bool.not_eq_false] at htakes
      exact ⟨g, ⟨rfl, htakes⟩, rfl⟩

/-! ## What `fork` is given -/

/-- **A process that can fork**: its image is contiguous from `PROC_VA_START` to `mem_end`, `n` pages
of memory that nobody else owns; free slots carry no pid and no parent; open files are counted, and it has
a current directory. -/
structure Ready (s : Sys) (l : List Word) (i : ProcId) (n : ℕ) : Prop where
  free : FreeList s.mem l
  once : ∀ q, l.count q + (s.proc i).owns s.mem q ≤ 1
  used : (s.proc i).status ≠ .unused
  size : n ≤ 67108860
  memEnd : (s.proc i).memEnd = procVaStart + BitVec.ofNat 64 n * pgsize
  mapped : ∀ w, 1 ≤ w ∧ w < 1 + n → Readable s.mem (s.proc i).pgtable w
  ustack : kernelBase ≤ (s.proc i).ustack ∧ (s.proc i).ustack < memoryEnd
  slots : ∀ j, (s.proc j).status = .unused →
    (s.proc j).pid = none ∧ (s.proc j).parent = none
  files : ∀ k file, (s.proc i).ofile k = some file → 1 ≤ s.fileRef file
  cwd : (s.proc i).cwd ≠ none

/-- The process is a member of a group in use. -/
structure Member (s : Sys) (i : ProcId) (g : GroupId) : Prop where
  pgroupId : (s.proc i).pgroupId = some g
  live : (s.group g).live = true
  mem : i ∈ (s.group g).procs

/-- The group of the process takes a child: it is in use, and not exclusively occupied. -/
def Accepts (s : Sys) (i : ProcId) : Prop :=
  ∃ g, (s.proc i).pgroupId = some g ∧ (s.group g).live = true ∧
    (s.group g).exclusivelyOccupy = false

/-- **When `fork` keeps its promise**: it finds no slot, or not six pages, or no pid; or the pages run
out exactly between two copies, in a slot whose `mem_end` claims no page; or they suffice, and the
group takes the child. -/
def Graceful (s : Sys) (l : List Word) (i : ProcId) (n : ℕ) : Prop :=
  ∀ c, firstUnused s = some c →
    avail s.mem.deny l.length < 6 ∨ (∀ pid, s.pidSet pid = true) ∨
    (∃ k < n, avail s.mem.deny l.length = 6 + bill (apart topVpn) 1 k ∧
      freedPages (s.proc c).memEnd = 0) ∨
    (6 + bill (apart topVpn) 1 n ≤ avail s.mem.deny l.length ∧ Accepts s i)

/-- The promise once the child has its six pages and its pid. -/
theorem graceful_iff {pid : Pid} {a : ℕ} (hfirst : firstUnused s = some c) (hpid : s.pidSet pid = false)
    (hsix : avail s.mem.deny l.length = a + 6) : Graceful s l i n ↔
      (∃ k < n, a = bill (apart topVpn) 1 k ∧ freedPages (s.proc c).memEnd = 0) ∨
      (bill (apart topVpn) 1 n ≤ a ∧ Accepts s i) := by
  have hfull : ¬∀ pid, s.pidSet pid = true := fun hall => by
    rw [hall pid] at hpid
    cases hpid
  constructor
  · intro h
    rcases h c hfirst with hlt | hall | ⟨k, hk, havail, hclean⟩ | ⟨hle, haccepts⟩
    · omega
    · exact absurd hall hfull
    · exact .inl ⟨k, hk, by omega, hclean⟩
    · exact .inr ⟨by omega, haccepts⟩
  · rintro hcase c' hc'
    obtain rfl : c' = c := Option.some.inj (hc'.symm.trans hfirst)
    rcases hcase with ⟨k, hk, havail, hclean⟩ | ⟨hle, haccepts⟩
    · exact .inr (.inr (.inl ⟨k, hk, by omega, hclean⟩))
    · exact .inr (.inr (.inr ⟨by omega, haccepts⟩))

/-! ## What `fork` leaves -/

/-- A `fork` that returns `-1`; the pages of `B` are lost. -/
structure Failed (s s' : Sys) (l : List Word) (i : ProcId) (B : Word → ℕ) : Prop where
  moves : ∃ l', Moves s.mem s'.mem l l' 0 B
  table : ∀ j, (s'.proc j).status = (s.proc j).status ∧ (s'.proc j).pid = (s.proc j).pid ∧
    (s'.proc j).parent = (s.proc j).parent
  parent : s'.proc i = s.proc i
  pidSet : s'.pidSet = s.pidSet
  group : s'.group = s.group
  fileRef : s'.fileRef = s.fileRef
  inodeRef : s'.inodeRef = s.inodeRef

/-- **A child with the memory of its parent**, on frames of its own. -/
structure Copy (symbols : Symbols) (m m' : Mem) (l : List Word) (parent child : Proc) (n : ℕ) :
    Prop where
  image : ∀ w, 1 ≤ w ∧ w < 1 + n → Copied m m' child.pgtable parent.pgtable w
  nothing : ∀ w ∈ userPages, ¬(1 ≤ w ∧ w < 1 + n) → pages m' child.pgtable w = none
  fresh : ∀ q, 0 < child.owns m' q → q ∈ l
  ustack : m'.cell child.ustack = m.cell parent.ustack
  regs : ∀ j : Fin 512, (j : ℕ) < tfUser ∨ j = tfSepc →
    m'.cell child.trapFrame j = if j = tfA0 then 0 else m.cell parent.trapFrame j
  kernel : ∀ j : Fin 512, tfKernelTrapEntryPtr ≤ j → j ≤ tfSatp →
    m'.cell child.trapFrame j = trapFrameInit symbols child.kstack (fun _ => 0) j
  kept : ∀ q, 0 < parent.owns m q → m'.cell q = m.cell q

/-- **A `fork` that returns the pid of a child**, which is in the group of its parent. -/
structure Forked (s s' : Sys) (l : List Word) (i c : ProcId) (n : ℕ) (pid : Pid) : Prop where
  slot : firstUnused s = some c
  pid_eq : (s'.proc c).pid = some pid
  status : (s'.proc c).status = .runable
  parent : (s'.proc c).parent = some i
  group : ∃ g, (s.proc i).pgroupId = some g ∧ (s'.proc c).pgroupId = some g ∧
    (s'.group g).procs = c :: (s.group g).procs
  copy : Copy s.symbols s.mem s'.mem l (s.proc i) (s'.proc c) n
  bounds : (s'.proc c).memStart = (s.proc i).memStart ∧ (s'.proc c).memBrk = (s.proc i).memBrk ∧
    (s'.proc c).memEnd = (s.proc i).memEnd
  files : ∀ k, (s'.proc c).ofile k = ((s.proc i).ofile k).or ((s.proc c).ofile k)
  cwd : (s'.proc c).cwd = (s.proc i).cwd
  fileRef : ∀ f, s'.fileRef f = s.fileRef f +
    (List.finRange 16).countP fun k => (s.proc i).ofile k = some f
  inodeRef : ∀ ip, s'.inodeRef ip = s.inodeRef ip + if (s.proc i).cwd = some ip then 1 else 0
  self : s'.proc i = s.proc i

/-- What a child of `n` pages takes: a slot, a pid and the pages. -/
def Enough (s : Sys) (l : List Word) (n : ℕ) : Prop :=
  firstUnused s ≠ none ∧ (∃ pid, s.pidSet pid = false) ∧
    6 + bill (apart topVpn) 1 n ≤ avail s.mem.deny l.length

/-- What `fork` returns, and whether it keeps its promise. -/
def Outcome (s : Sys) (l : List Word) (i : ProcId) (n : ℕ) : Option Pid → Sys → Prop
  | none, s' => ¬Enough s l n ∧ ((Failed s s' l i 0 ∧ Graceful s l i n) ∨
      ∃ copy, Failed s s' l i (one copy) ∧ ¬Graceful s l i n)
  | some pid, s' => Enough s l n ∧ (∃ c, Forked s s' l i c n pid) ∧ Graceful s l i n

/-! ## The failure exit -/

/-- `free_process` of a child without an image: it undoes `alloc_process`, or panics where the
`mem_end` of the slot claims a page. -/
theorem freeProcess_spec_of_empty {child : Proc} (hproc : s.proc c = child)
    (h : Holds userPages s.mem l child.pgtable
      (fun q => R q + one child.trapFrame q + one child.ustack q + one child.kstack q))
    (htf : s.mem.image.IsPage child.trapFrame) (hus : s.mem.image.IsPage child.ustack)
    (hks : s.mem.image.IsPage child.kstack)
    (hempty : ∀ w ∈ userPages, pages s.mem child.pgtable w = none) {pid : Pid}
    (hpid : child.pid = some pid) (hset : s.pidSet pid = true) :
    wp (freeProcess c) (fun _ s' => freedPages child.memEnd = 0 ∧ ∃ m' l',
        Moves s.mem m' l l' (child.owns s.mem) 0 ∧ s' = { s with
          mem := m'
          pidSet := update s.pidSet pid false
          proc := update s.proc c child.freed })
      (fun _ => freedPages child.memEnd ≠ 0) s := by
  by_cases hk : freedPages child.memEnd = 0
  · refine wp_mono (freeProcess_spec hproc h htf hus hks (by omega)) ?_ ?_
    · rintro _ _ ⟨n, m', l', hn, -, hmoves, rfl⟩
      obtain rfl : n = pid := Option.some.inj (hn.symm.trans hpid)
      refine ⟨hk, m', l', hmoves.congr (fun _ => rfl) fun q => ?_, rfl⟩
      refine (held_eq_zero (fun w hw => ?_) q).symm
      rw [emptied, hempty w hw, ite_self]
    · rintro e (hbad | ⟨w, hw, -⟩)
      · rw [hbad pid hpid] at hset
        cases hset
      · omega
  · have hpanic := freeUserMemory_unmapped h.free h.tables_once
      (hempty 1 (mem_userPages_iff.mpr (by decide))) (Nat.pos_of_ne_zero hk)
    unfold freeProcess
    rw [wp_bind, wp_inspect, hproc, wp_bind]
    refine wp_mono freePid_spec ?_ fun _ _ => hk
    rintro _ _ ⟨n, -, rfl⟩
    rw [wp_bind, wp_onMem]
    exact wp_mono hpanic (fun _ _ => False.elim) fun _ _ => hk

/-! ## The copies -/

/-- A child after `fork` has copied its parent, but for the memory. -/
def Proc.copied (child : Proc) (i : ProcId) (proc : Proc) (files : Fin 16 → Option ℕ) : Proc :=
  { child with
    parent := some i, memStart := proc.memStart, memBrk := proc.memBrk, memEnd := proc.memEnd
    ofile := files, cwd := proc.cwd, status := .runable }

/-- The stack and the registers of the parent, copied. -/
def copyTop (m : Mem) (proc child : Proc) : Mem :=
  let m' := m.fill child.ustack (m.cell proc.ustack)
  m'.fill child.trapFrame fun j =>
    if j = tfA0 then 0
    else if (j : ℕ) < tfUser ∨ j = tfSepc then m'.cell proc.trapFrame j
    else m'.cell child.trapFrame j

/-- **`fork` between the pages and the group.** -/
theorem forkCopy_spec {proc child : Proc} (hic : i ≠ c) (hi : s.proc i = proc) (hc : s.proc c = child)
    (hus : kernelBase ≤ proc.ustack ∧ proc.ustack < memoryEnd)
    (hrefs : ∀ k file, proc.ofile k = some file → 1 ≤ s.fileRef file) (hcwd : proc.cwd ≠ none) :
    wp (forkCopy i c proc child) (fun _ s' => ∃ refs files, s' = { s with
        mem := copyTop s.mem proc child
        fileRef := refs
        inodeRef := fun ip => s.inodeRef ip + if proc.cwd = some ip then 1 else 0
        proc := update s.proc c (child.copied i proc files) } ∧
      (∀ f, refs f = s.fileRef f + (List.finRange 16).countP fun k => proc.ofile k = some f) ∧
      ∀ k, files k = (proc.ofile k).or (child.ofile k)) E s := by
  unfold forkCopy
  rw [wp_bind, wp_onMem, memcpyPage, if_pos hus, wp_alter, wp_bind, wp_onMem, copyRegs, wp_alter,
    wp_bind, wp_setProc, wp_bind]
  refine wp_post (dupFiles_spec hic _ fun k file hfile => ?_) ?_
  · simp only [Function.update_of_ne hic, hi] at hfile
    exact hrefs k file hfile
  rintro _ _ ⟨refs, files, rfl, hcount, hfiles⟩
  simp only [Function.update_of_ne hic, Function.update_self, hi, hc, List.mem_finRange,
    if_true] at hcount hfiles
  rw [wp_bind]
  refine wp_post (idup_spec hcwd) ?_
  rintro _ _ rfl
  rw [wp_bind, wp_setProc, wp_setProc]
  refine ⟨refs, files, ?_, hcount, hfiles⟩
  simp [Proc.copied, copyTop, hc]

/-! ## `fork` -/

/-- The fields of the kernel in a trap frame are no registers, and `init_user_process` sets them. -/
theorem kernel_field {j : Fin 512} (h : tfKernelTrapEntryPtr ≤ j) (h' : j ≤ tfSatp) :
    j ≠ tfA0 ∧ ¬((j : ℕ) < tfUser ∨ j = tfSepc) ∧ ∀ symbols ks f g,
      trapFrameInit symbols ks f j = trapFrameInit symbols ks g j := by
  have hcases : j = tfKernelTrapEntryPtr ∨ j = tfUserTrapHandlerPtr ∨ j = tfKstack ∨ j = tfSatp := by
    have hle : (33 : ℕ) ≤ j := h
    have hge : (j : ℕ) ≤ 36 := h'
    simp only [Fin.ext_iff, tfKernelTrapEntryPtr, tfUserTrapHandlerPtr, tfKstack, tfSatp]
    omega
  rcases hcases with rfl | rfl | rfl | rfl <;>
    exact ⟨by decide, by decide, fun _ _ _ _ => by simp [trapFrameInit]⟩

/-- **The four copies**: the pages, the stack, the registers and `sepc`. -/
theorem copy_of_merged {parent child : Proc} {m₁ m₂ : Mem} {l₁ : List Word} {symbols : Symbols}
    {g : Fin 512 → Word} (hn : n ≤ 67108860) (honce : ∀ q, l.count q + parent.owns m q ≤ 1)
    (hfresh : Fresh m m₁ l l₁ child.pgtable child.ustack child.trapFrame child.kstack (parent.owns m))
    (hframe : m₁.cell child.trapFrame = trapFrameInit symbols child.kstack g)
    (hM : Merged m₁ m₂ l₁ child.pgtable parent.pgtable (fun q => parent.owns m q +
      one child.trapFrame q + one child.ustack q + one child.kstack q) (pages m₁ child.pgtable) 1 n false)
    (hread : ∀ w, 1 ≤ w ∧ w < 1 + n → Readable m₁ parent.pgtable w) :
    Copy symbols m (copyTop m₂ parent child) l parent child n := by
  generalize hm₄ : copyTop m₂ parent child = m₄
  unfold copyTop at hm₄
  simp only at hm₄
  generalize hm₃ : m₂.fill child.ustack (m₂.cell parent.ustack) = m₃ at hm₄
  replace hm₃ := hm₃.symm
  replace hm₄ := hm₄.symm
  obtain ⟨l₂, B, hholds₂, hmoves₂, hok, -⟩ := hM.owns
  obtain ⟨rfl, -⟩ := hok rfl
  replace hmoves₂ := hmoves₂.congr (fun _ => rfl) fun q => (Nat.add_zero _).symm
  have hkept₁ : ∀ q, 0 < parent.owns m q → m₁.cell q = m.cell q := fun q hq =>
    hfresh.moves.kept (honce q) hq
  have hkept₂ : ∀ q, 0 < parent.owns m q → m₂.cell q = m.cell q := by
    intro q hq
    rw [hfresh.holds.kept hmoves₂ (by omega), hkept₁ q hq]
  -- who is where: the parent, the stack, the trap frame and the pages are different frames
  have hdiff : child.trapFrame ≠ child.ustack := by
    intro heq
    have hq := hholds₂.once child.ustack
    rw [heq, one_self] at hq
    omega
  have hother : ∀ q, 0 < space userPages m₂ child.pgtable q ∨ 0 < parent.owns m q →
      q ≠ child.ustack ∧ q ≠ child.trapFrame := by
    intro q hq
    have hsum := hholds₂.once q
    constructor
    · rintro rfl
      rw [one_self] at hsum
      omega
    · rintro rfl
      rw [one_self] at hsum
      omega
  have hustack : 0 < parent.owns m child.ustack + one child.trapFrame child.ustack +
      one child.ustack child.ustack + one child.kstack child.ustack := by
    rw [one_self]
    omega
  have htrapFrame : 0 < parent.owns m child.trapFrame + one child.trapFrame child.trapFrame +
      one child.ustack child.trapFrame + one child.kstack child.trapFrame := by
    rw [one_self]
    omega
  obtain ⟨hholds₃, -, htab₃, -, hpages₃⟩ := hholds₂.write hustack (m₂.cell parent.ustack)
  rw [← hm₃] at hholds₃ htab₃ hpages₃
  obtain ⟨-, -, htab₄, -, hpages₄⟩ := hholds₃.write htrapFrame fun j =>
    if j = tfA0 then 0
    else if (j : ℕ) < tfUser ∨ j = tfSepc then m₃.cell parent.trapFrame j
    else m₃.cell child.trapFrame j
  rw [← hm₄] at htab₄ hpages₄
  have hpages : pages m₄ child.pgtable = pages m₂ child.pgtable := hpages₄.trans hpages₃
  have hcell : ∀ q, 0 < space userPages m₂ child.pgtable q ∨ 0 < parent.owns m q →
      m₄.cell q = m₂.cell q := by
    intro q hq
    obtain ⟨hqus, hqtf⟩ := hother q hq
    rw [hm₄, Mem.fill_cell_ne hqtf, hm₃, Mem.fill_cell_ne hqus]
  have hparent : ∀ q, 0 < space userPages m parent.pgtable q → m₁.cell q = m.cell q :=
    fun q hq => hkept₁ q (by unfold Proc.owns; omega)
  obtain ⟨hpagesp, -, -⟩ := Readable.keep hparent
  have hpus : 0 < parent.owns m parent.ustack := by
    rw [Proc.owns, one_self]
    omega
  have hptf : 0 < parent.owns m parent.trapFrame := by
    rw [Proc.owns, one_self]
    omega
  refine ⟨fun w hw => ?_, fun w hw hnot => ?_, fun q hq => ?_, ?_, fun j hj => ?_, fun j hj hj' => ?_,
    fun q hq => (hcell q (.inr hq)).trans (hkept₂ q hq)⟩
  · obtain ⟨pte, pte', hpte, hmap, hattr, hsame⟩ := hM.inside rfl hread w hw
    have hmem : w ∈ userPages := mem_userPages_iff.mpr (by omega)
    have hdst : 0 < space userPages m₂ child.pgtable (pteGetPa pte') := by
      have hle := frameOf_le_held (f := pages m₂ child.pgtable) (p := pteGetPa pte') hmem
      rw [hmap, frameOf_some, one_self] at hle
      unfold space
      omega
    rw [hpagesp] at hpte
    have hsrc : 0 < parent.owns m (pteGetPa pte) := by
      have hle := frameOf_le_held (f := pages m parent.pgtable) (p := pteGetPa pte) hmem
      rw [hpte, frameOf_some, one_self] at hle
      unfold Proc.owns space
      omega
    refine ⟨pte, pte', hpte, ?_, hattr, ?_⟩
    · rw [hpages, hmap]
    · rw [hcell _ (.inl hdst), hsame, hkept₁ _ hsrc]
  · rw [hpages, hM.outside rfl w hnot]
    exact hfresh.empty w hw
  · have hsum := hfresh.moves.same q
    have hsum₂ := hmoves₂.same q
    have hspace : space userPages m₄ child.pgtable q = space userPages m₂ child.pgtable q := by
      rw [space, htab₄, htab₃, hpages, space]
    rw [Proc.owns, hspace] at hq
    rw [Pi.zero_apply] at hsum
    exact List.count_pos_iff.mp (by omega)
  · rw [hm₄, Mem.fill_cell_ne hdiff.symm, hm₃, Mem.fill_cell_self, hkept₂ _ hpus]
  · rw [hm₄, Mem.fill_cell_self, if_pos hj, hm₃, Mem.fill_cell_ne (hother _ (.inr hptf)).1, hkept₂ _ hptf]
  · obtain ⟨ha0, huser, hinit⟩ := kernel_field hj hj'
    have htf : m₂.cell child.trapFrame = m₁.cell child.trapFrame :=
      hfresh.holds.kept hmoves₂ (by rw [one_self]; omega)
    rw [hm₄, Mem.fill_cell_self, if_neg ha0, if_neg huser, hm₃, Mem.fill_cell_ne hdiff, htf, hframe]
    exact hinit ..

/-- A copy is one whatever else is in the record of the child. -/
theorem Copy.of_child {parent child child' : Proc} {symbols : Symbols}
    (h : Copy symbols m m' l parent child n) (hpgtable : child'.pgtable = child.pgtable)
    (hus : child'.ustack = child.ustack) (htf : child'.trapFrame = child.trapFrame)
    (hks : child'.kstack = child.kstack) : Copy symbols m m' l parent child' n where
  image := by
    rw [hpgtable]
    exact h.image
  nothing := by
    rw [hpgtable]
    exact h.nothing
  fresh q hq := by
    rw [Proc.owns, hpgtable, hus, htf, hks] at hq
    exact h.fresh q hq
  ustack := by
    rw [hus]
    exact h.ustack
  regs := by
    rw [htf]
    exact h.regs
  kernel := by
    rw [htf, hks]
    exact h.kernel
  kept := h.kept

/-- **`fork` from beginning to end.** -/
theorem fork_spec (h : Ready s l i n) : wp (fork i) (Outcome s l i n) (fun _ => ¬Graceful s l i n) s := by
  unfold fork
  rw [wp_bind]
  refine wp_post (allocProcess_spec h.free h.once) ?_
  rintro (_ | c) s₁ hpost
  · rcases hpost with ⟨hnone, rfl⟩ | ⟨c, hfirst, hwhy, m₁, l₁, t, us, tf, ks, hmoves, rfl⟩
    · refine ⟨fun henough => henough.1 hnone, .inl ⟨⟨⟨l, .refl h.free⟩, fun _ => ⟨rfl, rfl, rfl⟩, rfl, rfl, rfl, rfl, rfl⟩, ?_⟩⟩
      intro c hc
      rw [hnone] at hc
      cases hc
    · have hci : i ≠ c := fun hic => h.used (hic ▸ unused_of_firstUnused hfirst)
      refine ⟨?_, .inl ⟨⟨⟨l₁, hmoves⟩, fun j => ?_, Function.update_of_ne hci _ _, rfl, rfl, rfl, rfl⟩,
        ?_⟩⟩
      · rintro ⟨-, ⟨pid, hpid⟩, hpages⟩
        rcases hwhy with hlt | hfull
        · omega
        · rw [hfull pid] at hpid
          cases hpid
      · by_cases hj : j = c
        · subst hj
          simp
        · simp [hj]
      · intro c' hc'
        obtain rfl : c' = c := Option.some.inj (hc'.symm.trans hfirst)
        exact hwhy.elim .inl fun hfull => .inr (.inl hfull)
  obtain ⟨hfirst, m₁, l₁, t, us, tf, ks, pid, f, hfresh, hframe, hpid, rfl⟩ := hpost
  have hunused := unused_of_firstUnused hfirst
  have hci : i ≠ c := fun hic => h.used (hic ▸ hunused)
  generalize hchild : ({ s.proc c with
    pgtable := t, ustack := us, trapFrame := tf, kstack := ks
    pid := some pid, status := .used, xstatus := 0, parent := none } : Proc) = child
  have hpromise := graceful_iff (i := i) (n := n) hfirst hpid hfresh.avail
  -- the parent is beside what happens to the child
  have hbeside : ∀ q, l.count q + (0 : Word → ℕ) q + (s.proc i).owns s.mem q ≤ 1 := h.once
  have hparent₁ : ∀ q, 0 < (s.proc i).owns s.mem q → m₁.cell q = s.mem.cell q := fun q hq =>
    hfresh.moves.kept (hbeside q) hq
  have hspaceLe : ∀ q, space userPages s.mem (s.proc i).pgtable q ≤ (s.proc i).owns s.mem q := by
    intro q
    unfold Proc.owns
    omega
  have htable₁ : ∀ q, 0 < space userPages s.mem (s.proc i).pgtable q → m₁.cell q = s.mem.cell q :=
    fun q hq => hparent₁ q (hq.trans_le (hspaceLe q))
  obtain ⟨hpages₁, hspace₁, hread₁⟩ := Readable.keep htable₁
  have hmerged : wp (mergePageTableInInterval t (s.proc i).pgtable procVaStart (s.proc i).memEnd)
      (fun err m' => Merged m₁ m' l₁ t (s.proc i).pgtable
        (fun q => (s.proc i).owns s.mem q + one tf q + one us q + one ks q) (pages m₁ t)
        (vpn procVaStart) n err)
      (fun _ => ∃ w, (vpn procVaStart ≤ w ∧ w < vpn procVaStart + n) ∧
        ¬Readable m₁ (s.proc i).pgtable w) m₁ := by
    refine mergePageTableInInterval_spec hfresh.holds (fun q hq => ?_) ?_ h.memEnd (by decide) ?_
    · rw [hspace₁] at hq
      have hle := hspaceLe q
      omega
    · rw [vpn_procVaStart]
      have hsize := h.size
      omega
    · intro w hw
      rw [vpn_procVaStart] at hw
      have hsize := h.size
      exact hfresh.empty w (mem_userPages_iff.mpr (by omega))
  have hread : ∀ w, 1 ≤ w ∧ w < 1 + n → Readable m₁ (s.proc i).pgtable w :=
    fun w hw => hread₁ w (h.mapped w hw)
  rw [vpn_procVaStart] at hmerged
  generalize hs₁ : ({ s with
    mem := m₁, proc := update s.proc c child, pidSet := update s.pidSet pid true } : Sys) = s₁
  have hi : s₁.proc i = s.proc i := by
    rw [← hs₁]
    exact Function.update_of_ne hci _ _
  have hc : s₁.proc c = child := by
    rw [← hs₁]
    exact Function.update_self ..
  have hmem : s₁.mem = m₁ := by rw [← hs₁]
  have htable : child.pgtable = t := by rw [← hchild]
  simp only
  rw [wp_bind, wp_inspect, wp_bind, wp_inspect, wp_bind, wp_onMem, hi, hc, htable, hmem]
  refine wp_mono hmerged ?_ ?_
  swap
  · rintro e ⟨w, hw, hbad⟩
    exact absurd (hread w hw) hbad
  have hneed : need m₁ t = apart topVpn := funext hfresh.need
  have hregs : child.trapFrame = tf ∧ child.ustack = us ∧ child.kstack = ks ∧
      child.pid = some pid ∧ child.memEnd = (s.proc c).memEnd := by
    rw [← hchild]
    exact ⟨rfl, rfl, rfl, rfl, rfl⟩
  obtain ⟨htf, hus, hks, hcpid, hcend⟩ := hregs
  have hset : s₁.pidSet pid = true := by
    rw [← hs₁]
    exact Function.update_self ..
  rintro (_ | _) m₂ hM
  · obtain ⟨l₂, B, hholds₂, hmoves₂, hok, -⟩ := hM.owns
    obtain ⟨rfl, hfits⟩ := hok rfl
    have hfits := hfits hread
    rw [hneed] at hfits
    have hcopy : Copy s.symbols s.mem (copyTop m₂ (s.proc i) child) l (s.proc i) child n :=
      copy_of_merged h.size h.once (by rwa [htable, hus, htf, hks]) (by rwa [htf, hks])
        (by rwa [htable, hus, htf, hks]) hread
    have hrefs : ∀ k file, (s.proc i).ofile k = some file → 1 ≤ s₁.fileRef file := by
      rw [← hs₁]
      exact h.files
    rw [if_neg (by decide), wp_bind]
    refine wp_post (forkCopy_spec (s := { s₁ with mem := m₂ }) hci hi hc h.ustack hrefs h.cwd) ?_
    rintro _ _ ⟨refs, files, rfl, hcount, hfiles⟩
    rw [wp_bind]
    refine wp_post forkprocIntoPgroup_spec ?_
    rintro (_ | _) s₂ hpost
    · obtain ⟨g, ⟨hg, hlive, hshared⟩, rfl⟩ := hpost
      rw [if_neg (by decide), wp_pure, hcpid]
      have hofile : child.ofile = (s.proc c).ofile := by rw [← hchild]
      have hsix := hfresh.avail
      have henough : Enough s l n := ⟨by simp [hfirst], ⟨pid, hpid⟩, by omega⟩
      refine ⟨henough, ⟨c, ⟨hfirst, ?_, ?_, ?_, ⟨g, hg, ?_, ?_⟩, ?_, ⟨?_, ?_, ?_⟩, fun k => ?_, ?_, fun f => ?_,
        fun ip => ?_, ?_⟩⟩, hpromise.mpr (.inr ⟨by omega, g, hg, ?_, ?_⟩)⟩
      · simp [Proc.copied, hcpid]
      · simp [Proc.copied]
      · simp [Proc.copied]
      · simp
      · simp [← hs₁]
      · exact hcopy.of_child (by simp [Proc.copied]) (by simp [Proc.copied]) (by simp [Proc.copied])
          (by simp [Proc.copied])
      · simp [Proc.copied]
      · simp [Proc.copied]
      · simp [Proc.copied]
      · rw [← hofile, ← hfiles]
        simp [Proc.copied]
      · simp [Proc.copied]
      · refine (hcount f).trans ?_
        rw [← hs₁]
      · rw [← hs₁]
      · simp [Function.update_of_ne hci, hi]
      · rw [← hs₁] at hlive
        exact hlive
      · rw [← hs₁] at hshared
        exact hshared
    · rw [if_pos rfl]
      intro hgraceful
      rcases hpromise.mp hgraceful with ⟨k, hk, havail, -⟩ | ⟨-, g, hg, htakes⟩
      · have hlt : bill (apart topVpn) 1 k < bill (apart topVpn) 1 n := bill_strictMono hk
        omega
      · refine hpost ⟨g, hg, ?_⟩
        rw [← hs₁]
        exact htakes
  · obtain ⟨l₂, B, hholds₂, hmoves₂, -, herr⟩ := hM.owns
    obtain ⟨k, hk, hwhy⟩ := herr rfl hread
    rw [hneed] at hwhy
    have hlast : bill (apart topVpn) 1 (k + 1) ≤ bill (apart topVpn) 1 n := bill_strictMono.monotone hk
    have hlt := bill_lt_succ k (f := apart topVpn) (v := 1)
    have hshort : avail m₁.deny l₁.length < bill (apart topVpn) 1 n := by
      rcases hwhy with ⟨-, havail⟩ | ⟨-, -, havail⟩ <;> omega
    have himage₂ : m₂.image = s.mem.image := hmoves₂.image.trans hfresh.moves.image
    have hheld : Holds userPages m₂ l₂ child.pgtable fun q => (s.proc i).owns s.mem q +
        one child.trapFrame q + one child.ustack q + one child.kstack q := by
      rw [htable, htf, hus, hks]
      exact hholds₂
    have hempty : ∀ w ∈ userPages, pages m₂ child.pgtable w = none := by
      intro w hw
      rw [htable]
      exact (congrFun (hM.undone rfl) w).trans (hfresh.empty w hw)
    have hpageTf : m₂.image.IsPage child.trapFrame := by
      rw [himage₂, htf]
      exact hfresh.trapFrame
    have hpageUs : m₂.image.IsPage child.ustack := by
      rw [himage₂, hus]
      exact hfresh.ustack
    have hpageKs : m₂.image.IsPage child.kstack := by
      rw [himage₂, hks]
      exact hfresh.kstack
    have hgone : wp (freeProcess c) _ _ { s₁ with mem := m₂ } :=
      freeProcess_spec_of_empty (s := { s₁ with mem := m₂ }) hc hheld hpageTf hpageUs hpageKs hempty
        hcpid hset
    rw [if_pos rfl, wp_bind]
    refine wp_mono hgone ?_ ?_
    · rintro _ _ ⟨hclean, m₃, l₃, hmoves₃, rfl⟩
      rw [hcend] at hclean
      have howns : ∀ q, child.owns m₂ q = space userPages m₂ t q + one tf q + one us q + one ks q := by
        intro q
        rw [Proc.owns, htable, htf, hus, hks]
      have hback : Moves m₂ m₃ l₂ l₃
          (fun q => space userPages m₂ t q + B q + (one tf q + one us q + one ks q)) B :=
        (hmoves₃.beside B).congr (fun q => by rw [howns]; omega) fun q => (Nat.zero_add _).symm
      have hlost : Moves s.mem m₃ l l₃ 0 B :=
        (hfresh.moves.congr (fun _ => rfl) fun q => by omega).trans
          ((hmoves₂.beside fun q => one tf q + one us q + one ks q).trans hback)
      have hfailed : Failed s { s₁ with
          mem := m₃
          pidSet := update s₁.pidSet pid false
          proc := update s₁.proc c child.freed } l i B := by
        refine ⟨⟨l₃, hlost⟩, fun j => ?_, ?_, ?_, ?_, ?_, ?_⟩
        · by_cases hj : j = c
          · subst hj
            obtain ⟨hnopid, hnoparent⟩ := h.slots j hunused
            simp [Proc.freed, hunused, hnopid, hnoparent]
          · simp [← hs₁, hj]
        · rw [← hi]
          exact Function.update_of_ne hci _ _
        · simp [← hs₁, ← hpid]
        · rw [← hs₁]
        · rw [← hs₁]
        · rw [← hs₁]
      have hsix := hfresh.avail
      refine ⟨fun henough => by have hpages := henough.2.2; omega, ?_⟩
      rcases hwhy with ⟨rfl, havail⟩ | ⟨⟨copy, rfl⟩, hge, hlt'⟩
      · exact .inl ⟨hfailed, hpromise.mpr (.inl ⟨k, hk, havail, hclean⟩)⟩
      · refine .inr ⟨copy, hfailed, fun hgraceful => ?_⟩
        rcases hpromise.mp hgraceful with ⟨k', -, havail, -⟩ | ⟨hle, -⟩
        · -- no number of copies costs exactly that
          rw [havail] at hge hlt'
          have hlow := bill_strictMono.lt_iff_lt.mp hge
          have hhigh := bill_strictMono.lt_iff_lt.mp hlt'
          omega
        · omega
    · intro e hclean hgraceful
      rw [hcend] at hclean
      rcases hpromise.mp hgraceful with ⟨k', -, -, hzero⟩ | ⟨hle, -⟩
      · exact hclean hzero
      · omega

end Pmem
