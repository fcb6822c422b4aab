import Myv6.Pmem.Fork
import Myv6.Vm.Refine

/-!
# Pmem/Graceful — when `fork` keeps its promises

    Ready ──▸ fork ──▸ a child in the group of its parent, with a copy of its memory
                  ──▸ -1, and nothing has changed          exactly when `Graceful`
                  ──▸ -1, a page lost                      otherwise
                  ──▸ panic                                otherwise
-/

namespace Pmem

open Function (update)
open Hoare Own Vm
open Process (ProcId GroupId Status)

variable {l l' : List Word} {n : ℕ} {s s' : Sys} {i c : ProcId} {g : GroupId} {pid : Pid}

/-! ## A small machine

A process of one page, and a slot that another process has left. -/

/-- 32 pages above the kernel. -/
def smallImage : Image where
  etext := 0x80002000
  kernelEnd := 0x87fe0000
  userTrapEntry := 0x80001000
  base_le := Vm.smallImage.base_le
  entry_lt := Vm.smallImage.entry_lt
  etext_le := by decide
  end_le := by decide

/-- Before `kalloc_init`. -/
def smallMem (deny : List Bool) : Mem :=
  { image := smallImage, head := 0, cell := fun _ _ => 0, deny := deny }

/-- A slot that was never used. -/
def freshSlot : Proc where
  pid := none
  status := .unused
  xstatus := 0
  parent := none
  ustack := 0
  memStart := 0
  memBrk := 0
  memEnd := 0
  pgtable := 0
  kstack := 0
  trapFrame := 0
  ofile := fun _ => none
  cwd := none
  pgroupId := none

/-- Process 0, once it is set up. -/
def smallProc (pgtable ustack trapFrame kstack : Word) (pid : Pid) : Proc where
  pid := some pid
  status := .running
  xstatus := 0
  parent := none
  ustack := ustack
  memStart := 0x2000
  memBrk := 0x2000
  memEnd := 0x2000
  pgtable := pgtable
  kstack := kstack
  trapFrame := trapFrame
  ofile := fun k => if k = 0 ∨ k = 1 then some 0 else none
  cwd := some 0
  pgroupId := some 0

def smallBoot (deny : List Bool) : Sys where
  symbols := ⟨0x80002000, 0x80003000, 0x80004000⟩
  mem := smallMem deny
  proc := fun _ => freshSlot
  pidSet := fun _ => false
  group := fun _ => { live := true, exclusivelyOccupy := false, procs := [] }
  fileRef := fun _ => 2
  inodeRef := fun _ => 1

/-- Process 0 gets a page and a group, and has one open file in two slots; slot 1 still has the
`mem_end` of its last process. -/
def smallSetup (slotEnd : Word) (exclusive : Bool) : Code Unit := do
  onMem kallocInit
  match ← allocProcess with
  | none => pure ()
  | some i =>
    let proc ← inspect fun s => s.proc i
    match ← onMem kalloc with
    | none => pure ()
    | some page =>
      if ← onMem (mapPage proc.pgtable procVaStart page (pteR ||| pteW ||| pteX ||| pteU)) then
        pure ()
      else
        setProc i fun p =>
          { p with
            status := .running, memStart := 0x2000, memBrk := 0x2000, memEnd := 0x2000
            ofile := fun k => if k = 0 ∨ k = 1 then some 0 else none
            cwd := some 0, pgroupId := some 0 }
        setProc 1 ({ · with memEnd := slotEnd })
        alter fun s => { s with
          group := update s.group 0 { live := true, exclusivelyOccupy := exclusive, procs := [i] } }

/-- The machine, set up with the calls of `kalloc` that `deny` refuses. -/
@[irreducible] def smallSys (deny : List Bool) (slotEnd : Word) (exclusive : Bool) : Sys :=
  match smallSetup slotEnd exclusive (smallBoot deny) with
  | .ok (_, s) => s
  | .error _ => smallBoot deny

/-- A frame of the free memory is one that the kernel can read. -/
theorem readable_of_isPage {k : Image} {p : Word} (h : k.IsPage p) : kernelBase ≤ p ∧ p < memoryEnd := by
  have hge := h.ge
  have hbase := k.base_le
  have hentry := k.entry_lt
  have htext := k.etext_le
  exact ⟨BitVec.le_def.mpr (by omega), BitVec.lt_def.mpr h.lt⟩

/-- A process with one page can fork. -/
theorem ready_of_page {proc : Proc} {page attr : Word} (hproc : s.proc i = proc)
    (h : Holds userPages s.mem l proc.pgtable
      (fun q => one proc.trapFrame q + one proc.ustack q + one proc.kstack q))
    (hus : s.mem.image.IsPage proc.ustack) (hpage : s.mem.image.IsPage page)
    (hmap : pages s.mem proc.pgtable 1 = some (makePte page attr)) (hend : proc.memEnd = 0x2000)
    (hstatus : proc.status = .running)
    (hslots : ∀ j, (s.proc j).status = .unused → (s.proc j).pid = none ∧ (s.proc j).parent = none)
    (hfiles : ∀ k file, proc.ofile k = some file → 1 ≤ s.fileRef file) (hcwd : proc.cwd ≠ none) :
    Ready s l i 1 := by
  subst hproc
  refine ⟨h.free, fun q => ?_, ?_, by decide, ?_, fun w hw => ?_, readable_of_isPage hus, hslots, hfiles,
    hcwd⟩
  · have hq := h.once q
    unfold Proc.owns
    omega
  · rw [hstatus]
    decide
  · rw [hend]
    decide
  · obtain rfl : w = 1 := by omega
    refine ⟨_, hmap, ?_⟩
    rw [pteGetPa_makePte hpage.isFrame]
    exact readable_of_isPage hpage

/-- **The small machine**: process 0 owns what it should, and maps nothing from `mem_end` to the
stack. -/
structure OnePage (s : Sys) (l : List Word) : Prop where
  holds : Holds userPages s.mem l (s.proc 0).pgtable
    (fun q => one (s.proc 0).trapFrame q + one (s.proc 0).ustack q + one (s.proc 0).kstack q)
  ends : (s.proc 0).memStart = 0x2000 ∧ (s.proc 0).memBrk = 0x2000 ∧ (s.proc 0).memEnd = 0x2000
  unmapped : ∀ w, 2 ≤ w → w < vpn ustackBase → pages s.mem (s.proc 0).pgtable w = none

/-- What the code that sets the machine up ensures. -/
theorem smallSetup_spec {deny : List Bool} {slotEnd : Word} {exclusive : Bool} :
    wp (smallSetup slotEnd exclusive) (fun _ s => (s.proc 0).status = .running →
      (∃ l, Ready s l 0 1 ∧ OnePage s l) ∧ Member s 0 0) (fun _ => True) (smallBoot deny) := by
  unfold smallSetup
  rw [wp_bind, wp_onMem]
  refine wp_post kallocInit_spec ?_
  rintro _ m₀ ⟨-, -, l₀, hfree₀, -⟩
  rw [wp_bind]
  refine wp_post (allocProcess_spec (R := 0) hfree₀ fun q =>
    List.nodup_iff_count.mp hfree₀.nodup q) ?_
  rintro (_ | i) s₁ hpost
  · intro hrun
    rcases hpost with ⟨-, rfl⟩ | ⟨i, -, -, m₁, l₁, t, us, tf, ks, -, rfl⟩
    · cases hrun
    · by_cases hi : (0 : ProcId) = i
      · subst hi
        simp [smallBoot, freshSlot] at hrun
      · simp [smallBoot, freshSlot, hi] at hrun
  obtain ⟨hfirst, m₁, l₁, t, us, tf, ks, pid, f, hfresh, -, -, rfl⟩ := hpost
  obtain rfl : i = 0 := by
    have hzero : firstUnused { smallBoot deny with mem := m₀ } = some 0 := rfl
    exact Option.some.inj (hfirst.symm.trans hzero)
  have htaken : wp kalloc (KallocedFor userPages m₁ l₁ t fun q =>
      (0 : Word → ℕ) q + one tf q + one us q + one ks q) (fun _ => True) m₁ :=
    kalloc_holds hfresh.holds
  simp only
  rw [wp_bind, wp_inspect, wp_bind, wp_onMem]
  refine wp_post htaken ?_
  rintro (_ | page) m₂ hpost
  · intro hrun
    simp at hrun
  obtain ⟨hpage, l₂, hholds₂, hmoves₂, -, -, hpages₂, -⟩ := hpost
  have hmapped : wp (mapPage t procVaStart page (pteR ||| pteW ||| pteX ||| pteU)) _ (fun _ => True) m₂ :=
    wp_mono (mapPage_hand hholds₂ (hmoves₂.image ▸ hpage)
      fun _ => mem_userPages_iff.mpr (by rw [vpn_procVaStart]; decide)) (fun _ _ => id) fun _ _ => trivial
  simp only [Function.update_self]
  rw [wp_bind, wp_onMem]
  refine wp_post hmapped ?_
  rintro (_ | _) m₃ hpost
  swap
  · intro hrun
    simp at hrun
  obtain ⟨-, l₃, hholds₃, hmoves₃, -, hpages₃, -, -⟩ := hpost
  rw [if_neg (by decide), wp_bind, wp_setProc, wp_bind, wp_setProc, wp_alter]
  have himage₃ : m₃.image = m₁.image := hmoves₃.image.trans hmoves₂.image
  have hpage₃ : pages m₃ t 1 = some (makePte page (pteR ||| pteW ||| pteX ||| pteU ||| pteV)) := by
    rw [hpages₃, vpn_procVaStart, Function.update_self]
  have hus₃ : m₃.image.IsPage us := by
    rw [himage₃, hfresh.moves.image]
    exact hfresh.ustack
  have hpageP : m₃.image.IsPage page := by
    rw [himage₃]
    exact hpage
  have hone : Holds userPages m₃ l₃ t (fun q => one tf q + one us q + one ks q) :=
    hholds₃.congr fun q => by simp
  have hnone₃ : ∀ w, 2 ≤ w → w < vpn ustackBase → pages m₃ t w = none := by
    intro w hlow hhigh
    have hne : w ≠ vpn procVaStart := by
      rw [vpn_procVaStart]
      omega
    rw [hpages₃, hpages₂, Function.update_of_ne hne]
    exact hfresh.empty w (mem_userPages_iff.mpr (by rwa [vpn_ustackBase] at hhigh))
  have hready : ∀ s : Sys, s.mem = m₃ → s.proc 0 = smallProc t us tf ks pid →
      (∀ j ≠ 0, (s.proc j).pid = none ∧ (s.proc j).parent = none) → (∀ f, s.fileRef f = 2) →
      Ready s l₃ 0 1 ∧ OnePage s l₃ := by
    rintro s rfl hproc hslots hfiles
    refine ⟨ready_of_page hproc hone hus₃ hpageP hpage₃ rfl rfl (fun j hj => hslots j ?_)
      (fun k f _ => ?_) (Option.some_ne_none _), ?_, ?_, ?_⟩
    · rintro rfl
      rw [hproc] at hj
      cases hj
    · rw [hfiles]
      decide
    · rw [hproc]
      exact hone
    · rw [hproc]
      exact ⟨rfl, rfl, rfl⟩
    · rw [hproc]
      exact hnone₃
  refine fun _ => ⟨⟨l₃, hready _ rfl ?_ (fun j hj => ?_) fun f => ?_⟩, ?_, ?_, ?_⟩
  · simp [smallProc, smallBoot, freshSlot]
  · by_cases hj1 : j = 1
    · simp [hj1, smallBoot, freshSlot]
    · simp [hj, hj1, smallBoot, freshSlot]
  · simp [smallBoot]
  · simp
  · simp
  · simp

/-- The machine where the setup has come to its end. -/
theorem smallSys_onePage {deny : List Bool} {slotEnd : Word} {exclusive : Bool}
    (h : ((smallSys deny slotEnd exclusive).proc 0).status = .running) :
    (∃ l, Ready (smallSys deny slotEnd exclusive) l 0 1 ∧
      OnePage (smallSys deny slotEnd exclusive) l) ∧
      Member (smallSys deny slotEnd exclusive) 0 0 := by
  have hspec : wp (smallSetup slotEnd exclusive) _ _ (smallBoot deny) := smallSetup_spec
  unfold wp at hspec
  unfold smallSys at h ⊢
  cases hrun : smallSetup slotEnd exclusive (smallBoot deny) with
  | ok x =>
    rw [hrun] at hspec h
    exact hspec h
  | error e =>
    rw [hrun] at h
    cases h

/-- It is ready there. -/
theorem smallSys_ready {deny : List Bool} {slotEnd : Word} {exclusive : Bool}
    (h : ((smallSys deny slotEnd exclusive).proc 0).status = .running) :
    (∃ l, Ready (smallSys deny slotEnd exclusive) l 0 1) ∧
      Member (smallSys deny slotEnd exclusive) 0 0 := by
  obtain ⟨⟨l, hready, -⟩, hmember⟩ := smallSys_onePage h
  exact ⟨⟨l, hready⟩, hmember⟩

/-- What is read off the small machine, and off a `fork` in it. -/
theorem smallSys_seen : ((smallSys [] 0 false).proc 0).status = .running ∧
    (∀ pid, (smallSys [] 0 false).pidSet pid = true → ((smallSys [] 0 false).proc 0).pid = some pid) ∧
    firstUnused (smallSys [] 0 false) = some 1 ∧ ((smallSys [] 0 false).proc 0).pgroupId = some 0 ∧
    ((smallSys [] 0 false).group 0).live = true ∧
    ((smallSys [] 0 false).group 0).exclusivelyOccupy = false ∧
    ((smallSys [] 0 false).proc 0).ofile 0 = some 0 ∧ (smallSys [] 0 false).fileRef 0 = 2 ∧
    ((fork 0 (smallSys [] 0 false)).toOption.map fun x => (x.1, x.2.fileRef 0)) =
      some (some 1, 4) := by
  decide +kernel

/-- What the small machine offers to a child. -/
theorem smallSys_offers : Accepts (smallSys [] 0 false) 0 ∧
    ∃ l, Ready (smallSys [] 0 false) l 0 1 ∧ Enough (smallSys [] 0 false) l 1 := by
  obtain ⟨hrun, -, -, hpg, hlive, hshared, -, -, hfork⟩ := smallSys_seen
  obtain ⟨⟨l, hready⟩, -⟩ := smallSys_ready hrun
  refine ⟨⟨0, hpg, hlive, hshared⟩, l, hready, ?_⟩
  obtain ⟨ret, s', hok, hret⟩ := ok_of_map hfork
  obtain rfl : ret = some 1 := congrArg Prod.fst hret
  have hwhole := (wp_mono (fork_spec hready) (fun _ _ => id) fun _ _ => trivial :
    wp _ _ (fun _ => True) _).ok hok
  exact hwhole.1

/-! ## Memory that runs out -/

/-- **Nothing happened**: the process table, the pids, the parent and the free pages are the same. -/
structure Restored (s s' : Sys) (l : List Word) (i : ProcId) : Prop where
  table : ∀ j, (s'.proc j).status = (s.proc j).status ∧ (s'.proc j).pid = (s.proc j).pid ∧
    (s'.proc j).parent = (s.proc j).parent
  pidSet : s'.pidSet = s.pidSet
  parent : s'.proc i = s.proc i
  memory : ∀ q, 0 < (s.proc i).owns s.mem q → s'.mem.cell q = s.mem.cell q
  free : ∃ l', FreeList s'.mem l' ∧ ∀ q, q ∈ l' ↔ q ∈ l

theorem Failed.restored (h : Ready s l i n) (hfailed : Failed s s' l i 0) : Restored s s' l i := by
  obtain ⟨l', hmoves⟩ := hfailed.moves
  refine ⟨hfailed.table, hfailed.pidSet, hfailed.parent, fun q hq => ?_, l', hmoves.free, fun q => ?_⟩
  · exact hmoves.kept (h.once q) hq
  · have hsame : l'.count q = l.count q := hmoves.same q
    rw [← List.count_pos_iff, hsame, List.count_pos_iff]

/-- A lost page was free before. -/
theorem Failed.not_restored {copy : Word} (h : FreeList s.mem l)
    (hfailed : Failed s s' l i (one copy)) : ¬Restored s s' l i := by
  rintro ⟨-, -, -, -, l', hfree, hmem⟩
  obtain ⟨l₂, hmoves⟩ := hfailed.moves
  obtain rfl := hfree.unique hmoves.free
  have hsame := hmoves.same copy
  have hnodup := List.nodup_iff_count.mp h.nodup copy
  rw [one_self, Pi.zero_apply] at hsame
  have hout : copy ∉ l' := List.count_eq_zero.mp (by omega)
  exact hout ((hmem copy).mpr (List.count_pos_iff.mp (by omega)))

/-- **`fork` under memory exhaustion**: it does not panic, and changes nothing when it returns `-1`,
exactly when `Graceful`. -/
theorem fork_restores_iff (h : Ready s l i n) :
    (∃ ret s', fork i s = .ok (ret, s') ∧ (ret = none → Restored s s' l i)) ↔ Graceful s l i n := by
  refine ends_iff (wp_post (fork_spec h) ?_)
  rintro (_ | pid) s' hpost
  · rcases hpost.2 with ⟨hfailed, hgraceful⟩ | ⟨copy, hfailed, hnot⟩
    · exact ⟨fun _ => hgraceful, fun _ _ => hfailed.restored h⟩
    · exact ⟨fun hall => absurd (hall rfl) (hfailed.not_restored h.free), fun hc => absurd hc hnot⟩
  · exact ⟨fun _ => hpost.2.2, fun _ hnone => nomatch hnone⟩

/-- The theorem on the small machine, which has memory and a group for the child. -/
theorem fork_restores_iff_small : ∃ l, Ready (smallSys [] 0 false) l 0 1 ∧
    Graceful (smallSys [] 0 false) l 0 1 ∧ ∃ ret s', fork 0 (smallSys [] 0 false) = .ok (ret, s') ∧
      (ret = none → Restored (smallSys [] 0 false) s' l 0) := by
  obtain ⟨haccepts, l, hready, henough⟩ := smallSys_offers
  have hgraceful : Graceful (smallSys [] 0 false) l 0 1 :=
    fun _ _ => .inr (.inr (.inr ⟨henough.2.2, haccepts⟩))
  exact ⟨l, hready, hgraceful, (fork_restores_iff hready).mpr hgraceful⟩

/-- **A reused slot and no seventh page**: the child has its six pages, the copy of the page cannot be
had, and `free_process` unmaps what the last process of the slot had mapped. -/
theorem not_fork_restores : ¬∀ (s : Sys) (l : List Word) (i : ProcId) (n : ℕ), Ready s l i n →
    ∃ ret s', fork i s = .ok (ret, s') ∧ (ret = none → Restored s s' l i) := by
  intro hall
  have hscarce : decide (((smallSys (.replicate 15 false ++ [true]) 0x3000 false).proc 0).status =
      .running ∧ (fork 0 (smallSys (.replicate 15 false ++ [true]) 0x3000 false)).toOption.isNone) =
      true := by
    decide +kernel
  obtain ⟨hrun, hpanic⟩ := of_decide_eq_true hscarce
  obtain ⟨⟨l, hready⟩, -⟩ := smallSys_ready hrun
  obtain ⟨ret, s', hfork, -⟩ := hall _ l 0 1 hready
  rw [hfork] at hpanic
  cases hpanic

/-! ## A group that refuses members -/

/-- **When a member can fork**: there is no slot, or no memory or pid to begin with, or the memory runs
out between two copies in a slot whose `mem_end` claims no page; or the memory suffices, and the group
is not exclusively occupied. -/
def Welcome (s : Sys) (l : List Word) (n : ℕ) (g : GroupId) : Prop :=
  ∀ c, firstUnused s = some c →
    avail s.mem.deny l.length < 6 ∨ (∀ pid, s.pidSet pid = true) ∨
    (∃ k < n, avail s.mem.deny l.length = 6 + bill (apart topVpn) 1 k ∧
      freedPages (s.proc c).memEnd = 0) ∨
    (6 + bill (apart topVpn) 1 n ≤ avail s.mem.deny l.length ∧
      (s.group g).exclusivelyOccupy = false)

theorem welcome_iff (hmember : Member s i g) : Welcome s l n g ↔ Graceful s l i n := by
  have haccepts : Accepts s i ↔ (s.group g).exclusivelyOccupy = false := by
    constructor
    · rintro ⟨g', hg', -, hshared⟩
      obtain rfl : g' = g := Option.some.inj (hg'.symm.trans hmember.pgroupId)
      exact hshared
    · exact fun hshared => ⟨g, hmember.pgroupId, hmember.live, hshared⟩
  unfold Welcome Graceful
  simp only [haccepts]

/-- **A child in the group of its parent, or no trace of one.** -/
def InGroupOrGone (s s' : Sys) (l : List Word) (i : ProcId) (g : GroupId) : Option Pid → Prop
  | some pid => ∃ c, (s'.proc c).pid = some pid ∧ (s'.proc c).parent = some i ∧
      (s'.proc c).pgroupId = some g ∧ (s'.group g).procs = c :: (s.group g).procs
  | none => Restored s s' l i ∧ s'.group = s.group ∧ s'.fileRef = s.fileRef ∧
      s'.inodeRef = s.inodeRef

/-- **`fork` in a group that refuses members**: a member gets a child in its group, or `-1` and no
trace of a child, exactly when it is `Welcome`. -/
theorem fork_member_iff (h : Ready s l i n) (hmember : Member s i g) :
    (∃ ret s', fork i s = .ok (ret, s') ∧ InGroupOrGone s s' l i g ret) ↔ Welcome s l n g := by
  rw [welcome_iff hmember]
  refine ends_iff (wp_post (fork_spec h) ?_)
  rintro (_ | pid) s' hpost
  · rcases hpost.2 with ⟨hfailed, hgraceful⟩ | ⟨copy, hfailed, hnot⟩
    · exact ⟨fun _ => hgraceful, fun _ =>
        ⟨hfailed.restored h, hfailed.group, hfailed.fileRef, hfailed.inodeRef⟩⟩
    · exact ⟨fun hall => absurd hall.1 (hfailed.not_restored h.free), fun hc => absurd hc hnot⟩
  · obtain ⟨-, ⟨c, hforked⟩, hgraceful⟩ := hpost
    refine ⟨fun _ => hgraceful, fun _ => ⟨c, hforked.pid_eq, hforked.parent, ?_⟩⟩
    obtain ⟨g', hg', hchild, hprocs⟩ := hforked.group
    obtain rfl : g' = g := Option.some.inj (hg'.symm.trans hmember.pgroupId)
    exact ⟨hchild, hprocs⟩

/-- The small machine, whose group is exclusively occupied. -/
theorem occupied_seen : ((smallSys [] 0 true).proc 0).status = .running ∧
    (fork 0 (smallSys [] 0 true)).toOption.isNone := by
  decide +kernel

/-- The theorem on that machine, where process 0 is not welcome. -/
theorem fork_member_iff_small : ∃ l, Ready (smallSys [] 0 true) l 0 1 ∧
    Member (smallSys [] 0 true) 0 0 ∧
    ((∃ ret s', fork 0 (smallSys [] 0 true) = .ok (ret, s') ∧
      InGroupOrGone (smallSys [] 0 true) s' l 0 0 ret) ↔ Welcome (smallSys [] 0 true) l 1 0) ∧
    ¬Welcome (smallSys [] 0 true) l 1 0 := by
  obtain ⟨hrun, hpanic⟩ := occupied_seen
  obtain ⟨⟨l, hready⟩, hmember⟩ := smallSys_ready hrun
  have hiff := fork_member_iff hready hmember
  refine ⟨l, hready, hmember, hiff, fun hwelcome => ?_⟩
  obtain ⟨ret, s', hfork, -⟩ := hiff.mpr hwelcome
  rw [hfork] at hpanic
  cases hpanic

/-- **A group with one member that occupies it**: the child is complete, and `fork` panics. -/
theorem not_fork_member : ¬∀ (s : Sys) (l : List Word) (i : ProcId) (n : ℕ) (g : GroupId),
    Ready s l i n → Member s i g →
    ∃ ret s', fork i s = .ok (ret, s') ∧ InGroupOrGone s s' l i g ret := by
  intro hall
  obtain ⟨hrun, hpanic⟩ := occupied_seen
  obtain ⟨⟨l, hready⟩, hmember⟩ := smallSys_ready hrun
  obtain ⟨ret, s', hfork, -⟩ := hall _ l 0 1 0 hready hmember
  rw [hfork] at hpanic
  cases hpanic

/-! ## A child with the memory of its parent -/

/-- Every pid in use belongs to a process. -/
def PidsOwned (s : Sys) : Prop :=
  ∀ pid, s.pidSet pid = true → ∃ j, (s.proc j).status ≠ .unused ∧ (s.proc j).pid = some pid

/-- A free slot leaves a free pid: there are as many of either. -/
theorem exists_free_pid (h : PidsOwned s) (hfirst : firstUnused s = some c) :
    ¬∀ pid, s.pidSet pid = true := by
  intro hall
  choose owner hused hpid using fun pid => h pid (hall pid)
  have hinj : Function.Injective owner := by
    intro p p' heq
    have hp := hpid p
    rw [heq, hpid p'] at hp
    exact (Option.some.inj hp).symm
  obtain ⟨pid, hc⟩ := Finite.surjective_of_injective hinj c
  exact hused pid (hc ▸ unused_of_firstUnused hfirst)

/-- **`fork` copies the parent.** -/
theorem fork_copies (h : Ready s l i n) (hpids : PidsOwned s) (hfirst : firstUnused s = some c)
    (hpages : 6 + bill (apart topVpn) 1 n ≤ avail s.mem.deny l.length) (haccepts : Accepts s i) :
    ∃ pid s', fork i s = .ok (some pid, s') ∧ Forked s s' l i c n pid := by
  have hgraceful : Graceful s l i n := fun _ _ => .inr (.inr (.inr ⟨hpages, haccepts⟩))
  have hpid : ∃ pid, s.pidSet pid = false := by
    simpa using exists_free_pid hpids hfirst
  obtain ⟨ret, s', hrun, hpost⟩ := (wp_mono (fork_spec h) (fun _ _ => id)
    fun _ hnot => hnot hgraceful).ends
  cases ret with
  | none => exact absurd ⟨by simp [hfirst], hpid, hpages⟩ hpost.1
  | some pid =>
    obtain ⟨-, ⟨c', hforked⟩, -⟩ := hpost
    obtain rfl : c' = c := Option.some.inj (hforked.slot.symm.trans hfirst)
    exact ⟨pid, s', hrun, hforked⟩

/-- In the small machine, the only pid belongs to process 0. -/
theorem smallSys_pidsOwned : PidsOwned (smallSys [] 0 false) := by
  obtain ⟨hrun, hpid, -⟩ := smallSys_seen
  refine fun pid h => ⟨0, ?_, hpid pid h⟩
  rw [hrun]
  decide

/-- The theorem on the small machine. -/
theorem fork_copies_small : ∃ l pid s', Ready (smallSys [] 0 false) l 0 1 ∧
    fork 0 (smallSys [] 0 false) = .ok (some pid, s') ∧
    Forked (smallSys [] 0 false) s' l 0 1 1 pid := by
  obtain ⟨-, -, hfirst, -⟩ := smallSys_seen
  obtain ⟨haccepts, l, hready, henough⟩ := smallSys_offers
  obtain ⟨pid, s', hfork, hforked⟩ := fork_copies hready smallSys_pidsOwned hfirst henough.2.2 haccepts
  exact ⟨l, pid, s', hready, hfork, hforked⟩

/-- **One file open in two slots** gets two more references. -/
theorem not_one_reference : ¬∀ (s : Sys) (l : List Word) (i c : ProcId) (n : ℕ), Ready s l i n →
    PidsOwned s → firstUnused s = some c →
    6 + bill (apart topVpn) 1 n ≤ avail s.mem.deny l.length → Accepts s i →
    ∃ pid s', fork i s = .ok (some pid, s') ∧
      ∀ k file, (s.proc i).ofile k = some file → s'.fileRef file = s.fileRef file + 1 := by
  intro hall
  obtain ⟨-, -, hfirst, -, -, -, hfile, hbefore, hrefs⟩ := smallSys_seen
  obtain ⟨haccepts, l, hready, henough⟩ := smallSys_offers
  obtain ⟨pid, s', hfork, hone⟩ :=
    hall _ l 0 1 1 hready smallSys_pidsOwned hfirst henough.2.2 haccepts
  rw [hfork] at hrefs
  obtain ⟨-, hafter⟩ := Prod.mk.inj (Option.some.inj hrefs)
  have hsum := hone 0 0 hfile
  rw [hafter, hbefore] at hsum
  cases hsum

end Pmem
