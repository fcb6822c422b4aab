import Myv6.Process.State
import Myv6.Vm.Merge

/-!
# Pmem/State — the process table and the memory of the processes

    proc_set ──▸ proc_pgtable, ustack, proc_trap_frame, kstack     pages of physical memory
             ──▸ ofile, cwd                                        counted references
             ──▸ pgroup_id                                         a slot of proc_group_set

`alloc_process`, `free_process` and `fork` as whole operations: what `Process` models lock by lock is
one step here, and what it leaves out, the memory, the files and the group of a process, is here.
-/

namespace Pmem

open Function (update)
open Hoare Own Vm
open Process (ProcId GroupId Status)

/-- `pid_t` of a process in use: an index of `pid_set`. -/
abbrev Pid := Fin 64

/-- `struct process`, less its lock, its context and what only the scheduler uses. -/
structure Proc where
  /-- `none` for `-1` -/
  pid : Option Pid
  status : Status
  xstatus : BitVec 32
  parent : Option ProcId
  ustack : Word
  memStart : Word
  memBrk : Word
  memEnd : Word
  pgtable : Word
  kstack : Word
  trapFrame : Word
  /-- indices of the file table -/
  ofile : Fin 16 → Option ℕ
  /-- an index of the inode cache -/
  cwd : Option ℕ
  /-- `none` for `-1` -/
  pgroupId : Option GroupId

/-- What `fork` looks at in a `struct proc_group`. -/
structure Group where
  /-- the group is in use: its `id` is not `-1` -/
  live : Bool
  exclusivelyOccupy : Bool
  procs : List ProcId

/-- What `init_user_process` stores of the kernel in a trap frame. -/
structure Symbols where
  kernelTrapEntry : Word
  userTrapHandler : Word
  kernelPageTable : Word

/-- The state of the kernel. -/
structure Sys where
  symbols : Symbols
  mem : Mem
  proc : ProcId → Proc
  pidSet : Pid → Bool
  group : GroupId → Group
  /-- `ref` of the open files -/
  fileRef : ℕ → ℕ
  /-- `ref` of the inodes in memory -/
  inodeRef : ℕ → ℕ

/-- The process code. -/
abbrev Code := Prog Sys Panic

/-- The memory code, run by a process. -/
def onMem {α : Type} (x : Kernel α) : Code α := zoom Sys.mem (fun m s => { s with mem := m }) x

/-- A change to one process. -/
def setProc (i : ProcId) (f : Proc → Proc) : Code Unit :=
  alter fun s => { s with proc := update s.proc i (f (s.proc i)) }

section Rules

variable {α : Type} {x : Kernel α} {i : ProcId} {f : Proc → Proc} {E : Panic → Prop} {s : Sys}

@[simp] theorem wp_onMem {Q : α → Sys → Prop} :
    wp (onMem x) Q E s ↔ wp x (fun a m => Q a { s with mem := m }) E s.mem := wp_zoom

@[simp] theorem wp_setProc {Q : Unit → Sys → Prop} :
    wp (setProc i f) Q E s ↔ Q () { s with proc := update s.proc i (f (s.proc i)) } := Iff.rfl

end Rules

/-- The index of a register in `struct trap_frame`. -/
def tfSp : Fin 512 := 1

def tfA0 : Fin 512 := 9

def tfA1 : Fin 512 := 10

def tfSepc : Fin 512 := 31

def tfKernelTrapEntryPtr : Fin 512 := 33

def tfUserTrapHandlerPtr : Fin 512 := 34

def tfKstack : Fin 512 := 35

def tfSatp : Fin 512 := 36

/-- The first index past the user registers. -/
def tfUser : ℕ := 31

def makeSatp (pgtable : Word) : Word := (8#64 <<< 60) ||| ((pgtable >>> 12) &&& ((1#64 <<< 44) - 1))

/-! ## Pids -/

def allocPid : Code (Option Pid) := do
  let found ← inspect fun s => (List.finRange 64).find? fun i => !s.pidSet i
  match found with
  | none => pure none
  | some pid =>
    alter fun s => { s with pidSet := update s.pidSet pid true }
    pure (some pid)

/-- A process whose pid is `-1` never gets here; the model panics. -/
def freePid : Option Pid → Code Unit
  | none => panic .freeUnusedPid
  | some pid => do
    if !(← inspect fun s => s.pidSet pid) then
      panic .freeUnusedPid
    else
      alter fun s => { s with pidSet := update s.pidSet pid false }

/-! ## Building a process -/

/-- The trampoline, the trap frame and the stack, mapped one after the other whatever the one before
returned. -/
def mapTop (pgtable trapFrame ustack : Word) : Kernel Bool := do
  let entry ← inspect fun m => roundDownPgsize m.image.userTrapEntry
  let err₁ ← mapPage pgtable trampolineBase entry (pteR ||| pteX)
  let err₂ ← mapPage pgtable trapframeBase trapFrame (pteR ||| pteW)
  let err₃ ← mapPage pgtable ustackBase ustack (pteR ||| pteW ||| pteU)
  pure (err₁ || err₂ || err₃)

/-- Returns the stack and the trap frame that the source stores in the process. -/
def initUserPagetable (pgtable : Word) : Kernel (Option (Word × Word)) := do
  match ← kalloc with
  | none => pure none
  | some trapFramePage =>
    match ← kalloc with
    | none =>
      kfree trapFramePage
      pure none
    | some ustack =>
      if ← mapTop pgtable trapFramePage ustack then
        kfree trapFramePage
        kfree ustack
        pure none
      else
        pure (some (ustack, trapFramePage))

/-- The error exit of `init_user_process`. -/
def initErr (pgtable ustack trapFrame : Word) : Code Bool := do
  onMem (freePageTable pgtable)
  onMem (kfree ustack)
  onMem (kfree trapFrame)
  pure true

/-- The trap frame of a new process, over what the page held. -/
def trapFrameInit (symbols : Symbols) (kstack : Word) (f : Fin 512 → Word) (j : Fin 512) : Word :=
  if j = tfKernelTrapEntryPtr then symbols.kernelTrapEntry
  else if j = tfKstack then kstack
  else if j = tfSatp then makeSatp symbols.kernelPageTable
  else if j = tfUserTrapHandlerPtr then symbols.userTrapHandler
  else if j = tfSepc then procVaStart
  else if j = tfSp then ustackBase + pgsize
  else f j

/-- The context is left out: nothing here reads it. -/
def initUserProcess (i : ProcId) : Code Bool := do
  match ← onMem getPagetable with
  | none => pure true
  | some pgtable =>
    setProc i ({ · with pgtable := pgtable })
    match ← onMem (initUserPagetable pgtable) with
    | none =>
      onMem (freePageTable pgtable)
      pure true
    | some (ustack, trapFrame) =>
      setProc i ({ · with ustack := ustack, trapFrame := trapFrame })
      match ← onMem kalloc with
      | none => initErr pgtable ustack trapFrame
      | some kstack =>
        setProc i ({ · with kstack := kstack })
        match ← allocPid with
        | none =>
          onMem (kfree kstack)
          initErr pgtable ustack trapFrame
        | some pid =>
          setProc i ({ · with pid := some pid, status := .used, xstatus := 0, parent := none })
          let symbols ← inspect fun s => s.symbols
          onMem (alter fun m => m.fill trapFrame (trapFrameInit symbols kstack (m.cell trapFrame)))
          pure false

def allocProcess : Code (Option ProcId) := do
  let found ← inspect fun s => (List.finRange 64).find? fun i => (s.proc i).status = .unused
  match found with
  | none => pure none
  | some i =>
    setProc i ({ · with status := .used })
    if ← initUserProcess i then
      setProc i ({ · with status := .unused })
      pure none
    else
      pure (some i)

/-! ## Freeing a process -/

def freeUserMemory (pgtable memEnd : Word) : Kernel Unit :=
  unmapNPagesFree pgtable procVaStart (intOf ((memEnd - procVaStart) / pgsize))

def freeProcess (i : ProcId) : Code Unit := do
  let proc ← inspect fun s => s.proc i
  freePid proc.pid
  onMem (freeUserMemory proc.pgtable proc.memEnd)
  onMem (kfree proc.ustack)
  onMem (kfree proc.trapFrame)
  onMem (freePageTable proc.pgtable)
  onMem (kfree proc.kstack)
  setProc i ({ · with pid := none, status := .unused, xstatus := 0, parent := none, pgroupId := none })

/-! ## `fork` -/

/-- `forkproc_into_pgroup`, `true` for `-1`.  `list_add` puts the process in front. -/
def forkprocIntoPgroup (pgroupId : Option GroupId) (i : ProcId) : Code Bool := do
  match pgroupId with
  | none => pure true
  | some g =>
    let group ← inspect fun s => s.group g
    if !group.live || group.exclusivelyOccupy then
      pure true
    else
      alter fun s => { s with group := update s.group g { group with procs := i :: group.procs } }
      setProc i ({ · with pgroupId := some g })
      pure false

/-- The registers of the parent, the first 31 words of its trap frame, but `a0`; and its `sepc`. -/
def copyRegs (dst src : Word) : Kernel Unit :=
  alter fun m => m.fill dst fun i =>
    if i = tfA0 then 0
    else if (i : ℕ) < tfUser ∨ i = tfSepc then m.cell src i
    else m.cell dst i

/-- `filedup` of one slot of `ofile`. -/
def filedup : Option ℕ → Code Unit
  | none => pure ()
  | some f => do
    if (← inspect fun s => s.fileRef f) < 1 then
      panic .filedup
    else
      alter fun s => { s with fileRef := update s.fileRef f (s.fileRef f + 1) }

/-- The loop of `fork` over `ofile`. -/
def dupFiles (src dst : ProcId) : List (Fin 16) → Code Unit
  | [] => pure ()
  | k :: ks => do
    let file ← inspect fun s => (s.proc src).ofile k
    filedup file
    if file.isSome then
      setProc dst fun p => { p with ofile := update p.ofile k file }
    dupFiles src dst ks

/-- `idup` of the current directory: it writes through the pointer. -/
def idup : Option ℕ → Code Unit
  | none => panic .kernelTrap
  | some ip => alter fun s => { s with inodeRef := update s.inodeRef ip (s.inodeRef ip + 1) }

/-- `fork` from the copy of the stack to the child that can run. -/
def forkCopy (i c : ProcId) (proc child : Proc) : Code Unit := do
  onMem (memcpyPage child.ustack proc.ustack)
  onMem (copyRegs child.trapFrame proc.trapFrame)
  setProc c ({ · with parent := some i, memStart := proc.memStart, memBrk := proc.memBrk,
                      memEnd := proc.memEnd })
  dupFiles i c (List.finRange 16)
  idup proc.cwd
  setProc c ({ · with cwd := proc.cwd })
  setProc c ({ · with status := .runable })

/-- Returns the pid of the child, `none` for `-1`. -/
def fork (i : ProcId) : Code (Option Pid) := do
  match ← allocProcess with
  | none => pure none
  | some c =>
    let proc ← inspect fun s => s.proc i
    let child ← inspect fun s => s.proc c
    if ← onMem (mergePageTableInInterval child.pgtable proc.pgtable procVaStart proc.memEnd) then
      freeProcess c
      pure none
    else
      forkCopy i c proc child
      if ← forkprocIntoPgroup proc.pgroupId c then
        panic .forkIntoGroup
      else
        pure child.pid

end Pmem
