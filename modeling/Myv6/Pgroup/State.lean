import Mathlib.Data.Fintype.Basic
import Mathlib.Data.Finset.Card
import Mathlib.Data.Fintype.Fin
import Myv6.Lib.Ring
import Myv6.Lib.Index

/-!
# Pgroup/State — the data of the process groups

What `kernel/process/proc_group.c`, `cpu_message.c` and the scheduler share: the group slots, who
each CPU and each process belongs to, the counter of free CPUs and the box of CPU requests.  The
value `-1` of an `int` index is `none`.

A CPU is in scheduler code or executing a process, and `Pc` says at which of its locked sections
it stands.  Code of a process that can be switched out half-way (a fork, a CPU request) is a
continuation of the *process*, `KPc`: the CPU that resumes it need not be the one that began it.
-/

namespace Pgroup

/-- `MAX_CPU_NUM`. -/
abbrev maxCpuNum : ℕ := 8

/-- `MAX_PROC_GROUP_NUM`, defined as `MAX_CPU_NUM`. -/
abbrev maxProcGroupNum : ℕ := maxCpuNum

/-- `STATIC_PROC_NUM`. -/
abbrev staticProcNum : ℕ := 64

/-- `CPU_MESSAGE_BOX_SIZE`, defined as `MAX_CPU_NUM`. -/
abbrev cpuMessageBoxSize : ℕ := maxCpuNum

abbrev CpuId := Fin maxCpuNum

abbrev GroupId := Fin maxProcGroupNum

abbrev ProcId := Fin staticProcNum

/-- `DEFAULT_PGROUP_ID`. -/
abbrev defaultPgroupId : GroupId := 0

/-- The init process, slot 0 of `proc_set`. -/
abbrev initProc : ProcId := 0

/-- The status of a process. -/
inductive Status
  | unused | used | runable | running | sleep | zombie
  deriving DecidableEq, Repr

/-- What a sleeper waits on: its own CPU request, or anything outside the groups. -/
inductive Chain
  | request (p : ProcId)
  | other
  deriving DecidableEq, Repr

/-- `enum cpu_message_type`. -/
inductive MessageType
  | empMessage | needCpu | needCpuFlex
  deriving DecidableEq, Repr

/-- `struct cpu_message`, with what its `message` pointer leads to: the group asking, and for
`NEED_CPU` the chain its sender sleeps on. -/
structure CpuMessage where
  type : MessageType
  group : GroupId
  chain : Chain
  deriving DecidableEq, Repr

/-- `struct um_box`: a ring with free-running 64-bit counters and a separate size. -/
structure UmBox where
  box : Fin cpuMessageBoxSize → CpuMessage
  boxBeg : UInt64
  boxEnd : UInt64
  size : UInt64

/-- `struct proc_group`, without its lock. -/
structure ProcGroup where
  id : Option GroupId
  procs : List ProcId
  cpus : CpuId → Option CpuId
  exclusivelyOccupy : Bool

/-- The `PANIC_FN`s of the modelled code. -/
inductive Panic
  /-- "free cpus < 0" -/
  | freeCpusNegative
  /-- "default group been freed" -/
  | defaultFreed
  /-- "add cpu that has been added" -/
  | addAddedCpu
  /-- "remove cpu that haven't been added" -/
  | removeMissingCpu
  /-- "add proc that has been added" -/
  | addAddedProc
  /-- "remove proc that haven't been added" -/
  | removeMissingProc
  /-- "run out of proc group" -/
  | runOutOfGroups
  /-- "cpu try to run in empty proc group" -/
  | emptyGroupRun
  /-- "other proc group cpus want to handle cpu acquire" -/
  | otherGroupHandles
  /-- "cpu message box full" -/
  | boxFull
  /-- "get unknow message" -/
  | unknownMessage
  /-- "too many cpus been allocate" -/
  | tooManyAllocated
  /-- "empty group acquire cpu" -/
  | emptyGroupAcquire
  /-- "fail to add child to parent's proc group" -/
  | forkIntoGroup
  /-- "process exclusively occupy cpu fail, 1 more procs" -/
  | occupyFail
  /-- an access to `proc_group_set[-1]`, for which the source has no panic -/
  | badIndex
  deriving DecidableEq, Repr

/-- Kernel code of a process that runs with interrupts on, so that it can be switched out here. -/
inductive KPc
  /-- No group operation in progress. -/
  | user
  /-- `fork`: the child slot is claimed, not yet `RUNABLE`. -/
  | forkAlloc (child : ProcId)
  /-- `fork`: the child is `RUNABLE`, about to enter the parent's group. -/
  | forkInsert (child : ProcId)
  /-- `inc_pgroup_cpus(_flex)`: the checks passed, about to call `dec_free_cpus`. -/
  | incDec (type : MessageType)
  /-- `inc_pgroup_cpus(_flex)`: a CPU is reserved, about to send the request. -/
  | incSend (type : MessageType)
  deriving DecidableEq, Repr

/-- Where a CPU stands. -/
inductive Pc
  /-- The hart has not called `proc_group_init_hart`. -/
  | boot
  /-- `proc_group_init_hart`, before `inc_free_cpus`. -/
  | bootCount
  /-- The top of `run_process`. -/
  | sched
  /-- `handle_cpu_acquire`, before `get_cpu_message`. -/
  | acquireGet
  /-- `handle_cpu_acquire`, before the default group's lock. -/
  | acquireLeave (m : CpuMessage)
  /-- `handle_cpu_acquire`, out of the default group, before the new group's lock. -/
  | acquireEnter (m : CpuMessage)
  /-- `handle_cpu_acquire`, holding the new group's lock, before `wake_up`. -/
  | acquireWake (m : CpuMessage)
  /-- `handle_cpu_acquire`, the asking group is gone: back to the default group's lock. -/
  | acquireBack
  /-- …and holding it, before `inc_free_cpus`. -/
  | acquireBackCount
  /-- `run_process`, before the CPU's own group's lock. -/
  | schedRun
  /-- `cpu_leave_pgroup_if_empty`, out of group `g`, before the default group's lock. -/
  | leaveDefault (g : GroupId)
  /-- …in the default group, before `inc_free_cpus`. -/
  | leaveCount (g : GroupId)
  /-- …before group `g`'s lock is taken again, to be given back by the caller. -/
  | leaveRelock (g : GroupId)
  /-- `get_runnable_proc_with_lock`, holding `g`'s lock, with `rest` still to look at. -/
  | dispatch (g : GroupId) (rest : List ProcId)
  /-- Executing process `p`, at its `KPc`. -/
  | run (p : ProcId)
  /-- `create_pgroup`, holding the default group's lock, before `dec_free_cpus`. -/
  | createDec (p : ProcId)
  /-- `alloc_pgroup`, before slot `i`'s lock; at `i = MAX_PROC_GROUP_NUM` it returns `NULL`. -/
  | allocScan (p : ProcId) (i : ℕ)
  /-- `create_pgroup`, before the new group's lock. -/
  | createAdd (p : ProcId) (g : GroupId)
  /-- `enter_pgroup`, out of `old`, before the lock of `new`. -/
  | enterNew (p : ProcId) (old new : GroupId)
  /-- `enter_pgroup`, `new` does not exist, before the lock of `old`. -/
  | enterBack (p : ProcId) (old : GroupId)
  /-- At the `yield(RUNABLE)` that ends `enter_pgroup` and `dec_pgroup_cpus`. -/
  | yield (p : ProcId)
  /-- `inc_pgroup_cpus`, holding the group's lock, the request sent, before `sleep`. -/
  | incSleep (p : ProcId) (g : GroupId)
  /-- `dec_pgroup_cpus`, out of the group, before the default group's lock. -/
  | decDefault (p : ProcId)
  /-- …in the default group, before `inc_free_cpus`. -/
  | decCount (p : ProcId)
  /-- `exit`, out of the group, before `ZOMBIE`. -/
  | exitZombie (p : ProcId)
  /-- Spinning in `panic_2str`, its locks never released. -/
  | panic (e : Panic)
  deriving DecidableEq, Repr

/-- The process a CPU is executing. -/
def Pc.myProc : Pc → Option ProcId
  | .run p | .createDec p | .allocScan p _ | .createAdd p _ | .enterNew p _ _ | .enterBack p _
  | .yield p | .incSleep p _ | .decDefault p | .decCount p | .exitZombie p => some p
  | _ => none

/-- The child a process is forking. -/
def KPc.child : KPc → Option ProcId
  | .forkAlloc q | .forkInsert q => some q
  | _ => none

/-- The group subsystem.  `inserted`, `sent` and `taken` are history: no step reads them. -/
structure State where
  /-- `proc_group_set`. -/
  group : GroupId → ProcGroup
  /-- The CPU holding `proc_group_set[g].lock`. -/
  lock : GroupId → Option CpuId
  /-- `cpus[c].pgroup_id`. -/
  cpuGroup : CpuId → Option GroupId
  pc : CpuId → Pc
  /-- `proc_set[p].pgroup_id`. -/
  procGroup : ProcId → Option GroupId
  status : ProcId → Status
  chain : ProcId → Option Chain
  kpc : ProcId → KPc
  freeCpus : ℤ
  umBox : UmBox
  /-- The process has been put in a group since its slot was claimed. -/
  inserted : ProcId → Bool
  /-- Every request sent, oldest first. -/
  sent : List CpuMessage
  /-- Every request taken, with the CPU that took it, oldest first. -/
  taken : List (CpuId × CpuMessage)

/-! ## The request box -/

namespace UmBox

/-- `box_empty`, and `no_message_atomic`. -/
def boxEmpty (b : UmBox) : Bool := b.size == 0

/-- `box_full`. -/
def boxFull (b : UmBox) : Bool := b.size == 8

/-- The cell of a counter value. -/
def cellOf (k : UInt64) : Fin cpuMessageBoxSize := Ring.cell cpuMessageBoxSize k.toNat

/-- The queueing part of `send_cpu_message`. -/
def send (b : UmBox) (m : CpuMessage) : UmBox :=
  { box := Function.update b.box (cellOf b.boxEnd) m
    boxBeg := b.boxBeg
    boxEnd := b.boxEnd + 1
    size := b.size + 1 }

/-- The dequeueing part of `get_cpu_message`: the request, and the box without it. -/
def get (b : UmBox) : CpuMessage × UmBox :=
  (b.box (cellOf b.boxBeg), { b with boxBeg := b.boxBeg + 1, size := b.size - 1 })

/-- The requests in the box, oldest first. -/
def requests (b : UmBox) : List CpuMessage := Ring.window b.box b.boxBeg.toNat b.size.toNat

/-- The box as the code keeps it: the counters span the size, and the size fits. -/
structure WellFormed (b : UmBox) : Prop where
  span : b.boxEnd = b.boxBeg + b.size
  fits : b.size.toNat ≤ cpuMessageBoxSize

@[simp] theorem length_requests (b : UmBox) : b.requests.length = b.size.toNat :=
  Ring.length_window _ _ _

theorem boxEmpty_iff (b : UmBox) : b.boxEmpty = true ↔ b.requests = [] := by
  rw [← List.length_eq_zero_iff, length_requests, boxEmpty, beq_iff_eq, ← UInt64.toNat_inj]
  rfl

theorem boxFull_iff (b : UmBox) : b.boxFull = true ↔ b.requests.length = cpuMessageBoxSize := by
  rw [length_requests, boxFull, beq_iff_eq, ← UInt64.toNat_inj]
  rfl

/-- The size counts the request it makes room for, without wrapping. -/
theorem size_send {b : UmBox} (h : b.size.toNat < cpuMessageBoxSize) (m : CpuMessage) :
    (b.send m).size.toNat = b.size.toNat + 1 := by
  change (b.size + 1).toNat = _
  rw [UInt64.toNat_add, UInt64.toNat_one]
  exact Nat.mod_eq_of_lt (by simp only [cpuMessageBoxSize, maxCpuNum] at h; omega)

theorem size_get {b : UmBox} (h : b.requests ≠ []) :
    b.size.toNat = b.get.2.size.toNat + 1 := by
  have hpos : 0 < b.size.toNat := by
    rw [← length_requests]
    exact List.length_pos_of_ne_nil h
  have hle : (1 : UInt64) ≤ b.size := UInt64.le_iff_toNat_le.mpr hpos
  change _ = (b.size - 1).toNat + 1
  rw [UInt64.toNat_sub_of_le _ _ hle, UInt64.toNat_one]
  omega

/-- A counter that wraps at `2 ^ 64` addresses the cells it would address unbounded. -/
theorem window_succ_counter (box : Fin cpuMessageBoxSize → CpuMessage) (k : UInt64) (n : ℕ) :
    Ring.window box (k + 1).toNat n = Ring.window box (k.toNat + 1) n := by
  rw [UInt64.toNat_add, UInt64.toNat_one]
  exact Ring.window_mod box (M := 2 ^ 64) (by decide) _ _

/-- **Sending appends a request.** -/
theorem requests_send {b : UmBox} (hb : b.WellFormed)
    (h : b.requests.length < cpuMessageBoxSize) (m : CpuMessage) :
    (b.send m).requests = b.requests ++ [m] := by
  rw [length_requests] at h
  have hcell : cellOf b.boxEnd = Ring.cell cpuMessageBoxSize (b.boxBeg.toNat + b.size.toNat) := by
    rw [cellOf, Ring.cell_eq_iff, hb.span, UInt64.toNat_add]
    exact Nat.mod_mod_of_dvd _ (by decide)
  rw [requests, size_send h]
  change Ring.window (Function.update b.box (cellOf b.boxEnd) m) b.boxBeg.toNat _ = _
  rw [hcell]
  exact Ring.window_push b.box m h

theorem wellFormed_send {b : UmBox} (hb : b.WellFormed)
    (h : b.requests.length < cpuMessageBoxSize) (m : CpuMessage) : (b.send m).WellFormed := by
  rw [length_requests] at h
  refine ⟨?_, ?_⟩
  · change b.boxEnd + 1 = b.boxBeg + (b.size + 1)
    rw [hb.span, UInt64.add_assoc]
  · rw [size_send h]
    omega

/-- **Taking removes the oldest request.** -/
theorem requests_get {b : UmBox} (h : b.requests ≠ []) :
    b.requests = b.get.1 :: b.get.2.requests := by
  rw [requests, size_get h, Ring.window_succ, ← window_succ_counter]
  rfl

theorem wellFormed_get {b : UmBox} (hb : b.WellFormed) (h : b.requests ≠ []) :
    b.get.2.WellFormed := by
  refine ⟨?_, ?_⟩
  · change b.boxEnd = (b.boxBeg + 1) + (b.size - 1)
    rw [hb.span, UInt64.add_assoc, UInt64.add_comm 1, UInt64.sub_add_cancel]
  · have := size_get h
    have := hb.fits
    omega

end UmBox

end Pgroup
