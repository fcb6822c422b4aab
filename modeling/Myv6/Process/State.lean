import Mathlib.Data.Fin.Basic
import Mathlib.Logic.Function.Basic
import Myv6.Lib.Index

/-!
# Process/State — the process table, the CPUs and where each of them stands

    Pc      what a CPU does: scheduler, a process, an interrupt handler, a swtch between them
    Code    where the kernel code of a process stands; a process keeps it while it is off the CPU

The model goes at the granularity of lock operations: a position is the point before the next
`acquire_spin_lock`, or the stretch of code up to the next `release_spin_lock` or `swtch`; a loop over
`proc_set` that reads without a lock has one position per slot.  The memory of a process, its
files and the lists of the process groups are not part of this model.
-/

namespace Process

/-- `STATIC_PROC_NUM`. -/
abbrev procNum : ℕ := 64

/-- A slot of `proc_set`. -/
abbrev ProcId := Fin procNum

/-- A slot of `proc_group_set`. -/
abbrev GroupId := Fin 8

abbrev CpuId := ℕ

/-- `get_init_process`: slot 0. -/
def initProc : ProcId := 0

/-- The slot of a loop index, `none` once the loop is over. -/
def slot (i : ℕ) : Option ProcId := if h : i < procNum then some ⟨i, h⟩ else none

/-- The locks of the model. -/
inductive Lock
  | proc (p : ProcId)
  | group (g : GroupId)
  deriving DecidableEq, Repr

/-- `status` of `struct process`. -/
inductive Status
  | unused | used | runable | running | sleep | zombie
  deriving DecidableEq, Repr

/-- What the code does first when a saved context is resumed. -/
inductive Resume
  /-- `release_spin_lock(&proc->lock)`: `yield`, `sleep` on another lock, `user_proc_entry`. -/
  | unlock
  /-- Go on under the lock: `sleep(&proc->lock, NULL)`, the end of `exit`. -/
  | hold
  deriving DecidableEq, Repr

/-- The ways the modelled code panics. -/
inductive Error
  | acquiredHoldingLock
  | releaseNotHeld
  | sleepWhenSleeping
  | initProcExit
  | reparentToOtherProc
  | zombieReturned
  | wakeUpWithoutChild
  | freeUnusedPid
  /-- A dispatch from a context that is out of date. -/
  | staleContext
  /-- `exit` of a process whose `parent` is `NULL`. -/
  | nullParent
  deriving DecidableEq, Repr

/-- The arguments of a `wait` call and the round it is in. -/
structure WaitCall where
  /-- `int_uva` is not `NULL`. -/
  status : Bool
  /-- The first `handle_exit_child`, before any `sleep`. -/
  first : Bool
  /-- History: the caller had no child when it took its lock. -/
  lonely : Bool
  deriving DecidableEq, Repr

/-- Where the kernel code of a process stands.  `…Acq`, `…Self`, `…Init` and `…Par` are before an
`acquire_spin_lock`, `…Held` and `…Both` after it. -/
inductive Code
  /-- In user space, or in kernel code that holds no lock of the model. -/
  | user
  /-- A group operation, before and inside the group's lock. -/
  | groupAcq (g : GroupId) | group (g : GroupId)
  /-- `sleep(lk, ch)` on a group's lock or, for `none`, a lock outside the model. -/
  | sleepAcq (lk : Option GroupId) (ch : ℕ) | sleepRel (lk : Option GroupId) (ch : ℕ)
  | sleepSet (lk : Option GroupId) (ch : ℕ) | sleepRelock (lk : Option GroupId)
  /-- The loop of `alloc_process`. -/
  | allocAcq (i : ProcId) | allocHeld (i : ProcId)
  /-- `init_user_process` on the claimed slot, and giving it back if that fails. -/
  | forkInit (q : ProcId) | forkUndoAcq (q : ProcId) | forkUndo (q : ProcId)
  /-- `fork` after `alloc_process`: copying, or `free_process` if that fails. -/
  | forkCopy (q : ProcId) | forkFreeAcq (q : ProcId) | forkFree (q : ProcId)
  | forkReadyAcq (q : ProcId) | forkReady (q : ProcId)
  /-- `exit(x)`: the locks of `proc_set[0]` and of the process, then `reparent_children`. -/
  | exitInit (x : BitVec 64) | exitSelf (x : BitVec 64)
  | reparent (x : BitVec 64) (i : ℕ)
  | reparentAcq (x : BitVec 64) (i : ProcId) | reparentHeld (x : BitVec 64) (i : ProcId)
  /-- The parent has been read: the second lock goes, then `exit_pgroup`. -/
  | exitRel (x : BitVec 64) (par : ProcId)
  | exitGroupAcq (x : BitVec 64) (par : ProcId) (g : GroupId)
  | exitGroup (x : BitVec 64) (par : ProcId) (g : GroupId)
  /-- The locks of the parent that was read and of the process. -/
  | exitPar (x : BitVec 64) (par : ProcId) | exitParSelf (x : BitVec 64) (par : ProcId)
  | exitBoth (x : BitVec 64) (par : ProcId)
  /-- The branch for a parent that has changed since. -/
  | exitElseRel (x : BitVec 64) | exitElseInit (x : BitVec 64) | exitElseSelf (x : BitVec 64)
  | exitElseBoth (x : BitVec 64)
  /-- Before `proc->status = ZOMBIE`, and after the last `switch_to_scheduler`. -/
  | zombie (x : BitVec 64) | dead
  /-- `wait`: the own lock, then the loop of `handle_exit_child`, then what `wait` does with an
  error or with the pid of the child it found. -/
  | waitSelf (status : Bool) | waitScan (w : WaitCall) (noChild : Bool) (i : ℕ)
  | waitAcq (w : WaitCall) (i : ProcId) | waitHeld (w : WaitCall) (i : ProcId)
  | waitErr (w : WaitCall) | waitEnd (w : WaitCall) (child : ℕ) (pid : ℤ)
  /-- The loop of `kill`. -/
  | killAcq (pid : ℤ) (i : ProcId) | killHeld (pid : ℤ) (i : ProcId)
  /-- `count_proc_num`: the recursion of `lock_all_process_aux` as a stack of loops, then
  `lock_rest_process`, then `release_all_process`. -/
  | countInit
  | countAcq (q : ProcId) (stack : List (ProcId × ℕ)) (locked : ProcId → Bool)
  | countScan (stack : List (ProcId × ℕ)) (locked : ProcId → Bool)
  | countRest (i : ℕ) (locked : ProcId → Bool) | countRestAcq (i : ProcId) (locked : ProcId → Bool)
  | countRel (i : ℕ) (n : ℕ)

/-- Where `wake_up` returns to. -/
inductive Ret
  | sched | group (g : GroupId) | exec (p : ProcId)
  deriving DecidableEq, Repr

/-- What a CPU does. -/
inductive Pc
  /-- The loop of `scheduler`, holding nothing. -/
  | sched
  /-- Scheduler code before and inside a group's lock. -/
  | groupAcq (g : GroupId) | group (g : GroupId)
  /-- `get_runnable_proc_with_lock` at one process of the group's list. -/
  | lookAcq (g : GroupId) (q : ProcId) | lookHeld (g : GroupId) (q : ProcId)
  /-- `run_process` with the lock of the process it found. -/
  | start (q : ProcId)
  /-- The first steps of a resumed process that has to give its lock back. -/
  | back (p : ProcId)
  /-- The code of a process. -/
  | exec (p : ProcId)
  /-- `yield`. -/
  | yieldAcq (p : ProcId) | yieldHeld (p : ProcId)
  /-- `swtch` away from the process: its context is still to be stored. -/
  | swtch (p : ProcId) (r : Resume)
  /-- `run_process` after `swtch` has come back. -/
  | after (p : ProcId)
  /-- The loop of `wake_up`. -/
  | wakeAcq (ret : Ret) (ch : ℕ) (i : ProcId) | wakeHeld (ret : Ret) (ch : ℕ) (i : ProcId)
  deriving DecidableEq, Repr

/-- What the history records; processes are named by their stamp. -/
inductive Event
  | forked (child parent : ℕ) (pid : ℤ)
  | exited (who : ℕ) (x : BitVec 64)
  | reaped (child parent : ℕ) (pid : ℤ) (out : Option (BitVec 32))
  | returned (who : ℕ) (w : WaitCall) (child : Option ℕ) (result : ℤ)
  deriving DecidableEq, Repr

/-- The process table with its locks, and the CPUs. -/
structure State where
  status : ProcId → Status
  /-- What a sleeper waits on; `none` is `NULL`. -/
  chain : ProcId → Option ℕ
  parent : ProcId → Option ProcId
  pid : ProcId → ℤ
  killed : ProcId → Bool
  xstatus : ProcId → BitVec 32
  pidSet : ℤ → Bool
  /-- `proc_context`, as what resuming it does first; `none` from the moment a CPU loads it until
  the next `swtch` stores it again, when what the memory holds is out of date. -/
  context : ProcId → Option Resume
  /-- Where the kernel code of each process stands. -/
  kpc : ProcId → Code
  lock : Lock → Option CpuId
  myProc : CpuId → Option ProcId
  pc : CpuId → Pc
  panicked : CpuId → Option Error
  /-- History: a number for each process that `fork` has attached to its parent, never given
  twice, with the number of the process that forked it. -/
  stamp : ProcId → ℕ
  creator : ProcId → ℕ
  /-- History: when `exit` read its parent. -/
  diedAt : ProcId → ℕ
  clock : ℕ
  log : List Event

end Process
