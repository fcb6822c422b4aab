import Myv6.Pgroup.State
import Myv6.Lib.Run

/-!
# Pgroup/Step — the group operations, one locked section at a time

    Act ──▸ one critical section, or one half of it when another lock is taken inside

A section under a group lock is one step, and is enabled only while that lock is free.  Where the
section takes a second lock inside (`free_cpus_lock`, `um_box.lock`, a process lock), it is cut
there and the group lock stays held across the cut.  A panic stops the CPU where it stands, with
its locks.

Three things happen outside the groups and are left open: which free slot `fork` claims, when a
sleeper is woken for another reason, and when a parent reaps a zombie.  The init process issues no
group system call and does not exit (`init_code.c`).
-/

namespace Pgroup

namespace State

/-! ## Field updates -/

def setGroup (s : State) (g : GroupId) (G : ProcGroup) : State :=
  { s with group := Function.update s.group g G }

def setLock (s : State) (g : GroupId) (l : Option CpuId) : State :=
  { s with lock := Function.update s.lock g l }

def setCpuGroup (s : State) (c : CpuId) (g : Option GroupId) : State :=
  { s with cpuGroup := Function.update s.cpuGroup c g }

def setPc (s : State) (c : CpuId) (k : Pc) : State :=
  { s with pc := Function.update s.pc c k }

def setProcGroup (s : State) (p : ProcId) (g : Option GroupId) : State :=
  { s with procGroup := Function.update s.procGroup p g }

def setStatus (s : State) (p : ProcId) (st : Status) : State :=
  { s with status := Function.update s.status p st }

def setChain (s : State) (p : ProcId) (ch : Option Chain) : State :=
  { s with chain := Function.update s.chain p ch }

def setKpc (s : State) (p : ProcId) (k : KPc) : State :=
  { s with kpc := Function.update s.kpc p k }

def setInserted (s : State) (p : ProcId) (b : Bool) : State :=
  { s with inserted := Function.update s.inserted p b }

/-! ## What the sections are made of -/

/-- `inc_free_cpus`. -/
def incFreeCpus (s : State) : Except Panic State :=
  if s.freeCpus < 0 then .error .freeCpusNegative
  else .ok { s with freeCpus := s.freeCpus + 1 }

/-- `dec_free_cpus`: `none` is its `-1`. -/
def decFreeCpus (s : State) : Except Panic (Option State) :=
  if s.freeCpus < 0 then .error .freeCpusNegative
  else if s.freeCpus = 0 then .ok none
  else .ok (some { s with freeCpus := s.freeCpus - 1 })

/-- `free_pgroup`. -/
def freePgroup (s : State) (g : GroupId) : Except Panic State :=
  if (s.group g).id = some defaultPgroupId then .error .defaultFreed
  else .ok (s.setGroup g { s.group g with id := none, exclusivelyOccupy := false })

/-- `add_my_cpu_to_pgroup`. -/
def addMyCpuToPgroup (s : State) (g : GroupId) (c : CpuId) : Except Panic State :=
  if (s.group g).cpus c ≠ none ∨ s.cpuGroup c ≠ none then .error .addAddedCpu
  else .ok ((s.setGroup g { s.group g with cpus := Function.update (s.group g).cpus c (some c) }).setCpuGroup c
    (s.group g).id)

/-- `remove_my_cpu_from_pgroup`. -/
def removeMyCpuFromPgroup (s : State) (g : GroupId) (c : CpuId) : Except Panic State :=
  if (s.group g).cpus c ≠ some c ∨ s.cpuGroup c ≠ (s.group g).id then .error .removeMissingCpu
  else .ok ((s.setGroup g { s.group g with cpus := Function.update (s.group g).cpus c none }).setCpuGroup c
    none)

/-- `add_my_proc_to_pgroup`: `list_add` puts the process first. -/
def addMyProcToPgroup (s : State) (g : GroupId) (p : ProcId) : Except Panic State :=
  if s.procGroup p ≠ none then .error .addAddedProc
  else .ok ((s.setGroup g { s.group g with procs := p :: (s.group g).procs }).setProcGroup p
    (s.group g).id)

/-- `remove_my_proc_from_pgroup`, the process being linked in `g`'s list. -/
def removeMyProcFromPgroup (s : State) (g : GroupId) (p : ProcId) : Except Panic State :=
  if s.procGroup p = none then .error .removeMissingProc
  else .ok ((s.setGroup g { s.group g with procs := (s.group g).procs.erase p }).setProcGroup p none)

/-- `pgroup_cpu_count_unsafe`. -/
def pgroupCpuCountUnsafe (G : ProcGroup) : ℕ :=
  (Finset.univ.filter fun i : CpuId => G.cpus i ≠ none).card

/-- `pgroup_procs_count_unsafe`. -/
def pgroupProcsCountUnsafe (G : ProcGroup) : ℕ := G.procs.length

/-- How `cpu_leave_pgroup` ends, or that it must ask `dec_free_cpus` first. -/
inductive Leave
  | left | stays | asks
  deriving DecidableEq

/-- `cpu_leave_pgroup`, up to the call of `dec_free_cpus`. -/
def cpuLeavePgroup (s : State) (c : CpuId) : Except Panic (State × Leave) :=
  match s.cpuGroup c with
  | none => .error .badIndex
  | some g => do
    let t ← s.removeMyCpuFromPgroup g c
    if pgroupCpuCountUnsafe (t.group g) ≠ 0 then
      return (t, if g ≠ defaultPgroupId then .left else .asks)
    else if (t.group g).procs = [] then
      return (← t.freePgroup g, .left)
    else
      return (← t.addMyCpuToPgroup g c, .stays)

/-- `proc_move_to_tail`. -/
def procMoveToTail (s : State) (g : GroupId) (p : ProcId) : State :=
  s.setGroup g { s.group g with procs := (s.group g).procs.erase p ++ [p] }

/-- `wake_up`: every process asleep on the chain becomes `RUNABLE`. -/
def wakeUp (s : State) (ch : Chain) : State :=
  { s with
    status := fun q =>
      if s.status q = .sleep ∧ s.chain q = some ch then .runable else s.status q
    chain := fun q => if s.status q = .sleep ∧ s.chain q = some ch then none else s.chain q }

/-- `free_process`, as far as the groups see it. -/
def freeProcess (s : State) (q : ProcId) : State :=
  { s with
    status := Function.update s.status q .unused
    chain := Function.update s.chain q none
    procGroup := Function.update s.procGroup q none
    inserted := Function.update s.inserted q false }

/-- The CPU stops in `panic_2str`. -/
def stop (s : State) (c : CpuId) (e : Panic) : State := s.setPc c (.panic e)

/-- A section outside the group locks. -/
def orPanic (s : State) (c : CpuId) : Except Panic State → State
  | .ok t => t
  | .error e => s.stop c e

/-- A section under group `g`'s lock, entered only while the lock is free. -/
def locked (s : State) (c : CpuId) (g : GroupId) (body : Except Panic State) : Option State :=
  if s.lock g = none then
    some (match body with
      | .ok t => t
      | .error e => (s.setLock g (some c)).stop c e)
  else none

/-! ## The scheduler's side -/

/-- `proc_group_init_hart`. -/
def procGroupInitHart (s : State) (c : CpuId) : Option State :=
  s.locked c defaultPgroupId do
    return (← s.addMyCpuToPgroup defaultPgroupId c).setPc c .bootCount

/-- `inc_free_cpus`, then on to `k`. -/
def countCpu (s : State) (c : CpuId) (k : Pc) : Option State :=
  some (s.orPanic c do return (← s.incFreeCpus).setPc c k)

/-- The first lines of `run_process` and `handle_cpu_acquire`. -/
def schedule (s : State) (c : CpuId) : Option State :=
  some (s.setPc c
    (if s.cpuGroup c = some defaultPgroupId ∧ s.umBox.boxEmpty = false then .acquireGet
      else .schedRun))

/-- `get_cpu_message`, and the dispatch on the message's type. -/
def getCpuMessage (s : State) (c : CpuId) : Option State :=
  if s.cpuGroup c ≠ some defaultPgroupId then some (s.stop c .otherGroupHandles)
  else if s.umBox.boxEmpty then some (s.setPc c .schedRun)
  else if s.umBox.get.1.type = .empMessage then some (s.stop c .unknownMessage)
  else some ({ s with umBox := s.umBox.get.2, taken := s.taken ++ [(c, s.umBox.get.1)] }.setPc c
    (.acquireLeave s.umBox.get.1))

/-- `handle_cpu_acquire`: the CPU leaves the default group. -/
def acquireLeave (s : State) (c : CpuId) (m : CpuMessage) : Option State :=
  s.locked c defaultPgroupId do
    if pgroupCpuCountUnsafe (s.group defaultPgroupId) = 1 then throw .tooManyAllocated
    return (← s.removeMyCpuFromPgroup defaultPgroupId c).setPc c (.acquireEnter m)

/-- `handle_cpu_acquire`: the CPU enters the group that asked, if there still is one. -/
def acquireEnter (s : State) (c : CpuId) (m : CpuMessage) : Option State :=
  s.locked c m.group do
    if (s.group m.group).id = none ∧ m.type = .needCpu then throw .emptyGroupAcquire
    if (s.group m.group).id = none ∧ m.type = .needCpuFlex then return s.setPc c .acquireBack
    let t ← s.addMyCpuToPgroup m.group c
    return if m.type = .needCpu then (t.setLock m.group (some c)).setPc c (.acquireWake m)
      else t.setPc c .schedRun

/-- `handle_cpu_acquire`: the sender of a `NEED_CPU` is woken, then the lock is released. -/
def acquireWake (s : State) (c : CpuId) (m : CpuMessage) : Option State :=
  some (((s.wakeUp m.chain).setLock m.group none).setPc c .schedRun)

/-- `handle_cpu_acquire`, the flexible request of a group that is gone. -/
def acquireBack (s : State) (c : CpuId) : Option State :=
  s.locked c defaultPgroupId do
    return ((← s.addMyCpuToPgroup defaultPgroupId c).setLock defaultPgroupId (some c)).setPc c
      .acquireBackCount

/-- …and its `inc_free_cpus`, made under the default group's lock. -/
def acquireBackCount (s : State) (c : CpuId) : Option State :=
  some (s.orPanic c do
    return ((← s.incFreeCpus).setLock defaultPgroupId none).setPc c .schedRun)

/-- `run_process`, with `cpu_leave_pgroup_if_empty` up to its release of the group's lock. -/
def runProcess (s : State) (c : CpuId) : Option State :=
  match s.cpuGroup c with
  | none => some (s.stop c .badIndex)
  | some g => s.locked c g do
    if (s.group g).id = none then throw .emptyGroupRun
    if g ≠ defaultPgroupId ∧ (s.group g).procs = [] then
      let t ← s.removeMyCpuFromPgroup g c
      let t ← if pgroupCpuCountUnsafe (t.group g) = 0 then t.freePgroup g else pure t
      return t.setPc c (.leaveDefault g)
    return (s.setLock g (some c)).setPc c (.dispatch g (s.group g).procs)

/-- `cpu_leave_pgroup_if_empty`: the CPU enters the default group. -/
def leaveDefault (s : State) (c : CpuId) (k : Pc) : Option State :=
  s.locked c defaultPgroupId do
    return (← s.addMyCpuToPgroup defaultPgroupId c).setPc c k

/-- `get_runnable_proc_with_lock`, one process at a time, and the switch to the one found. -/
def dispatch (s : State) (c : CpuId) (g : GroupId) : List ProcId → Option State
  | [] => some ((s.setLock g none).setPc c .sched)
  | q :: rest =>
    if s.status q = .runable then
      some ((((s.procMoveToTail g q).setLock g none).setStatus q .running).setPc c (.run q))
    else some (s.setPc c (.dispatch g rest))

/-! ## The process's side -/

/-- The CPU goes back to its scheduler, leaving `p` with status `st`. -/
def switchToScheduler (s : State) (c : CpuId) (p : ProcId) (st : Status) : State :=
  (s.setStatus p st).setPc c .sched

/-- `proc_leave_pgroup_may_with_cpu(WITH_CPU)`, called by `create_pgroup`. -/
def createPgroup (s : State) (c : CpuId) (p : ProcId) : Option State :=
  match s.procGroup p with
  | none => some (s.stop c .badIndex)
  | some g => s.locked c g do
    let t ← s.removeMyProcFromPgroup g p
    match ← t.cpuLeavePgroup c with
    | (t, .left) => return t.setPc c (.allocScan p 0)
    | (t, .asks) => return (t.setLock g (some c)).setPc c (.createDec p)
    | (t, .stays) => return ← t.addMyProcToPgroup g p

/-- The rest of `cpu_leave_pgroup` on the default group: the CPU may go if a free one is left,
otherwise it and its process are put back. -/
def createDec (s : State) (c : CpuId) (p : ProcId) : Option State :=
  some (s.orPanic c do
    match ← s.decFreeCpus with
    | some t => return (t.setLock defaultPgroupId none).setPc c (.allocScan p 0)
    | none =>
      let t ← s.addMyCpuToPgroup defaultPgroupId c
      let t ← t.addMyProcToPgroup defaultPgroupId p
      return (t.setLock defaultPgroupId none).setPc c (.run p))

/-- `alloc_pgroup`, one slot. -/
def allocPgroup (s : State) (c : CpuId) (p : ProcId) (i : ℕ) : Option State :=
  if h : i < maxProcGroupNum then
    let g : GroupId := ⟨i, h⟩
    s.locked c g do
      if (s.group g).id = none then
        let t := s.setGroup g { s.group g with id := some g }
        return (← t.addMyCpuToPgroup g c).setPc c (.createAdd p g)
      return s.setPc c (.allocScan p (i + 1))
  else some (s.stop c .runOutOfGroups)

/-- `create_pgroup`: the process follows its CPU into the new group. -/
def createAdd (s : State) (c : CpuId) (p : ProcId) (g : GroupId) : Option State :=
  s.locked c g do return (← s.addMyProcToPgroup g p).setPc c (.run p)

/-- `enter_pgroup`, up to `proc_leave_pgroup_without_cpu`. -/
def enterPgroup (s : State) (c : CpuId) (p : ProcId) (pgroupId : ℤ) : Option State :=
  if h : pgroupId < maxProcGroupNum ∧ 0 ≤ pgroupId then
    let new : GroupId := ⟨pgroupId.toNat, by omega⟩
    match s.procGroup p with
    | none => some (s.stop c .badIndex)
    | some old =>
      if new = old then some s
      else s.locked c old do
        return (← s.removeMyProcFromPgroup old p).setPc c (.enterNew p old new)
  else some s

/-- `enter_pgroup`: into the new group, if it exists. -/
def enterNew (s : State) (c : CpuId) (p : ProcId) (old new : GroupId) : Option State :=
  s.locked c new do
    if (s.group new).id = none then return s.setPc c (.enterBack p old)
    return (← s.addMyProcToPgroup new p).setPc c (.yield p)

/-- `enter_pgroup`: back into the old group. -/
def enterBack (s : State) (c : CpuId) (p : ProcId) (old : GroupId) : Option State :=
  s.locked c old do return (← s.addMyProcToPgroup old p).setPc c (.run p)

/-- `forkproc_into_pgroup`, whose failure panics `fork`. -/
def forkprocIntoPgroup (s : State) (c : CpuId) (p q : ProcId) : Option State :=
  match s.procGroup p with
  | none => some (s.stop c .forkIntoGroup)
  | some g => s.locked c g do
    if (s.group g).id = none ∨ (s.group g).exclusivelyOccupy then throw .forkIntoGroup
    return (((s.setGroup g { s.group g with procs := q :: (s.group g).procs }).setProcGroup q
      (some g)).setInserted q true).setKpc p .user

/-- The unlocked checks of `inc_pgroup_cpus` and `inc_pgroup_cpus_flex`. -/
def incPgroupCpus (s : State) (c : CpuId) (p : ProcId) (type : MessageType) : Option State :=
  match s.procGroup p with
  | none => some (s.stop c .badIndex)
  | some g =>
    if g = defaultPgroupId ∨ (s.group g).exclusivelyOccupy then some s
    else some (s.setKpc p (.incDec type))

/-- Their `dec_free_cpus`. -/
def incDec (s : State) (c : CpuId) (p : ProcId) (type : MessageType) : Option State :=
  some (s.orPanic c do
    match ← s.decFreeCpus with
    | none => return s.setKpc p .user
    | some t => return t.setKpc p (.incSend type))

/-- `send_cpu_message`. -/
def sendCpuMessage (s : State) (m : CpuMessage) : Except Panic State :=
  if s.umBox.boxFull then .error .boxFull
  else .ok { s with umBox := s.umBox.send m, sent := s.sent ++ [m] }

/-- The sending of a request: `NEED_CPU` under the group's lock, `NEED_CPU_FLEX` without it. -/
def incSend (s : State) (c : CpuId) (p : ProcId) (type : MessageType) : Option State :=
  match s.procGroup p with
  | none => some (s.stop c .badIndex)
  | some g =>
    let m : CpuMessage := ⟨type, g, .request p⟩
    if type = .needCpu then s.locked c g do
      return (((← s.sendCpuMessage m).setLock g (some c)).setKpc p .user).setPc c (.incSleep p g)
    else some (s.orPanic c do return (← s.sendCpuMessage m).setKpc p .user)

/-- `inc_pgroup_cpus`: `sleep(&pgroup->lock, m.sleep_chain)`. -/
def incSleep (s : State) (c : CpuId) (p : ProcId) (g : GroupId) : Option State :=
  some (((s.setLock g none).setChain p (some (.request p))).switchToScheduler c p .sleep)

/-- `dec_pgroup_cpus`, up to the release of the group's lock. -/
def decPgroupCpus (s : State) (c : CpuId) (p : ProcId) : Option State :=
  match s.cpuGroup c with
  | none => some (s.stop c .badIndex)
  | some g =>
    if g = defaultPgroupId then some s
    else s.locked c g do
      match ← s.cpuLeavePgroup c with
      | (t, .stays) => return t
      | (t, _) => return t.setPc c (.decDefault p)

/-- `proc_occupy_cpu`. -/
def procOccupyCpu (s : State) (c : CpuId) (p : ProcId) : Option State :=
  match s.procGroup p with
  | none => some (s.stop c .badIndex)
  | some g =>
    if g = defaultPgroupId then some s
    else s.locked c g do
      if pgroupProcsCountUnsafe (s.group g) ≠ 1 ∨ pgroupCpuCountUnsafe (s.group g) ≠ 1 then return s
      return s.setGroup g { s.group g with exclusivelyOccupy := true }

/-- `proc_release_cpu`. -/
def procReleaseCpu (s : State) (c : CpuId) (p : ProcId) : Option State :=
  match s.procGroup p with
  | none => some (s.stop c .badIndex)
  | some g => s.locked c g do
    if pgroupProcsCountUnsafe (s.group g) ≠ 1 ∨ pgroupCpuCountUnsafe (s.group g) ≠ 1 then
      throw .occupyFail
    if (s.group g).exclusivelyOccupy = false then return s
    return s.setGroup g { s.group g with exclusivelyOccupy := false }

/-- `exit_pgroup`. -/
def exitPgroup (s : State) (c : CpuId) (p : ProcId) : Option State :=
  match s.procGroup p with
  | none => some (s.stop c .badIndex)
  | some g => s.locked c g do
    return (← s.removeMyProcFromPgroup g p).setPc c (.exitZombie p)

/-- `fork`: slot `q` is claimed. -/
def forkAlloc (s : State) (p q : ProcId) : Option State :=
  if s.status q = .unused then some ((s.setStatus q .used).setKpc p (.forkAlloc q)) else none

/-! ## One step -/

/-- What the process on a CPU may ask for. -/
inductive Call
  | fork (child : ProcId)
  | createPgroup
  | enterPgroup (pgroupId : ℤ)
  | incPgroupCpus
  | incPgroupCpusFlex
  | decPgroupCpus
  | procOccupyCpu
  | procReleaseCpu
  | exit
  | sleep
  deriving DecidableEq, Repr

/-- The call is made by any process, init included. -/
def Call.forAll : Call → Bool
  | .fork _ | .sleep => true
  | _ => false

/-- The process `p` on CPU `c` enters the kernel. -/
def call (s : State) (c : CpuId) (p : ProcId) : Call → Option State
  | .fork q => s.forkAlloc p q
  | .createPgroup => s.createPgroup c p
  | .enterPgroup i => s.enterPgroup c p i
  | .incPgroupCpus => s.incPgroupCpus c p .needCpu
  | .incPgroupCpusFlex => s.incPgroupCpus c p .needCpuFlex
  | .decPgroupCpus => s.decPgroupCpus c p
  | .procOccupyCpu => s.procOccupyCpu c p
  | .procReleaseCpu => s.procReleaseCpu c p
  | .exit => s.exitPgroup c p
  | .sleep => some ((s.setChain p (some .other)).switchToScheduler c p .sleep)

/-- The next section of the code process `p` is in, on CPU `c`. -/
def resume (s : State) (c : CpuId) (p : ProcId) : Option State :=
  match s.kpc p with
  | .user => none
  | .forkAlloc q => some ((s.setStatus q .runable).setKpc p (.forkInsert q))
  | .forkInsert q => s.forkprocIntoPgroup c p q
  | .incDec type => s.incDec c p type
  | .incSend type => s.incSend c p type

/-- The next section of the code CPU `c` is in. -/
def advance (s : State) (c : CpuId) : Option State :=
  match s.pc c with
  | .boot => s.procGroupInitHart c
  | .bootCount => s.countCpu c .sched
  | .sched => s.schedule c
  | .acquireGet => s.getCpuMessage c
  | .acquireLeave m => s.acquireLeave c m
  | .acquireEnter m => s.acquireEnter c m
  | .acquireWake m => s.acquireWake c m
  | .acquireBack => s.acquireBack c
  | .acquireBackCount => s.acquireBackCount c
  | .schedRun => s.runProcess c
  | .leaveDefault g => s.leaveDefault c (.leaveCount g)
  | .leaveCount g => s.countCpu c (.leaveRelock g)
  | .leaveRelock g => s.locked c g (.ok (s.setPc c .sched))
  | .dispatch g rest => s.dispatch c g rest
  | .run p => s.resume c p
  | .createDec p => s.createDec c p
  | .allocScan p i => s.allocPgroup c p i
  | .createAdd p g => s.createAdd c p g
  | .enterNew p old new => s.enterNew c p old new
  | .enterBack p old => s.enterBack c p old
  | .yield p => some (s.switchToScheduler c p .runable)
  | .incSleep p g => s.incSleep c p g
  | .decDefault p => s.leaveDefault c (.decCount p)
  | .decCount p => s.countCpu c (.yield p)
  | .exitZombie p => some (s.switchToScheduler c p .zombie)
  | .panic _ => none

end State

/-- What can happen next. -/
inductive Act
  /-- CPU `c` executes its next section. -/
  | cpu (c : CpuId)
  /-- The process on CPU `c` makes a call. -/
  | call (c : CpuId) (op : State.Call)
  /-- `fork` on CPU `c` fails for lack of memory and frees the slot it claimed. -/
  | forkFail (c : CpuId)
  /-- The timer preempts the process on CPU `c`. -/
  | preempt (c : CpuId)
  /-- A sleeper is made `RUNABLE` by anything else. -/
  | wake (q : ProcId)
  /-- A zombie is freed by its parent's `wait`. -/
  | reap (q : ProcId)
  deriving DecidableEq, Repr

/-- **One step of the group subsystem.** -/
def step (s : State) : Act → Option State
  | .cpu c => s.advance c
  | .call c op =>
    match s.pc c with
    | .run p =>
      if s.kpc p = .user ∧ (op.forAll = true ∨ p ≠ initProc) then s.call c p op else none
    | _ => none
  | .forkFail c =>
    match s.pc c with
    | .run p =>
      match s.kpc p with
      | .forkAlloc q => some ((s.freeProcess q).setKpc p .user)
      | _ => none
    | _ => none
  | .preempt c =>
    match s.pc c with
    | .run p => some (s.switchToScheduler c p .runable)
    | _ => none
  | .wake q =>
    if s.status q = .sleep then some ((s.setStatus q .runable).setChain q none) else none
  | .reap q => if s.status q = .zombie then some (s.freeProcess q) else none

/-- An unused slot of `proc_group_set`, as `proc_group_init` leaves it. -/
def emptyGroup : ProcGroup := ⟨none, [], fun _ => none, false⟩

/-- The state `setup_init_proc` leaves behind: CPU 0 and the init process in the default group, no
other hart started, the box zeroed. -/
def boot : State where
  group := Function.update (fun _ => emptyGroup) defaultPgroupId
    ⟨some defaultPgroupId, [initProc], Function.update (fun _ => none) 0 (some 0), false⟩
  lock := fun _ => none
  cpuGroup := Function.update (fun _ => none) 0 (some defaultPgroupId)
  pc := Function.update (fun _ => .boot) 0 .sched
  procGroup := Function.update (fun _ => none) initProc (some defaultPgroupId)
  status := Function.update (fun _ => .unused) initProc .runable
  chain := fun _ => none
  kpc := fun _ => .user
  freeCpus := 0
  umBox := ⟨fun _ => ⟨.empMessage, 0, .other⟩, 0, 0, 0⟩
  inserted := Function.update (fun _ => false) initProc true
  sent := []
  taken := []

/-- The states of the group subsystem, over every run from boot. -/
abbrev Reachable : State → Prop := Run.Reachable step boot

end Pgroup
