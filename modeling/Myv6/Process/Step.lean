import Mathlib.Data.Fintype.Basic
import Myv6.Lib.Run
import Myv6.Process.State

/-!
# Process/Step — one step of one CPU

    want = some l     spin on `l`; the step is enabled once `l` is free
    want = none       a row: the next data, one lock to release, and where the code goes on

Every step is one of the two.  `Code.row` is the code of a process (`fork`, `exit`, `wait`, `kill`,
`sleep`, `count_proc_num`), `State.row` adds the scheduler, the interrupts and `swtch`.  Which
process of its group's list the scheduler looks at, which group an operation is about, whether an
allocation or a `copy_out` succeeds and when an interrupt arrives is left open.
-/

namespace Process

open Function (update)

/-- What a step takes from its surroundings: whether the allocation or copy in it succeeds, and
the group the code goes on with. -/
structure Env where
  ok : Bool
  group : GroupId

/-- The kernel services a process can ask for. -/
inductive Syscall
  | fork
  | exit (x : BitVec 64)
  | wait (status : Bool)
  | kill (pid : ℤ)
  | sleep (ch : ℕ)
  | group (g : GroupId)
  | count

/-- What a CPU does next, as far as its position leaves it open. -/
inductive Choice
  /-- The next step of the code. -/
  | run (e : Env)
  /-- A system call of the process. -/
  | call (sc : Syscall)
  /-- The timer: `yield`. -/
  | timer
  /-- A handler, a group operation or kernel code of the process calls `wake_up(ch)`. -/
  | wake (ch : ℕ)
  /-- The scheduler takes up a group. -/
  | group (g : GroupId)
  /-- The scheduler goes on to a process of the list. -/
  | look (q : ProcId)

/-- One CPU takes one step. -/
structure Act where
  cpu : CpuId
  choice : Choice

/-- The lock operation of a row. -/
inductive Op
  | keep
  | release (l : Lock)
  deriving DecidableEq

/-- The locks after the operation. -/
def Op.drop (f : Lock → Option CpuId) : Op → Lock → Option CpuId
  | .keep => f
  | .release l => update f l none

/-- Where a row goes on. -/
inductive Next
  /-- The code of process `p` goes on at `k`. -/
  | code (p : ProcId) (k : Code)
  /-- The CPU goes on at `k`. -/
  | cpu (k : Pc)
  /-- `switch_to_scheduler` in process `p`, which goes on at `k` when it is resumed. -/
  | switch (p : ProcId) (k : Code) (r : Resume)
  | panic (e : Error)

/-- A stretch of code without an `acquire_spin_lock`. -/
structure Row where
  op : Op
  post : State
  next : Next

namespace State

/-- `wake_up_parent`. -/
def wakeUpParent (s : State) (q : ProcId) : State :=
  { s with
    status := if s.status q = .sleep then update s.status q .runable else s.status
    chain := if s.status q = .sleep then update s.chain q none else s.chain }

/-- The body of `wake_up`'s loop under the slot's lock. -/
def wakeUpOn (s : State) (ch : ℕ) (q : ProcId) : State :=
  { s with
    status :=
      if s.status q = .sleep ∧ s.chain q = some ch then update s.status q .runable else s.status
    chain := if s.status q = .sleep ∧ s.chain q = some ch then update s.chain q none else s.chain }

/-- The scan of `alloc_pid`. -/
def allocPid (s : State) : Option ℤ :=
  (List.range procNum).findSome? fun i => if s.pidSet i then none else some (i : ℤ)

/-- `free_process` after its `free_pid`.  With the kernel stack the position and the saved context
of the process are gone. -/
def freeProcess (s : State) (q : ProcId) : State :=
  { s with
    pidSet := update s.pidSet (s.pid q) false
    pid := update s.pid q (-1)
    status := update s.status q .unused
    killed := update s.killed q false
    xstatus := update s.xstatus q 0
    chain := update s.chain q none
    parent := update s.parent q none
    context := update s.context q none
    kpc := update s.kpc q .user }

/-- The caller has no child at all. -/
def lonely (s : State) (p : ProcId) : Bool := decide (∀ i, s.parent i ≠ some p)

end State

/-- The kernel code holds no lock here and has interrupts on. -/
def Code.open : Code → Bool
  | .user | .groupAcq _ | .sleepRelock _ | .allocAcq _ | .forkInit _ | .forkUndoAcq _
  | .forkCopy _ | .forkFreeAcq _ | .forkReadyAcq _ | .exitInit _ | .exitGroupAcq _ _ _ | .waitSelf _
  | .killAcq _ _ | .countInit => true
  | _ => false

/-- The lock the code of process `p` is about to acquire. -/
def Code.want (p : ProcId) : Code → Option Lock
  | .groupAcq g => some (.group g)
  | .sleepAcq _ _ => some (.proc p)
  | .sleepRelock (some g) => some (.group g)
  | .allocAcq i => some (.proc i)
  | .forkUndoAcq q | .forkFreeAcq q | .forkReadyAcq q => some (.proc q)
  | .exitInit _ | .exitElseInit _ => some (.proc initProc)
  | .exitSelf _ | .exitParSelf _ _ | .exitElseSelf _ => some (.proc p)
  | .reparentAcq _ i => some (.proc i)
  | .exitGroupAcq _ _ g => some (.group g)
  | .exitPar _ par => some (.proc par)
  | .waitSelf _ => some (.proc p)
  | .waitAcq _ i => some (.proc i)
  | .killAcq _ i => some (.proc i)
  | .countInit => some (.proc initProc)
  | .countAcq q _ _ => some (.proc q)
  | .countRestAcq i _ => some (.proc i)
  | _ => none

/-- Where the code goes on once it has the lock. -/
def Code.got (s : State) (p : ProcId) : Code → Code
  | .groupAcq g => .group g
  | .sleepAcq lk ch => .sleepRel lk ch
  | .sleepRelock (some g) => .group g
  | .allocAcq i => .allocHeld i
  | .forkUndoAcq q => .forkUndo q
  | .forkFreeAcq q => .forkFree q
  | .forkReadyAcq q => .forkReady q
  | .exitInit x => .exitSelf x
  | .exitSelf x => .reparent x 0
  | .reparentAcq x i => .reparentHeld x i
  | .exitGroupAcq x par g => .exitGroup x par g
  | .exitPar x par => .exitParSelf x par
  | .exitParSelf x par => .exitBoth x par
  | .exitElseInit x => .exitElseSelf x
  | .exitElseSelf x => .exitElseBoth x
  | .waitSelf st => .waitScan ⟨st, true, s.lonely p⟩ true 0
  | .waitAcq w i => .waitHeld w i
  | .killAcq pid i => .killHeld pid i
  | .countInit => .countScan [(initProc, 0)] fun j => decide (j = initProc)
  | .countAcq q stack locked => .countScan ((q, 0) :: stack) (update locked q true)
  | .countRestAcq i locked => .countRest (i + 1) locked
  | k => k

/-- **The code of process `p`**, from one lock operation to the next. -/
def Code.row (s : State) (e : Env) (p : ProcId) : Code → Option Row
  | .group g => some ⟨.release (.group g), s, .code p .user⟩
  -- `sleep`: the lock of the caller goes once the process lock is there
  | .sleepRel (some g) ch => some ⟨.release (.group g), s, .code p (.sleepSet (some g) ch)⟩
  | .sleepRel none ch => some ⟨.keep, s, .code p (.sleepSet none ch)⟩
  | .sleepSet lk ch =>
    some ⟨.keep, { s with
      status := update s.status p .sleep
      chain := update s.chain p (some ch) }, .switch p (.sleepRelock lk) .unlock⟩
  | .sleepRelock none => some ⟨.keep, s, .code p .user⟩
  -- `alloc_process`
  | .allocHeld i =>
    if s.status i = .unused then
      some ⟨.release (.proc i), { s with status := update s.status i .used },
        .code p (.forkInit i)⟩
    else
      match slot (i + 1) with
      | some j => some ⟨.release (.proc i), s, .code p (.allocAcq j)⟩
      | none => some ⟨.release (.proc i), s, .code p .user⟩
  | .forkInit q =>
    match s.allocPid, e.ok with
    | some n, true =>
      some ⟨.keep, { s with
        pidSet := update s.pidSet n true
        pid := update s.pid q n
        status := update s.status q .used
        killed := update s.killed q false
        xstatus := update s.xstatus q 0
        chain := update s.chain q none
        parent := update s.parent q none
        context := update s.context q (some .unlock) }, .code p (.forkCopy q)⟩
    | _, _ => some ⟨.keep, s, .code p (.forkUndoAcq q)⟩
  | .forkUndo q =>
    some ⟨.release (.proc q), { s with status := update s.status q .unused }, .code p .user⟩
  -- `fork`
  | .forkCopy q =>
    if e.ok then
      some ⟨.keep, { s with
        parent := update s.parent q (some p)
        stamp := update s.stamp q s.clock
        creator := update s.creator q (s.stamp p)
        clock := s.clock + 1 }, .code p (.forkReadyAcq q)⟩
    else some ⟨.keep, s, .code p (.forkFreeAcq q)⟩
  | .forkFree q =>
    if s.pidSet (s.pid q) then some ⟨.release (.proc q), s.freeProcess q, .code p .user⟩
    else some ⟨.keep, s, .panic .freeUnusedPid⟩
  | .forkReady q =>
    some ⟨.release (.proc q), { s with
      status := update s.status q .runable
      log := .forked (s.stamp q) (s.stamp p) (s.pid q) :: s.log }, .code p (.groupAcq e.group)⟩
  -- `exit`, under the locks of `proc_set[0]` and `proc`
  | .reparent x i =>
    match slot i with
    | some j =>
      if s.parent j = some p then some ⟨.keep, s, .code p (.reparentAcq x j)⟩
      else some ⟨.keep, s, .code p (.reparent x (i + 1))⟩
    | none =>
      match s.parent p with
      | some par =>
        some ⟨.release (.proc initProc), { s.wakeUpParent initProc with
          diedAt := update s.diedAt p s.clock
          clock := s.clock + 1 }, .code p (.exitRel x par)⟩
      | none => some ⟨.keep, s, .panic .nullParent⟩
  | .reparentHeld x i =>
    some ⟨.release (.proc i), { s with parent := update s.parent i (some initProc) },
      .code p (.reparent x (i + 1))⟩
  | .exitRel x par => some ⟨.release (.proc p), s, .code p (.exitGroupAcq x par e.group)⟩
  | .exitGroup x par g => some ⟨.release (.group g), s, .code p (.exitPar x par)⟩
  -- `exit`, under the locks of the parent it read and `proc`
  | .exitBoth x par =>
    if s.parent p = some par then
      some ⟨.release (.proc par), s.wakeUpParent par, .code p (.zombie x)⟩
    else if s.parent p = some initProc then
      some ⟨.release (.proc par), s, .code p (.exitElseRel x)⟩
    else some ⟨.keep, s, .panic .reparentToOtherProc⟩
  | .exitElseRel x => some ⟨.release (.proc p), s, .code p (.exitElseInit x)⟩
  | .exitElseBoth x =>
    some ⟨.release (.proc initProc), s.wakeUpParent initProc, .code p (.zombie x)⟩
  | .zombie x =>
    some ⟨.keep, { s with
      status := update s.status p .zombie
      xstatus := update s.xstatus p (x.setWidth 32)
      chain := update s.chain p none }, .switch p .dead .hold⟩
  | .dead => some ⟨.keep, s, .panic .zombieReturned⟩
  -- `wait`
  | .waitScan w noChild i =>
    match slot i with
    | some j =>
      if s.parent j = some p then some ⟨.keep, s, .code p (.waitAcq w j)⟩
      else some ⟨.keep, s, .code p (.waitScan w noChild (i + 1))⟩
    | none =>
      if noChild then some ⟨.keep, s, .code p (.waitErr w)⟩
      else if s.chain p = none then
        some ⟨.keep, { s with
          status := update s.status p .sleep
          chain := update s.chain p none },
          .switch p (.waitScan { w with first := false } true 0) .hold⟩
      else some ⟨.keep, s, .panic .sleepWhenSleeping⟩
  | .waitHeld w i =>
    if s.status i = .zombie then
      if w.status && !e.ok then some ⟨.release (.proc i), s, .code p (.waitErr w)⟩
      else if s.pidSet (s.pid i) then
        some ⟨.release (.proc i), { s.freeProcess i with
          log := .reaped (s.stamp i) (s.stamp p) (s.pid i)
            (if w.status then some (s.xstatus i) else none) :: s.log },
          .code p (.waitEnd w (s.stamp i) (s.pid i))⟩
      else some ⟨.keep, s, .panic .freeUnusedPid⟩
    else some ⟨.release (.proc i), s, .code p (.waitScan w false (i + 1))⟩
  | .waitErr w =>
    if w.first then
      some ⟨.release (.proc p), { s with log := .returned (s.stamp p) w none (-1) :: s.log },
        .code p .user⟩
    else some ⟨.keep, s, .panic .wakeUpWithoutChild⟩
  | .waitEnd w child pid =>
    some ⟨.release (.proc p), { s with log := .returned (s.stamp p) w (some child) pid :: s.log },
      .code p .user⟩
  -- `kill`
  | .killHeld pid i =>
    if s.status i = .used ∨ s.pid i ≠ pid then
      match slot (i + 1) with
      | some j => some ⟨.release (.proc i), s, .code p (.killAcq pid j)⟩
      | none => some ⟨.release (.proc i), s, .code p .user⟩
    else
      some ⟨.release (.proc i), { s with killed := update s.killed i true }, .code p .user⟩
  -- `count_proc_num`
  | .countScan [] locked => some ⟨.keep, s, .code p (.countRest 0 locked)⟩
  | .countScan ((q, i) :: stack) locked =>
    match slot i with
    | some j =>
      if s.parent j = some q then
        some ⟨.keep, s, .code p (.countAcq j ((q, i + 1) :: stack) locked)⟩
      else some ⟨.keep, s, .code p (.countScan ((q, i + 1) :: stack) locked)⟩
    | none => some ⟨.keep, s, .code p (.countScan stack locked)⟩
  | .countRest i locked =>
    match slot i with
    | some j =>
      if locked j then some ⟨.keep, s, .code p (.countRest (i + 1) locked)⟩
      else some ⟨.keep, s, .code p (.countRestAcq j locked)⟩
    | none =>
      some ⟨.keep, s, .code p (.countRel 0
        ((List.finRange procNum).countP fun j => decide (s.status j ≠ .unused)))⟩
  | .countRel i n =>
    match slot i with
    | some j => some ⟨.release (.proc j), s, .code p (.countRel (i + 1) n)⟩
    | none => some ⟨.keep, s, .code p .user⟩
  | _ => none

/-- The entry of a system call. -/
def Code.call (s : State) (p : ProcId) : Code → Syscall → Option Row
  | .user, .fork => some ⟨.keep, s, .code p (.allocAcq 0)⟩
  | .user, .exit x =>
    if s.pid p = 0 then some ⟨.keep, s, .panic .initProcExit⟩
    else some ⟨.keep, { s with log := .exited (s.stamp p) x :: s.log }, .code p (.exitInit x)⟩
  | .user, .wait st => some ⟨.keep, s, .code p (.waitSelf st)⟩
  | .user, .kill pid => some ⟨.keep, s, .code p (.killAcq pid 0)⟩
  | .user, .sleep ch =>
    if s.chain p = none then some ⟨.keep, s, .code p (.sleepAcq none ch)⟩
    else some ⟨.keep, s, .panic .sleepWhenSleeping⟩
  | .group g, .sleep ch =>
    if s.chain p = none then some ⟨.keep, s, .code p (.sleepAcq (some g) ch)⟩
    else some ⟨.keep, s, .panic .sleepWhenSleeping⟩
  | .user, .group g => some ⟨.keep, s, .code p (.groupAcq g)⟩
  | .user, .count => some ⟨.keep, s, .code p .countInit⟩
  | _, _ => none

/-- Where the CPU goes on after `wake_up`. -/
def Ret.pc : Ret → Pc
  | .sched => .sched
  | .group g => .group g
  | .exec p => .exec p

/-- The lock a CPU outside the code of a process is about to acquire. -/
def Pc.want : Pc → Option Lock
  | .groupAcq g => some (.group g)
  | .lookAcq _ q => some (.proc q)
  | .yieldAcq p => some (.proc p)
  | .wakeAcq _ _ i => some (.proc i)
  | _ => none

/-- Where the CPU goes on once it has the lock. -/
def Pc.got : Pc → Pc
  | .groupAcq g => .group g
  | .lookAcq g q => .lookHeld g q
  | .yieldAcq p => .yieldHeld p
  | .wakeAcq ret ch i => .wakeHeld ret ch i
  | k => k

namespace State

/-- The lock CPU `c` is about to acquire, or spins on. -/
def want (s : State) (c : CpuId) : Option Lock :=
  match s.pc c with
  | .exec p => (s.kpc p).want p
  | k => k.want

/-- **What CPU `c` does next without acquiring a lock.** -/
def row (s : State) (c : CpuId) : Pc → Choice → Option Row
  -- `run_process`, with the group operations of the scheduler
  | .sched, .group g => some ⟨.keep, s, .cpu (.groupAcq g)⟩
  | .sched, .wake ch => some ⟨.keep, s, .cpu (.wakeAcq .sched ch 0)⟩
  | .group g, .run _ => some ⟨.release (.group g), s, .cpu .sched⟩
  | .group g, .wake ch => some ⟨.keep, s, .cpu (.wakeAcq (.group g) ch 0)⟩
  | .group g, .look q => some ⟨.keep, s, .cpu (.lookAcq g q)⟩
  | .lookHeld g q, .run _ =>
    if s.status q = .runable then some ⟨.release (.group g), s, .cpu (.start q)⟩
    else some ⟨.release (.proc q), s, .cpu (.group g)⟩
  | .start q, .run _ =>
    match s.context q with
    | none => some ⟨.keep, s, .panic .staleContext⟩
    | some r =>
      some ⟨.keep, { s with
        myProc := update s.myProc c (some q)
        status := update s.status q .running
        context := update s.context q none },
        .cpu (match r with | .unlock => .back q | .hold => .exec q)⟩
  | .after p, .run _ =>
    some ⟨.release (.proc p), { s with myProc := update s.myProc c none }, .cpu .sched⟩
  -- the process
  | .back p, .run _ => some ⟨.release (.proc p), s, .cpu (.exec p)⟩
  | .exec p, .run e => (s.kpc p).row s e p
  | .exec p, .call sc => (s.kpc p).call s p sc
  | .exec p, .timer => if (s.kpc p).open then some ⟨.keep, s, .cpu (.yieldAcq p)⟩ else none
  | .exec p, .wake ch =>
    if (s.kpc p).open then some ⟨.keep, s, .cpu (.wakeAcq (.exec p) ch 0)⟩ else none
  | .yieldHeld p, .run _ =>
    some ⟨.keep, { s with status := update s.status p .runable }, .cpu (.swtch p .unlock)⟩
  | .swtch p r, .run _ =>
    some ⟨.keep, { s with context := update s.context p (some r) }, .cpu (.after p)⟩
  -- `wake_up`
  | .wakeHeld ret ch i, .run _ =>
    match slot (i + 1) with
    | some j => some ⟨.release (.proc i), s.wakeUpOn ch i, .cpu (.wakeAcq ret ch j)⟩
    | none => some ⟨.release (.proc i), s.wakeUpOn ch i, .cpu ret.pc⟩
  | _, _ => none

/-- `PANIC_FN`: the CPU stays where it is, with its locks, for good. -/
def fail (s : State) (c : CpuId) (e : Error) : State :=
  { s with panicked := update s.panicked c (some e) }

/-- CPU `c` has acquired the lock it wanted. -/
def take (s : State) (c : CpuId) (l : Lock) : State :=
  match s.pc c with
  | .exec p =>
    { s with
      lock := update s.lock l (some c)
      kpc := update s.kpc p ((s.kpc p).got s p) }
  | k =>
    { s with
      lock := update s.lock l (some c)
      pc := update s.pc c k.got }

/-- The CPU goes on as the row says. -/
def enter (s : State) (c : CpuId) : Next → State
  | .code p k => { s with kpc := update s.kpc p k }
  | .cpu k => { s with pc := update s.pc c k }
  | .switch p k r => { s with kpc := update s.kpc p k, pc := update s.pc c (.swtch p r) }
  | .panic e => s.fail c e

/-- The whole row, with the check of `release_spin_lock`. -/
def apply (s : State) (c : CpuId) (r : Row) : State :=
  match r.op with
  | .keep => r.post.enter c r.next
  | .release l =>
    if s.lock l = some c then { r.post with lock := r.op.drop r.post.lock }.enter c r.next
    else s.fail c .releaseNotHeld

/-- `acquire_spin_lock`, with its check. -/
def acquire (s : State) (c : CpuId) (l : Lock) : Option State :=
  if s.lock l = some c then some (s.fail c .acquiredHoldingLock)
  else if s.lock l = none then some (s.take c l)
  else none

end State

/-- **One step of one CPU.** -/
def step (s : State) (a : Act) : Option State :=
  if s.panicked a.cpu ≠ none then none
  else
    match a.choice, s.want a.cpu with
    | .run _, some l => s.acquire a.cpu l
    | ch, _ => (s.row a.cpu (s.pc a.cpu) ch).map (s.apply a.cpu)

/-- The state after `setup_init_proc`: `init` is ready to run, every other slot is unused. -/
def boot : State where
  status := fun p => if p = initProc then .runable else .unused
  chain := fun _ => none
  parent := fun _ => none
  pid := fun p => if p = initProc then 0 else -1
  killed := fun _ => false
  xstatus := fun _ => 0
  pidSet := fun i => decide (i = 0)
  context := fun p => if p = initProc then some .unlock else none
  kpc := fun _ => .user
  lock := fun _ => none
  myProc := fun _ => none
  pc := fun _ => .sched
  panicked := fun _ => none
  stamp := fun _ => 0
  creator := fun _ => 0
  diedAt := fun _ => 0
  clock := 1
  log := []

-- the branches of the code, as eliminators
attribute [elab_as_elim] Code.row.fun_cases_unfolding Code.call.fun_cases_unfolding
  Code.want.fun_cases_unfolding Code.got.fun_cases_unfolding State.row.fun_cases_unfolding

/-! ## Schedules -/

/-- CPU `c` goes on, with every allocation and copy succeeding. -/
def go (c : CpuId) : Act := ⟨c, .run ⟨true, 0⟩⟩

/-- CPU `c` goes on `n` times. -/
def goFor (c : CpuId) (n : ℕ) : List Act := List.replicate n (go c)

/-- The scheduler of CPU `c` finds process `q` and runs it. -/
def dispatch (c : CpuId) (q : ProcId) : List Act :=
  [⟨c, .group 0⟩, go c, ⟨c, .look q⟩] ++ goFor c 4

/-- The process of CPU `c` makes a system call and goes on `n` times. -/
def callFor (c : CpuId) (sc : Syscall) (n : ℕ) : List Act := ⟨c, .call sc⟩ :: goFor c n

/-- The states of the process table, over every run. -/
abbrev Reachable : State → Prop := Run.Reachable step boot

end Process
