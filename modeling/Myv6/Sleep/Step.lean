import Mathlib.Data.List.FinRange
import Mathlib.Data.Nat.Notation
import Mathlib.Logic.Function.Basic
import Myv6.Lib.Index
import Myv6.Lib.Run

/-!
# Sleep/Step — `sleep`, `wake_up` and the scheduler, one lock operation at a time

    sleep     check ▸ proc->lock ▸ unlock lk ▸ SLEEP ▸ swtch ┆ back ▸ unlock proc->lock ▸ lk
    wake_up   (proc->lock ▸ test ▸ unlock proc->lock)*
    CPU c     group->lock ▸ proc->lock ▸ RUNABLE? ▸ unlock group->lock ▸ swtch ┆ back ▸ unlock

Every CPU executes its scheduler or a process, on the stack of frames of that thread.  An interrupt
pushes a frame when the CPU holds no lock, also between two slots of `wake_up`.  What other code of
the kernel does is left open but for the lock operations and the calls that matter here; what is done
under the process lock alone, between two operations on locks, is one step.
-/

namespace Sleep

open Function (update)

abbrev CpuId := ℕ

/-- What a process sleeps on, as an address; a `chain` is `none` for `NULL`. -/
abbrev Chan := ℕ

/-- The spin locks: those of the process slots and all others. -/
inductive Lock (n : ℕ)
  | proc (p : Fin n)
  | other (a : ℕ)
  deriving DecidableEq, Repr

/-- `proc->status` -/
inductive Status
  | unused
  | used
  | runable
  | running
  | sleep
  | zombie
  deriving DecidableEq, Repr

/-- History: how far a call of `sleep` has come. -/
inductive Phase
  | called
  /-- It has given up the caller's lock. -/
  | gave
  | slept
  | woken
  deriving DecidableEq, Repr

def Phase.gaveUp : Phase → Bool
  | .called => false
  | _ => true

/-- History: a call of `sleep`. -/
structure Call (n : ℕ) where
  lock : Lock n
  chain : Option Chan
  phase : Phase
  deriving DecidableEq, Repr

/-- `struct process` -/
structure Proc (n : ℕ) where
  status : Status
  chain : Option Chan
  /-- History: the calls of `sleep`, counted, and the latest of them. -/
  calls : ℕ
  last : Option (Call n)
  deriving DecidableEq, Repr

/-- Where a call of `sleep` stands. -/
inductive SleepPc
  | check
  /-- Before the process lock, with both locks, and with the process lock alone. -/
  | acquire | release | set
  /-- `switch_to_scheduler` -/
  | switch
  /-- Behind `swtch`, and before `lock`. -/
  | back | relock
  | ret
  deriving DecidableEq, Repr

/-- Where a call of `wake_up` stands, with the slots after this one. -/
inductive WakePc (n : ℕ)
  | acquire (todo : List (Fin n))
  | test (q : Fin n) (todo : List (Fin n))
  | release (q : Fin n) (todo : List (Fin n))
  deriving DecidableEq, Repr

/-- Where a call of `yield` stands. -/
inductive YieldPc
  | acquire
  | set
  | switch
  | back
  deriving DecidableEq, Repr

/-- Where `run_process` stands, with the group whose lock it holds and the process it looks at. -/
inductive SchedPc (n : ℕ)
  | loop
  | group (g : ℕ)
  | look (g : ℕ) (p : Fin n)
  | found (g : ℕ) (p : Fin n)
  /-- The group's lock has been released. -/
  | start (p : Fin n)
  /-- Behind `swtch`, or on the other side of it. -/
  | back (p : Fin n)
  deriving DecidableEq, Repr

/-- The activation of a function. -/
inductive Frame (n : ℕ)
  /-- Code of the kernel, or a trap handler. -/
  | code
  | sleep (lock : Lock n) (chain : Option Chan) (pc : SleepPc)
  /-- `meant` is history: the calls of `sleep` that the call is meant for. -/
  | wakeUp (chain : Option Chan) (pc : WakePc n) (meant : List (Fin n × ℕ))
  | yield (pc : YieldPc)
  /-- The end of `exit`. -/
  | exit
  /-- `user_proc_entry` -/
  | entry
  | sched (pc : SchedPc n)
  deriving DecidableEq, Repr

/-- The panics of the modelled code. -/
inductive Error
  /-- "sleep when sleeping" -/
  | sleepSleeping
  /-- "introff_n != 1" -/
  | introff
  /-- "acquired holding lock" -/
  | acquireHolding
  /-- "release spin_lock not hold by this cpu" -/
  | releaseNotHold
  deriving DecidableEq, Repr

/-- The threads: the scheduler of a CPU, or a process. -/
abbrev Tid (n : ℕ) := CpuId ⊕ Fin n

structure State (n : ℕ) where
  proc : Fin n → Proc n
  /-- `lock->cpu_id` -/
  owner : Lock n → Option CpuId
  /-- The locks of a CPU; `introff_n` is their number. -/
  held : CpuId → List (Lock n)
  /-- `my_proc`, as the process whose code the CPU executes. -/
  running : CpuId → Option (Fin n)
  stack : Tid n → List (Frame n)
  panicked : CpuId → Option Error
  /-- History: the thread has taken the lock of the process's latest call of `sleep` after it was
  given up. -/
  seen : Tid n → Fin n → Bool
  /-- History: the calls of `sleep` that a call of `wake_up` which has returned was meant for. -/
  returned : List (Fin n × ℕ)

/-- What the code of a frame does that is not followed. -/
inductive Use (n : ℕ)
  | acquire (l : Lock n)
  | release (l : Lock n)
  | sleep (l : Lock n) (chain : Option Chan)
  | wakeUp (chain : Option Chan)
  | wakeUpParent (q : Fin n)
  | yield
  /-- The end of `exit`, with the process lock. -/
  | exit
  /-- `alloc_process`, `fork` and `free_process` on a slot whose lock is held. -/
  | alloc (q : Fin n) | start (q : Fin n) | free (q : Fin n)
  /-- The return from a handler. -/
  | ret
  deriving DecidableEq, Repr

/-- What a CPU does next. -/
inductive Choice (n : ℕ)
  /-- The next step of `sleep`, `wake_up`, `yield`, `exit` or the scheduler. -/
  | go
  /-- An interrupt, or a call from the scheduler. -/
  | enter
  | use (u : Use n)
  /-- The scheduler takes the lock of a group, and that of a process in it. -/
  | group (g : ℕ) | look (p : Fin n)
  deriving DecidableEq, Repr

variable {n : ℕ}

namespace Proc

/-- `SLEEP` becomes `RUNABLE`, and the chain `NULL`. -/
def wake (x : Proc n) : Proc n :=
  { x with status := .runable, chain := none, last := x.last.map ({ · with phase := .woken }) }

/-- The phase of the latest call. -/
def setPhase (x : Proc n) (phase : Phase) : Proc n :=
  { x with last := x.last.map ({ · with phase := phase }) }

end Proc

namespace State

/-- The thread that CPU `c` executes. -/
def cur (s : State n) (c : CpuId) : Tid n :=
  match s.running c with
  | some p => .inr p
  | none => .inl c

def setStack (s : State n) (c : CpuId) (fs : List (Frame n)) : State n :=
  { s with stack := update s.stack (s.cur c) fs }

def setProc (s : State n) (p : Fin n) (x : Proc n) : State n := { s with proc := update s.proc p x }

def panic (s : State n) (c : CpuId) (e : Error) : State n :=
  { s with panicked := update s.panicked c (some e) }

/-- Threads that take the lock of a call after it was given up. -/
def noteSeen (s : State n) (t : Tid n) (l : Lock n) (t' : Tid n) (q : Fin n) : Bool :=
  s.seen t' q || (decide (t' = t) &&
    (s.proc q).last.elim false fun call => decide (call.lock = l) && call.phase.gaveUp)

/-- `acquire_spin_lock`, once the lock is free. -/
def acquire (s : State n) (c : CpuId) (l : Lock n) (fs : List (Frame n)) : Option (State n) :=
  if s.owner l = some c then some (s.panic c .acquireHolding)
  else if s.owner l = none then
    some { s.setStack c fs with
      owner := update s.owner l (some c)
      held := update s.held c (l :: s.held c)
      seen := s.noteSeen (s.cur c) l }
  else none

/-- `release_spin_lock` -/
def release (s : State n) (c : CpuId) (l : Lock n) (fs : List (Frame n)) : State n :=
  if s.owner l = some c then
    { s.setStack c fs with
      owner := update s.owner l none
      held := update s.held c ((s.held c).erase l) }
  else s.panic c .releaseNotHold

/-- `switch_to_scheduler` -/
def switchToScheduler (s : State n) (c : CpuId) (fs : List (Frame n)) : State n :=
  if (s.held c).length ≠ 1 then s.panic c .introff
  else { s.setStack c fs with running := update s.running c none }

/-- A call of `sleep` begins. -/
def callSleep (s : State n) (c : CpuId) (p : Fin n) (l : Lock n) (chain : Option Chan)
    (fs : List (Frame n)) : State n :=
  { (s.setProc p { s.proc p with
      calls := (s.proc p).calls + 1
      last := some ⟨l, chain, .called⟩ }).setStack c (.sleep l chain .check :: fs) with
    seen := fun t q => if q = p then false else s.seen t q }

/-- **The next step of `sleep`.** -/
def goSleep (s : State n) (c : CpuId) (p : Fin n) (l : Lock n) (chain : Option Chan)
    (fs : List (Frame n)) : SleepPc → Option (State n)
  | .check =>
    if (s.proc p).chain ≠ none then some (s.panic c .sleepSleeping)
    else some (s.setStack c (.sleep l chain (if l = .proc p then .set else .acquire) :: fs))
  | .acquire => s.acquire c (.proc p) (.sleep l chain .release :: fs)
  | .release =>
    if s.owner l = some c then
      some ((s.release c l (.sleep l chain .set :: fs)).setProc p ((s.proc p).setPhase .gave))
    else some (s.panic c .releaseNotHold)
  | .set => some ((s.setStack c (.sleep l chain .switch :: fs)).setProc p
      { (s.proc p).setPhase .slept with status := .sleep, chain := chain })
  | .switch => some (s.switchToScheduler c
      (.sleep l chain (if l = .proc p then .ret else .back) :: fs))
  | .back => some (s.release c (.proc p) (.sleep l chain .relock :: fs))
  | .relock => s.acquire c l (.sleep l chain .ret :: fs)
  | .ret => some (s.setStack c fs)

/-- The calls of `sleep` that a call of `wake_up` is meant for: those on the chain whose lock the
caller holds, or has taken after it was given up. -/
def meant (s : State n) (c : CpuId) (chain : Option Chan) : List (Fin n × ℕ) :=
  (List.finRange n).filterMap fun q => (s.proc q).last.bind fun call =>
    if call.chain = chain ∧ (s.owner call.lock = some c ∨ s.seen (s.cur c) q = true) then
      some (q, (s.proc q).calls)
    else none

/-- The test of `wake_up`. -/
def wakeIf (s : State n) (q : Fin n) (chain : Option Chan) : State n :=
  if (s.proc q).status = .sleep ∧ (s.proc q).chain = chain then s.setProc q (s.proc q).wake else s

/-- **The next step of `wake_up`.** -/
def goWakeUp (s : State n) (c : CpuId) (chain : Option Chan) (meant : List (Fin n × ℕ))
    (fs : List (Frame n)) : WakePc n → Option (State n)
  | .acquire [] => some { s.setStack c fs with returned := meant ++ s.returned }
  | .acquire (q :: todo) => s.acquire c (.proc q) (.wakeUp chain (.test q todo) meant :: fs)
  | .test q todo =>
    some ((s.wakeIf q chain).setStack c (.wakeUp chain (.release q todo) meant :: fs))
  | .release q todo => some (s.release c (.proc q) (.wakeUp chain (.acquire todo) meant :: fs))

/-- The next step of `yield(RUNABLE)`. -/
def goYield (s : State n) (c : CpuId) (p : Fin n) (fs : List (Frame n)) : YieldPc → Option (State n)
  | .acquire => s.acquire c (.proc p) (.yield .set :: fs)
  | .set => some ((s.setStack c (.yield .switch :: fs)).setProc p
      { s.proc p with status := .runable })
  | .switch => some (s.switchToScheduler c (.yield .back :: fs))
  | .back => some (s.release c (.proc p) fs)

/-- **The next step of the scheduler.** -/
def goSched (s : State n) (c : CpuId) (fs : List (Frame n)) : SchedPc n → Option (State n)
  | .loop => none
  | .group g => some (s.release c (.other g) (.sched .loop :: fs))
  | .look g p =>
    if (s.proc p).status = .runable then some (s.setStack c (.sched (.found g p) :: fs))
    else some (s.release c (.proc p) (.sched (.group g) :: fs))
  | .found g p => some (s.release c (.other g) (.sched (.start p) :: fs))
  | .start p => some { (s.setStack c (.sched (.back p) :: fs)).setProc p
      { s.proc p with status := .running } with running := update s.running c (some p) }
  | .back p => some (s.release c (.proc p) (.sched .loop :: fs))

/-- The next step of the frame at the top. -/
def go (s : State n) (c : CpuId) (f : Frame n) (fs : List (Frame n)) : Option (State n) :=
  match f, s.running c with
  | .sleep l chain pc, some p => s.goSleep c p l chain fs pc
  | .wakeUp chain pc meant, _ => s.goWakeUp c chain meant fs pc
  | .yield pc, some p => s.goYield c p fs pc
  | .exit, some _ => some (s.switchToScheduler c [])
  | .entry, some p => some (s.release c (.proc p) (.code :: fs))
  | .sched pc, none => s.goSched c fs pc
  | _, _ => none

/-- What code that is not followed does, with the frames below it. -/
def use (s : State n) (c : CpuId) (fs : List (Frame n)) : Use n → Option (State n)
  | .acquire l => s.acquire c l (.code :: fs)
  | .release l => some (s.release c l (.code :: fs))
  | .sleep l chain =>
    match s.running c with
    | some p => if s.owner l = some c then some (s.callSleep c p l chain (.code :: fs)) else none
    | none => none
  | .wakeUp chain =>
    some (s.setStack c (.wakeUp chain (.acquire (List.finRange n)) (s.meant c chain) :: .code :: fs))
  | .wakeUpParent q =>
    if s.owner (.proc q) = some c then
      some (if (s.proc q).status = .sleep then s.setProc q (s.proc q).wake else s)
    else none
  | .yield => if (s.running c).isSome then some (s.setStack c (.yield .acquire :: .code :: fs)) else none
  | .exit =>
    match s.running c with
    | some p =>
      if s.owner (.proc p) = some c then
        some ((s.setStack c [.exit]).setProc p { s.proc p with status := .zombie, chain := none })
      else none
    | none => none
  | .alloc q =>
    if s.owner (.proc q) = some c ∧ (s.proc q).status = .unused then
      some (s.setProc q { s.proc q with status := .used, chain := none })
    else none
  | .start q =>
    if s.owner (.proc q) = some c ∧ (s.proc q).status = .used then
      some { s.setProc q { s.proc q with status := .runable } with
        stack := update s.stack (.inr q) [.entry] }
    else none
  | .free q =>
    if s.owner (.proc q) = some c ∧
        ((s.proc q).status = .used ∨ (s.proc q).status = .zombie) then
      some (s.setProc q { s.proc q with status := .unused, chain := none })
    else none
  | .ret => if s.held c = [] ∧ fs ≠ [] then some (s.setStack c fs) else none

end State

/-- **One step of a CPU.** -/
def step (s : State n) (a : CpuId × Choice n) : Option (State n) :=
  if (s.panicked a.1).isSome then none
  else
    match s.stack (s.cur a.1), a.2 with
    | f :: fs, .go => s.go a.1 f fs
    | f :: fs, .enter => if s.held a.1 = [] then some (s.setStack a.1 (.code :: f :: fs)) else none
    | .code :: fs, .use u => s.use a.1 fs u
    | .sched .loop :: fs, .group g => s.acquire a.1 (.other g) (.sched (.group g) :: fs)
    | .sched (.group g) :: fs, .look p => s.acquire a.1 (.proc p) (.sched (.look g p) :: fs)
    | _, _ => none

/-- After `setup_init_proc`, with the process of slot 0 ready and every CPU in its scheduler. -/
def init (n : ℕ) : State n where
  proc p := ⟨if p.val = 0 then .runable else .unused, none, 0, none⟩
  owner _ := none
  held _ := []
  running _ := none
  stack
    | .inl _ => [.sched .loop]
    | .inr p => if p.val = 0 then [.entry] else []
  panicked _ := none
  seen _ _ := false
  returned := []

/-- The states over every run. -/
abbrev Reachable : State n → Prop := Run.Reachable step (init n)

end Sleep
