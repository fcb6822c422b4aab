import Mathlib.Data.Int.Notation
import Mathlib.Data.Nat.Notation
import Mathlib.Logic.Function.Basic
import Myv6.Lib.Run
import Myv6.Lib.Index

/-!
# Intr/Step — `push_introff`, `pop_introff` and `swtch` on every CPU

    struct cpu      origin_ie, introff_n, and the SIE bit of its sstatus
    a thread        a process or a scheduler: its frames, one more for each trap it is in

A thread enters and leaves pairs (`push_introff` … `pop_introff`, and `acquire_spin_lock` …
`release_spin_lock`, which contain them) properly nested within a frame.  With SIE set an interrupt
can come at any point, also between the two halves of `push_introff`, and returns with SIE set
again.  What the pairs are for and which locks are free is left open; `run_process` is followed lock
by lock, since the process lock it acquires is released on the other side of `swtch`.
-/

namespace Intr

open Function (update)

abbrev CpuId := ℕ

abbrev ProcId := ℕ

/-- The activation of kernel code, or of a trap handler on top of it. -/
structure Frame where
  /-- History: how many pairs the code is inside. -/
  depth : ℕ
  /-- History: SIE when it entered the outermost of them. -/
  base : Bool
  /-- The local `origin_ie` of a `push_introff` that has not turned interrupts off yet. -/
  read : Option Bool
  deriving DecidableEq, Repr

/-- The frames of a thread. -/
structure Thread where
  top : Frame
  below : List Frame
  deriving DecidableEq, Repr

/-- Where `run_process` stands. -/
inductive SchedPc
  /-- `scheduler`, and `run_process` before it has the group's lock. -/
  | loop
  /-- With the group's lock. -/
  | group
  /-- With the group's lock and the lock of a process of the group. -/
  | look
  /-- The group's lock has been released, `swtch` is next. -/
  | start
  /-- After `swtch`, or on the other side of it. -/
  | back
  deriving DecidableEq, Repr

/-- Where a process is. -/
inductive Place
  | free
  /-- Off the CPUs.  A process that has left through `switch_to_scheduler` has its local `origin_ie`;
  one that has not run yet is going to enter `user_proc_entry`. -/
  | off (saved : Option Bool)
  /-- Behind `swtch` in `switch_to_scheduler`, before `my_cpu()->origin_ie = origin_ie`. -/
  | resume (c : CpuId) (saved : Bool)
  | on (c : CpuId)
  deriving DecidableEq, Repr

/-- The panics of the modelled code. -/
inductive Error
  /-- `pop_introff`: SIE is set. -/
  | popIntr
  /-- `pop_introff`: `introff_n <= 0`. -/
  | popWithoutPush
  /-- `switch_to_scheduler`: SIE is set. -/
  | switchIntr
  /-- `switch_to_scheduler`: `introff_n != 1`. -/
  | switchDepth
  deriving DecidableEq, Repr

structure State where
  sie : CpuId → Bool
  introffN : CpuId → ℤ
  originIe : CpuId → Bool
  /-- `my_proc`, as the thread whose code the CPU executes. -/
  running : CpuId → Option ProcId
  sched : CpuId → Thread
  schedPc : CpuId → SchedPc
  proc : ProcId → Thread
  place : ProcId → Place
  /-- History: the process is in `user_proc_entry`, before the end of its first release. -/
  entry : ProcId → Bool
  panicked : CpuId → Option Error

/-- What a CPU does next. -/
inductive Choice
  /-- `push_introff` reads SIE. -/
  | read
  /-- `push_introff` turns interrupts off; `lock` is an acquire of `run_process` itself. -/
  | push (lock : Bool)
  /-- `pop_introff`; `lock` is a release of `run_process` itself. -/
  | pop (lock : Bool)
  /-- `run_process` releases the group's lock and keeps the process it has found. -/
  | found
  /-- An interrupt, and the return from it. -/
  | trap
  | trapRet
  /-- `intron`, `introff` and the traps from user space, outside all pairs. -/
  | setSie (b : Bool)
  /-- `switch_to_scheduler`. -/
  | switch
  /-- `my_cpu()->origin_ie = origin_ie` in `switch_to_scheduler`. -/
  | restore
  /-- `swtch` in `run_process`. -/
  | dispatch (p : ProcId)

inductive Act
  | cpu (c : CpuId) (ch : Choice)
  /-- `alloc_process` makes up a process. -/
  | create (p : ProcId)
  /-- A process that is off the CPUs is freed. -/
  | free (p : ProcId)

namespace State

/-- The thread whose code CPU `c` executes. -/
def thread (s : State) (c : CpuId) : Thread :=
  match s.running c with
  | some p => s.proc p
  | none => s.sched c

/-- The top frame of the running thread. -/
def top (s : State) (c : CpuId) : Frame := (s.thread c).top

def setThread (s : State) (c : CpuId) (t : Thread) : State :=
  match s.running c with
  | some p => { s with proc := update s.proc p t }
  | none => { s with sched := update s.sched c t }

def setTop (s : State) (c : CpuId) (f : Frame) : State :=
  s.setThread c { s.thread c with top := f }

def fail (s : State) (c : CpuId) (e : Error) : State :=
  { s with panicked := update s.panicked c (some e) }

/-- The code of the CPU can go on: it is not just behind the `swtch` of `switch_to_scheduler`. -/
def ready (s : State) (c : CpuId) : Bool :=
  match s.running c with
  | some p => decide (s.place p = .on c)
  | none => true

/-- `push_introff`, with `origin_ie` read as `b`. -/
def pushIntroff (s : State) (c : CpuId) (b : Bool) : State :=
  { s.setTop c
      { depth := (s.top c).depth + 1
        base := if (s.top c).depth = 0 then s.sie c else (s.top c).base
        read := none } with
    sie := update s.sie c false
    originIe := if s.introffN c = 0 then update s.originIe c b else s.originIe
    introffN := update s.introffN c (s.introffN c + 1) }

/-- `pop_introff`. -/
def popIntroff (s : State) (c : CpuId) : State :=
  if s.sie c then s.fail c .popIntr
  else if s.introffN c ≤ 0 then s.fail c .popWithoutPush
  else
    { s.setTop c { s.top c with depth := (s.top c).depth - 1 } with
      introffN := update s.introffN c (s.introffN c - 1)
      sie := if s.introffN c - 1 = 0 ∧ s.originIe c then update s.sie c true else s.sie
      entry := match s.running c with
        | some p => if (s.top c).depth = 1 then update s.entry p false else s.entry
        | none => s.entry }

def setPc (s : State) (c : CpuId) (k : SchedPc) : State :=
  { s with schedPc := update s.schedPc c k }

/-- `switch_to_scheduler` up to its `swtch`. -/
def switchToScheduler (s : State) (c : CpuId) (p : ProcId) : State :=
  if s.sie c then s.fail c .switchIntr
  else if s.introffN c ≠ 1 then s.fail c .switchDepth
  else
    { s with
      place := update s.place p (.off (some (s.originIe c)))
      originIe := update s.originIe c false
      running := update s.running c none }

/-- `run_process` from `mycpu->origin_ie = 0` to its `swtch`.  Its own outermost pair ends with
SIE off, whatever it was before. -/
def dispatch (s : State) (c : CpuId) (p : ProcId) (saved : Option Bool) : State :=
  { s with
    originIe := update s.originIe c false
    running := update s.running c (some p)
    sched := update s.sched c { s.sched c with top := { (s.sched c).top with base := false } }
    schedPc := update s.schedPc c .back
    place := update s.place p (match saved with | some b => .resume c b | none => .on c) }

/-- Where an acquire or release of `run_process` itself leads, from the given depth. -/
def lockPc : SchedPc → ℕ → Option SchedPc
  | .loop, 0 => some .group
  | .group, 1 => some .look
  | _, _ => none

def unlockPc : SchedPc → ℕ → Option SchedPc
  | .group, 1 => some .loop
  | .look, 2 => some .group
  | .back, 1 => some .loop
  | _, _ => none

/-- A pair of the code between the locks of `run_process`, and of the handlers. -/
def inner (s : State) (c : CpuId) (pop : Bool) : Bool :=
  match s.running c, s.schedPc c with
  | some _, _ | none, .loop => !pop || decide (0 < (s.top c).depth)
  | none, .group => !pop || decide (1 < (s.top c).depth)
  | _, _ => false

end State

open State in
/-- **One step.** -/
def step (s : State) : Act → Option State
  | .cpu c ch =>
    if s.panicked c ≠ none then none
    else
      match ch with
      | .read =>
        if s.ready c ∧ (s.top c).read = none then
          some (s.setTop c { s.top c with read := some (s.sie c) })
        else none
      | .push lock =>
        match (s.top c).read with
        | none => none
        | some b =>
          if lock then
            if s.running c = none ∧ (s.sched c).below = [] then
              (lockPc (s.schedPc c) (s.top c).depth).map fun k => (s.pushIntroff c b).setPc c k
            else none
          else if s.inner c false then some (s.pushIntroff c b) else none
      | .pop lock =>
        if s.ready c ∧ (s.top c).read = none then
          if lock then
            if s.running c = none ∧ (s.sched c).below = [] then
              (unlockPc (s.schedPc c) (s.top c).depth).map fun k => (s.popIntroff c).setPc c k
            else none
          else if s.inner c true then some (s.popIntroff c) else none
        else none
      | .found =>
        if s.running c = none ∧ s.schedPc c = .look ∧ (s.top c).read = none then
          some ((s.popIntroff c).setPc c .start)
        else none
      | .trap =>
        if s.ready c ∧ s.sie c then
          some { s.setThread c ⟨⟨0, false, none⟩, s.top c :: (s.thread c).below⟩ with
            sie := update s.sie c false }
        else none
      | .trapRet =>
        match (s.thread c).below with
        | [] => none
        | f :: below =>
          if s.ready c ∧ (s.top c).depth = 0 ∧ (s.top c).read = none then
            some { s.setThread c ⟨f, below⟩ with sie := update s.sie c true }
          else none
      | .setSie b =>
        if s.ready c ∧ (s.thread c).below = [] ∧ (s.top c).depth = 0 ∧ (s.top c).read = none then
          some { s with sie := update s.sie c b }
        else none
      | .switch =>
        match s.running c with
        | some p =>
          if s.ready c ∧ (s.top c).read = none then some (s.switchToScheduler c p) else none
        | none => none
      | .restore =>
        match s.running c with
        | some p =>
          match s.place p with
          | .resume _ b =>
            some { s with
              originIe := update s.originIe c b
              place := update s.place p (.on c) }
          | _ => none
        | none => none
      | .dispatch p =>
        if s.running c = none ∧ s.schedPc c = .start ∧ (s.top c).read = none then
          match s.place p with
          | .off saved => some (s.dispatch c p saved)
          | _ => none
        else none
  | .create p =>
    if s.place p = .free then
      some { s with
        place := update s.place p (.off none)
        proc := update s.proc p ⟨⟨1, false, none⟩, []⟩
        entry := update s.entry p true }
    else none
  | .free p =>
    match s.place p with
    | .off _ => some { s with place := update s.place p .free }
    | _ => none

/-- The CPUs at the start of `scheduler`. -/
def boot : State where
  sie := fun _ => false
  introffN := fun _ => 0
  originIe := fun _ => false
  running := fun _ => none
  sched := fun _ => ⟨⟨0, false, none⟩, []⟩
  schedPc := fun _ => .loop
  proc := fun _ => ⟨⟨0, false, none⟩, []⟩
  place := fun _ => .free
  entry := fun _ => false
  panicked := fun _ => none

/-- The states of the CPUs and processes, over every run. -/
abbrev Reachable : State → Prop := Run.Reachable step boot

end Intr
