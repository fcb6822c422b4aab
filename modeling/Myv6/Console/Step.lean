import Myv6.Console.Input
import Myv6.Lib.Run

/-!
# Console/Step — readers and interrupt handlers, one lock operation at a time

    reader    lines ▸ (sleep) ▸ input ▸ pop      console_getc ▸ uart_just_getc ▸ uart_getc
    handler   input ▸ byte ▸ lines ▸ count       uart_intr ▸ console_intr

A CPU executes a process in `console_getc`, an interrupt handler in `uart_intr`, or something else.
A process that holds neither lock can be switched out and go on elsewhere, and can be interrupted;
a CPU that holds a lock has interrupts off.  `sleep` gives up its lock and the CPU in one step.
Any number of CPUs and processes take part.
-/

namespace Console

abbrev CpuId := ℕ

abbrev ProcId := ℕ

/-- The two locks of the input path. -/
inductive Lock
  /-- `input_lines_lock`. -/
  | lines
  /-- `uart_input_lock`. -/
  | input
  deriving DecidableEq, Repr

/-- Where a process stands in `console_getc`. -/
inductive ReadPc
  /-- Not in `console_getc`. -/
  | out
  /-- Before `acquire_spin_lock(&input_lines_lock)`, at the top or back from `sleep`. -/
  | lines
  /-- Holding `input_lines_lock`, at the test of `input_lines`. -/
  | test
  /-- Holding `input_lines_lock`, in `uart_just_getc` before `uart_input_lock`. -/
  | justGetc
  /-- Holding both, in `uart_just_getc`. -/
  | justTake
  /-- `uart_just_getc` returned `-1`: still holding `input_lines_lock`. -/
  | noChar
  /-- In `uart_getc`, before `uart_input_lock`. -/
  | getc
  /-- In `uart_getc`, holding `uart_input_lock`. -/
  | getcTake
  /-- Back from `uart_getc` with a byte, before `input_lines_lock`. -/
  | relock (c : UInt8)
  /-- Holding `input_lines_lock`, with the byte to return. -/
  | finish (c : UInt8)
  deriving DecidableEq, Repr

/-- Where a handler stands in `uart_intr`. -/
inductive IntrPc
  /-- Before `uart_input_lock`. -/
  | start
  /-- Holding `uart_input_lock`, before the next look at the device. -/
  | read (hasInput : Bool)
  /-- `console_intr` on a byte that ends a line, before `input_lines_lock`. -/
  | count (c : UInt8)
  /-- Holding both. -/
  | counting (c : UInt8)
  /-- `input_lines_lock` released again, before `wake_up(&input_lines)`. -/
  | counted (c : UInt8)
  deriving DecidableEq, Repr

/-- What a CPU executes; a handler keeps what it interrupted. -/
inductive Pc
  | idle
  | read (p : ProcId) (k : ReadPc)
  | intr (k : IntrPc) (saved : Option (ProcId × ReadPc))
  deriving DecidableEq, Repr

/-- A process as the scheduler sees it. -/
inductive ProcState
  | onCpu
  | ready (k : ReadPc)
  /-- Asleep on `&input_lines`. -/
  | asleepLines
  /-- Asleep on `&uart_input_queue`. -/
  | asleepInput
  deriving DecidableEq, Repr

/-- The console input path. -/
structure State where
  inputLines : UInt64
  queue : InputQueue
  lock : Lock → Option CpuId
  cpu : CpuId → Pc
  proc : ProcId → ProcState

namespace State

def setCpu (s : State) (c : CpuId) (k : Pc) : State := { s with cpu := Function.update s.cpu c k }

def setLock (s : State) (l : Lock) (o : Option CpuId) : State :=
  { s with lock := Function.update s.lock l o }

def setProc (s : State) (p : ProcId) (k : ProcState) : State :=
  { s with proc := Function.update s.proc p k }

/-- `acquire_spin_lock`, once the lock is free, then on to `k`. -/
def acquire (s : State) (c : CpuId) (l : Lock) (k : Pc) : Option State :=
  if s.lock l = none then some ((s.setLock l (some c)).setCpu c k) else none

/-- `release_spin_lock`, then on to `k`. -/
def release (s : State) (c : CpuId) (l : Lock) (k : Pc) : State := (s.setLock l none).setCpu c k

/-- `sleep(lock, chain)`: the lock and the CPU are given up together. -/
def sleep (s : State) (c : CpuId) (p : ProcId) (l : Lock) (k : ProcState) : State :=
  (s.setProc p k).release c l .idle

/-- `wake_up(&input_lines)`: the sleepers go on to take `input_lines_lock` again. -/
def wakeUpLines (s : State) : State :=
  { s with proc := fun p => if s.proc p = .asleepLines then .ready .lines else s.proc p }

/-- `wake_up(&uart_input_queue)`: the sleepers go on to take `uart_input_lock` again. -/
def wakeUpInput (s : State) : State :=
  { s with proc := fun p => if s.proc p = .asleepInput then .ready .getc else s.proc p }

/-- The next step of process `p` in `console_getc` on CPU `c`. -/
def readStep (s : State) (c : CpuId) (p : ProcId) : ReadPc → Option State
  | .out => none
  | .lines => s.acquire c .lines (.read p .test)
  | .test =>
    some (if s.inputLines = 0 then s.sleep c p .lines .asleepLines
      else s.setCpu c (.read p .justGetc))
  | .justGetc => s.acquire c .input (.read p .justTake)
  | .justTake =>
    some (if s.queue.uartQueueEmpty then s.release c .input (.read p .noChar)
      else { s with queue := s.queue.pop.2 }.release c .input (.read p (.finish s.queue.pop.1)))
  | .noChar => some (s.release c .lines (.read p .getc))
  | .getc => s.acquire c .input (.read p .getcTake)
  | .getcTake =>
    some (if s.queue.uartQueueEmpty then s.sleep c p .input .asleepInput
      else { s with queue := s.queue.pop.2 }.release c .input (.read p (.relock s.queue.pop.1)))
  | .relock b => s.acquire c .lines (.read p (.finish b))
  | .finish b =>
    some ({ s with
      inputLines := if b = newline ∨ b = ctrlD then s.inputLines - 1 else s.inputLines }.release c
        .lines (.read p .out))

/-- What a handler returns to. -/
def resume : Option (ProcId × ReadPc) → Pc
  | none => .idle
  | some (p, k) => .read p k

/-- The next step of `uart_intr` on CPU `c`; `byte` is what the device has to offer. -/
def intrStep (s : State) (c : CpuId) (saved : Option (ProcId × ReadPc)) (byte : Option UInt8) :
    IntrPc → Option State
  | .start => s.acquire c .input (.intr (.read false) saved)
  | .read hasInput =>
    some (match byte with
      | none =>
        (if hasInput then s.wakeUpInput else s).release c .input (resume saved)
      | some b =>
        if endsLine b then s.setCpu c (.intr (.count b) saved)
        else { s with queue := s.queue.accept b }.setCpu c (.intr (.read true) saved))
  | .count b => s.acquire c .lines (.intr (.counting b) saved)
  | .counting b =>
    some ({ s with inputLines := s.inputLines + 1 }.release c .lines (.intr (.counted b) saved))
  | .counted b =>
    some ({ s.wakeUpLines with queue := s.queue.accept b }.setCpu c (.intr (.read true) saved))

end State

/-- The process holds neither lock here, so it can be interrupted or switched out. -/
def ReadPc.open : ReadPc → Bool
  | .out | .lines | .getc | .relock _ => true
  | _ => false

/-- What can happen next. -/
inductive Act
  /-- CPU `c` goes on; `byte` is what the device offers. -/
  | cpu (c : CpuId) (byte : Option UInt8)
  /-- The process on CPU `c` calls `console_getc`. -/
  | call (c : CpuId)
  /-- CPU `c` takes an interrupt of the UART. -/
  | interrupt (c : CpuId)
  /-- The scheduler of CPU `c` runs process `p`. -/
  | dispatch (c : CpuId) (p : ProcId)
  /-- CPU `c` gives up its process. -/
  | preempt (c : CpuId)
  /-- A sleeper is woken for another reason. -/
  | wake (p : ProcId)
  deriving DecidableEq, Repr

/-- **One step of the console input path.** -/
def step (s : State) : Act → Option State
  | .cpu c byte =>
    match s.cpu c with
    | .idle => none
    | .read p k => s.readStep c p k
    | .intr k saved => s.intrStep c saved byte k
  | .call c =>
    match s.cpu c with
    | .read p .out => some (s.setCpu c (.read p .lines))
    | _ => none
  | .interrupt c =>
    match s.cpu c with
    | .idle => some (s.setCpu c (.intr .start none))
    | .read p k => if k.open then some (s.setCpu c (.intr .start (some (p, k)))) else none
    | .intr _ _ => none
  | .dispatch c p =>
    match s.cpu c, s.proc p with
    | .idle, .ready k => some ((s.setProc p .onCpu).setCpu c (.read p k))
    | _, _ => none
  | .preempt c =>
    match s.cpu c with
    | .read p k => if k.open then some ((s.setProc p (.ready k)).setCpu c .idle) else none
    | _ => none
  | .wake p =>
    match s.proc p with
    | .asleepLines => some (s.setProc p (.ready .lines))
    | .asleepInput => some (s.setProc p (.ready .getc))
    | _ => none

/-- The state after `console_init`: nothing read, nobody in the console. -/
def init : State where
  inputLines := 0
  queue := ⟨fun _ => 0, 0, 0⟩
  lock := fun _ => none
  cpu := fun _ => .idle
  proc := fun _ => .ready .out

/-- The states of the console input path, over every run. -/
abbrev Reachable : State → Prop := Run.Reachable step init

end Console
