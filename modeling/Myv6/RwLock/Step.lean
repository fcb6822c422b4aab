import Mathlib.Data.Int.Notation
import Mathlib.Data.Nat.Notation
import Mathlib.Logic.Function.Basic
import Myv6.Lib.Run
import Myv6.Lib.Index

/-!
# RwLock/Step — the reader-writer lock, one lock operation at a time

    acquire   rw->lock ▸ test ▸ (sleep ▸ rw->lock ▸ test)* ▸ count ▸ unlock
    release   rw->lock ▸ uncount ▸ wake_up, slot after slot ▸ unlock

Readers sleep on `&rw->write_wait_count`, writers on `&rw->read_count`; a chain is named by the side
that sleeps on it.  A thread in `sleep` holds its own process lock from before it gives up `rw->lock`
until it is asleep, and `wake_up` takes the process lock of one slot after the other, so it waits
for such a thread.  A sleeper can be woken for another reason at any time.
-/

namespace RwLock

open Function (update)

/-- The two sides of the lock, and the chains they sleep on. -/
inductive Side
  | read
  | write
  deriving DecidableEq, Repr

/-- Where a thread stands. -/
inductive Pc
  /-- Outside the lock, holding neither side. -/
  | out
  /-- `acquire_rw_r_read_lock`, `acquire_rw_r_write_lock` before `rw->lock`. -/
  | acq (side : Side)
  /-- `acquire_rw_r_write_lock`, before `write_wait_count++`. -/
  | enter
  /-- The test of the `while` loop. -/
  | test (side : Side)
  /-- `sleep`: before the process lock, with both locks, with the process lock, asleep, and back
  from `switch_to_scheduler` before `rw->lock`. -/
  | sleepAcq (side : Side) | sleepRel (side : Side) | sleepSet (side : Side) | asleep (side : Side)
  | relock (side : Side)
  /-- Past the loop, `rw->lock` still to be released. -/
  | got (side : Side)
  | holding (side : Side)
  /-- `release_rw_r_read_lock`, `release_rw_r_write_lock` before and under `rw->lock`. -/
  | relAcq (side : Side) | rel (side : Side)
  /-- `wake_up` on a chain, at slot `i`. -/
  | wake (chain : Side) (i : ℕ)
  /-- Before the last `release_spin_lock(&rw->lock)`. -/
  | relEnd
  deriving DecidableEq, Repr

/-- `struct rw_r_lock` and the threads that use it, one for each of `n` process slots. -/
structure State (n : ℕ) where
  readCount : ℤ
  writeActive : Bool
  writeWaitCount : ℤ
  lock : Option (Fin n)
  pc : Fin n → Pc
  /-- The threads that have panicked. -/
  panicked : Fin n → Bool

/-- What can happen next. -/
inductive Act (n : ℕ)
  /-- Thread `t` asks for a side. -/
  | acquire (t : Fin n) (side : Side)
  /-- Thread `t` gives back the side it holds. -/
  | release (t : Fin n)
  /-- Thread `t` goes on. -/
  | go (t : Fin n)
  /-- A sleeper is woken for another reason. -/
  | wake (t : Fin n)

namespace State

variable {n : ℕ}

def setPc (s : State n) (t : Fin n) (k : Pc) : State n := { s with pc := update s.pc t k }

/-- `acquire_spin_lock(&rw->lock)`, once it is free. -/
def acquire (s : State n) (t : Fin n) (k : Pc) : Option (State n) :=
  if s.lock = none then some { s.setPc t k with lock := some t } else none

/-- `release_spin_lock(&rw->lock)`. -/
def release (s : State n) (t : Fin n) (k : Pc) : State n := { s.setPc t k with lock := none }

/-- One slot of `wake_up`; the lock of the slot is not free while its thread is falling asleep. -/
def wakeSlot (s : State n) (t u : Fin n) (chain : Side) (i : ℕ) : Option (State n) :=
  match s.pc u with
  | .sleepRel _ | .sleepSet _ => none
  | k => some ((if k = .asleep chain then s.setPc u (.relock chain) else s).setPc t
      (.wake chain (i + 1)))

/-- **The next step of thread `t`.** -/
def go (s : State n) (t : Fin n) : Option (State n) :=
  match s.pc t with
  | .acq .read => s.acquire t (.test .read)
  | .acq .write => s.acquire t .enter
  | .enter => some { s.setPc t (.test .write) with writeWaitCount := s.writeWaitCount + 1 }
  | .test .read =>
    if s.writeActive ∨ s.writeWaitCount > 0 then some (s.setPc t (.sleepAcq .read))
    else some { s.setPc t (.got .read) with readCount := s.readCount + 1 }
  | .test .write =>
    if s.readCount > 0 ∨ s.writeActive then some (s.setPc t (.sleepAcq .write))
    else some { s.setPc t (.got .write) with
      writeActive := true
      writeWaitCount := s.writeWaitCount - 1 }
  | .sleepAcq side => some (s.setPc t (.sleepRel side))
  | .sleepRel side => some (s.release t (.sleepSet side))
  | .sleepSet side => some (s.setPc t (.asleep side))
  | .relock side => s.acquire t (.test side)
  | .got side => some (s.release t (.holding side))
  | .relAcq side => s.acquire t (.rel side)
  | .rel .read =>
    if s.writeActive ∨ s.readCount = 0 then some { s with panicked := update s.panicked t true }
    else if s.readCount - 1 = 0 ∧ s.writeWaitCount > 0 then
      some { s.setPc t (.wake .write 0) with readCount := s.readCount - 1 }
    else some { s.setPc t .relEnd with readCount := s.readCount - 1 }
  | .rel .write =>
    if s.writeActive = false ∨ s.readCount > 0 then
      some { s with panicked := update s.panicked t true }
    else if s.writeWaitCount > 0 then
      some { s.setPc t (.wake .write 0) with writeActive := false }
    else some { s.setPc t (.wake .read 0) with writeActive := false }
  | .wake chain i =>
    if h : i < n then s.wakeSlot t ⟨i, h⟩ chain i else some (s.setPc t .relEnd)
  | .relEnd => some (s.release t .out)
  | .out | .asleep _ | .holding _ => none

end State

/-- **One step of the lock and its users.** -/
def step {n : ℕ} (s : State n) : Act n → Option (State n)
  | .acquire t side => if s.pc t = .out then some (s.setPc t (.acq side)) else none
  | .release t =>
    match s.pc t with
    | .holding side => some (s.setPc t (.relAcq side))
    | _ => none
  | .go t => if s.panicked t then none else s.go t
  | .wake t =>
    match s.pc t with
    | .asleep side => some (s.setPc t (.relock side))
    | _ => none

/-- The state after `init_rw_r_lock`. -/
def init (n : ℕ) : State n where
  readCount := 0
  writeActive := false
  writeWaitCount := 0
  lock := none
  pc := fun _ => .out
  panicked := fun _ => false

/-- The states of a lock with `n` threads, over every run. -/
abbrev Reachable {n : ℕ} : State n → Prop := Run.Reachable step (init n)

end RwLock
