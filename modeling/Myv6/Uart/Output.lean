import Myv6.Lib.Ring
import Myv6.Lib.Run
import Myv6.Lib.Index

/-!
# Uart/Output — the output queue of the UART

    uart_write   enter ▸ outer ▸ room ⇄ (asleep ▸ relock) ▸ fill ⇄ put ▸ drain ⇄ send ▸ outer ▸ …
    uart_intr    enter ▸ drain ⇄ send

A thread is a call of `uart_write` or `uart_intr`.  Threads take turns at any point, and only
`uart_output_lock` keeps them apart; the test of a loop and its body are two steps.  The device
answers each look at `LSR` as it likes.

`fifo` is the result: what went to `THR` and what is queued is what was enqueued, call by call.
-/

namespace Uart

open Ring

abbrev ThreadId := ℕ

/-- `UART_OUTPUT_SIZE`. -/
abbrev uartOutputSize : ℕ := 16

/-- A call `uart_write(s, len)`: its bytes, and `cur`. -/
structure Writing where
  s : List UInt8
  cur : ℕ
  deriving DecidableEq, Repr

/-- Where a thread stands. -/
inductive Pc
  /-- In no call. -/
  | out
  /-- `uart_write`, before `uart_output_lock`. -/
  | enter (s : List UInt8)
  /-- `uart_write`, at `cur < len`. -/
  | outer (w : Writing)
  /-- `uart_write`, at the test before `sleep`. -/
  | room (w : Writing)
  /-- In `sleep(&uart_output_lock, &uart_output_queue)`. -/
  | asleep (w : Writing)
  /-- Woken, before `uart_output_lock`. -/
  | relock (w : Writing)
  /-- `uart_write`, at the test of the loop that fills the queue. -/
  | fill (w : Writing)
  /-- `uart_write`, about to queue `s[cur]`. -/
  | put (w : Writing)
  /-- `uart_intr`, before `uart_output_lock`. -/
  | intr
  /-- `uart_running_output_queue`, before the next look at `LSR`; a handler where `w` is `none`. -/
  | drain (w : Option Writing) (hasOutput : Bool)
  /-- `uart_putc_output_queue`, about to write `THR`. -/
  | send (w : Option Writing)
  deriving DecidableEq, Repr

/-- The output side of the UART. -/
structure State where
  /-- `uart_output_queue` -/
  queue : Fin uartOutputSize → UInt8
  /-- `uart_oq_beg` -/
  oqBeg : UInt64
  /-- `uart_oq_end` -/
  oqEnd : UInt64
  /-- The holder of `uart_output_lock`. -/
  lock : Option ThreadId
  pc : ThreadId → Pc
  /-- The bytes written to `THR` from the queue. -/
  thr : List UInt8

namespace State

/-- `uart_queue_empty(uart_oq_beg, uart_oq_end)`. -/
def uartQueueEmpty (σ : State) : Bool := σ.oqBeg == σ.oqEnd

/-- `uart_queue_full(uart_oq_beg, uart_oq_end, UART_OUTPUT_SIZE)`. -/
def uartQueueFull (σ : State) : Bool := σ.oqEnd - σ.oqBeg == 16

def setPc (σ : State) (t : ThreadId) (k : Pc) : State :=
  { σ with pc := Function.update σ.pc t k }

/-- `acquire_spin_lock(&uart_output_lock)`, once it is free. -/
def acquire (σ : State) (t : ThreadId) (k : Pc) : Option State :=
  if σ.lock = none then some { σ with lock := some t, pc := Function.update σ.pc t k } else none

/-- `release_spin_lock(&uart_output_lock)`. -/
def release (σ : State) (t : ThreadId) (k : Pc) : State :=
  { σ with lock := none, pc := Function.update σ.pc t k }

/-- `wake_up(&uart_output_queue)`. -/
def wakeUp (σ : State) : State :=
  { σ with pc := fun t => match σ.pc t with | .asleep w => .relock w | k => k }

/-- `uart_output_queue[uart_oq_end % UART_OUTPUT_SIZE] = s[cur]; uart_oq_end++`. -/
def putByte (σ : State) (w : Writing) : State :=
  { σ with
    queue := Function.update σ.queue (wordCell _ σ.oqEnd) (w.s.getD w.cur 0)
    oqEnd := σ.oqEnd + 1 }

/-- `WRITE_UART_REG(THR, uart_output_queue[uart_oq_beg % UART_OUTPUT_SIZE]); uart_oq_beg++`. -/
def sendByte (σ : State) : State :=
  { σ with thr := σ.thr ++ [σ.queue (wordCell _ σ.oqBeg)], oqBeg := σ.oqBeg + 1 }

/-- The next step of a thread; `ready` is what `LSR` answers. -/
def run (σ : State) (t : ThreadId) (ready : Bool) : Option State :=
  match σ.pc t with
  | .out => none
  | .enter s => σ.acquire t (.outer ⟨s, 0⟩)
  | .outer w =>
    some (if w.cur < w.s.length then σ.setPc t (.room w) else σ.release t .out)
  | .room w =>
    some (if σ.uartQueueFull then σ.release t (.asleep w) else σ.setPc t (.fill w))
  | .asleep _ => none
  | .relock w => σ.acquire t (.room w)
  | .fill w =>
    some (σ.setPc t (if σ.uartQueueFull = false ∧ w.cur ≠ w.s.length then .put w
      else .drain (some w) false))
  | .put w => some ((σ.putByte w).setPc t (.fill { w with cur := w.cur + 1 }))
  | .intr => σ.acquire t (.drain none false)
  | .drain w hasOutput =>
    some (if ready ∧ σ.uartQueueEmpty = false then σ.setPc t (.send w) else
      let σ := if hasOutput then σ.wakeUp else σ
      match w with
      | some w => σ.setPc t (.outer w)
      | none => σ.release t .out)
  | .send w => some (σ.sendByte.setPc t (.drain w true))

end State

/-- What can happen next. -/
inductive Act
  /-- Thread `t` calls `uart_write(s, len)`. -/
  | write (t : ThreadId) (s : List UInt8)
  /-- Thread `t` enters the output part of `uart_intr`. -/
  | intr (t : ThreadId)
  /-- Thread `t` goes on; `ready` is what the device answers. -/
  | run (t : ThreadId) (ready : Bool)
  /-- A sleeper is woken for another reason. -/
  | wake (t : ThreadId)
  deriving DecidableEq, Repr

/-- **One step.** -/
def step (σ : State) : Act → Option State
  | .write t s => if σ.pc t = .out then some (σ.setPc t (.enter s)) else none
  | .intr t => if σ.pc t = .out then some (σ.setPc t .intr) else none
  | .run t ready => σ.run t ready
  | .wake t =>
    match σ.pc t with
    | .asleep w => some (σ.setPc t (.relock w))
    | _ => none

/-- An empty queue whose counters stand at `k`. -/
def start (k : UInt64) (buf : Fin uartOutputSize → UInt8) : State where
  queue := buf
  oqBeg := k
  oqEnd := k
  lock := none
  pc := fun _ => .out
  thr := []

/-! ## What was written -/

/-- The bytes queued so far, each with its thread, and what each thread's finished calls wrote. -/
structure Record where
  enqueued : List (ThreadId × UInt8)
  finished : ThreadId → List UInt8

/-- What a step adds to the record. -/
def note (σ : State) (a : Act) (_ : State) (r : Record) : Record :=
  match a with
  | .run t _ =>
    match σ.pc t with
    | .put w => { r with enqueued := r.enqueued ++ [(t, w.s.getD w.cur 0)] }
    | .outer w =>
      if w.cur < w.s.length then r
      else { r with finished := Function.update r.finished t (r.finished t ++ w.s) }
    | _ => r
  | _ => r

/-- The system beside its record. -/
abbrev writeStep : State × Record → Act → Option (State × Record) := Run.watch step note

/-- The call of a thread. -/
def Pc.writing : Pc → Option Writing
  | .outer w | .room w | .asleep w | .relock w | .fill w | .put w => some w
  | .drain w _ | .send w => w
  | .out | .enter _ | .intr => none

/-- What a thread has queued in the call it is in. -/
def Pc.progress (k : Pc) : List UInt8 := k.writing.elim [] fun w => w.s.take w.cur

/-- The bytes of the queue, the oldest first. -/
def State.queuedBytes (σ : State) : List UInt8 := queued σ.queue σ.oqBeg σ.oqEnd

/-- The bytes a thread has queued. -/
def Record.of (r : Record) (t : ThreadId) : List UInt8 :=
  (r.enqueued.filter fun e => e.1 = t).map Prod.snd

/-- **Nothing is lost**: the queue holds at most its size; what `THR` got and what is queued is what
was enqueued, in order; and what a thread enqueued is its calls' bytes, in order. -/
structure Fifo (x : State × Record) : Prop where
  bound : (x.1.oqEnd - x.1.oqBeg).toNat ≤ uartOutputSize
  sent : x.1.thr ++ x.1.queuedBytes = x.2.enqueued.map Prod.snd
  calls : ∀ t, x.2.of t = x.2.finished t ++ (x.1.pc t).progress

/-! ## What a step does

A step moves one thread, and may take or give up the lock and wake sleepers.  Three kinds of step do
more: `put`, `send` and the return of a call. -/

variable {σ σ' : State} {t : ThreadId} {a : Act} {k' : Pc} {l : Option ThreadId}
  {f : ThreadId → Pc} {w : Writing} {x y : State × Record} {ready : Bool}

/-- The thread holds `uart_output_lock` here. -/
def Pc.holds : Pc → Bool
  | .outer _ | .room _ | .fill _ | .put _ | .drain _ _ | .send _ => true
  | .out | .enter _ | .asleep _ | .relock _ | .intr => false

/-- Thread `t` goes on to `k'`; the lock is kept, taken or given up, others are woken at most. -/
structure Moved (σ : State) (t : ThreadId) (k' : Pc) (l : Option ThreadId) (f : ThreadId → Pc) :
    Prop where
  here : f t = k'
  others : ∀ u, u ≠ t → f u = σ.pc u ∨ ∃ w, σ.pc u = .asleep w ∧ f u = .relock w
  lock : l = σ.lock ∧ k'.holds = (σ.pc t).holds ∨
    σ.lock = none ∧ l = some t ∧ (σ.pc t).holds = false ∧ k'.holds = true ∨
    l = none ∧ (σ.pc t).holds = true ∧ k'.holds = false

/-- **What thread `t` does to the queue.** -/
inductive Does (σ : State) (a : Act) (t : ThreadId) (k' : Pc) : State → Prop
  /-- Nothing. -/
  | quiet (hnote : ∀ σ' r, note σ a σ' r = r)
      (hwriting : k'.writing = (σ.pc t).writing ∨ (σ.pc t).writing = none ∧
        ∀ w, k'.writing = some w → w.cur = 0)
      (hput : ∀ w, k' = .put w → σ.uartQueueFull = false ∧ w.cur ≠ w.s.length)
      (hsend : ∀ w, k' = .send w → σ.uartQueueEmpty = false) : Does σ a t k' σ
  | put (w : Writing) (ready : Bool) (hact : a = .run t ready) (hpc : σ.pc t = .put w)
      (hk : k' = .fill { w with cur := w.cur + 1 }) : Does σ a t k' (σ.putByte w)
  | send (w : Option Writing) (ready : Bool) (hact : a = .run t ready) (hpc : σ.pc t = .send w)
      (hk : k' = .drain w true) : Does σ a t k' σ.sendByte
  /-- `uart_write` returns. -/
  | finish (w : Writing) (ready : Bool) (hact : a = .run t ready) (hpc : σ.pc t = .outer w)
      (hdone : ¬w.cur < w.s.length) (hk : k' = .out) : Does σ a t k' σ

/-- A step to one program point, with the lock kept. -/
theorem Moved.goto (hk : k'.holds = (σ.pc t).holds) :
    Moved σ t k' σ.lock (Function.update σ.pc t k') :=
  ⟨Function.update_self .., fun _ hu => .inl (Function.update_of_ne hu ..), .inl ⟨rfl, hk⟩⟩

/-- The lock is taken. -/
theorem Moved.acquire (hfree : σ.lock = none) (hout : (σ.pc t).holds = false)
    (hk : k'.holds = true) : Moved σ t k' (some t) (Function.update σ.pc t k') :=
  ⟨Function.update_self .., fun _ hu => .inl (Function.update_of_ne hu ..),
    .inr (.inl ⟨hfree, rfl, hout, hk⟩)⟩

/-- The lock is given up. -/
theorem Moved.release (hin : (σ.pc t).holds = true) (hk : k'.holds = false) :
    Moved σ t k' none (Function.update σ.pc t k') :=
  ⟨Function.update_self .., fun _ hu => .inl (Function.update_of_ne hu ..),
    .inr (.inr ⟨rfl, hin, hk⟩)⟩

/-- Others may be woken on the way. -/
theorem Moved.wakeUp (h : Moved σ t k' l (Function.update σ.pc t k')) :
    Moved σ t k' l (Function.update σ.wakeUp.pc t k') := by
  refine ⟨Function.update_self .., fun u hu => ?_, h.lock⟩
  rw [Function.update_of_ne hu]
  cases hu : σ.pc u
  case asleep w => exact .inr ⟨w, rfl, by simp [State.wakeUp, hu]⟩
  all_goals exact .inl (by simp [State.wakeUp, hu])

/-- **What a step can be.** -/
theorem step_cases (h : step σ a = some σ') : ∃ t k' l f σ₁, Moved σ t k' l f ∧
    Does σ a t k' σ₁ ∧ σ' = { σ₁ with lock := l, pc := f } := by
  cases a with
  | write t s =>
    obtain ⟨hpc, h⟩ := Option.ite_none_right_eq_some.mp h
    obtain rfl := Option.some.inj h
    exact ⟨t, Pc.enter s, _, _, _, .goto (by rw [hpc]; rfl),
      .quiet (fun _ _ => rfl) (.inl (by rw [hpc]; rfl)) nofun nofun, rfl⟩
  | intr t =>
    obtain ⟨hpc, h⟩ := Option.ite_none_right_eq_some.mp h
    obtain rfl := Option.some.inj h
    exact ⟨t, .intr, _, _, _, .goto (by rw [hpc]; rfl),
      .quiet (fun _ _ => rfl) (.inl (by rw [hpc]; rfl)) nofun nofun, rfl⟩
  | wake t =>
    simp only [step] at h
    split at h
    · next w hpc =>
      obtain rfl := Option.some.inj h
      exact ⟨t, .relock w, _, _, _, .goto (by rw [hpc]; rfl),
        .quiet (fun _ _ => rfl) (.inl (by rw [hpc]; rfl)) nofun nofun, rfl⟩
    · cases h
  | run t ready =>
    simp only [step, State.run] at h
    have hnote : (∀ w, σ.pc t ≠ .put w) → (∀ w, σ.pc t = .outer w → w.cur < w.s.length) →
        ∀ σ' r, note σ (.run t ready) σ' r = r := by
      intro hput houter σ' r
      simp only [note]
      split
      · next w hpc => exact absurd hpc (hput w)
      · next w hpc => rw [if_pos (houter w hpc)]
      · rfl
    cases hpc : σ.pc t with rw [hpc] at h hnote
    | out => cases h
    | asleep w => cases h
    | enter s =>
      obtain ⟨hfree, h⟩ := Option.ite_none_right_eq_some.mp h
      obtain rfl := Option.some.inj h
      refine ⟨t, .outer ⟨s, 0⟩, _, _, _, .acquire hfree (by rw [hpc]; rfl) rfl,
        .quiet (hnote nofun nofun) (.inr ⟨by rw [hpc]; rfl, ?_⟩) nofun nofun, rfl⟩
      rintro w hw
      obtain rfl := Option.some.inj hw
      rfl
    | outer w =>
      obtain rfl := Option.some.inj h
      by_cases hcur : w.cur < w.s.length
      · rw [if_pos hcur]
        refine ⟨t, .room w, _, _, _, .goto (by rw [hpc]; rfl),
          .quiet (hnote nofun ?_) (.inl (by rw [hpc]; rfl)) nofun nofun, rfl⟩
        rintro w' hw
        obtain rfl := Pc.outer.inj hw
        exact hcur
      · rw [if_neg hcur]
        exact ⟨t, .out, _, _, _, .release (by rw [hpc]; rfl) rfl,
          .finish w ready rfl hpc hcur rfl, rfl⟩
    | room w =>
      obtain rfl := Option.some.inj h
      by_cases hfull : σ.uartQueueFull
      · rw [if_pos hfull]
        exact ⟨t, .asleep w, _, _, _, .release (by rw [hpc]; rfl) rfl,
          .quiet (hnote nofun nofun) (.inl (by rw [hpc]; rfl)) nofun nofun, rfl⟩
      · rw [if_neg hfull]
        exact ⟨t, .fill w, _, _, _, .goto (by rw [hpc]; rfl),
          .quiet (hnote nofun nofun) (.inl (by rw [hpc]; rfl)) nofun nofun, rfl⟩
    | relock w =>
      obtain ⟨hfree, h⟩ := Option.ite_none_right_eq_some.mp h
      obtain rfl := Option.some.inj h
      exact ⟨t, .room w, _, _, _, .acquire hfree (by rw [hpc]; rfl) rfl,
        .quiet (hnote nofun nofun) (.inl (by rw [hpc]; rfl)) nofun nofun, rfl⟩
    | fill w =>
      obtain rfl := Option.some.inj h
      by_cases hroom : σ.uartQueueFull = false ∧ w.cur ≠ w.s.length
      · rw [if_pos hroom]
        refine ⟨t, .put w, _, _, _, .goto (by rw [hpc]; rfl),
          .quiet (hnote nofun nofun) (.inl (by rw [hpc]; rfl)) ?_ nofun, rfl⟩
        rintro w' hw
        obtain rfl := Pc.put.inj hw
        exact hroom
      · rw [if_neg hroom]
        exact ⟨t, .drain (some w) false, _, _, _, .goto (by rw [hpc]; rfl),
          .quiet (hnote nofun nofun) (.inl (by rw [hpc]; rfl)) nofun nofun, rfl⟩
    | put w =>
      obtain rfl := Option.some.inj h
      exact ⟨t, .fill { w with cur := w.cur + 1 }, _, _, _, .goto (by rw [hpc]; rfl),
        .put w ready rfl hpc rfl, rfl⟩
    | intr =>
      obtain ⟨hfree, h⟩ := Option.ite_none_right_eq_some.mp h
      obtain rfl := Option.some.inj h
      exact ⟨t, .drain none false, _, _, _, .acquire hfree (by rw [hpc]; rfl) rfl,
        .quiet (hnote nofun nofun) (.inl (by rw [hpc]; rfl)) nofun nofun, rfl⟩
    | drain w hasOutput =>
      obtain rfl := Option.some.inj h
      by_cases hlook : ready = true ∧ σ.uartQueueEmpty = false
      · rw [if_pos hlook]
        exact ⟨t, .send w, _, _, _, .goto (by rw [hpc]; rfl),
          .quiet (hnote nofun nofun) (.inl (by rw [hpc]; rfl)) nofun (fun _ _ => hlook.2), rfl⟩
      · rw [if_neg hlook]
        cases w with
        | some w =>
          have hmoved : Moved σ t (.outer w) σ.lock (Function.update σ.pc t (.outer w)) :=
            .goto (by rw [hpc]; rfl)
          have hdoes : Does σ (.run t ready) t (.outer w) σ :=
            .quiet (hnote nofun nofun) (.inl (by rw [hpc]; rfl)) nofun nofun
          cases hasOutput
          · exact ⟨t, _, _, _, _, hmoved, hdoes, rfl⟩
          · exact ⟨t, _, _, _, _, hmoved.wakeUp, hdoes, rfl⟩
        | none =>
          have hmoved : Moved σ t .out none (Function.update σ.pc t .out) :=
            .release (by rw [hpc]; rfl) rfl
          have hdoes : Does σ (.run t ready) t .out σ :=
            .quiet (hnote nofun nofun) (.inl (by rw [hpc]; rfl)) nofun nofun
          cases hasOutput
          · exact ⟨t, _, _, _, _, hmoved, hdoes, rfl⟩
          · exact ⟨t, _, _, _, _, hmoved.wakeUp, hdoes, rfl⟩
    | send w =>
      obtain rfl := Option.some.inj h
      exact ⟨t, .drain w true, _, _, _, .goto (by rw [hpc]; rfl), .send w ready rfl hpc rfl, rfl⟩

/-! ## What a run keeps -/

/-- Sleepers that wake stay in their call. -/
theorem Moved.writing (h : Moved σ t k' l f) {u : ThreadId} (hu : u ≠ t) :
    (f u).writing = (σ.pc u).writing := by
  rcases h.others u hu with heq | ⟨w, hasleep, hrelock⟩
  · rw [heq]
  · rw [hasleep, hrelock]
    rfl

/-- A thread that holds the lock is not woken. -/
theorem Moved.same (h : Moved σ t k' l f) {u : ThreadId} (hu : u ≠ t)
    (hholds : (f u).holds = true) : σ.pc u = f u := by
  rcases h.others u hu with heq | ⟨w, hasleep, hrelock⟩
  · exact heq.symm
  · rw [hrelock] at hholds
    cases hholds

/-- **The lock is held by the thread whose code holds it**, before and after. -/
theorem Moved.owner (h : Moved σ t k' l f)
    (hown : ∀ u, (σ.pc u).holds = true ↔ σ.lock = some u) (u : ThreadId) :
    (f u).holds = true ↔ l = some u := by
  by_cases hu : u = t
  · subst hu
    rw [h.here]
    rcases h.lock with ⟨rfl, hk⟩ | ⟨-, rfl, -, hk⟩ | ⟨rfl, -, hk⟩
    · rw [hk, hown]
    · simp [hk]
    · simp [hk]
  · have hsame : (f u).holds = (σ.pc u).holds := by
      rcases h.others u hu with heq | ⟨w, hasleep, hrelock⟩
      · rw [heq]
      · rw [hasleep, hrelock]
        rfl
    rw [hsame, hown]
    rcases h.lock with ⟨rfl, -⟩ | ⟨hfree, rfl, -, -⟩ | ⟨rfl, hin, -⟩
    · rfl
    · simp [hfree, Ne.symm hu]
    · have hlock := (hown t).mp hin
      simp [hlock, Ne.symm hu]

/-- **What a run keeps**, beside the order of the bytes. -/
structure Inv (x : State × Record) : Prop extends Fifo x where
  owner : ∀ t, (x.1.pc t).holds = true ↔ x.1.lock = some t
  within : ∀ t w, (x.1.pc t).writing = some w → w.cur ≤ w.s.length
  putting : ∀ t w, x.1.pc t = .put w → x.1.uartQueueFull = false ∧ w.cur ≠ w.s.length
  sending : ∀ t w, x.1.pc t = .send w → x.1.uartQueueEmpty = false

/-- Two threads never both hold the lock. -/
theorem Inv.unique (hx : Inv x) {u : ThreadId} (ht : (x.1.pc t).holds = true)
    (hu : (x.1.pc u).holds = true) : u = t :=
  Option.some.inj (((hx.owner u).mp hu).symm.trans ((hx.owner t).mp ht))

/-- A queue that is not full has room. -/
theorem room_of_not_full (h : σ.uartQueueFull = false)
    (hbound : (σ.oqEnd - σ.oqBeg).toNat ≤ uartOutputSize) :
    (σ.oqEnd - σ.oqBeg).toNat < uartOutputSize := by
  refine lt_of_le_of_ne hbound fun heq => ?_
  have hne : σ.oqEnd - σ.oqBeg ≠ 16 := by simpa [State.uartQueueFull] using h
  exact hne (UInt64.toNat_inj.mp heq)

/-- A queue that is not empty has two different counters. -/
theorem ne_of_not_empty (h : σ.uartQueueEmpty = false) : σ.oqBeg ≠ σ.oqEnd := by
  simpa [State.uartQueueEmpty] using h

/-- **A byte put into the queue is its last.** -/
theorem queuedBytes_putByte (h : σ.uartQueueFull = false)
    (hbound : (σ.oqEnd - σ.oqBeg).toNat ≤ uartOutputSize) (w : Writing) :
    (σ.putByte w).queuedBytes = σ.queuedBytes ++ [w.s.getD w.cur 0] := by
  have hroom := room_of_not_full h hbound
  exact queued_push (b := σ.oqBeg) (by decide) _ hroom (by unfold uartOutputSize at hroom; omega)

/-- **The byte sent is the first of the queue.** -/
theorem queuedBytes_sendByte (h : σ.uartQueueEmpty = false) :
    σ.sendByte.thr ++ σ.sendByte.queuedBytes = σ.thr ++ σ.queuedBytes := by
  rw [State.queuedBytes, State.queuedBytes, queued_pop (by decide) (ne_of_not_empty h)]
  exact List.append_assoc ..

/-- What a thread has queued, after one byte more. -/
theorem progress_put (hcur : w.cur ≤ w.s.length) (hne : w.cur ≠ w.s.length) :
    (Pc.fill { w with cur := w.cur + 1 }).progress = w.s.take w.cur ++ [w.s.getD w.cur 0] := by
  have hlt : w.cur < w.s.length := lt_of_le_of_ne hcur hne
  change w.s.take (w.cur + 1) = _
  rw [List.take_succ_eq_append_getElem hlt, List.getD_eq_getElem?_getD,
    List.getElem?_eq_getElem hlt, Option.getD_some]

/-- The steps outside of the three kinds keep what a thread has queued. -/
theorem progress_quiet {k : Pc} (h : k'.writing = k.writing ∨ k.writing = none ∧
    ∀ w, k'.writing = some w → w.cur = 0) : k'.progress = k.progress := by
  rcases h with heq | ⟨hnone, hzero⟩
  · rw [Pc.progress, heq]
    rfl
  · rw [Pc.progress, Pc.progress, hnone]
    cases hw : k'.writing with
    | none => rfl
    | some w =>
      change w.s.take w.cur = []
      rw [hzero w hw, List.take_zero]

/-- The other threads queue nothing. -/
theorem Moved.progress (h : Moved σ t k' l f) {u : ThreadId} (hu : u ≠ t) :
    (f u).progress = (σ.pc u).progress := by
  rw [Pc.progress, Pc.progress, h.writing hu]

/-- What a thread has queued, with one byte more of thread `t`. -/
theorem of_concat (r : Record) (t u : ThreadId) (b : UInt8) :
    ({ r with enqueued := r.enqueued ++ [(t, b)] } : Record).of u =
      if u = t then r.of u ++ [b] else r.of u := by
  by_cases hu : u = t
  · subst hu
    simp [Record.of]
  · simp [Record.of, hu, Ne.symm hu]

/-- A thread that holds the lock and does not go on to `put` or `send` leaves nobody there. -/
theorem Inv.of_holder {r r' : Record} {σ₁ : State} (hx : Inv (σ, r)) (hmoved : Moved σ t k' l f)
    (hin : (σ.pc t).holds = true) (hwithin : ∀ w, k'.writing = some w → w.cur ≤ w.s.length)
    (hput : ∀ w, k' ≠ .put w) (hsend : ∀ w, k' ≠ .send w)
    (hfifo : Fifo ({ σ₁ with lock := l, pc := f }, r')) :
    Inv ({ σ₁ with lock := l, pc := f }, r') := by
  have hnobody : ∀ u k, f u = k → k.holds = true → k = k' := by
    rintro u k rfl hk
    by_cases hu : u = t
    · rw [hu, hmoved.here]
    · rw [← hmoved.same hu hk] at hk
      exact absurd (hx.unique hin hk) hu
  refine ⟨hfifo, hmoved.owner hx.owner, fun u w hw => ?_, fun u w hw => ?_, fun u w hw => ?_⟩
  · by_cases hu : u = t
    · subst hu
      exact hwithin w (by rw [← hmoved.here]; exact hw)
    · exact hx.within u w ((hmoved.writing hu).symm.trans hw)
  · exact absurd (hnobody u _ hw rfl).symm (hput w)
  · exact absurd (hnobody u _ hw rfl).symm (hsend w)

/-- A step outside of the three kinds. -/
theorem Inv.quiet {r : Record} (hx : Inv (σ, r)) (hmoved : Moved σ t k' l f)
    (hwriting : k'.writing = (σ.pc t).writing ∨ (σ.pc t).writing = none ∧
      ∀ w, k'.writing = some w → w.cur = 0)
    (hput : ∀ w, k' = .put w → σ.uartQueueFull = false ∧ w.cur ≠ w.s.length)
    (hsend : ∀ w, k' = .send w → σ.uartQueueEmpty = false) :
    Inv ({ σ with lock := l, pc := f }, r) := by
  refine ⟨⟨hx.bound, hx.sent, fun u => ?_⟩, hmoved.owner hx.owner,
    fun u w (hw : (f u).writing = _) => ?_, fun u w (hw : f u = _) => ?_,
    fun u w (hw : f u = _) => ?_⟩
  all_goals by_cases hu : u = t
  · subst hu
    rw [hx.calls u]
    exact congrArg _ ((congrArg Pc.progress hmoved.here).trans (progress_quiet hwriting)).symm
  · rw [hx.calls u]
    exact congrArg _ (hmoved.progress hu).symm
  · subst hu
    rw [hmoved.here] at hw
    rcases hwriting with heq | ⟨-, hzero⟩
    · exact hx.within u w (heq.symm.trans hw)
    · rw [hzero w hw]
      exact Nat.zero_le _
  · exact hx.within u w ((hmoved.writing hu).symm.trans hw)
  · subst hu
    exact hput w (hmoved.here.symm.trans hw)
  · exact hx.putting u w ((hmoved.same hu (by rw [hw]; rfl)).trans hw)
  · subst hu
    exact hsend w (hmoved.here.symm.trans hw)
  · exact hx.sending u w ((hmoved.same hu (by rw [hw]; rfl)).trans hw)

/-- A byte is queued. -/
theorem Inv.put {r : Record} (hx : Inv (σ, r)) (hpc : σ.pc t = .put w)
    (hmoved : Moved σ t (.fill { w with cur := w.cur + 1 }) l f) :
    Inv ({ σ.putByte w with lock := l, pc := f },
      { r with enqueued := r.enqueued ++ [(t, w.s.getD w.cur 0)] }) := by
  obtain ⟨hroom, hne⟩ := hx.putting t w hpc
  have hcur := hx.within t w (by rw [hpc]; rfl)
  have hqueue := queuedBytes_putByte hroom hx.bound w
  refine hx.of_holder hmoved (by rw [hpc]; rfl) (fun w' hw => ?_) nofun nofun
    ⟨?_, ?_, fun u => ?_⟩
  · obtain rfl := Option.some.inj hw
    exact lt_of_le_of_ne hcur hne
  · have hlen := congrArg List.length hqueue
    have hlt := room_of_not_full hroom hx.bound
    simp only [State.queuedBytes, length_queued, List.length_append, List.length_singleton] at hlen
    exact hlen.trans_le hlt
  · change (σ.putByte w).thr ++ (σ.putByte w).queuedBytes = _
    rw [hqueue, List.map_append, ← hx.sent]
    exact (List.append_assoc ..).symm
  · rw [of_concat]
    by_cases hu : u = t
    · subst hu
      rw [if_pos rfl, hx.calls u, List.append_assoc]
      change _ ++ ((σ.pc u).progress ++ _) = _ ++ (f u).progress
      rw [hmoved.here, progress_put hcur hne, hpc]
      rfl
    · rw [if_neg hu, hx.calls u]
      exact congrArg _ (hmoved.progress hu).symm

/-- A byte is sent. -/
theorem Inv.send {r : Record} {w : Option Writing} (hx : Inv (σ, r)) (hpc : σ.pc t = .send w)
    (hmoved : Moved σ t (.drain w true) l f) :
    Inv ({ σ.sendByte with lock := l, pc := f }, r) := by
  have hqueue := queuedBytes_sendByte (hx.sending t w hpc)
  refine hx.of_holder hmoved (by rw [hpc]; rfl) (fun w' hw => ?_) nofun nofun
    ⟨?_, hqueue.trans hx.sent, fun u => ?_⟩
  · exact hx.within t w' (by rw [hpc]; exact hw)
  · have hlen := congrArg List.length hqueue
    have hbound := hx.bound
    simp only [State.queuedBytes, List.length_append, length_queued, State.sendByte,
      List.length_singleton] at hlen
    refine le_trans ?_ hbound
    change (σ.oqEnd - (σ.oqBeg + 1)).toNat ≤ (σ.oqEnd - σ.oqBeg).toNat
    omega
  · rw [hx.calls u]
    by_cases hu : u = t
    · subst hu
      change _ ++ (σ.pc u).progress = _ ++ (f u).progress
      rw [hmoved.here, hpc]
      rfl
    · exact congrArg _ (hmoved.progress hu).symm

/-- A call returns. -/
theorem Inv.finish {r : Record} (hx : Inv (σ, r)) (hpc : σ.pc t = .outer w)
    (hdone : ¬w.cur < w.s.length) (hmoved : Moved σ t .out l f) :
    Inv ({ σ with lock := l, pc := f },
      { r with finished := Function.update r.finished t (r.finished t ++ w.s) }) := by
  refine hx.of_holder hmoved (by rw [hpc]; rfl) nofun nofun nofun ⟨hx.bound, hx.sent, fun u => ?_⟩
  change r.of u = Function.update r.finished t _ u ++ (f u).progress
  rw [hx.calls u]
  by_cases hu : u = t
  · subst hu
    have hall : (σ.pc u).progress = w.s := by
      rw [hpc]
      exact List.take_of_length_le (not_lt.mp hdone)
    change _ ++ (σ.pc u).progress = _
    rw [hall, hmoved.here, Function.update_self]
    exact (List.append_nil _).symm
  · rw [Function.update_of_ne hu]
    exact congrArg _ (hmoved.progress hu).symm

/-- **A step keeps it.** -/
theorem Inv.step (hx : Inv x) (h : writeStep x a = some y) : Inv y := by
  obtain ⟨σ, r⟩ := x
  obtain ⟨σ', r'⟩ := y
  obtain ⟨hstep, hr⟩ := Run.watch_eq_some_iff.mp h
  obtain ⟨t, k', l, f, σ₁, hmoved, hdoes, rfl⟩ := step_cases hstep
  obtain rfl : r' = note σ a σ r := hr
  cases hdoes with
  | quiet hnote hwriting hput hsend =>
    rw [hnote]
    exact hx.quiet hmoved hwriting hput hsend
  | put w ready hact hpc hk =>
    subst hact hk
    replace hpc : σ.pc t = .put w := hpc
    have hnote : note σ (.run t ready) σ r =
        { r with enqueued := r.enqueued ++ [(t, w.s.getD w.cur 0)] } := by
      simp only [note, hpc]
    rw [hnote]
    exact hx.put hpc hmoved
  | send w ready hact hpc hk =>
    subst hact hk
    replace hpc : σ.pc t = .send w := hpc
    have hnote : note σ (.run t ready) σ r = r := by simp only [note, hpc]
    rw [hnote]
    exact hx.send hpc hmoved
  | finish w ready hact hpc hdone hk =>
    subst hact hk
    replace hpc : σ.pc t = .outer w := hpc
    have hnote : note σ (.run t ready) σ r =
        { r with finished := Function.update r.finished t (r.finished t ++ w.s) } := by
      simp only [note, hpc, if_neg hdone]
    rw [hnote]
    exact hx.finish hpc hdone hmoved

/-- **The output queue, over every run**, from any value of the counters. -/
theorem fifo (k : UInt64) (buf : Fin uartOutputSize → UInt8)
    (h : Run.Reachable writeStep (start k buf, ⟨[], fun _ => []⟩) x) : Fifo x := by
  refine (Run.Reach.invariant (P := Inv) ?_ (fun _ _ _ hx _ hs => hx.step hs) h).toFifo
  exact ⟨⟨by simp [start], by simp [start, State.queuedBytes], fun _ => rfl⟩,
    fun _ => ⟨nofun, nofun⟩, nofun, nofun, nofun⟩

end Uart
