import Myv6.Console.Step
import Myv6.Uart.Output

/-!
# Uart/Input — the input queue of the UART

    byte ──console_intr──▸ append, or drop the newest ──▸ uart_iq_beg … uart_iq_end ──▸ reader

The unread bytes as a list: `push` and `accept` on the ring are `append` and `received` on the list,
and over every run of handlers and readers the ring holds what the list holds (`input_ring`).
`uart_rings` puts the two queues together.
-/

namespace Console

variable {s t : State} {a : Act} {c : CpuId} {b : UInt8} {q : InputQueue}

/-! ## The list -/

/-- The unread bytes, the oldest first. -/
def InputQueue.unread (q : InputQueue) : List UInt8 := Ring.queued q.queue q.iqBeg q.iqEnd

/-- A byte more, and the oldest one dropped where there would be too many. -/
def append (l : List UInt8) (b : UInt8) : List UInt8 :=
  if uartInputSize < (l ++ [b]).length then (l ++ [b]).tail else l ++ [b]

/-- **What a received byte does to the unread ones.** -/
def received (l : List UInt8) (b : UInt8) : List UInt8 :=
  match intrRes b with
  | .backspace => l.dropLast
  | .getLine => append l newline
  | .getEof | .getCh => append l b

/-- A queue that is not full, with no more than its size, has room. -/
theorem InputQueue.unread_lt (hq : q.unread.length ≤ uartInputSize)
    (h : q.uartQueueFull = false) : q.unread.length < uartInputSize := by
  refine lt_of_le_of_ne hq fun heq => ?_
  have hne : q.iqEnd - q.iqBeg ≠ 64 := by simpa [uartQueueFull] using h
  rw [unread, Ring.length_queued] at heq
  exact hne (UInt64.toNat_inj.mp heq)

/-- An empty queue has no unread byte. -/
theorem InputQueue.unread_of_empty (h : q.uartQueueEmpty = true) : q.unread = [] := by
  have heq : q.iqBeg = q.iqEnd := by simpa [uartQueueEmpty] using h
  rw [unread, heq, Ring.queued_self]

/-- **The oldest byte, and the rest.** -/
theorem InputQueue.unread_pop (h : q.uartQueueEmpty = false) :
    q.unread = q.pop.1 :: q.pop.2.unread :=
  Ring.queued_pop (by decide) (by simpa [uartQueueEmpty] using h)

/-- **A byte queued is the newest**; a full queue loses its oldest byte to it. -/
theorem InputQueue.unread_push (hq : q.unread.length ≤ uartInputSize) (b : UInt8) :
    (q.push b).unread = append q.unread b := by
  have hpush : ∀ beg : UInt64, (q.iqEnd - beg).toNat < uartInputSize →
      Ring.queued (Function.update q.queue (cell q.iqEnd) b) beg (q.iqEnd + 1) =
        Ring.queued q.queue beg q.iqEnd ++ [b] := fun beg hlt =>
    Ring.queued_push (by decide) b hlt (by unfold uartInputSize at hlt; omega)
  by_cases hfull : q.uartQueueFull = true
  · have h64 : q.iqEnd - q.iqBeg = 64 := by simpa [uartQueueFull] using hfull
    have hne : q.uartQueueEmpty = false := by
      refine Bool.eq_false_iff.mpr fun hempty => ?_
      have heq : q.iqBeg = q.iqEnd := by simpa [uartQueueEmpty] using hempty
      rw [heq, UInt64.sub_self] at h64
      cases h64
    have hpop := unread_pop hne
    have hlen : q.unread.length = uartInputSize := by
      rw [unread, Ring.length_queued, h64]
      rfl
    have htail : q.unread.tail = Ring.queued q.queue (q.iqBeg + 1) q.iqEnd := by
      rw [hpop]
      rfl
    have hlt : (q.iqEnd - (q.iqBeg + 1)).toNat < uartInputSize := by
      rw [← Ring.length_queued q.queue, ← htail, List.length_tail, hlen]
      decide
    have hbeg : (q.push b).iqBeg = q.iqBeg + 1 := if_pos hfull
    rw [unread, hbeg]
    refine (hpush _ hlt).trans ?_
    rw [append, if_pos (by simp [hlen]), ← htail, List.tail_append_of_ne_nil]
    rw [hpop]
    exact List.cons_ne_nil _ _
  · have hlt := unread_lt hq (Bool.eq_false_iff.mpr hfull)
    have hbeg : (q.push b).iqBeg = q.iqBeg := if_neg hfull
    have hfit : ¬uartInputSize < (q.unread ++ [b]).length := by
      rw [List.length_append, List.length_singleton]
      omega
    rw [append, if_neg hfit, unread, hbeg]
    exact hpush _ (by rwa [unread, Ring.length_queued] at hlt)

/-- **A byte received**, in the ring and in the list. -/
theorem InputQueue.unread_accept (hq : q.unread.length ≤ uartInputSize) (b : UInt8) :
    (q.accept b).unread = received q.unread b := by
  unfold accept received
  cases intrRes b with
  | backspace =>
    by_cases hempty : q.uartQueueEmpty = true
    · simp only [hempty, if_true]
      rw [unread_of_empty hempty]
      rfl
    · simp only [hempty]
      have hne : q.iqBeg ≠ q.iqEnd := by simpa [uartQueueEmpty] using hempty
      exact Ring.queued_dropLast hne
  | getLine => exact unread_push hq newline
  | getEof => exact unread_push hq b
  | getCh => exact unread_push hq b

/-- The list never holds more than the size of the queue. -/
theorem length_append_le {l : List UInt8} (hl : l.length ≤ uartInputSize) (b : UInt8) :
    (append l b).length ≤ uartInputSize := by
  unfold append
  split
  · rw [List.length_tail, List.length_append, List.length_singleton]
    omega
  · omega

theorem length_received_le {l : List UInt8} (hl : l.length ≤ uartInputSize) (b : UInt8) :
    (received l b).length ≤ uartInputSize := by
  unfold received
  cases intrRes b with
  | backspace => exact (List.dropLast_sublist l).length_le.trans hl
  | getLine => exact length_append_le hl newline
  | getEof => exact length_append_le hl b
  | getCh => exact length_append_le hl b

/-! ## Runs -/

/-- What happens to the queue. -/
inductive Event
  /-- `uart_getc_input_queue` takes a byte from the device. -/
  | received (b : UInt8)
  /-- A reader takes the oldest byte. -/
  | taken
  deriving DecidableEq, Repr

/-- What a step does to the queue.  A byte that ends a line is queued once it has been counted. -/
def event (s : State) : Act → Option Event
  | .cpu c byte =>
    match s.cpu c with
    | .intr (.read _) _ => byte.bind fun b => if endsLine b then none else some (.received b)
    | .intr (.counted b) _ => some (.received b)
    | .read _ .justTake | .read _ .getcTake =>
      if s.queue.uartQueueEmpty then none else some .taken
    | _ => none
  | _ => none

/-- The ring after it. -/
def InputQueue.after (q : InputQueue) : Option Event → InputQueue
  | none => q
  | some (.received b) => q.accept b
  | some .taken => q.pop.2

/-- The list after it. -/
def listAfter (l : List UInt8) : Option Event → List UInt8
  | none => l
  | some (.received b) => received l b
  | some .taken => l.tail

/-- The system beside the list. -/
abbrev listStep : State × List UInt8 → Act → Option (State × List UInt8) :=
  Run.watch step fun s a _ l => listAfter l (event s a)

/-- The state after `console_init`, with the counters of the input queue at `k`. -/
def initAt (k : UInt64) (buf : Fin uartInputSize → UInt8) : State :=
  { init with queue := ⟨buf, k, k⟩ }

theorem queue_acquire {l : Lock} {k : Pc} (h : s.acquire c l k = some t) : t.queue = s.queue := by
  obtain ⟨-, h⟩ := Option.ite_none_right_eq_some.mp h
  obtain rfl := Option.some.inj h
  rfl

/-- A reader. -/
theorem queue_readStep {p : ProcId} {k : ReadPc} {byte : Option UInt8} (hpc : s.cpu c = .read p k)
    (h : s.readStep c p k = some t) : t.queue = s.queue.after (event s (.cpu c byte)) := by
  have hevent : k ≠ .justTake → k ≠ .getcTake → event s (.cpu c byte) = none := by
    intro hjust hget
    simp only [event, hpc]
    cases k <;> first | rfl | contradiction
  have htake : k = .justTake ∨ k = .getcTake → event s (.cpu c byte) =
      if s.queue.uartQueueEmpty then none else some .taken := by
    rintro (rfl | rfl) <;> simp only [event, hpc]
  cases k with
  | out => cases h
  | lines | justGetc | getc | relock b =>
    rw [hevent nofun nofun]
    exact queue_acquire h
  | test =>
    obtain rfl := Option.some.inj h
    rw [hevent nofun nofun]
    split <;> rfl
  | justTake =>
    obtain rfl := Option.some.inj h
    rw [htake (.inl rfl)]
    split <;> rfl
  | noChar =>
    obtain rfl := Option.some.inj h
    rw [hevent nofun nofun]
    rfl
  | getcTake =>
    obtain rfl := Option.some.inj h
    rw [htake (.inr rfl)]
    split <;> rfl
  | finish b =>
    obtain rfl := Option.some.inj h
    rw [hevent nofun nofun]
    rfl

/-- A handler. -/
theorem queue_intrStep {k : IntrPc} {saved : Option (ProcId × ReadPc)} {byte : Option UInt8}
    (hpc : s.cpu c = .intr k saved) (h : s.intrStep c saved byte k = some t) :
    t.queue = s.queue.after (event s (.cpu c byte)) := by
  simp only [event, hpc]
  cases k with
  | start | count b => exact queue_acquire h
  | read hasInput =>
    obtain rfl := Option.some.inj h
    cases byte with
    | none => cases hasInput <;> rfl
    | some b =>
      simp only [Option.bind_some]
      split <;> rfl
  | counting b =>
    obtain rfl := Option.some.inj h
    rfl
  | counted b =>
    obtain rfl := Option.some.inj h
    rfl

/-- **What a step does to the ring.** -/
theorem queue_step (h : step s a = some t) : t.queue = s.queue.after (event s a) := by
  cases a with
  | cpu c byte =>
    rw [step] at h
    split at h
    · cases h
    · next p k hpc => exact queue_readStep hpc h
    · next k saved hpc => exact queue_intrStep hpc h
  | call c | dispatch c p | preempt c | interrupt c | wake p =>
    rw [step] at h
    split at h
    all_goals try split at h
    all_goals cases h <;> rfl

/-- The list follows the ring. -/
theorem unread_after (hq : q.unread.length ≤ uartInputSize) (e : Option Event)
    (he : e = some .taken → q.uartQueueEmpty = false) :
    (q.after e).unread = listAfter q.unread e := by
  rcases e with _ | (b | _)
  · rfl
  · exact InputQueue.unread_accept hq b
  · rw [InputQueue.unread_pop (he rfl)]
    rfl

theorem length_listAfter_le {l : List UInt8} (hl : l.length ≤ uartInputSize) (e : Option Event) :
    (listAfter l e).length ≤ uartInputSize := by
  rcases e with _ | (b | _)
  · exact hl
  · exact length_received_le hl b
  · exact (List.length_tail ▸ Nat.sub_le _ _).trans hl

/-- A reader takes a byte from a queue that has one. -/
theorem not_empty_of_taken (h : event s a = some .taken) : s.queue.uartQueueEmpty = false := by
  cases a with
  | cpu c byte =>
    simp only [event] at h
    split at h
    · cases byte with
      | none => cases h
      | some b =>
        simp only [Option.bind_some] at h
        split at h <;> cases h
    · cases h
    · split at h
      · cases h
      · next hempty => exact Bool.eq_false_iff.mpr hempty
    · split at h
      · cases h
      · next hempty => exact Bool.eq_false_iff.mpr hempty
    · cases h
  | _ => cases h

/-- **The input queue, over every run**, from any value of the counters: the ring holds what the
list holds. -/
theorem input_ring (k : UInt64) (buf : Fin uartInputSize → UInt8) {x : State × List UInt8}
    (h : Run.Reachable listStep (initAt k buf, []) x) :
    x.1.queue.unread = x.2 ∧ x.2.length ≤ uartInputSize := by
  refine Run.Reach.invariant (P := fun x : State × List UInt8 =>
    x.1.queue.unread = x.2 ∧ x.2.length ≤ uartInputSize) ?_ ?_ h
  · exact ⟨Ring.queued_self, Nat.zero_le _⟩
  · rintro ⟨s, l⟩ a ⟨t, l'⟩ ⟨hq, hlen⟩ - hstep
    obtain ⟨ht, hl'⟩ := Run.watch_eq_some_iff.mp hstep
    obtain rfl : l' = listAfter l (event s a) := hl'
    refine ⟨?_, length_listAfter_le hlen _⟩
    change t.queue.unread = _
    rw [queue_step ht, unread_after (hq ▸ hlen) _ not_empty_of_taken]
    exact congrArg (listAfter · _) hq

end Console

namespace Uart

/-- **The rings of the UART**, for any value of their counters at the start.  Of the output: at most
16 bytes are queued, what `THR` got and what is queued is what was enqueued, and each thread's calls
enqueue their bytes in order.  Of the input: the ring holds what the list holds. -/
theorem uart_rings :
    (∀ k buf x, Run.Reachable writeStep (start k buf, ⟨[], fun _ => []⟩) x → Fifo x) ∧
      ∀ k buf y, Run.Reachable Console.listStep (Console.initAt k buf, []) y →
        y.1.queue.unread = y.2 ∧ y.2.length ≤ Console.uartInputSize :=
  ⟨fun k buf _ h => fifo k buf h, fun k buf _ h => Console.input_ring k buf h⟩

end Uart
