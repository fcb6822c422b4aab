import Mathlib.Data.Fintype.Basic
import Mathlib.Logic.Function.Basic
import Myv6.Lib.Index

/-!
# Console/Input — the bytes of the console

What `uart.c` and `console.c` do to the input bytes, apart from who holds which lock: the ring of
unread bytes with its free-running counters, and how `console_intr` classifies a byte.
-/

namespace Console

/-- `UART_INPUT_SIZE`. -/
abbrev uartInputSize : ℕ := 64

/-- `CTRL('H')`. -/
abbrev ctrlH : UInt8 := 8

/-- `CTRL('D')`. -/
abbrev ctrlD : UInt8 := 4

/-- The byte `'\n'`. -/
abbrev newline : UInt8 := 10

/-- The byte `'\r'`. -/
abbrev carriageReturn : UInt8 := 13

/-- `uart_input_queue` with `uart_iq_beg` and `uart_iq_end`. -/
structure InputQueue where
  queue : Fin uartInputSize → UInt8
  iqBeg : UInt64
  iqEnd : UInt64

/-- What `console_intr` tells `uart_getc_input_queue`. -/
inductive IntrRes
  | backspace | getLine | getEof | getCh
  deriving DecidableEq, Repr

/-- The result of `console_intr`. -/
def intrRes (c : UInt8) : IntrRes :=
  if c = ctrlH then .backspace
  else if c = carriageReturn ∨ c = newline then .getLine
  else if c = ctrlD then .getEof
  else .getCh

/-- The bytes on which `console_intr` counts a line, under `input_lines_lock`. -/
def endsLine (c : UInt8) : Bool := intrRes c = .getLine || intrRes c = .getEof

namespace InputQueue

/-- The cell of a counter value. -/
def cell (k : UInt64) : Fin uartInputSize := ⟨k.toNat % uartInputSize, Nat.mod_lt _ (by decide)⟩

/-- `uart_queue_empty` on the input counters. -/
def uartQueueEmpty (q : InputQueue) : Bool := q.iqBeg == q.iqEnd

/-- `uart_queue_full` on the input counters. -/
def uartQueueFull (q : InputQueue) : Bool := q.iqEnd - q.iqBeg == 64

/-- A byte is queued, the oldest one lost if there is no room. -/
def push (q : InputQueue) (c : UInt8) : InputQueue :=
  { queue := Function.update q.queue (cell q.iqEnd) c
    iqBeg := if q.uartQueueFull then q.iqBeg + 1 else q.iqBeg
    iqEnd := q.iqEnd + 1 }

/-- `uart_getc_input_queue`, once `console_intr` has classified the byte. -/
def accept (q : InputQueue) (c : UInt8) : InputQueue :=
  match intrRes c with
  | .backspace => if q.uartQueueEmpty then q else { q with iqEnd := q.iqEnd - 1 }
  | .getLine => q.push newline
  | .getEof | .getCh => q.push c

/-- The oldest byte, and the queue without it. -/
def pop (q : InputQueue) : UInt8 × InputQueue :=
  (q.queue (cell q.iqBeg), { q with iqBeg := q.iqBeg + 1 })

end InputQueue

end Console
