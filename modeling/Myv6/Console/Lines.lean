import Myv6.Console.Deadlock
import Myv6.Uart.Input

/-!
# Console/Lines — `input_lines` against the unread bytes

    input_lines = terminators unread + a line counted, not yet queued + a terminator taken, not yet
                                                                        subtracted

The second line of the sum belongs to the handler that holds `uart_input_lock`, the third to the
reader that holds `input_lines_lock`.  Taking a line out of the queue behind the readers' back, by a
backspace or for lack of room, breaks the equation; where it does not happen the equation holds
along the run, and a reader that has seen a line finds one (`lines_counted`).
-/

namespace Console

open State

variable {s t : State} {a : Act} {c d : CpuId} {l : Lock} {p : ProcId} {k : Pc} {b : UInt8}

/-- The bytes for which `console_getc` counts a line off: `'\n'` and `CTRL('D')`. -/
def isTerminator (b : UInt8) : Bool := b == newline || b == ctrlD

/-- The line terminators of a list of bytes. -/
def lineCount (bs : List UInt8) : ℕ := bs.countP isTerminator

/-- No call of `console_getc` or `uart_intr` is in progress. -/
structure NoCall (s : State) : Prop where
  cpu : ∀ c, s.cpu c = .idle ∨ ∃ p, s.cpu c = .read p .out
  proc : ∀ p, s.proc p = .onCpu ∨ s.proc p = .ready .out

/-- **The lines are counted**: between calls `input_lines` is the number of unread terminators, and
a reader takes a byte only where a terminator is unread. -/
structure LinesCounted (s : State) : Prop where
  count : NoCall s → s.inputLines.toNat = lineCount s.queue.unread
  complete : ∀ a, event s a = some .taken → ∃ b ∈ s.queue.unread, isTerminator b = true

/-! ## Bytes that take a line away -/

/-- The byte takes no terminator out of the unread ones. -/
def sparesLine (bs : List UInt8) (b : UInt8) : Bool :=
  match intrRes b with
  | .backspace => !bs.getLast?.any isTerminator
  | _ => !(bs.length == uartInputSize && bs.head?.any isTerminator)

/-- **The step takes no line out of the queue behind the readers' back.** -/
def keepsLines (s : State) (a : Act) : Bool :=
  match event s a with
  | some (.received b) => sparesLine s.queue.unread b
  | _ => true

theorem lineCount_append (bs bs' : List UInt8) :
    lineCount (bs ++ bs') = lineCount bs + lineCount bs' := List.countP_append

theorem lineCount_cons (b : UInt8) (bs : List UInt8) :
    lineCount (b :: bs) = lineCount bs + if isTerminator b then 1 else 0 := List.countP_cons

/-- A backspace over a byte that is no terminator. -/
theorem lineCount_dropLast {bs : List UInt8} (h : bs.getLast?.any isTerminator = false) :
    lineCount bs.dropLast = lineCount bs := by
  rcases bs.eq_nil_or_concat with rfl | ⟨bs, x, rfl⟩
  · rfl
  · rw [List.concat_eq_append] at h ⊢
    rw [List.getLast?_concat] at h
    have hx : isTerminator x = false := h
    rw [List.dropLast_concat, lineCount_append, lineCount_cons, hx]
    rfl

/-- A byte more, where none or no terminator has to go. -/
theorem lineCount_push {bs : List UInt8} (hbs : bs.length ≤ uartInputSize)
    (h : (bs.length == uartInputSize && bs.head?.any isTerminator) = false) (b : UInt8) :
    lineCount (append bs b) = lineCount bs + if isTerminator b then 1 else 0 := by
  have hone : lineCount [b] = if isTerminator b then 1 else 0 := by
    rw [lineCount_cons]
    exact Nat.zero_add _
  unfold append
  split
  · next hfull =>
    have hlen : bs.length = uartInputSize := by
      rw [List.length_append, List.length_singleton] at hfull
      omega
    cases bs with
    | nil => cases hlen
    | cons x bs =>
      have hx : isTerminator x = false := by simpa [hlen] using h
      rw [List.cons_append, List.tail_cons, lineCount_append, lineCount_cons x, hx, hone]
      rfl
  · rw [lineCount_append, hone]

/-- **A byte received adds the line it ends.** -/
theorem lineCount_received {bs : List UInt8} (hbs : bs.length ≤ uartInputSize)
    (h : sparesLine bs b = true) :
    lineCount (received bs b) = lineCount bs + if endsLine b then 1 else 0 := by
  unfold sparesLine at h
  unfold received endsLine
  cases hres : intrRes b with rw [hres] at h
  | backspace => exact lineCount_dropLast ((Bool.not_eq_true' _).mp h)
  | getLine => exact lineCount_push hbs ((Bool.not_eq_true' _).mp h) newline
  | getEof =>
    have hb : b = ctrlD := by
      unfold intrRes at hres
      split at hres
      · cases hres
      · split at hres
        · cases hres
        · split at hres
          · assumption
          · cases hres
    rw [hb]
    exact lineCount_push hbs ((Bool.not_eq_true' _).mp h) ctrlD
  | getCh =>
    have hb : isTerminator b = false := by
      unfold intrRes at hres
      split at hres
      · cases hres
      · split at hres
        · cases hres
        · split at hres
          · cases hres
          · next hline heof => simp [isTerminator, not_or.mp hline, heof]
    have hpush := lineCount_push hbs ((Bool.not_eq_true' _).mp h) b
    rw [hb] at hpush
    exact hpush

/-! ## What is due -/

/-- A line counted and not yet queued, or taken and not yet counted off. -/
def Pc.weight : Pc → Lock → ℕ
  | .intr (.counted _) _, .input => 1
  | .read _ (.finish b), .lines => if isTerminator b then 1 else 0
  | _, _ => 0

/-- What the holder of a lock has still to do. -/
def due (s : State) (l : Lock) : ℕ := (s.lock l).elim 0 fun c => (s.cpu c).weight l

theorem Pc.weight_eq_zero (h : k.holds l = false) : k.weight l = 0 := by
  cases k with
  | idle => rfl
  | read p k => cases k <;> cases l <;> first | rfl | cases h
  | intr k saved => cases k <;> cases l <;> first | rfl | cases h

theorem Pc.weight_le (k : Pc) (l : Lock) : k.weight l ≤ 1 := by
  unfold weight
  split
  · exact le_rfl
  · split <;> omega
  · omega

theorem due_le (s : State) (l : Lock) : due s l ≤ 1 := by
  unfold due
  cases s.lock l with
  | none => exact Nat.zero_le 1
  | some c => exact Pc.weight_le _ _

theorem Owner.due_eq (ho : Owner s) (h : (s.cpu c).holds l = true) :
    due s l = (s.cpu c).weight l := by
  rw [due, (ho.lock c l).mpr h]
  rfl

theorem Owner.due_eq_zero (ho : Owner s) (h : ∀ c, (s.cpu c).holds l = false) : due s l = 0 := by
  rw [due]
  cases hl : s.lock l with
  | none => rfl
  | some c =>
    have := (ho.lock c l).mp hl
    rw [h c] at this
    cases this

/-- Only one CPU holds a lock. -/
theorem Owner.unique (ho : Owner s) (hc : (s.cpu c).holds l = true)
    (hd : (s.cpu d).holds l = true) : d = c :=
  Option.some.inj (((ho.lock d l).mpr hd).symm.trans ((ho.lock c l).mpr hc))

/-- **What one CPU does to what is due.** -/
theorem Owner.due_update (ho : Owner s) (ho' : Owner t) (hcpu : t.cpu = Function.update s.cpu c k)
    (l : Lock) : due t l + (s.cpu c).weight l = due s l + k.weight l := by
  have hhere : t.cpu c = k := by rw [hcpu, Function.update_self]
  have hother : ∀ d, d ≠ c → t.cpu d = s.cpu d := fun d hd => by
    rw [hcpu, Function.update_of_ne hd]
  by_cases hs : (s.cpu c).holds l = true
  · have hdues := ho.due_eq hs
    by_cases hk : k.holds l = true
    · have hduet := ho'.due_eq (c := c) (l := l) (by rw [hhere]; exact hk)
      rw [hhere] at hduet
      omega
    · have hduet : due t l = 0 := ho'.due_eq_zero fun d => by
        by_cases hd : d = c
        · rw [hd, hhere]
          exact Bool.eq_false_iff.mpr hk
        · rw [hother d hd]
          exact Bool.eq_false_iff.mpr fun h => hd (ho.unique hs h)
      rw [Pc.weight_eq_zero (Bool.eq_false_iff.mpr hk)]
      omega
  · rw [Pc.weight_eq_zero (Bool.eq_false_iff.mpr hs), Nat.add_zero]
    by_cases hk : k.holds l = true
    · have hin : (t.cpu c).holds l = true := by rw [hhere]; exact hk
      have hduet := ho'.due_eq hin
      have hdues : due s l = 0 := ho.due_eq_zero fun d => by
        by_cases hd : d = c
        · rw [hd]
          exact Bool.eq_false_iff.mpr hs
        · rw [← hother d hd]
          exact Bool.eq_false_iff.mpr fun h => hd (ho'.unique hin h)
      rw [hduet, hdues, hhere, Nat.zero_add]
    · rw [Pc.weight_eq_zero (Bool.eq_false_iff.mpr hk), Nat.add_zero]
      have hlock : t.lock l = s.lock l := by
        refine Option.ext fun d => ?_
        rw [ho'.lock, ho.lock]
        by_cases hd : d = c
        · rw [hd, hhere, Bool.eq_false_iff.mpr hk, Bool.eq_false_iff.mpr hs]
        · rw [hother d hd]
      unfold due
      rw [hlock]
      cases hl : s.lock l with
      | none => rfl
      | some d =>
        have hd : d ≠ c := by
          rintro rfl
          exact hs ((ho.lock d l).mp hl)
        exact congrArg (Pc.weight · l) (hother d hd)

/-! ## What a run keeps -/

/-- On the way through `uart_just_getc`: the reader never finds the queue empty. -/
def ReadPc.direct : ReadPc → Bool
  | .noChar | .getc | .getcTake | .relock _ => false
  | _ => true

/-- The byte of a line a handler counts. -/
def IntrPc.byte : IntrPc → Option UInt8
  | .count b | .counting b | .counted b => some b
  | .start | .read _ => none

/-- What the code of a CPU knows: a reader that has seen a line still sees it, a handler counts a
byte that ends a line, and nobody is on the way through `uart_getc`. -/
def Pc.Knows (n : UInt64) : Pc → Prop
  | .idle => True
  | .read _ k => k.direct = true ∧ (k = .justGetc ∨ k = .justTake → n ≠ 0)
  | .intr k saved => (∀ b, k.byte = some b → endsLine b = true) ∧
      ∀ p k', saved = some (p, k') → k'.direct = true

/-- The same of a process that is switched out. -/
def ProcState.Direct : ProcState → Prop
  | .ready k => k.direct = true
  | .asleepInput => False
  | .onCpu | .asleepLines => True

/-- **What a run keeps.** -/
structure Counts (s : State) : Prop where
  owner : Owner s
  bound : s.queue.unread.length ≤ uartInputSize
  count : s.inputLines.toNat = lineCount s.queue.unread + due s .input + due s .lines
  knows : ∀ c, (s.cpu c).Knows s.inputLines
  direct : ∀ p, (s.proc p).Direct

/-- A code point that does not hold `input_lines_lock` knows nothing of `input_lines`. -/
theorem Pc.Knows.of_not_holds {n m : UInt64} (h : k.Knows n) (hk : k.holds .lines = false) :
    k.Knows m := by
  cases k with
  | idle => trivial
  | read p k =>
    refine ⟨h.1, ?_⟩
    rintro (rfl | rfl) <;> cases hk
  | intr k saved => exact h

/-- **One CPU goes on**: the books balance if its own share does. -/
theorem Counts.of_update (hs : Counts s) (ho : Owner t)
    (hcpu : t.cpu = Function.update s.cpu c k) (hk : k.Knows t.inputLines)
    (hlines : t.inputLines = s.inputLines ∨ (s.cpu c).holds .lines = true)
    (hdirect : ∀ p, (t.proc p).Direct) (hbound : t.queue.unread.length ≤ uartInputSize)
    (hcount : t.inputLines.toNat + lineCount s.queue.unread + (s.cpu c).weight .input +
      (s.cpu c).weight .lines = s.inputLines.toNat + lineCount t.queue.unread + k.weight .input +
      k.weight .lines) : Counts t := by
  refine ⟨ho, hbound, ?_, fun d => ?_, hdirect⟩
  · have hin := hs.owner.due_update ho hcpu .input
    have hli := hs.owner.due_update ho hcpu .lines
    have hold := hs.count
    omega
  · rw [hcpu]
    by_cases hd : d = c
    · rw [hd, Function.update_self]
      exact hk
    · rw [Function.update_of_ne hd]
      rcases hlines with heq | hheld
      · rw [heq]
        exact hs.knows d
      · exact (hs.knows d).of_not_holds
          (Bool.eq_false_iff.mpr fun h => hd (hs.owner.unique hheld h))

/-- Where neither the queue nor the counter changes, nor what the CPU has to do. -/
theorem Counts.of_quiet (hs : Counts s) (ho : Owner t)
    (hcpu : t.cpu = Function.update s.cpu c k) (hk : k.Knows s.inputLines)
    (hlines : t.inputLines = s.inputLines) (hqueue : t.queue = s.queue)
    (hdirect : ∀ p, (t.proc p).Direct) (hweight : ∀ l, k.weight l = (s.cpu c).weight l) :
    Counts t := by
  refine hs.of_update ho hcpu (hlines ▸ hk) (.inl hlines) hdirect (hqueue ▸ hs.bound) ?_
  rw [hlines, hqueue, hweight, hweight]

theorem Counts.lines_le (hs : Counts s) : s.inputLines.toNat ≤ 66 := by
  have hcount := hs.count
  have hle : lineCount s.queue.unread ≤ s.queue.unread.length := List.countP_le_length
  have hbound : s.queue.unread.length ≤ 64 := hs.bound
  have hin := due_le s .input
  have hli := due_le s .lines
  omega

/-- A process is put into a state on the direct way. -/
theorem Counts.direct_setProc (hs : Counts s) {k : ProcState} (hk : k.Direct) (q : ProcId) :
    ((s.setProc p k).proc q).Direct := by
  by_cases hq : q = p
  · subst hq
    simpa [setProc] using hk
  · simpa [setProc, hq] using hs.direct q

/-- A step that takes a lock. -/
theorem Counts.acquire (hs : Counts s) (ho : Owner t) (h : s.acquire c l k = some t)
    (hk : k.Knows s.inputLines) (hweight : ∀ l, k.weight l = (s.cpu c).weight l) : Counts t := by
  obtain ⟨-, h⟩ := Option.ite_none_right_eq_some.mp h
  obtain rfl := Option.some.inj h
  exact hs.of_quiet ho rfl hk rfl rfl hs.direct hweight

/-- **A reader in `uart_just_getc` finds a line.** -/
theorem Counts.pos_of_justTake (hs : Counts s) (hpc : s.cpu c = .read p .justTake) :
    0 < lineCount s.queue.unread := by
  have hpos : s.inputLines ≠ 0 := by
    have := hs.knows c
    rw [hpc] at this
    exact this.2 (.inr rfl)
  have hnat : s.inputLines.toNat ≠ 0 := fun h => hpos (UInt64.toNat_inj.mp h)
  have hin : due s .input = 0 := by
    rw [hs.owner.due_eq (c := c) (by rw [hpc]; rfl), hpc]
    rfl
  have hli : due s .lines = 0 := by
    rw [hs.owner.due_eq (c := c) (by rw [hpc]; rfl), hpc]
    rfl
  have hcount := hs.count
  omega

theorem unread_ne_nil (h : 0 < lineCount s.queue.unread) : s.queue.uartQueueEmpty = false := by
  refine Bool.eq_false_iff.mpr fun hempty => ?_
  rw [InputQueue.unread_of_empty hempty] at h
  cases h

/-- A reader goes on. -/
theorem Counts.readStep (hs : Counts s) {k : ReadPc} (hpc : s.cpu c = .read p k)
    (h : s.readStep c p k = some t) : Counts t := by
  have ho := hs.owner.readStep hpc h
  have hknows := hs.knows c
  rw [hpc] at hknows
  have hweight : ∀ l, (s.cpu c).weight l = (Pc.read p k).weight l := fun l => by rw [hpc]
  cases k with
  | out => cases h
  | noChar | getc | getcTake | relock b => cases hknows.1
  | lines =>
    exact hs.acquire ho h ⟨rfl, by simp⟩ fun l => by rw [hweight]; cases l <;> rfl
  | justGetc =>
    exact hs.acquire ho h ⟨rfl, fun _ => hknows.2 (.inl rfl)⟩ fun l => by
      rw [hweight]; cases l <;> rfl
  | test =>
    obtain rfl := Option.some.inj h
    by_cases hzero : s.inputLines = 0
    · rw [if_pos hzero] at ho ⊢
      exact hs.of_quiet (k := .idle) ho rfl trivial rfl rfl
        (hs.direct_setProc (k := .asleepLines) trivial) fun l => by rw [hweight]; cases l <;> rfl
    · rw [if_neg hzero] at ho ⊢
      exact hs.of_quiet (k := .read p .justGetc) ho rfl ⟨rfl, fun _ => hzero⟩ rfl rfl hs.direct
        fun l => by rw [hweight]; cases l <;> rfl
  | justTake =>
    obtain rfl := Option.some.inj h
    have hempty := unread_ne_nil (hs.pos_of_justTake hpc)
    rw [if_neg (by rw [hempty]; decide)] at ho ⊢
    have hpop := InputQueue.unread_pop hempty
    refine hs.of_update (k := .read p (.finish s.queue.pop.1)) ho rfl ⟨rfl, by simp⟩ (.inl rfl)
      hs.direct ?_ ?_
    · have hlen := congrArg List.length hpop
      have hbound := hs.bound
      rw [List.length_cons] at hlen
      change s.queue.pop.2.unread.length ≤ _
      omega
    · have hcount := congrArg lineCount hpop
      rw [lineCount_cons] at hcount
      change s.inputLines.toNat + lineCount s.queue.unread + _ + _ =
        s.inputLines.toNat + lineCount s.queue.pop.2.unread + 0 +
          if isTerminator s.queue.pop.1 then 1 else 0
      rw [hweight, hweight]
      change s.inputLines.toNat + lineCount s.queue.unread + 0 + 0 = _
      omega
  | finish b =>
    obtain rfl := Option.some.inj h
    have hheld : (s.cpu c).holds .lines = true := by rw [hpc]; rfl
    refine hs.of_update (k := .read p .out) ho rfl ⟨rfl, by simp⟩ (.inr hheld) hs.direct hs.bound ?_
    have hdue : due s .lines = if isTerminator b then 1 else 0 := by
      rw [hs.owner.due_eq hheld, hpc]
      rfl
    have hcount := hs.count
    have hle := hs.lines_le
    rw [hweight, hweight]
    change (if b = newline ∨ b = ctrlD then s.inputLines - 1 else s.inputLines).toNat +
      lineCount s.queue.unread + 0 + (if isTerminator b then 1 else 0) =
        s.inputLines.toNat + lineCount s.queue.unread + 0 + 0
    by_cases hb : b = newline ∨ b = ctrlD
    · have hterm : isTerminator b = true := by simpa [isTerminator] using hb
      rw [hterm, if_pos rfl] at hdue
      have hsub : (s.inputLines - 1).toNat = s.inputLines.toNat - 1 := by
        rw [UInt64.toNat_sub]
        change (2 ^ 64 - 1 + s.inputLines.toNat) % 2 ^ 64 = _
        omega
      rw [if_pos hb, if_pos hterm, hsub]
      omega
    · have hterm : isTerminator b = false := by
        rcases not_or.mp hb with ⟨h1, h2⟩
        simp [isTerminator, h1, h2]
      rw [if_neg hb, if_neg (by rw [hterm]; decide)]

/-- A handler goes on; a byte it takes off the device takes no line away. -/
theorem Counts.intrStep (hs : Counts s) {k : IntrPc} {saved : Option (ProcId × ReadPc)}
    {byte : Option UInt8} (hpc : s.cpu c = .intr k saved)
    (h : s.intrStep c saved byte k = some t) (hkeep : keepsLines s (.cpu c byte) = true) :
    Counts t := by
  have ho := hs.owner.intrStep hpc h
  have hknows := hs.knows c
  rw [hpc] at hknows
  have hweight : ∀ l, (s.cpu c).weight l = (Pc.intr k saved).weight l := fun l => by rw [hpc]
  have haccept : ∀ b, event s (.cpu c byte) = some (.received b) →
      (s.queue.accept b).unread.length ≤ uartInputSize ∧
        lineCount (s.queue.accept b).unread =
          lineCount s.queue.unread + if endsLine b then 1 else 0 := by
    intro b hevent
    simp only [keepsLines, hevent] at hkeep
    rw [InputQueue.unread_accept hs.bound]
    exact ⟨length_received_le hs.bound b, lineCount_received hs.bound hkeep⟩
  cases k with
  | start => exact hs.acquire ho h ⟨(fun b hb => by cases hb), hknows.2⟩ fun l => by rw [hweight]; cases l <;> rfl
  | count b => exact hs.acquire ho h hknows fun l => by rw [hweight]; cases l <;> rfl
  | read hasInput =>
    obtain rfl := Option.some.inj h
    cases byte with
    | none =>
      have hresume : (resume saved).Knows s.inputLines := by
        cases saved with
        | none => trivial
        | some pk =>
          have hopen := hs.owner.saved c
          rw [hpc] at hopen
          refine ⟨hknows.2 _ _ rfl, ?_⟩
          rintro (hk | hk)
          all_goals
            rw [Pc.savedOpen, hk] at hopen
            cases hopen
      have hrest : ∀ l, (resume saved).weight l = (s.cpu c).weight l := fun l => by
        have hopen := hs.owner.saved c
        rw [hpc] at hopen
        rw [Pc.weight_eq_zero (holds_resume hopen l), hweight]
        cases l <;> rfl
      have hwake : ∀ q, (s.wakeUpInput.proc q).Direct := fun q => by
        have hq := hs.direct q
        simp only [wakeUpInput]
        split
        · next hasleep =>
          rw [hasleep] at hq
          cases hq
        · exact hq
      cases hasInput
      · exact hs.of_quiet ho rfl hresume rfl rfl hs.direct hrest
      · exact hs.of_quiet ho rfl hresume rfl rfl hwake hrest
    | some b =>
      by_cases hb : endsLine b = true
      · simp only [hb, if_true] at ho ⊢
        refine hs.of_quiet (k := .intr (.count b) saved) ho rfl ⟨?_, hknows.2⟩ rfl rfl hs.direct
          fun l => by rw [hweight]; cases l <;> rfl
        rintro b' hb'
        obtain rfl := Option.some.inj hb'
        exact hb
      · simp only [hb] at ho ⊢
        obtain ⟨hbound, hcount⟩ := haccept b (by simp [event, hpc, hb])
        rw [if_neg hb] at hcount
        refine hs.of_update (k := .intr (.read true) saved) ho rfl ⟨(fun b hb => by cases hb), hknows.2⟩ (.inl rfl)
          hs.direct hbound ?_
        rw [hweight, hweight]
        change s.inputLines.toNat + lineCount s.queue.unread + 0 + 0 =
          s.inputLines.toNat + lineCount (s.queue.accept b).unread + 0 + 0
        omega
  | counting b =>
    obtain rfl := Option.some.inj h
    refine hs.of_update (k := .intr (.counted b) saved) ho rfl hknows (.inr (by rw [hpc]; rfl))
      hs.direct hs.bound ?_
    have hle := hs.lines_le
    have hadd : (s.inputLines + 1).toNat = s.inputLines.toNat + 1 := by
      rw [UInt64.toNat_add]
      change (s.inputLines.toNat + 1) % 2 ^ 64 = _
      omega
    rw [hweight, hweight]
    change (s.inputLines + 1).toNat + lineCount s.queue.unread + 0 + 0 =
      s.inputLines.toNat + lineCount s.queue.unread + 1 + 0
    omega
  | counted b =>
    obtain rfl := Option.some.inj h
    obtain ⟨hbound, hcount⟩ := haccept b (by simp [event, hpc])
    rw [if_pos (hknows.1 b rfl)] at hcount
    refine hs.of_update (k := .intr (.read true) saved) ho rfl ⟨(fun b hb => by cases hb), hknows.2⟩ (.inl rfl)
      (fun q => ?_) hbound ?_
    · have hq := hs.direct q
      change ((s.wakeUpLines).proc q).Direct
      simp only [wakeUpLines]
      split
      · exact rfl
      · exact hq
    · rw [hweight, hweight]
      change s.inputLines.toNat + lineCount s.queue.unread + 1 + 0 =
        s.inputLines.toNat + lineCount (s.queue.accept b).unread + 0 + 0
      omega

/-- What a process keeps is what a CPU knows of it. -/
theorem Pc.Knows.of_open {n : UInt64} {k : ReadPc} (hk : k.open = true) (hd : k.direct = true) :
    (Pc.read p k).Knows n := by
  refine ⟨hd, ?_⟩
  rintro (rfl | rfl) <;> cases hk

/-- **A step keeps it.** -/
theorem Counts.step (hs : Counts s) (h : step s a = some t) (hkeep : keepsLines s a = true) :
    Counts t := by
  have ho := hs.owner.step h
  cases a with
  | cpu c byte =>
    rw [Console.step] at h
    split at h
    · cases h
    · next p k hpc => exact hs.readStep hpc h
    · next k saved hpc => exact hs.intrStep hpc h hkeep
  | call c =>
    rw [Console.step] at h
    split at h
    · next p hpc =>
      obtain rfl := Option.some.inj h
      exact hs.of_quiet (k := .read p .lines) ho rfl ⟨rfl, by simp⟩ rfl rfl hs.direct
        fun l => by rw [hpc]; cases l <;> rfl
    · cases h
  | interrupt c =>
    rw [Console.step] at h
    split at h
    · next hpc =>
      obtain rfl := Option.some.inj h
      exact hs.of_quiet (k := .intr .start none) ho rfl ⟨(fun b hb => by cases hb), fun p k hp => by cases hp⟩ rfl rfl
        hs.direct
        fun l => by rw [hpc]; cases l <;> rfl
    · next p k hpc =>
      split at h
      · next hopen =>
        obtain rfl := Option.some.inj h
        have hknows := hs.knows c
        rw [hpc] at hknows
        refine hs.of_quiet (k := .intr .start (some (p, k))) ho rfl ⟨(fun b hb => by cases hb), ?_⟩ rfl rfl
          hs.direct
          fun l => ?_
        · rintro p' k' hk'
          obtain ⟨rfl, rfl⟩ := Prod.mk.inj (Option.some.inj hk')
          exact hknows.1
        · rw [hpc, Pc.weight_eq_zero (k := .read p k) (ReadPc.holds_of_open hopen l)]
          cases l <;> rfl
      · cases h
    · cases h
  | dispatch c p =>
    rw [Console.step] at h
    split at h
    · next k hpc hready =>
      obtain rfl := Option.some.inj h
      have hdirect := hs.direct p
      rw [hready] at hdirect
      have hopen := hs.owner.ready p k hready
      refine hs.of_quiet (k := .read p k) ho rfl (.of_open hopen hdirect) rfl rfl
        (hs.direct_setProc (k := .onCpu) trivial) fun l => ?_
      rw [hpc, Pc.weight_eq_zero (k := .read p k) (ReadPc.holds_of_open hopen l)]
      cases l <;> rfl
    · cases h
  | preempt c =>
    rw [Console.step] at h
    split at h
    · next p k hpc =>
      split at h
      · next hopen =>
        obtain rfl := Option.some.inj h
        have hknows := hs.knows c
        rw [hpc] at hknows
        refine hs.of_quiet (k := .idle) ho rfl trivial rfl rfl
          (hs.direct_setProc (k := .ready k) hknows.1) fun l => ?_
        rw [hpc, Pc.weight_eq_zero (k := .read p k) (ReadPc.holds_of_open hopen l)]
        cases l <;> rfl
      · cases h
    · cases h
  | wake p =>
    rw [Console.step] at h
    split at h
    · obtain rfl := Option.some.inj h
      exact ⟨ho, hs.bound, hs.count, hs.knows, hs.direct_setProc (k := .ready .lines) rfl⟩
    · next hasleep =>
      have hdirect := hs.direct p
      rw [hasleep] at hdirect
      cases hdirect
    · cases h

/-- The books at the start. -/
theorem Counts.init : Counts init :=
  ⟨Owner.init, Nat.zero_le _, rfl, fun _ => trivial, fun _ => rfl⟩

theorem NoCall.holds (h : NoCall s) (c : CpuId) (l : Lock) : (s.cpu c).holds l = false := by
  rcases h.cpu c with hc | ⟨p, hc⟩
  · rw [hc]
    rfl
  · rw [hc]
    cases l <;> rfl

/-- **What is kept counts the lines.** -/
theorem Counts.linesCounted (hs : Counts s) : LinesCounted s := by
  refine ⟨fun hno => ?_, fun a ha => ?_⟩
  · rw [hs.count, hs.owner.due_eq_zero fun c => hno.holds c .input,
      hs.owner.due_eq_zero fun c => hno.holds c .lines]
    rfl
  · cases a with
    | cpu c byte =>
      have hknows := hs.knows c
      simp only [event] at ha
      split at ha
      · cases byte with
        | none => cases ha
        | some b =>
          simp only [Option.bind_some] at ha
          split at ha <;> cases ha
      · cases ha
      · next p hpc => exact List.countP_pos_iff.mp (hs.pos_of_justTake hpc)
      · next p hpc =>
        rw [hpc] at hknows
        cases hknows.1
      · cases ha
    | _ => cases ha

/-- **The lines are counted in every state of a run** whose received bytes take no line out of the
queue behind the readers' back. -/
theorem lines_counted (s : State)
    (h : Run.Reach step (fun s a => keepsLines s a = true) init s) : LinesCounted s :=
  (Run.Reach.invariant (P := Counts) .init (fun _ _ _ hs hkeep hstep => hs.step hstep hkeep)
    h).linesCounted

/-- CPU 1 receives the bytes `a`, `b`, a backspace and `'\r'`, and process 0 begins to read. -/
def typedRun : List Act :=
  [.interrupt 1, .cpu 1 none, .cpu 1 (some 97), .cpu 1 (some 98), .cpu 1 (some ctrlH),
    .cpu 1 (some carriageReturn), .cpu 1 none, .cpu 1 none, .cpu 1 none, .cpu 1 none,
    .dispatch 0 0, .call 0, .cpu 0 none, .cpu 0 none, .cpu 0 none]

/-- The theorem there. -/
theorem lines_counted_typedRun :
    ∃ s, Run.Reach step (fun s a => keepsLines s a = true) init s ∧
      event s (.cpu 0 none) = some .taken ∧ LinesCounted s := by
  have hrun : (Run.run (Run.guard step keepsLines) init typedRun).map
      (fun s => event s (.cpu 0 none)) = some (some .taken) := by decide +kernel
  obtain ⟨s, hs, hevent⟩ := Option.map_eq_some_iff.mp hrun
  have hreach : Run.Reach step (fun s a => keepsLines s a = true) init s :=
    Run.reach_of_guard (fun _ _ h => h) .refl hs
  exact ⟨s, hreach, hevent, lines_counted s hreach⟩

/-- A line is received and a backspace takes its end back. -/
def rubOutRun : List Act :=
  [.interrupt 0, .cpu 0 none, .cpu 0 (some newline), .cpu 0 none, .cpu 0 none, .cpu 0 none,
    .cpu 0 (some ctrlH), .cpu 0 none]

/-- **A backspace over a line terminator**: the line is gone and still counted. -/
theorem not_lines_counted : ¬∀ s, Reachable s → LinesCounted s := by
  intro hall
  have hrun : (Run.run step init rubOutRun).map
      (fun s => (s.inputLines, s.queue.unread)) = some (1, []) := by decide +kernel
  obtain ⟨s, hs, hlook⟩ := Option.map_eq_some_iff.mp hrun
  obtain ⟨hlines, hunread⟩ := Prod.mk.inj hlook
  have hcall : NoCall s := by
    obtain rfl := Option.some.inj hs
    refine ⟨fun c => .inl ?_, fun p => .inr rfl⟩
    by_cases hc : c = 0
    · subst hc
      rfl
    · iterate 8 refine (Function.update_of_ne hc _ _).trans ?_
      rfl
  have hcount := (hall s (Run.reachable_of_run .refl hs)).count hcall
  rw [hlines, hunread] at hcount
  cases hcount

end Console
