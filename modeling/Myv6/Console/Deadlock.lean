import Myv6.Console.Step
import Myv6.Lib.WaitFor

/-!
# Console/Deadlock — the two locks are taken in both orders

    reader    holds lines, spins on input        console_getc ▸ uart_just_getc
    handler   holds input, spins on lines        uart_intr ▸ console_intr

Each order alone is harmless.  They meet when a line terminator arrives while a reader is on its way
into `uart_just_getc`, or a reader goes there while a handler waits to count a line; `Apart` rules
out exactly those two steps, and along a run it holds if and only if no cycle ever forms.
-/

namespace Console

open State

variable {s t : State} {c d : CpuId} {l : Lock} {p : ProcId}

/-- The locks a reader holds. -/
def ReadPc.holds : ReadPc → Lock → Bool
  | .test, .lines | .justGetc, .lines | .justTake, _ | .noChar, .lines | .getcTake, .input
  | .finish _, .lines => true
  | _, _ => false

/-- The locks a handler holds. -/
def IntrPc.holds : IntrPc → Lock → Bool
  | .start, _ => false
  | .counting _, _ | _, .input => true
  | _, .lines => false

/-- The locks the code on a CPU has acquired and not released. -/
def Pc.holds : Pc → Lock → Bool
  | .idle, _ => false
  | .read _ k, l => k.holds l
  | .intr k _, l => k.holds l

/-- The lock a CPU spins on. -/
def Pc.waits : Pc → Option Lock
  | .read _ .lines | .read _ (.relock _) | .intr (.count _) _ => some .lines
  | .read _ .justGetc | .read _ .getc | .intr .start _ => some .input
  | _ => none

/-- The wait-for graph of the two locks has no cycle. -/
def Acyclic (s : State) : Prop :=
  WaitFor.Acyclic (fun c l => s.lock l = some c) fun c => (s.cpu c).waits

/-- A reader on its way into `uart_just_getc`. -/
def Pc.entersJust : Pc → Bool
  | .read _ .justGetc => true
  | _ => false

/-- A handler on its way to count a line. -/
def Pc.entersCount : Pc → Bool
  | .intr (.count _) _ => true
  | _ => false

/-! ## Who holds what -/

/-- What is saved under a handler holds no lock. -/
def Pc.savedOpen : Pc → Prop
  | .intr _ (some (_, k)) => k.open = true
  | _ => True

/-- **The locks are held by the CPUs whose code holds them.** -/
structure Owner (s : State) : Prop where
  lock : ∀ c l, s.lock l = some c ↔ (s.cpu c).holds l = true
  saved : ∀ c, (s.cpu c).savedOpen
  ready : ∀ p k, s.proc p = .ready k → k.open = true

theorem ReadPc.holds_of_open {k : ReadPc} (h : k.open = true) (l : Lock) : k.holds l = false := by
  cases k <;> cases l <;> first | rfl | cases h

/-- One CPU goes on, and no lock changes hands. -/
theorem Owner.of_goto (ho : Owner s) {k : Pc} (hlock : t.lock = s.lock)
    (hcpu : t.cpu = Function.update s.cpu c k) (hk : ∀ l, k.holds l = (s.cpu c).holds l)
    (hsaved : k.savedOpen) (hready : ∀ p k, t.proc p = .ready k → k.open = true) : Owner t := by
  refine ⟨fun d l => ?_, fun d => ?_, hready⟩
  · rw [hlock, hcpu, ho.lock]
    by_cases hd : d = c
    · rw [hd, Function.update_self, hk]
    · rw [Function.update_of_ne hd]
  · rw [hcpu]
    by_cases hd : d = c
    · rw [hd, Function.update_self]
      exact hsaved
    · rw [Function.update_of_ne hd]
      exact ho.saved d

/-- One CPU acquires or releases one lock. -/
theorem Owner.of_lock (ho : Owner s) {k : Pc} {o : Option CpuId}
    (hlock : t.lock = Function.update s.lock l o) (hcpu : t.cpu = Function.update s.cpu c k)
    (ho' : s.lock l = none ∧ o = some c ∨ s.lock l = some c ∧ o = none)
    (hk : ∀ l', k.holds l' = if l' = l then o.isSome else (s.cpu c).holds l')
    (hsaved : k.savedOpen) (hready : ∀ p k, t.proc p = .ready k → k.open = true) : Owner t := by
  refine ⟨fun d l' => ?_, fun d => ?_, hready⟩
  · rw [hlock, hcpu]
    by_cases hl : l' = l <;> by_cases hd : d = c
    · subst hl hd
      rw [Function.update_self, Function.update_self, hk, if_pos rfl]
      rcases ho' with ⟨-, rfl⟩ | ⟨-, rfl⟩ <;> simp
    · subst hl
      rw [Function.update_self, Function.update_of_ne hd, ← ho.lock]
      rcases ho' with ⟨hs, rfl⟩ | ⟨hs, rfl⟩ <;> simp [hs, Ne.symm hd]
    · subst hd
      rw [Function.update_of_ne hl, Function.update_self, hk, if_neg hl]
      exact ho.lock d l'
    · rw [Function.update_of_ne hl, Function.update_of_ne hd]
      exact ho.lock d l'
  · rw [hcpu]
    by_cases hd : d = c
    · rw [hd, Function.update_self]
      exact hsaved
    · rw [Function.update_of_ne hd]
      exact ho.saved d

/-- `acquire` hands the lock to the CPU. -/
theorem Owner.acquire (ho : Owner s) {k : Pc} (h : s.acquire c l k = some t)
    (hk : ∀ l', k.holds l' = if l' = l then true else (s.cpu c).holds l') (hsaved : k.savedOpen) :
    Owner t := by
  rw [State.acquire] at h
  split at h
  · next hl =>
    obtain rfl := Option.some.inj h
    exact ho.of_lock (l := l) (o := some c) rfl rfl (.inl ⟨hl, rfl⟩) hk hsaved ho.ready
  · cases h

/-- `release` takes it back. -/
theorem Owner.release {u : State} (ho : Owner s) {k : Pc} (hlock : u.lock = s.lock)
    (hcpu : u.cpu = s.cpu) (hready : ∀ p k, u.proc p = .ready k → k.open = true)
    (hl : (s.cpu c).holds l = true)
    (hk : ∀ l', k.holds l' = if l' = l then false else (s.cpu c).holds l')
    (hsaved : k.savedOpen) : Owner (u.release c l k) :=
  ho.of_lock (l := l) (o := none) (by rw [← hlock]; rfl) (by rw [← hcpu]; rfl)
    (.inr ⟨(ho.lock c l).mpr hl, rfl⟩) hk hsaved hready

theorem Owner.ready_setProc (ho : Owner s) {k : ProcState}
    (hk : ∀ k', k = .ready k' → k'.open = true) :
    ∀ q k', (s.setProc p k).proc q = .ready k' → k'.open = true := by
  intro q k' hq
  by_cases hqp : q = p
  · subst hqp
    exact hk k' (by simpa [setProc] using hq)
  · exact ho.ready q k' (by simpa [setProc, hqp] using hq)

theorem Owner.readStep (ho : Owner s) {k : ReadPc} (hpc : s.cpu c = .read p k)
    (h : s.readStep c p k = some t) : Owner t := by
  have hheld : ∀ l, (s.cpu c).holds l = k.holds l := fun l => by rw [hpc]; rfl
  have hsleep : ∀ (l : Lock) (k' : ProcState), k.holds l = true → (∀ k'', k' ≠ .ready k'') →
      (∀ l', Pc.idle.holds l' = if l' = l then false else k.holds l') →
      Owner (s.sleep c p l k') := fun l k' hl hk' hidle =>
    ho.release (u := s.setProc p k') (k := .idle) rfl rfl
      (ho.ready_setProc fun k'' h => absurd h (hk' k'')) (by rw [hheld]; exact hl)
      (fun l' => by rw [hheld]; exact hidle l') trivial
  cases k with
  | out => cases h
  | lines => exact ho.acquire h (fun l' => by rw [hheld]; cases l' <;> rfl) trivial
  | test =>
    obtain rfl := Option.some.inj h
    split
    · exact hsleep .lines _ rfl (by simp) fun l' => by cases l' <;> rfl
    · exact ho.of_goto rfl rfl (fun l => by rw [hheld]; cases l <;> rfl) trivial ho.ready
  | justGetc => exact ho.acquire h (fun l' => by rw [hheld]; cases l' <;> rfl) trivial
  | justTake =>
    obtain rfl := Option.some.inj h
    split
    · exact ho.release rfl rfl ho.ready (by rw [hheld]; rfl)
        (fun l' => by rw [hheld]; cases l' <;> rfl) trivial
    · exact ho.release (u := { s with queue := s.queue.pop.2 }) rfl rfl ho.ready
        (by rw [hheld]; rfl) (fun l' => by rw [hheld]; cases l' <;> rfl) trivial
  | noChar =>
    obtain rfl := Option.some.inj h
    exact ho.release rfl rfl ho.ready (by rw [hheld]; rfl)
      (fun l' => by rw [hheld]; cases l' <;> rfl) trivial
  | getc => exact ho.acquire h (fun l' => by rw [hheld]; cases l' <;> rfl) trivial
  | getcTake =>
    obtain rfl := Option.some.inj h
    split
    · exact hsleep .input _ rfl (by simp) fun l' => by cases l' <;> rfl
    · exact ho.release (u := { s with queue := s.queue.pop.2 }) rfl rfl ho.ready
        (by rw [hheld]; rfl) (fun l' => by rw [hheld]; cases l' <;> rfl) trivial
  | relock b => exact ho.acquire h (fun l' => by rw [hheld]; cases l' <;> rfl) trivial
  | finish b =>
    obtain rfl := Option.some.inj h
    exact ho.release (u := { s with inputLines := _ }) rfl rfl ho.ready (by rw [hheld]; rfl)
      (fun l' => by rw [hheld]; cases l' <;> rfl) trivial

theorem Owner.ready_wakeUpLines (ho : Owner s) :
    ∀ q k, s.wakeUpLines.proc q = .ready k → k.open = true := by
  intro q k hq
  simp only [wakeUpLines] at hq
  split at hq
  · cases hq
    rfl
  · exact ho.ready q k hq

theorem Owner.ready_wakeUpInput (ho : Owner s) :
    ∀ q k, s.wakeUpInput.proc q = .ready k → k.open = true := by
  intro q k hq
  simp only [wakeUpInput] at hq
  split at hq
  · cases hq
    rfl
  · exact ho.ready q k hq

/-- What a handler returns to holds no lock. -/
theorem holds_resume {saved : Option (ProcId × ReadPc)} {k : IntrPc}
    (h : (Pc.intr k saved).savedOpen) (l : Lock) : (resume saved).holds l = false := by
  cases saved with
  | none => rfl
  | some pk => exact ReadPc.holds_of_open h l

theorem Owner.intrStep (ho : Owner s) {k : IntrPc} {saved : Option (ProcId × ReadPc)}
    {byte : Option UInt8} (hpc : s.cpu c = .intr k saved)
    (h : s.intrStep c saved byte k = some t) : Owner t := by
  have hheld : ∀ l, (s.cpu c).holds l = k.holds l := fun l => by rw [hpc]; rfl
  have hopen : ∀ k' : IntrPc, (Pc.intr k' saved).savedOpen := fun k' => by
    have := ho.saved c
    rw [hpc] at this
    cases saved <;> exact this
  cases k with
  | start => exact ho.acquire h (fun l' => by rw [hheld]; cases l' <;> rfl) (hopen _)
  | read hasInput =>
    obtain rfl := Option.some.inj h
    cases byte with
    | none =>
      have hsaved : (resume saved).savedOpen := by cases saved <;> trivial
      have hk : ∀ l', (resume saved).holds l'
          = if l' = Lock.input then false else (s.cpu c).holds l' := fun l' => by
        rw [holds_resume (hopen (.read hasInput)), hheld]
        cases l' <;> rfl
      cases hasInput
      · exact ho.release rfl rfl ho.ready (by rw [hheld]; rfl) hk hsaved
      · exact ho.release (u := s.wakeUpInput) rfl rfl ho.ready_wakeUpInput (by rw [hheld]; rfl) hk
          hsaved
    | some b =>
      simp only
      split
      · exact ho.of_goto rfl rfl (fun l => by rw [hheld]; cases l <;> rfl) (hopen _) ho.ready
      · exact ho.of_goto rfl rfl (fun l => by rw [hheld]; cases l <;> rfl) (hopen _) ho.ready
  | count b => exact ho.acquire h (fun l' => by rw [hheld]; cases l' <;> rfl) (hopen _)
  | counting b =>
    obtain rfl := Option.some.inj h
    exact ho.release (u := { s with inputLines := s.inputLines + 1 }) rfl rfl ho.ready
      (by rw [hheld]; rfl) (fun l' => by rw [hheld]; cases l' <;> rfl) (hopen _)
  | counted b =>
    obtain rfl := Option.some.inj h
    exact ho.of_goto rfl rfl (fun l => by rw [hheld]; cases l <;> rfl) (hopen _)
      ho.ready_wakeUpLines

theorem Owner.step {a : Act} (ho : Owner s) (h : step s a = some t) : Owner t := by
  cases a with
  | cpu c byte =>
    rw [Console.step] at h
    split at h
    · cases h
    · next p k hpc => exact ho.readStep hpc h
    · next k saved hpc => exact ho.intrStep hpc h
  | call c =>
    rw [Console.step] at h
    split at h
    · next p hpc =>
      obtain rfl := Option.some.inj h
      exact ho.of_goto rfl rfl (fun l => by rw [hpc]; rfl) trivial ho.ready
    · cases h
  | interrupt c =>
    rw [Console.step] at h
    split at h
    · next hpc =>
      obtain rfl := Option.some.inj h
      exact ho.of_goto rfl rfl (fun l => by rw [hpc]; rfl) trivial ho.ready
    · next p k hpc =>
      split at h
      · next hopen =>
        obtain rfl := Option.some.inj h
        refine ho.of_goto rfl rfl (fun l => ?_) hopen ho.ready
        rw [hpc]
        exact (ReadPc.holds_of_open hopen l).symm
      · cases h
    · cases h
  | dispatch c p =>
    rw [Console.step] at h
    split at h
    · next k hpc hready =>
      obtain rfl := Option.some.inj h
      refine ho.of_goto rfl rfl (fun l => ?_) trivial (ho.ready_setProc fun k' hk' => by cases hk')
      rw [hpc]
      exact ReadPc.holds_of_open (ho.ready p k hready) l
    · cases h
  | preempt c =>
    rw [Console.step] at h
    split at h
    · next p k hpc =>
      split at h
      · next hopen =>
        obtain rfl := Option.some.inj h
        refine ho.of_goto rfl rfl (fun l => ?_) trivial
          (ho.ready_setProc fun k' hk' => by cases hk'; exact hopen)
        rw [hpc]
        exact (ReadPc.holds_of_open hopen l).symm
      · cases h
    · cases h
  | wake p =>
    rw [Console.step] at h
    split at h
    · obtain rfl := Option.some.inj h
      exact ⟨ho.lock, ho.saved, ho.ready_setProc fun k' hk' => by cases hk'; rfl⟩
    · obtain rfl := Option.some.inj h
      exact ⟨ho.lock, ho.saved, ho.ready_setProc fun k' hk' => by cases hk'; rfl⟩
    · cases h

theorem Owner.init : Owner init :=
  ⟨fun c l => by simp [Console.init, Pc.holds], fun _ => trivial,
    fun p k h => by cases (show k = .out from (ProcState.ready.inj h).symm); rfl⟩

/-! ## When the graph has a cycle -/

/-- A CPU that holds one lock and spins on the other is in one of the two places. -/
theorem Pc.edge_cases {k : Pc} {l' : Lock} (hl : k.holds l = true) (hw : k.waits = some l') :
    k.entersJust = true ∧ l = .lines ∧ l' = .input ∨
      k.entersCount = true ∧ l = .input ∧ l' = .lines := by
  cases k with
  | idle => cases hw
  | read p k => cases k <;> cases hw <;> cases l <;> simp_all [Pc.holds, ReadPc.holds, Pc.entersJust]
  | intr k saved =>
    cases k <;> cases hw <;> cases l <;> simp_all [Pc.holds, IntrPc.holds, Pc.entersCount]

/-- **There is a cycle exactly when both places are taken.** -/
theorem Owner.acyclic_iff (ho : Owner s) :
    Acyclic s ↔ ¬((∃ c, (s.cpu c).entersJust = true) ∧ ∃ d, (s.cpu d).entersCount = true) := by
  constructor
  · rintro hac ⟨⟨c, hc⟩, d, hd⟩
    have hcl : (s.cpu c).holds .lines = true ∧ (s.cpu c).waits = some .input := by
      revert hc
      cases s.cpu c with
      | read p k => cases k <;> simp [Pc.entersJust, Pc.holds, ReadPc.holds, Pc.waits]
      | _ => simp [Pc.entersJust]
    have hdl : (s.cpu d).holds .input = true ∧ (s.cpu d).waits = some .lines := by
      revert hd
      cases s.cpu d with
      | intr k saved => cases k <;> simp [Pc.entersCount, Pc.holds, IntrPc.holds, Pc.waits]
      | _ => simp [Pc.entersCount]
    exact WaitFor.Acyclic.not_pair hac ((ho.lock c _).mpr hcl.1) hcl.2
      ((ho.lock d _).mpr hdl.1) hdl.2
  · intro hno
    by_cases hjust : ∃ c, (s.cpu c).entersJust = true
    · -- only readers wait, from `lines` to `input`
      refine WaitFor.acyclic_of_rank (fun l => if l = Lock.lines then 0 else 1) ?_
      rintro l l' ⟨c, hl, hw⟩
      rcases Pc.edge_cases ((ho.lock c l).mp hl) hw with ⟨-, rfl, rfl⟩ | ⟨hcount, -, -⟩
      · decide
      · exact (hno ⟨hjust, c, hcount⟩).elim
    · -- only handlers wait, from `input` to `lines`
      refine WaitFor.acyclic_of_rank (fun l => if l = Lock.input then 0 else 1) ?_
      rintro l l' ⟨c, hl, hw⟩
      rcases Pc.edge_cases ((ho.lock c l).mp hl) hw with ⟨hj, -, -⟩ | ⟨-, rfl, rfl⟩
      · exact (hjust ⟨c, hj⟩).elim
      · decide

/-! ## The steps that close it -/

/-- **The two orders do not meet**: no line terminator is received while a reader is on its way into
`uart_just_getc`, and no reader goes there while a handler waits to count a line. -/
def Apart (s : State) : Act → Prop
  | .cpu c byte =>
    match s.cpu c with
    | .intr (.read _) _ => byte.any endsLine = true → ∀ d, (s.cpu d).entersJust = false
    | .read _ .test => s.inputLines ≠ 0 → ∀ d, (s.cpu d).entersCount = false
    | _ => True
  | _ => True

/-- CPU `c` goes on to `k`, by one of the two steps that matter or by another. -/
structure GoesTo (s : State) (a : Act) (t : State) (c : CpuId) (k : Pc) : Prop where
  cpu : t.cpu = Function.update s.cpu c k
  just : k.entersJust = true →
    ∃ p byte, a = .cpu c byte ∧ s.cpu c = .read p .test ∧ s.inputLines ≠ 0
  count : k.entersCount = true →
    ∃ h saved b, a = .cpu c (some b) ∧ s.cpu c = .intr (.read h) saved ∧ endsLine b = true

/-- A step to any other place. -/
theorem GoesTo.other {a : Act} {k : Pc} (hcpu : t.cpu = Function.update s.cpu c k)
    (hj : k.entersJust = false) (hc : k.entersCount = false) : GoesTo s a t c k :=
  ⟨hcpu, fun h => by simp [hj] at h, fun h => by simp [hc] at h⟩

theorem acquire_goesTo {a : Act} {k : Pc} (h : s.acquire c l k = some t)
    (hj : k.entersJust = false) (hc : k.entersCount = false) : GoesTo s a t c k := by
  rw [State.acquire] at h
  split at h
  · obtain rfl := Option.some.inj h
    exact .other rfl hj hc
  · cases h

theorem entersJust_of_open {k : ReadPc} (h : k.open = true) :
    (Pc.read p k).entersJust = false := by
  cases k <;> first | rfl | cases h

theorem readStep_goesTo {k : ReadPc} {byte : Option UInt8} (hpc : s.cpu c = .read p k)
    (h : s.readStep c p k = some t) : ∃ k', GoesTo s (.cpu c byte) t c k' := by
  cases k with
  | out => cases h
  | lines | justGetc | getc | relock b => exact ⟨_, acquire_goesTo h rfl rfl⟩
  | test =>
    obtain rfl := Option.some.inj h
    split
    · exact ⟨.idle, .other rfl rfl rfl⟩
    · next hlines =>
      exact ⟨.read p .justGetc, ⟨rfl, fun _ => ⟨p, byte, rfl, hpc, hlines⟩, fun h => by cases h⟩⟩
  | justTake =>
    obtain rfl := Option.some.inj h
    split
    · exact ⟨.read p .noChar, .other rfl rfl rfl⟩
    · exact ⟨.read p (.finish _), .other rfl rfl rfl⟩
  | getcTake =>
    obtain rfl := Option.some.inj h
    split
    · exact ⟨.idle, .other rfl rfl rfl⟩
    · exact ⟨.read p (.relock _), .other rfl rfl rfl⟩
  | noChar =>
    obtain rfl := Option.some.inj h
    exact ⟨.read p .getc, .other rfl rfl rfl⟩
  | finish b =>
    obtain rfl := Option.some.inj h
    exact ⟨.read p .out, .other rfl rfl rfl⟩

theorem intrStep_goesTo (ho : Owner s) {k : IntrPc} {saved : Option (ProcId × ReadPc)}
    {byte : Option UInt8} (hpc : s.cpu c = .intr k saved)
    (h : s.intrStep c saved byte k = some t) : ∃ k', GoesTo s (.cpu c byte) t c k' := by
  cases k with
  | start | count b => exact ⟨_, acquire_goesTo h rfl rfl⟩
  | read hasInput =>
    obtain rfl := Option.some.inj h
    cases byte with
    | none =>
      refine ⟨resume saved, .other ?_ ?_ ?_⟩
      · cases hasInput <;> rfl
      · have hopen := ho.saved c
        rw [hpc] at hopen
        cases saved with
        | none => rfl
        | some pk => exact entersJust_of_open hopen
      · cases saved <;> rfl
    | some b =>
      simp only
      split
      · next hb =>
        exact ⟨.intr (.count b) saved, ⟨rfl, (fun h => by cases h),
          fun _ => ⟨hasInput, saved, b, rfl, hpc, hb⟩⟩⟩
      · exact ⟨.intr (.read true) saved, .other rfl rfl rfl⟩
  | counting b =>
    obtain rfl := Option.some.inj h
    exact ⟨.intr (.counted b) saved, .other rfl rfl rfl⟩
  | counted b =>
    obtain rfl := Option.some.inj h
    exact ⟨.intr (.read true) saved, .other rfl rfl rfl⟩

/-- **Every step moves one CPU, or none.** -/
theorem step_goesTo {a : Act} (ho : Owner s) (h : step s a = some t) :
    t.cpu = s.cpu ∨ ∃ c k, GoesTo s a t c k := by
  cases a with
  | cpu c byte =>
    rw [Console.step] at h
    split at h
    · cases h
    · next p k hpc => exact .inr ⟨c, readStep_goesTo hpc h⟩
    · next k saved hpc => exact .inr ⟨c, intrStep_goesTo ho hpc h⟩
  | call c =>
    rw [Console.step] at h
    split at h
    · obtain rfl := Option.some.inj h
      exact .inr ⟨c, _, .other rfl rfl rfl⟩
    · cases h
  | interrupt c =>
    rw [Console.step] at h
    split at h
    · obtain rfl := Option.some.inj h
      exact .inr ⟨c, _, .other rfl rfl rfl⟩
    · split at h
      · obtain rfl := Option.some.inj h
        exact .inr ⟨c, _, .other rfl rfl rfl⟩
      · cases h
    · cases h
  | dispatch c p =>
    rw [Console.step] at h
    split at h
    · next k _ hready =>
      obtain rfl := Option.some.inj h
      exact .inr ⟨c, _, .other rfl (entersJust_of_open (ho.ready p k hready)) rfl⟩
    · cases h
  | preempt c =>
    rw [Console.step] at h
    split at h
    · split at h
      · obtain rfl := Option.some.inj h
        exact .inr ⟨c, _, .other rfl rfl rfl⟩
      · cases h
    · cases h
  | wake p =>
    rw [Console.step] at h
    split at h
    · obtain rfl := Option.some.inj h
      exact .inl rfl
    · obtain rfl := Option.some.inj h
      exact .inl rfl
    · cases h

/-- A step that keeps the orders apart closes no cycle. -/
theorem Owner.acyclic_of_apart {a : Act} (ho : Owner s) (hac : Acyclic s)
    (h : Console.step s a = some t) (hapart : Apart s a) : Acyclic t := by
  rw [(ho.step h).acyclic_iff]
  rw [ho.acyclic_iff] at hac
  rintro ⟨⟨d, hd⟩, e, he⟩
  rcases step_goesTo ho h with hcpu | ⟨c, k, hcpu, hjust, hcount⟩
  · rw [hcpu] at hd he
    exact hac ⟨⟨d, hd⟩, e, he⟩
  rw [hcpu] at hd he
  by_cases hdc : d = c
  · -- the reader has just entered: the handler was there before
    subst hdc
    rw [Function.update_self] at hd
    obtain ⟨p, byte, rfl, hpc, hlines⟩ := hjust hd
    have hed : e ≠ d := by
      rintro rfl
      rw [Function.update_self] at he
      obtain ⟨_, _, _, _, hpc', _⟩ := hcount he
      rw [hpc] at hpc'
      cases hpc'
    rw [Function.update_of_ne hed] at he
    simp only [Apart, hpc] at hapart
    rw [hapart hlines e] at he
    cases he
  · rw [Function.update_of_ne hdc] at hd
    by_cases hec : e = c
    · subst hec
      rw [Function.update_self] at he
      obtain ⟨_, _, b, rfl, hpc, hb⟩ := hcount he
      simp only [Apart, hpc] at hapart
      rw [hapart (by simpa using hb) d] at hd
      cases hd
    · rw [Function.update_of_ne hec] at he
      exact hac ⟨⟨d, hd⟩, e, he⟩

/-- A step that lets the orders meet closes a cycle. -/
theorem Owner.apart_of_acyclic {a : Act} (ho : Owner s) (h : Console.step s a = some t)
    (hac : Acyclic t) : Apart s a := by
  rw [(ho.step h).acyclic_iff] at hac
  cases a with
  | cpu c byte =>
    simp only [Apart]
    split
    · next hi saved hpc =>
      intro hbyte d
      by_contra hd
      obtain ⟨b, rfl, hb⟩ : ∃ b, byte = some b ∧ endsLine b = true := by
        cases byte with
        | none => cases hbyte
        | some b => exact ⟨b, rfl, hbyte⟩
      have hdc : d ≠ c := by
        rintro rfl
        simp [hpc, Pc.entersJust] at hd
      obtain rfl : s.setCpu c (.intr (.count b) saved) = t := by
        simpa [Console.step, hpc, State.intrStep, hb] using h
      refine hac ⟨⟨d, ?_⟩, c, by simp [setCpu, Pc.entersCount]⟩
      simpa [setCpu, hdc] using hd
    · next p hpc =>
      intro hlines d
      by_contra hd
      have hdc : d ≠ c := by
        rintro rfl
        simp [hpc, Pc.entersCount] at hd
      obtain rfl : s.setCpu c (.read p .justGetc) = t := by
        simpa [Console.step, hpc, State.readStep, hlines] using h
      refine hac ⟨⟨c, by simp [setCpu, Pc.entersJust]⟩, d, ?_⟩
      simpa [setCpu, hdc] using hd
    · trivial
  | _ => trivial

/-- A step the condition speaks of is always enabled. -/
theorem apart_of_disabled {a : Act} (h : step s a = none) : Apart s a := by
  cases a with
  | cpu c byte =>
    simp only [Apart]
    split
    · next hpc =>
      rw [Console.step, hpc] at h
      cases h
    · next hpc =>
      rw [Console.step, hpc] at h
      cases h
    · trivial
  | _ => trivial

/-- **The input path is free of deadlock exactly as long as the two orders stay apart**: along every
run, all steps meet `Apart` if and only if in every state the run passes no reader holding
`input_lines_lock` spins on `uart_input_lock` while a handler holding that one spins on the first —
nor is there any other cycle over the two locks. -/
theorem deadlock_free_iff_apart (as : List Act) :
    Run.Along step Apart init as ↔
      Run.Through step (fun s =>
        (∀ c d, ¬(s.lock .lines = some c ∧ (s.cpu c).waits = some .input ∧
          s.lock .input = some d ∧ (s.cpu d).waits = some .lines)) ∧ Acyclic s) init as := by
  have hpair : ∀ s, Acyclic s → ∀ c d, ¬(s.lock .lines = some c ∧
      (s.cpu c).waits = some .input ∧ s.lock .input = some d ∧
      (s.cpu d).waits = some .lines) := fun s hac c d ⟨hc, hc', hd, hd'⟩ =>
    WaitFor.Acyclic.not_pair hac hc hc' hd hd'
  have hinit : Acyclic init := by
    rw [Owner.init.acyclic_iff]
    rintro ⟨⟨c, hc⟩, -⟩
    cases hc
  refine Run.along_iff_through (I := Owner) (fun _ _ _ ho h => ho.step h) ?_
    (fun _ _ => apart_of_disabled) Owner.init ⟨hpair _ hinit, hinit⟩
  intro s a t ho hP h
  refine ⟨fun hapart => ?_, fun hP' => ho.apart_of_acyclic h hP'.2⟩
  have hac := ho.acyclic_of_apart hP.2 h hapart
  exact ⟨hpair t hac, hac⟩

/-- A line is received; a reader then holds `input_lines_lock` and goes for `uart_input_lock` while
a second interrupt holds that one and has received the next line. -/
def abbaRun : List Act :=
  [.interrupt 1, .cpu 1 none, .cpu 1 (some newline), .cpu 1 none, .cpu 1 none, .cpu 1 none,
    .cpu 1 none,
    .dispatch 0 0, .call 0, .cpu 0 none, .cpu 0 none,
    .interrupt 1, .cpu 1 none, .cpu 1 (some newline)]

/-- Deadlock freedom fails as stated: the reader on CPU 0 and the handler on CPU 1 wait for each
other. -/
theorem not_deadlock_free :
    ¬∀ s, Reachable s → ∀ c d, ¬(s.lock .lines = some c ∧ (s.cpu c).waits = some .input ∧
      s.lock .input = some d ∧ (s.cpu d).waits = some .lines) := by
  intro hfree
  have hsome : ((Run.run step init abbaRun).map fun s =>
      (s.lock .lines, (s.cpu 0).waits, s.lock .input, (s.cpu 1).waits))
      = some (some 0, some .input, some 1, some .lines) := by rfl
  obtain ⟨s, hs, heq⟩ := Option.map_eq_some_iff.mp hsome
  simp only [Prod.mk.injEq] at heq
  exact hfree s (Run.reachable_of_run .refl hs) 0 1 heq

end Console
