import Mathlib.Tactic.Common
import Myv6.Process.Step

/-!
# Process/Effect — what one step can do

    step ─▸ held · take · unheld · panic · row          `StepCase`
    row  ─▸ the locks held before and after              `Row.Exact`
         ─▸ what happens to one slot of the table        `SlotMove`

Everything later is proved from these three descriptions, or from a lemma of the same shape about
one more part of the state; none of the invariants looks at `step` itself.
-/

namespace Process

open Function (update)

/-! ## Loop indices -/

theorem slot_eq_some {i : ℕ} {j : ProcId} : slot i = some j ↔ (j : ℕ) = i := by
  unfold slot
  split
  · simp [Fin.ext_iff, eq_comm]
  · simp only [reduceCtorEq, false_iff]
    omega

theorem slot_eq_none {i : ℕ} : slot i = none ↔ procNum ≤ i := by
  unfold slot
  split <;> simp_all

/-! ## What the code of a process holds -/

@[simp, grind =] theorem Op.drop_apply (f : Lock → Option CpuId) (op : Op) (l : Lock) :
    op.drop f l = if op = .release l then none else f l := by
  cases op <;> simp [Op.drop, Function.update_apply, eq_comm]

/-- The code of process `p` holds lock `l` here. -/
def Code.Holds (p : ProcId) (l : Lock) : Code → Prop
  | .group g | .exitGroup _ _ g => l = .group g
  | .sleepAcq lk _ => lk.map .group = some l
  | .sleepRel lk _ => l = .proc p ∨ lk.map .group = some l
  | .sleepSet _ _ | .exitRel _ _ | .exitElseRel _ | .zombie _ | .dead | .waitScan _ _ _
  | .waitAcq _ _ | .waitErr _ | .waitEnd _ _ _ => l = .proc p
  | .allocHeld q | .forkUndo q | .forkFree q | .forkReady q | .killHeld _ q | .exitParSelf _ q =>
    l = .proc q
  | .exitSelf _ | .exitElseSelf _ => l = .proc initProc
  | .reparent _ _ | .reparentAcq _ _ | .exitElseBoth _ => l = .proc initProc ∨ l = .proc p
  | .reparentHeld _ i => l = .proc initProc ∨ l = .proc p ∨ l = .proc i
  | .exitBoth _ q | .waitHeld _ q => l = .proc q ∨ l = .proc p
  | .countAcq _ _ locked | .countScan _ locked => ∃ j, l = .proc j ∧ locked j
  | .countRest i locked => ∃ j, l = .proc j ∧ (locked j ∨ j < i)
  | .countRestAcq i locked => ∃ j, l = .proc j ∧ (locked j ∨ j < i)
  | .countRel i _ => ∃ j, l = .proc j ∧ i ≤ j
  | _ => False

/-- The locks that are held together here are different ones, and `lock_rest_process` goes on to one
it does not hold. -/
def Code.Distinct (p : ProcId) : Code → Prop
  | .reparent _ _ | .reparentAcq _ _ | .exitElseBoth _ => p ≠ initProc
  | .reparentHeld _ i => p ≠ initProc ∧ i ≠ initProc ∧ i ≠ p
  | .exitBoth _ q | .waitHeld _ q => q ≠ p
  | .countRestAcq i locked => locked i = false
  | _ => True

/-- A process can be off the CPU here: the code is open, or it is behind a `swtch` under its own
lock. -/
def Code.parked : Code → Bool
  | .waitScan w noChild i => !w.first && noChild && i == 0
  | .dead => true
  | k => k.open

/-- What a context resumes fits the position of its process. -/
def Fits (p : ProcId) (k : Code) : Resume → Prop
  | .unlock => k.open
  | .hold => ∀ l, k.Holds p l ↔ l = .proc p

attribute [local simp] Code.got Code.open Code.Holds Code.Distinct Code.parked Fits

/-- Open code holds nothing. -/
theorem Code.not_holds_of_open {p : ProcId} {l : Lock} {k : Code} (h : k.open) : ¬k.Holds p l := by
  cases k <;> simp_all

/-- `r` is a row of the code of process `p` at `k`, or the entry of a system call there. -/
def Code.Goes (s : State) (p : ProcId) (k : Code) (r : Row) : Prop :=
  (∃ e, k.row s e p = some r) ∨ ∃ sc, k.call s p sc = some r

/-- **What a row of a process does to the locks it holds.** -/
def Row.Exact (p : ProcId) (k : Code) (r : Row) : Prop :=
  match r.next with
  | .code p' k' =>
    p' = p ∧ k'.Distinct p ∧
      match r.op with
      | .keep => ∀ l, k'.Holds p l ↔ k.Holds p l
      | .release l => k.Holds p l ∧ ∀ l', k'.Holds p l' ↔ k.Holds p l' ∧ l' ≠ l
  | .cpu _ => False
  | .switch p' k' r' =>
    p' = p ∧ k'.Distinct p ∧ k'.parked ∧ Fits p k' r' ∧ r.op = .keep ∧
      ∀ l, k.Holds p l ↔ l = .proc p
  | .panic _ => r.op = .keep

/-- A row gives up exactly the lock it says, and keeps the locks it still holds apart. -/
theorem Code.Goes.exact {s : State} {p : ProcId} {k : Code} {r : Row}
    (hd : k.Distinct p) (h : k.Goes s p r) : r.Exact p k := by
  obtain ⟨e, h⟩ | ⟨sc, h⟩ := h <;> revert h
  · fun_cases Code.row s e p k <;> intro h <;> cases h
    all_goals
      simp only [Row.Exact, Code.Holds, Code.Distinct, Fits, Code.open, Code.parked] at hd ⊢ <;>
      grind -linarith [slot_eq_some, slot_eq_none]
  · fun_cases Code.call s p k sc <;> intro h <;> cases h
    all_goals
      simp only [Row.Exact, Code.Holds, Code.Distinct] at hd ⊢ <;>
      grind -linarith [slot_eq_some, slot_eq_none]

/-- Open code can be left at any time. -/
theorem Code.parked_of_open {k : Code} (h : k.open) : k.parked := by
  cases k <;> simp_all

/-! ## The three writers of the table, one slot at a time -/

namespace State

variable (s : State) (q x : ProcId) (ch : ℕ)

@[simp, grind =] theorem freeProcess_status :
    (s.freeProcess q).status x = if x = q then .unused else s.status x := by
  simp [freeProcess, Function.update_apply]

@[simp, grind =] theorem freeProcess_chain :
    (s.freeProcess q).chain x = if x = q then none else s.chain x := by
  simp [freeProcess, Function.update_apply]

@[simp, grind =] theorem freeProcess_parent :
    (s.freeProcess q).parent x = if x = q then none else s.parent x := by
  simp [freeProcess, Function.update_apply]

@[simp, grind =] theorem freeProcess_pid :
    (s.freeProcess q).pid x = if x = q then -1 else s.pid x := by
  simp [freeProcess, Function.update_apply]

@[simp, grind =] theorem freeProcess_xstatus :
    (s.freeProcess q).xstatus x = if x = q then 0 else s.xstatus x := by
  simp [freeProcess, Function.update_apply]

@[simp, grind =] theorem freeProcess_context :
    (s.freeProcess q).context x = if x = q then none else s.context x := by
  simp [freeProcess, Function.update_apply]

@[simp, grind =] theorem freeProcess_kpc :
    (s.freeProcess q).kpc x = if x = q then .user else s.kpc x := by
  simp [freeProcess, Function.update_apply]

@[simp, grind =] theorem wakeUpParent_status :
    (s.wakeUpParent q).status x =
      if x = q ∧ s.status q = .sleep then .runable else s.status x := by
  unfold wakeUpParent
  split <;> simp_all [Function.update_apply]

@[simp, grind =] theorem wakeUpParent_chain :
    (s.wakeUpParent q).chain x = if x = q ∧ s.status q = .sleep then none else s.chain x := by
  unfold wakeUpParent
  split <;> simp_all [Function.update_apply]

@[simp, grind =] theorem wakeUpOn_status :
    (s.wakeUpOn ch q).status x =
      if x = q ∧ s.status q = .sleep ∧ s.chain q = some ch then .runable else s.status x := by
  unfold wakeUpOn
  split <;> simp_all [Function.update_apply]

@[simp, grind =] theorem wakeUpOn_chain :
    (s.wakeUpOn ch q).chain x =
      if x = q ∧ s.status q = .sleep ∧ s.chain q = some ch then none else s.chain x := by
  unfold wakeUpOn
  split <;> simp_all [Function.update_apply]

end State

/-! ## What a row does to one slot -/

/-- The slot a `fork` has claimed, until it is given back or ready. -/
def Code.claims : Code → Option ProcId
  | .forkInit q | .forkUndoAcq q | .forkUndo q | .forkCopy q | .forkFreeAcq q | .forkFree q
  | .forkReadyAcq q | .forkReady q => some q
  | _ => none

/-- `init_user_process` has set up the claimed slot. -/
def Code.madeUp : Code → Bool
  | .forkCopy _ | .forkFreeAcq _ | .forkFree _ | .forkReadyAcq _ | .forkReady _ => true
  | _ => false

/-- The states of a process that is in use and not on a CPU. -/
def Status.off : Status → Bool
  | .runable | .sleep | .zombie => true
  | _ => false

attribute [local simp] Code.claims Code.madeUp Status.off

/-- **What the code of process `p`, going from `k` to `k'`, does to slot `q`.** -/
inductive SlotMove (s t : State) (p : ProcId) (k k' : Code) (q : ProcId) : Prop
  | stay (hs : t.status q = s.status q) (hc : t.context q = s.context q) (hk : t.kpc q = s.kpc q)
  | claim (hfree : s.status q = .unused) (hs : t.status q = .used) (hc : t.context q = s.context q)
      (hk : t.kpc q = s.kpc q) (hclaim : k'.claims = some q) (hmade : k'.madeUp = false)
  | setUp (hclaim : k.claims = some q) (hs : t.status q = .used) (hc : t.context q = some .unlock)
      (hk : t.kpc q = s.kpc q) (hclaim' : k'.claims = some q)
  | undo (hclaim : k.claims = some q) (hs : t.status q = .unused) (hc : t.context q = s.context q)
      (hk : t.kpc q = s.kpc q) (hclaim' : k'.claims = none)
  | free (hfree : k.claims = some q ∨ s.status q = .zombie ∧ k.Holds p (.proc q) ∧ q ≠ p)
      (hs : t.status q = .unused) (hc : t.context q = none) (hk : t.kpc q = .user)
      (hclaim' : k'.claims = none)
  | ready (hclaim : k.claims = some q) (hmade : k.madeUp) (hs : t.status q = .runable)
      (hc : t.context q = s.context q) (hk : t.kpc q = s.kpc q) (hclaim' : k'.claims = none)
  | wake (hsleep : s.status q = .sleep) (hs : t.status q = .runable)
      (hc : t.context q = s.context q) (hk : t.kpc q = s.kpc q)

/-- A row of a process that goes on makes one of the moves at every slot. -/
theorem Code.Goes.slot {s : State} {p p' : ProcId} {k k' : Code} {r : Row}
    (hd : k.Distinct p) (h : k.Goes s p r) (hnext : r.next = .code p' k') (q : ProcId) :
    SlotMove s r.post p k k' q := by
  obtain ⟨e, h⟩ | ⟨sc, h⟩ := h <;> revert h
  · fun_cases Code.row s e p k <;> intro h <;> cases h
    all_goals
      grind -linarith [SlotMove, State.wakeUpParent, Code.claims, Code.madeUp, Code.Holds, Code.Distinct]
  · fun_cases Code.call s p k sc <;> intro h <;> cases h
    all_goals
      grind -linarith [SlotMove, State.wakeUpParent, Code.claims, Code.madeUp, Code.Holds, Code.Distinct]

/-- A claim is kept as it is, given up, or new on a slot that was unused; `init_user_process` sets
the context of the claimed slot. -/
theorem Code.Goes.claims {s : State} {p p' : ProcId} {k k' : Code} {r : Row}
    (h : k.Goes s p r) (hnext : r.next = .code p' k') :
    k'.claims = none ∨
      k'.claims = k.claims ∧
        (k'.madeUp → k.madeUp ∨ ∀ q, k.claims = some q → r.post.context q ≠ none) ∨
      k.claims = none ∧ k'.madeUp = false ∧
        ∀ q, k'.claims = some q → s.status q = .unused ∧ r.post.status q = .used := by
  obtain ⟨e, h⟩ | ⟨sc, h⟩ := h <;> revert h
  · fun_cases Code.row s e p k <;> intro h <;> cases h
    all_goals
      grind -linarith [Code.claims, Code.madeUp]
  · fun_cases Code.call s p k sc <;> intro h <;> cases h
    all_goals
      grind -linarith [Code.claims, Code.madeUp]

/-- A row that switches away only takes its own process off the CPU. -/
theorem Code.Goes.switch {s : State} {p p' : ProcId} {k k' : Code} {r : Row} {r' : Resume}
    (h : k.Goes s p r) (hnext : r.next = .switch p' k' r') :
    k'.claims = none ∧ r.post.context = s.context ∧ r.post.kpc = s.kpc ∧
      (r.post.status p).off ∧ ∀ q, q ≠ p → r.post.status q = s.status q := by
  obtain ⟨e, h⟩ | ⟨sc, h⟩ := h <;> revert h
  · fun_cases Code.row s e p k <;> intro h <;> cases h
    all_goals
      grind -linarith [Code.claims, Status.off]
  · fun_cases Code.call s p k sc <;> intro h <;> cases h
    all_goals
      grind -linarith [Code.claims, Status.off]

/-- A row of a process leaves the CPUs and the locks to `apply`. -/
theorem Code.Goes.frame {s : State} {p : ProcId} {k : Code} {r : Row}
    (h : k.Goes s p r) :
    r.post.pc = s.pc ∧ r.post.lock = s.lock ∧ r.post.myProc = s.myProc ∧
      r.post.panicked = s.panicked := by
  obtain ⟨e, h⟩ | ⟨sc, h⟩ := h <;> revert h
  · fun_cases Code.row s e p k <;> intro h <;> cases h
    all_goals
      exact ⟨rfl, rfl, rfl, rfl⟩
  · fun_cases Code.call s p k sc <;> intro h <;> cases h
    all_goals
      exact ⟨rfl, rfl, rfl, rfl⟩

/-- Acquiring adds the lock, and only a lock not yet held leads to a position that needs two. -/
theorem Code.got_exact {s : State} {p : ProcId} {k : Code} {l : Lock} (hd : k.Distinct p)
    (hw : k.want p = some l) (hfree : ¬k.Holds p l) :
    (k.got s p).Distinct p ∧ ∀ l', (k.got s p).Holds p l' ↔ k.Holds p l' ∨ l' = l := by
  revert hw
  fun_cases Code.want p k <;> intro hw <;> cases hw
  all_goals
    simp only [Code.got, Code.Distinct, Code.Holds] at *
    grind

/-- Acquiring leaves the claim as it is. -/
theorem Code.got_claims {s : State} {p : ProcId} {k : Code} {l : Lock} (hw : k.want p = some l) :
    (k.got s p).claims = k.claims ∧ (k.got s p).madeUp = k.madeUp := by
  revert hw
  fun_cases Code.want p k <;> intro hw <;> cases hw <;> simp

/-! ## The whole step -/

/-- The position after a saved context is loaded. -/
def Resume.pc (q : ProcId) : Resume → Pc
  | .unlock => .back q
  | .hold => .exec q

/-- **The moves of a CPU outside the code of a process**: the lock it gives up, the data after it
and where it goes on. -/
inductive CpuMove (s : State) (c : CpuId) : Pc → Op → State → Pc → Prop
  | group (g : GroupId) : CpuMove s c .sched .keep s (.groupAcq g)
  | wakeSched (ch : ℕ) : CpuMove s c .sched .keep s (.wakeAcq .sched ch 0)
  | leave (g : GroupId) : CpuMove s c (.group g) (.release (.group g)) s .sched
  | wakeGroup (g : GroupId) (ch : ℕ) :
      CpuMove s c (.group g) .keep s (.wakeAcq (.group g) ch 0)
  | look (g : GroupId) (q : ProcId) : CpuMove s c (.group g) .keep s (.lookAcq g q)
  | found (g : GroupId) {q : ProcId} (h : s.status q = .runable) :
      CpuMove s c (.lookHeld g q) (.release (.group g)) s (.start q)
  | pass (g : GroupId) {q : ProcId} (h : s.status q ≠ .runable) :
      CpuMove s c (.lookHeld g q) (.release (.proc q)) s (.group g)
  | start {q : ProcId} {r : Resume} (h : s.context q = some r) :
      CpuMove s c (.start q) .keep
        { s with
          myProc := update s.myProc c (some q)
          status := update s.status q .running
          context := update s.context q none } (r.pc q)
  | after (p : ProcId) :
      CpuMove s c (.after p) (.release (.proc p)) { s with myProc := update s.myProc c none } .sched
  | back (p : ProcId) : CpuMove s c (.back p) (.release (.proc p)) s (.exec p)
  | timer {p : ProcId} (h : (s.kpc p).open) : CpuMove s c (.exec p) .keep s (.yieldAcq p)
  | wakeExec {p : ProcId} (ch : ℕ) (h : (s.kpc p).open) :
      CpuMove s c (.exec p) .keep s (.wakeAcq (.exec p) ch 0)
  | yield (p : ProcId) :
      CpuMove s c (.yieldHeld p) .keep { s with status := update s.status p .runable }
        (.swtch p .unlock)
  | store (p : ProcId) (r : Resume) :
      CpuMove s c (.swtch p r) .keep { s with context := update s.context p (some r) } (.after p)
  | wake (ret : Ret) (ch : ℕ) (i : ProcId) {k : Pc}
      (hk : k = ret.pc ∨ ∃ j, k = .wakeAcq ret ch j) :
      CpuMove s c (.wakeHeld ret ch i) (.release (.proc i)) (s.wakeUpOn ch i) k

/-- Why a CPU panics: a lock check, or a row of the code that says so. -/
inductive Fails (s : State) (c : CpuId) : Error → Prop
  | held {l : Lock} (hw : s.want c = some l) (hl : s.lock l = some c) :
      Fails s c .acquiredHoldingLock
  | unheld {p : ProcId} {op : Op} {post : State} {n : Next} {l : Lock} (hpc : s.pc c = .exec p)
      (hgo : (s.kpc p).Goes s p ⟨op, post, n⟩) (hop : op = .release l) (hl : s.lock l ≠ some c) :
      Fails s c .releaseNotHeld
  | cpuUnheld {op : Op} {post : State} {k : Pc} {l : Lock} (hmove : CpuMove s c (s.pc c) op post k)
      (hop : op = .release l) (hl : s.lock l ≠ some c) : Fails s c .releaseNotHeld
  | code {p : ProcId} {op : Op} {post : State} {e : Error} (hpc : s.pc c = .exec p)
      (hgo : (s.kpc p).Goes s p ⟨op, post, .panic e⟩) : Fails s c e
  | stale {q : ProcId} (hpc : s.pc c = .start q) (h : s.context q = none) : Fails s c .staleContext

/-- **What one step of CPU `c` can do.** -/
inductive Effect (s : State) (c : CpuId) : State → Prop
  | fail {e : Error} (h : Fails s c e) : Effect s c (s.fail c e)
  | takeCode {p : ProcId} {l : Lock} (hpc : s.pc c = .exec p) (hw : (s.kpc p).want p = some l)
      (hl : s.lock l = none) :
      Effect s c { s with
        lock := update s.lock l (some c)
        kpc := update s.kpc p ((s.kpc p).got s p) }
  | takeCpu {k : Pc} {l : Lock} (hpc : s.pc c = k) (hw : k.want = some l) (hl : s.lock l = none) :
      Effect s c { s with
        lock := update s.lock l (some c)
        pc := update s.pc c k.got }
  | code {p : ProcId} {k : Code} {op : Op} {post : State} (hpc : s.pc c = .exec p)
      (hgo : (s.kpc p).Goes s p ⟨op, post, .code p k⟩) (hop : ∀ l, op = .release l → s.lock l = some c) :
      Effect s c { post with lock := op.drop post.lock, kpc := update post.kpc p k }
  | switch {p : ProcId} {k : Code} {r : Resume} {post : State} (hpc : s.pc c = .exec p)
      (hgo : (s.kpc p).Goes s p ⟨.keep, post, .switch p k r⟩) :
      Effect s c { post with kpc := update post.kpc p k, pc := update post.pc c (.swtch p r) }
  | cpu {k k' : Pc} {op : Op} {post : State} (hpc : s.pc c = k) (hmove : CpuMove s c k op post k')
      (hop : ∀ l, op = .release l → s.lock l = some c) :
      Effect s c { post with lock := op.drop post.lock, pc := update post.pc c k' }

/-- A row of a CPU is a row of its process or one of the listed moves. -/
theorem State.row_cases {s : State} {c : CpuId} {k : Pc} {ch : Choice} {r : Row}
    (h : s.row c k ch = some r) :
    (∃ p, k = .exec p ∧ (s.kpc p).Goes s p r) ∨
      (∃ op post k', r = ⟨op, post, .cpu k'⟩ ∧ CpuMove s c k op post k') ∨
      ∃ q, k = .start q ∧ s.context q = none ∧ r = ⟨.keep, s, .panic .staleContext⟩ := by
  revert h
  fun_cases State.row s c k ch <;> intro h
  -- the code of a process, and the one panic
  case case12 => exact .inl ⟨_, rfl, .inl ⟨_, h⟩⟩
  case case13 => exact .inl ⟨_, rfl, .inr ⟨_, h⟩⟩
  all_goals cases h
  all_goals first
    | exact .inr (.inr ⟨_, rfl, ‹_›, rfl⟩)
    | exact .inr (.inl ⟨_, _, _, rfl, .wake _ _ _ (.inl rfl)⟩)
    | exact .inr (.inl ⟨_, _, _, rfl, .wake _ _ _ (.inr ⟨_, rfl⟩)⟩)
    | exact .inr (.inl ⟨_, _, _, rfl, by constructor <;> assumption⟩)

theorem Code.Goes.shape {s : State} {p : ProcId} {k : Code} {r : Row} (h : k.Goes s p r) :
    match r.next with
    | .code p' _ => p' = p
    | .cpu _ => False
    | .switch p' _ _ => p' = p ∧ r.op = .keep
    | .panic _ => r.op = .keep ∧ r.post = s := by
  obtain ⟨e, h⟩ | ⟨sc, h⟩ := h <;> revert h
  · fun_cases Code.row s e p k <;> intro h <;> cases h
    all_goals simp
  · fun_cases Code.call s p k sc <;> intro h <;> cases h
    all_goals simp

/-- A row of a process is one of the effects. -/
theorem Effect.of_goes {s : State} {c : CpuId} {p : ProcId} {r : Row} (hpc : s.pc c = .exec p)
    (hgo : (s.kpc p).Goes s p r) : Effect s c (s.apply c r) := by
  obtain ⟨op, post, n⟩ := r
  have happly : (∀ l, op = .release l → s.lock l = some c) →
      s.apply c ⟨op, post, n⟩ = { post with lock := op.drop post.lock }.enter c n := by
    intro hop
    cases op with
    | keep => rfl
    | release l => simp [State.apply, hop l rfl]
  by_cases hop : ∀ l, op = .release l → s.lock l = some c
  · rw [happly hop]
    cases n with
    | code p' k =>
      obtain rfl := hgo.shape
      exact .code hpc hgo hop
    | cpu k => exact hgo.shape.elim
    | switch p' k r' =>
      obtain ⟨rfl, rfl⟩ := hgo.shape
      exact .switch hpc hgo
    | panic e =>
      obtain ⟨rfl, rfl⟩ := hgo.shape
      exact .fail (.code hpc hgo)
  · push Not at hop
    obtain ⟨l, rfl, hl⟩ := hop
    have : s.apply c ⟨.release l, post, n⟩ = s.fail c .releaseNotHeld := by simp [State.apply, hl]
    rw [this]
    exact .fail (.unheld hpc hgo rfl hl)

/-- **Every step has one of the effects.** -/
theorem Effect.of_step {s t : State} {a : Act} (h : step s a = some t) : Effect s a.cpu t := by
  obtain ⟨c, ch⟩ := a
  simp only [step, ne_eq, ite_not] at h
  split at h
  case isFalse => cases h
  split at h
  · next l hw =>
    unfold State.acquire at h
    split at h
    · next hl =>
      cases h
      exact .fail (.held hw hl)
    · split at h
      · next hl =>
        cases h
        unfold State.want at hw
        unfold State.take
        split at hw
        · next p hpc => simpa [hpc] using Effect.takeCode hpc hw hl
        · exact .takeCpu rfl hw hl
      · cases h
  · obtain ⟨r, hr, rfl⟩ := Option.map_eq_some_iff.mp h
    obtain ⟨p, hpc, hgo⟩ | ⟨op, post, k', rfl, hmove⟩ | ⟨q, hpc, hq, rfl⟩ := State.row_cases hr
    · exact .of_goes hpc hgo
    · cases op with
      | keep => exact .cpu rfl hmove (by simp)
      | release l =>
        unfold State.apply
        split
        · next heq => cases heq
        · next l' heq =>
          cases heq
          split
          · next hl => exact .cpu rfl hmove (by rintro _ ⟨⟩; exact hl)
          · next hl => exact .fail (.cpuUnheld hmove rfl hl)
    · exact .fail (.stale hpc hq)

/-- A step of one CPU leaves the others where they are. -/
theorem Effect.pc_of_ne {s t : State} {c d : CpuId} (h : Effect s c t) (hd : d ≠ c) :
    t.pc d = s.pc d := by
  cases h with
  | fail _ | takeCode _ _ _ => rfl
  | takeCpu _ _ _ => exact Function.update_of_ne hd ..
  | code _ hgo _ => exact congrFun hgo.frame.1 d
  | switch _ hgo => exact (Function.update_of_ne hd ..).trans (congrFun hgo.frame.1 d)
  | cpu _ hmove _ => cases hmove <;> exact Function.update_of_ne hd ..

/-- A CPU panics only for one of the reasons listed. -/
theorem Effect.panicked {s t : State} {c : CpuId} (h : Effect s c t) (d : CpuId) :
    t.panicked d = s.panicked d ∨ d = c ∧ ∃ e, Fails s c e ∧ t = s.fail c e := by
  cases h with
  | @fail e h =>
    by_cases hd : d = c
    · exact .inr ⟨hd, e, h, rfl⟩
    · exact .inl (by simp [State.fail, hd])
  | takeCode _ _ _ | takeCpu _ _ _ => exact .inl rfl
  | code _ hgo _ | switch _ hgo => exact .inl (congrFun hgo.frame.2.2.2 d)
  | cpu _ hmove _ => cases hmove <;> exact .inl rfl

end Process
