import Mathlib.Data.List.Basic
import Mathlib.Tactic.Common
import Myv6.Sleep.Step

/-!
# Sleep/Inv — what holds between the steps of sleepers, wakers and schedulers

    stage      check  acquire  release  set  switch ┆ back  relock  ret
    lk           ●       ●        ●                                  ●
    proc->lock                    ●      ●     ●    ┆  ●                   ● held by the CPU
    status     RUNNING ─────────────────▸  SLEEP ───┆─▸ RUNNING ──────▸

The frame at the top of a thread says which locks its CPU holds, and what the process record looks
like.  Between `check` and the far side of `switch` the process holds `lk` or its own lock, and whoever
changes the record of a process holds the process lock or is the process.  Frames below the top have
been left where they hold no lock, or are code that has called the frame above.
-/

namespace Sleep

open Function (update)

variable {n : ℕ}

/-! ## What the frames say -/

/-- The locks of the CPU in a call of `sleep`. -/
def SleepPc.Needs (own lock : Lock n) (held : List (Lock n)) : SleepPc → Prop
  | .check => lock ∈ held
  | .acquire => lock ∈ held ∧ lock ≠ own
  | .release => lock ∈ held ∧ own ∈ held ∧ lock ≠ own
  | .set | .switch => own ∈ held
  | .back => held = [own] ∧ lock ≠ own
  | .relock => held = []
  | .ret => held = [lock]

def WakePc.Needs (held : List (Lock n)) : WakePc n → Prop
  | .acquire _ => True
  | .test q _ | .release q _ => .proc q ∈ held

def YieldPc.Needs (own : Lock n) (held : List (Lock n)) : YieldPc → Prop
  | .acquire => True
  | .set | .switch => own ∈ held
  | .back => held = [own]

def SchedPc.Needs (held : List (Lock n)) : SchedPc n → Prop
  | .loop => held = []
  | .group g => held = [.other g]
  | .look g p | .found g p => held = [.proc p, .other g]
  | .start p | .back p => held = [.proc p]

/-- **The locks of the CPU**, by the frame at the top of its thread. -/
def Frame.Needs (held : List (Lock n)) : Frame n → Tid n → Prop
  | .code, _ => True
  | .wakeUp _ pc _, _ => pc.Needs held
  | .sleep l _ pc, .inr p => pc.Needs (.proc p) l held
  | .yield pc, .inr p => pc.Needs (.proc p) held
  | .exit, .inr p => .proc p ∈ held
  | .entry, .inr p => held = [.proc p]
  | .sched pc, .inl _ => pc.Needs held
  | _, _ => False

/-- The status of a process with the frame at its top. -/
def Frame.status : Frame n → Status
  | .sleep _ _ .switch => .sleep
  | .yield .switch => .runable
  | .exit => .zombie
  | _ => .running

def Frame.chain : Frame n → Option Chan
  | .sleep _ chain .switch => chain
  | _ => none

/-- The latest call of `sleep` of a process with the frame at its top. -/
def Frame.Latest (own : Lock n) (last : Option (Call n)) : Frame n → Prop
  | .sleep l chain .check | .sleep l chain .acquire | .sleep l chain .release =>
    last = some ⟨l, chain, .called⟩
  | .sleep l chain .set => last = some ⟨l, chain, if l = own then .called else .gave⟩
  | .sleep l chain .switch => last = some ⟨l, chain, .slept⟩
  | _ => ∀ call, last = some call → call.phase = .woken

/-- **The record of a running process**, by the frame at its top. -/
structure Frame.Matches (f : Frame n) (p : Fin n) (x : Proc n) : Prop where
  status : x.status = f.status
  chain : x.chain = f.chain
  latest : f.Latest (.proc p) x.last

/-- Frames at the far side of `swtch`. -/
def Frame.resumes : Frame n → Bool
  | .sleep _ _ .back | .sleep _ _ .ret | .yield .back | .entry => true
  | _ => false

/-- **The record of a process that is on no CPU**, and its stack. -/
structure Off (p : Fin n) (fs : List (Frame n)) (x : Proc n) : Prop where
  notRunning : x.status ≠ .running
  asleep : x.status = .sleep → ∃ l chain pc gs, fs = .sleep l chain pc :: gs ∧ x.chain = chain ∧
    x.last = some ⟨l, chain, .slept⟩
  awake : x.status ≠ .sleep → x.chain = none ∧ ∀ call, x.last = some call → call.phase = .woken
  ready : x.status = .sleep ∨ x.status = .runable → ∃ f gs, fs = f :: gs ∧ f.resumes = true ∧
    f.Needs [.proc p] (.inr p)

/-! ## Stacks -/

/-- The frames of processes and those of schedulers. -/
def Frame.Fits : Frame n → Tid n → Prop
  | .code, _ | .wakeUp _ _ _, _ => True
  | .sched _, .inl _ => True
  | .sched _, .inr _ => False
  | _, .inr _ => True
  | _, .inl _ => False

/-- Frames that can be interrupted. -/
def Frame.idle : Frame n → Bool
  | .code | .sleep _ _ .relock | .wakeUp _ (.acquire _) _ | .yield .acquire | .sched .loop => true
  | _ => false

/-- A frame and the one below it. -/
def Frame.Above : Frame n → Frame n → Prop
  | .code, g => g.idle = true
  | .sleep _ _ _, g | .wakeUp _ _ _, g | .yield _, g => g = .code
  | _, _ => False

/-- The frames that a thread starts with. -/
def Frame.base : Frame n → Bool
  | .code | .exit | .entry | .sched _ => true
  | _ => false

/-- **A stack of frames.** -/
def Nested (t : Tid n) : List (Frame n) → Prop
  | [] => True
  | [f] => f.base = true ∧ f.Fits t
  | f :: g :: fs => f.Above g ∧ f.Fits t ∧ Nested t (g :: fs)

/-! ## Calls of `sleep` -/

/-- A call of `sleep` has given up its lock. -/
def GaveUp (x : Proc n) : Prop := ∃ call, x.last = some call ∧ call.phase.gaveUp = true

/-- **The call of `sleep` is over**, as far as being asleep is concerned. -/
def Settled (proc : Fin n → Proc n) (x : Fin n × ℕ) : Prop :=
  x.2 ≤ (proc x.1).calls ∧ ((proc x.1).calls = x.2 →
    ∃ call, (proc x.1).last = some call ∧ call.phase = .woken)

/-- The slots that a call of `wake_up` has not passed. -/
def WakePc.left : WakePc n → List (Fin n)
  | .acquire todo | .release _ todo => todo
  | .test q todo => q :: todo

/-- What a call of `wake_up` is meant for: a call of `sleep` on the chain that has given up its lock,
and is over when its slot has been passed. -/
def Meant (proc : Fin n → Proc n) (chain : Option Chan) (left : List (Fin n)) (x : Fin n × ℕ) :
    Prop :=
  x.2 ≤ (proc x.1).calls ∧ ((proc x.1).calls = x.2 → ∃ call, (proc x.1).last = some call ∧
    call.chain = chain ∧ call.phase.gaveUp = true ∧ (x.1 ∉ left → call.phase = .woken))

def Frame.MeantOk (proc : Fin n → Proc n) : Frame n → Prop
  | .wakeUp chain pc meant => ∀ x ∈ meant, Meant proc chain pc.left x
  | _ => True

/-- **A later record of a process**: the call of `sleep` is a later one, or has come further. -/
structure Later (x y : Proc n) : Prop where
  calls : x.calls ≤ y.calls
  last : x.calls = y.calls → ∀ call, x.last = some call → ∃ call', y.last = some call' ∧
    call'.chain = call.chain ∧ (call.phase.gaveUp = true → call'.phase.gaveUp = true) ∧
    (call.phase = .woken → call'.phase = .woken)

/-! ## The invariant -/

/-- The process that the scheduler is going to run. -/
def SchedPc.chosen : SchedPc n → Option (Fin n)
  | .found _ p | .start p => some p
  | _ => none

structure Inv (s : State n) : Prop where
  lock : ∀ c l, l ∈ s.held c ↔ s.owner l = some c
  nodup : ∀ c, (s.held c).Nodup
  once : ∀ c c' p, s.running c = some p → s.running c' = some p → c = c'
  nested : ∀ t, Nested t (s.stack t)
  top : ∀ c, ∃ f fs, s.stack (s.cur c) = f :: fs ∧ f.Needs (s.held c) (s.cur c)
  record : ∀ c p, s.running c = some p → ∀ f fs, s.stack (.inr p) = f :: fs → f.Matches p (s.proc p)
  away : ∀ c p, s.running c = some p → ∃ fs, s.stack (.inl c) = .sched (.back p) :: fs
  chosen : ∀ c, s.running c = none → ∀ pc fs, s.stack (.inl c) = .sched pc :: fs →
    ∀ p, pc.chosen = some p → (s.proc p).status = .runable
  off : ∀ p, (∀ c, s.running c ≠ some p) → Off p (s.stack (.inr p)) (s.proc p)
  meant : ∀ t, ∀ f ∈ s.stack t, f.MeantOk s.proc
  seen : ∀ t q, s.seen t q = true → GaveUp (s.proc q)
  returned : ∀ x ∈ s.returned, Settled s.proc x
  unslept : ∀ c, s.panicked c ≠ some .sleepSleeping

variable {s s' : State n} {c c' : CpuId} {p q : Fin n} {f g : Frame n} {fs gs : List (Frame n)}
  {l : Lock n} {x y z : Proc n} {t : Tid n} {chain : Option Chan} {left : List (Fin n)}

/-! ## Later records -/

theorem Later.refl : Later x x := ⟨le_rfl, fun _ call h => ⟨call, h, rfl, id, id⟩⟩

theorem Later.settled {proc proc' : Fin n → Proc n} (h : ∀ q, Later (proc q) (proc' q))
    {a : Fin n × ℕ} (ha : Settled proc a) : Settled proc' a := by
  obtain ⟨hle, hwoken⟩ := ha
  have hcalls := (h a.1).calls
  refine ⟨hle.trans hcalls, fun heq => ?_⟩
  obtain ⟨call, hlast, hphase⟩ := hwoken (by omega)
  obtain ⟨call', hlast', -, -, hlate⟩ := (h a.1).last (by omega) call hlast
  exact ⟨call', hlast', hlate hphase⟩

theorem Later.meant {proc proc' : Fin n → Proc n} (h : ∀ q, Later (proc q) (proc' q))
    {a : Fin n × ℕ} (ha : Meant proc chain left a) : Meant proc' chain left a := by
  obtain ⟨hle, hmeant⟩ := ha
  have hcalls := (h a.1).calls
  refine ⟨hle.trans hcalls, fun heq => ?_⟩
  obtain ⟨call, hlast, hchain, hgave, hwoken⟩ := hmeant (by omega)
  obtain ⟨call', hlast', hchain', hgave', hwoken'⟩ := (h a.1).last (by omega) call hlast
  exact ⟨call', hlast', hchain'.trans hchain, hgave' hgave, fun hout => hwoken' (hwoken hout)⟩

theorem Later.meantOk {proc proc' : Fin n → Proc n} (h : ∀ q, Later (proc q) (proc' q))
    (hf : f.MeantOk proc) : f.MeantOk proc' := by
  cases f with
  | wakeUp chain pc meant => exact fun a ha => Later.meant h (hf a ha)
  | _ => trivial

/-- A record that only changes in one slot. -/
theorem Later.update {proc : Fin n → Proc n} (h : Later (proc p) x) (q : Fin n) :
    Later (proc q) (update proc p x q) := by
  by_cases hq : q = p
  · subst hq
    rw [Function.update_self]
    exact h
  · rw [Function.update_of_ne hq]
    exact .refl

theorem GaveUp.later (h : Later x y) (hcalls : x.calls = y.calls) (hx : GaveUp x) : GaveUp y := by
  obtain ⟨call, hlast, hgave⟩ := hx
  obtain ⟨call', hlast', -, hgave', -⟩ := h.last hcalls call hlast
  exact ⟨call', hlast', hgave' hgave⟩

/-- The latest call has come further. -/
theorem Later.of_setPhase {phase : Phase} {status : Status} {chain : Option Chan}
    (h : ∀ call, x.last = some call → (call.phase.gaveUp = true → phase.gaveUp = true) ∧
      (call.phase = .woken → phase = .woken)) :
    Later x { x.setPhase phase with status := status, chain := chain } := by
  refine ⟨le_rfl, fun _ call hlast => ⟨{ call with phase := phase }, ?_, rfl, h call hlast⟩⟩
  change x.last.map _ = _
  rw [hlast, Option.map_some]

theorem Later.of_last (hcalls : y.calls = x.calls) (hlast : y.last = x.last) : Later x y :=
  ⟨hcalls.ge, fun _ call h => ⟨call, hlast.trans h, rfl, id, id⟩⟩

theorem Later.of_call (hcalls : y.calls = x.calls + 1) : Later x y :=
  ⟨by omega, fun h => by omega⟩

/-! ## Stacks, changed at the top -/

theorem Nested.tail (h : Nested t (f :: fs)) : Nested t fs := by
  cases fs with
  | nil => trivial
  | cons g gs => exact h.2.2

theorem Nested.fits (h : Nested t (f :: fs)) : f.Fits t := by
  cases fs with
  | nil => exact h.2
  | cons g gs => exact h.2.1

/-- Another frame at the top. -/
theorem Nested.swap (h : Nested t (g :: fs)) (hbase : g.base = true → f.base = true)
    (habove : ∀ k, g.Above k → f.Above k) (hfits : f.Fits t) : Nested t (f :: fs) := by
  cases fs with
  | nil => exact ⟨hbase h.1, hfits⟩
  | cons k ks => exact ⟨habove k h.1, hfits, h.2.2⟩

theorem Nested.push (h : Nested t (g :: fs)) (habove : f.Above g) (hfits : f.Fits t) :
    Nested t (f :: g :: fs) := ⟨habove, hfits, h⟩

/-- Under a call is the code that has called. -/
theorem Nested.caller (h : Nested t (f :: fs)) (hf : f.base = false)
    (habove : ∀ k, f.Above k → k = .code) : ∃ gs, fs = .code :: gs := by
  cases fs with
  | nil =>
    rw [h.1] at hf
    cases hf
  | cons g gs => exact ⟨gs, by rw [habove g h.1]⟩

/-! ## Who runs, and who holds a process lock -/

theorem cur_of_running (h : s.running c = some p) : s.cur c = .inr p := by
  unfold State.cur
  rw [h]

theorem cur_of_none (h : s.running c = none) : s.cur c = .inl c := by
  unfold State.cur
  rw [h]

theorem running_of_cur (h : s.cur c = .inr p) : s.running c = some p := by
  unfold State.cur at h
  split at h
  · next q hq =>
    obtain rfl := Sum.inr.inj h
    exact hq
  · cases h

theorem none_of_cur (h : s.cur c = .inl c') : s.running c = none := by
  unfold State.cur at h
  split at h
  · cases h
  · assumption

/-- Where a process is not `RUNNING`, its CPU holds its lock. -/
theorem Frame.Needs.own {held : List (Lock n)} (h : f.Needs held (.inr p))
    (hstatus : f.status ≠ .running) : .proc p ∈ held := by
  cases f with
  | sleep l chain pc =>
    cases pc with
    | switch => exact h
    | _ => exact absurd rfl hstatus
  | yield pc =>
    cases pc with
    | switch => exact h
    | _ => exact absurd rfl hstatus
  | exit => exact h
  | _ => exact absurd rfl hstatus

namespace Inv

/-- The frame at the top of a process that runs. -/
theorem top_of_running (h : Inv s) (hc : s.running c = some p) : ∃ f fs, s.stack (.inr p) = f :: fs ∧
    f.Needs (s.held c) (.inr p) ∧ f.Matches p (s.proc p) := by
  obtain ⟨f, fs, hstack, hneeds⟩ := h.top c
  rw [cur_of_running hc] at hstack hneeds
  exact ⟨f, fs, hstack, hneeds, h.record c p hc f fs hstack⟩

/-- **A process whose lock another CPU holds**, and that is not `RUNNING`, is on no CPU. -/
theorem away_of_owner (h : Inv s) (hown : s.owner (.proc q) = some c)
    (hstatus : (s.proc q).status ≠ .running) (hc : s.running c ≠ some q) :
    ∀ c', s.running c' ≠ some q := by
  intro c' hc'
  obtain ⟨f, fs, -, hneeds, hmatch⟩ := h.top_of_running hc'
  have hmem := hneeds.own (by rw [← hmatch.status]; exact hstatus)
  rw [h.lock, hown] at hmem
  obtain rfl := Option.some.inj hmem
  exact hc hc'

/-- The lock of the process that a scheduler is going to run. -/
theorem owner_of_chosen (h : Inv s) {pc : SchedPc n} (hc : s.running c = none)
    (hstack : s.stack (.inl c) = .sched pc :: fs) (hp : pc.chosen = some p) :
    s.owner (.proc p) = some c := by
  obtain ⟨f, gs, htop, hneeds⟩ := h.top c
  rw [cur_of_none hc, hstack] at htop
  obtain ⟨rfl, rfl⟩ := List.cons.inj htop
  rw [cur_of_none hc] at hneeds
  rw [← h.lock]
  cases pc with
  | found g r =>
    obtain rfl := Option.some.inj hp
    have hheld : s.held c = [.proc r, .other g] := hneeds
    rw [hheld]
    exact List.mem_cons_self
  | start r =>
    obtain rfl := Option.some.inj hp
    have hheld : s.held c = [.proc r] := hneeds
    rw [hheld]
    exact List.mem_cons_self
  | _ => cases hp

/-- It is on no CPU. -/
theorem away_of_chosen (h : Inv s) {pc : SchedPc n} (hc : s.running c = none)
    (hstack : s.stack (.inl c) = .sched pc :: fs) (hp : pc.chosen = some p) :
    ∀ c', s.running c' ≠ some p := by
  refine h.away_of_owner (h.owner_of_chosen hc hstack hp) ?_ (by
    rw [hc]
    exact (Option.some_ne_none p).symm)
  rw [h.chosen c hc pc fs hstack p hp]
  decide

/-! ## Steps of one CPU -/

/-- **What a step at one CPU has to keep**: it changes the stack of the thread that runs, the locks of
the CPU and the record of the process that runs. -/
theorem of_local (h : Inv s) (hrun : s'.running = s.running)
    (hstack : s'.stack = update s.stack (s.cur c) (f :: fs))
    (hheld : ∀ c' ≠ c, s'.held c' = s.held c') (hlock : ∀ c l, l ∈ s'.held c ↔ s'.owner l = some c)
    (hnodup : (s'.held c).Nodup) (hneeds : f.Needs (s'.held c) (s.cur c))
    (hnest : Nested (s.cur c) (f :: fs)) (hproc : ∀ p, s.cur c ≠ .inr p → s'.proc p = s.proc p)
    (hmatch : ∀ p, s.cur c = .inr p → f.Matches p (s'.proc p))
    (hchosen : s.cur c = .inl c → ∀ pc, f = .sched pc → ∀ p, pc.chosen = some p →
      (s.proc p).status = .runable)
    (hmeant : ∀ g ∈ f :: fs, g.MeantOk s'.proc) (hlater : ∀ q, Later (s.proc q) (s'.proc q))
    (hseen : ∀ t q, s'.seen t q = true → GaveUp (s'.proc q))
    (hreturned : ∀ x ∈ s'.returned, Settled s'.proc x)
    (hunslept : ∀ c, s'.panicked c ≠ some .sleepSleeping) : Inv s' := by
  have hcur : ∀ c', s'.cur c' = s.cur c' := fun c' => by unfold State.cur; rw [hrun]
  have hself : s'.stack (s.cur c) = f :: fs := by rw [hstack, Function.update_self]
  have hother : ∀ t ≠ s.cur c, s'.stack t = s.stack t := fun t ht => by
    rw [hstack, Function.update_of_ne ht]
  -- another CPU executes another thread
  have hne : ∀ c' ≠ c, s.cur c' ≠ s.cur c := by
    intro c' hc' heq
    cases hrc : s.running c with
    | some p =>
      rw [cur_of_running hrc] at heq
      exact hc' (h.once c' c p (running_of_cur heq) hrc)
    | none =>
      rw [cur_of_none hrc] at heq
      have hnone := none_of_cur heq
      rw [cur_of_none hnone] at heq
      exact hc' (Sum.inl.inj heq)
  refine ⟨hlock, fun c' => ?_, ?_, fun t => ?_, fun c' => ?_, fun c' p hc' g gs hg => ?_,
    fun c' p hc' => ?_, fun c' hc' pc gs hg p hp => ?_, fun p hp => ?_, fun t g hg => ?_, hseen,
    hreturned, hunslept⟩
  · by_cases hc' : c' = c
    · rw [hc']
      exact hnodup
    · rw [hheld c' hc']
      exact h.nodup c'
  · rw [hrun]
    exact h.once
  · by_cases ht : t = s.cur c
    · rw [ht, hself]
      exact hnest
    · rw [hother t ht]
      exact h.nested t
  · rw [hcur]
    by_cases hc' : c' = c
    · rw [hc']
      exact ⟨f, fs, hself, hneeds⟩
    · rw [hheld c' hc', hother _ (hne c' hc')]
      exact h.top c'
  · rw [hrun] at hc'
    by_cases hcc : s.cur c = .inr p
    · rw [← hcc, hself] at hg
      obtain ⟨rfl, rfl⟩ := List.cons.inj hg
      exact hmatch p hcc
    · rw [hother _ (Ne.symm hcc)] at hg
      rw [hproc p hcc]
      exact h.record c' p hc' g gs hg
  · rw [hrun] at hc'
    obtain ⟨gs, hgs⟩ := h.away c' p hc'
    refine ⟨gs, ?_⟩
    rw [hother _ fun heq => ?_]
    · exact hgs
    · have hnone := none_of_cur heq.symm
      rw [cur_of_none hnone] at heq
      obtain rfl := Sum.inl.inj heq
      rw [hnone] at hc'
      cases hc'
  · rw [hrun] at hc'
    by_cases hcc : c' = c
    · subst hcc
      rw [← cur_of_none hc', hself] at hg
      obtain ⟨rfl, rfl⟩ := List.cons.inj hg
      rw [hproc p (by rw [cur_of_none hc']; exact Sum.inl_ne_inr)]
      exact hchosen (cur_of_none hc') pc rfl p hp
    · rw [hother _ (by rw [← cur_of_none hc']; exact hne c' hcc)] at hg
      have haway := h.away_of_chosen hc' hg hp c
      rw [hproc p fun heq => haway (running_of_cur heq)]
      exact h.chosen c' hc' pc gs hg p hp
  · rw [hrun] at hp
    have hcc : s.cur c ≠ .inr p := fun heq => hp c (running_of_cur heq)
    rw [hother _ (Ne.symm hcc), hproc p hcc]
    exact h.off p hp
  · by_cases ht : t = s.cur c
    · rw [ht, hself] at hg
      exact hmeant g hg
    · rw [hother t ht] at hg
      exact Later.meantOk hlater (h.meant t g hg)

/-- A panic other than the one of `sleep`. -/
theorem panic (h : Inv s) {e : Error} (he : e ≠ .sleepSleeping) : Inv (s.panic c e) := by
  refine ⟨h.lock, h.nodup, h.once, h.nested, h.top, h.record, h.away, h.chosen, h.off, h.meant, h.seen,
    h.returned, fun c' => ?_⟩
  change update s.panicked c (some e) c' ≠ _
  by_cases hc' : c' = c
  · subst hc'
    rw [Function.update_self]
    exact fun heq => he (Option.some.inj heq)
  · rw [Function.update_of_ne hc']
    exact h.unslept c'

end Inv

/-- **The frame that a step leaves at the top**, on a stack whose other frames were there before. -/
structure Next (s : State n) (c : CpuId) (held : List (Lock n)) (f : Frame n) (fs : List (Frame n)) :
    Prop where
  needs : f.Needs held (s.cur c)
  nested : Nested (s.cur c) (f :: fs)
  chosen : s.cur c = .inl c → ∀ pc, f = .sched pc → ∀ p, pc.chosen = some p →
    (s.proc p).status = .runable
  meant : f.MeantOk s.proc
  below : ∀ g ∈ fs, g ∈ s.stack (s.cur c)

namespace Inv

theorem meant_next (h : Inv s) {held : List (Lock n)} (hnext : Next s c held f fs) :
    ∀ g ∈ f :: fs, g.MeantOk s.proc := by
  intro g hg
  rcases List.mem_cons.mp hg with rfl | hg
  · exact hnext.meant
  · exact h.meant _ g (hnext.below g hg)

/-- **A step that only moves on.** -/
theorem setStack (h : Inv s) (hnext : Next s c (s.held c) f fs)
    (hmatch : ∀ p, s.cur c = .inr p → f.Matches p (s.proc p)) : Inv (s.setStack c (f :: fs)) :=
  h.of_local rfl rfl (fun _ _ => rfl) h.lock (h.nodup c) hnext.needs hnext.nested (fun _ _ => rfl)
    hmatch hnext.chosen (h.meant_next hnext) (fun _ => .refl) h.seen h.returned h.unslept

/-- **A step of the process alone.** -/
theorem setSelf (h : Inv s) (hc : s.cur c = .inr p) (hnext : Next s c (s.held c) f fs)
    (hmatch : f.Matches p x) (hlater : Later (s.proc p) x) (hcalls : (s.proc p).calls = x.calls) :
    Inv ((s.setStack c (f :: fs)).setProc p x) := by
  have hall : ∀ q, Later (s.proc q) (update s.proc p x q) := hlater.update
  have hcount : ∀ q, (s.proc q).calls = (update s.proc p x q).calls := by
    intro q
    by_cases hq : q = p
    · subst hq
      rw [Function.update_self]
      exact hcalls
    · rw [Function.update_of_ne hq]
  refine h.of_local rfl rfl (fun _ _ => rfl) h.lock (h.nodup c) hnext.needs hnext.nested
    (fun q hq => ?_) (fun q hq => ?_) hnext.chosen
    (fun g hg => Later.meantOk hall (h.meant_next hnext g hg)) hall
    (fun t q hq => (h.seen t q hq).later (hall q) (hcount q))
    (fun a ha => Later.settled hall (h.returned a ha)) h.unslept
  · refine Function.update_of_ne ?_ _ _
    rintro rfl
    exact hq hc
  · rw [hc] at hq
    obtain rfl := Sum.inr.inj hq
    change f.Matches p (update s.proc p x p)
    rw [Function.update_self]
    exact hmatch

/-- **`acquire_spin_lock`.** -/
theorem acquire (h : Inv s) (hnext : Next s c (l :: s.held c) f fs)
    (hmatch : ∀ p, s.cur c = .inr p → f.Matches p (s.proc p))
    (hs : s.acquire c l (f :: fs) = some s') : Inv s' := by
  unfold State.acquire at hs
  split at hs
  · obtain rfl := Option.some.inj hs
    exact h.panic (by decide)
  split at hs
  · next hheld hfree =>
    obtain rfl := Option.some.inj hs
    have hout : l ∉ s.held c := fun hmem => hheld ((h.lock c l).mp hmem)
    refine h.of_local rfl (Eq.refl (update s.stack (s.cur c) (f :: fs)))
      (fun c' hc' => Function.update_of_ne hc' _ _) (fun c' l' => ?_) ?_ ?_ hnext.nested (fun _ _ => rfl) hmatch hnext.chosen (h.meant_next hnext) (fun _ => .refl)
      (fun t q hq => ?_) h.returned h.unslept
    · change l' ∈ update s.held c (l :: s.held c) c' ↔ update s.owner l (some c) l' = some c'
      by_cases hc' : c' = c
      · subst hc'
        rw [Function.update_self, List.mem_cons, h.lock]
        by_cases hl' : l' = l
        · subst hl'
          rw [Function.update_self]
          exact iff_of_true (.inl rfl) rfl
        · rw [Function.update_of_ne hl', or_iff_right hl']
      · rw [Function.update_of_ne hc', h.lock]
        by_cases hl' : l' = l
        · subst hl'
          rw [Function.update_self, hfree]
          exact iff_of_false (by simp) fun heq => hc' (Option.some.inj heq).symm
        · rw [Function.update_of_ne hl']
    · change (update s.held c (l :: s.held c) c).Nodup
      rw [Function.update_self]
      exact List.nodup_cons.mpr ⟨hout, h.nodup c⟩
    · change f.Needs (update s.held c (l :: s.held c) c) (s.cur c)
      rw [Function.update_self]
      exact hnext.needs
    · rcases (Bool.or_eq_true _ _).mp hq with hq | hq
      · exact h.seen t q hq
      · obtain ⟨-, hlast⟩ := (Bool.and_eq_true _ _).mp hq
        change GaveUp (s.proc q)
        unfold GaveUp
        cases hcall : (s.proc q).last with
        | none =>
          rw [hcall] at hlast
          cases hlast
        | some call =>
          rw [hcall] at hlast
          exact ⟨call, rfl, ((Bool.and_eq_true _ _).mp hlast).2⟩
  · cases hs

/-- `release_spin_lock` by the CPU that holds the lock, with the record of its process changed. -/
theorem releaseWith (h : Inv s) (hmem : l ∈ s.held c) (hnext : Next s c ((s.held c).erase l) f fs)
    {proc : Fin n → Proc n} (hproc : ∀ p, s.cur c ≠ .inr p → proc p = s.proc p)
    (hmatch : ∀ p, s.cur c = .inr p → f.Matches p (proc p)) (hlater : ∀ q, Later (s.proc q) (proc q))
    (hcalls : ∀ q, (s.proc q).calls = (proc q).calls) :
    Inv { s.release c l (f :: fs) with proc := proc } := by
  have hown := (h.lock c l).mp hmem
  unfold State.release
  rw [if_pos hown]
  refine h.of_local rfl (Eq.refl (update s.stack (s.cur c) (f :: fs)))
    (fun c' hc' => Function.update_of_ne hc' _ _)
    (fun c' l' => ?_) ?_ ?_ hnext.nested hproc hmatch hnext.chosen
    (fun g hg => Later.meantOk hlater (h.meant_next hnext g hg)) hlater
    (fun t q hq => (h.seen t q hq).later (hlater q) (hcalls q))
    (fun a ha => Later.settled hlater (h.returned a ha)) h.unslept
  · change l' ∈ update s.held c ((s.held c).erase l) c' ↔ update s.owner l none l' = some c'
    by_cases hc' : c' = c
    · subst hc'
      rw [Function.update_self, (h.nodup c').mem_erase_iff, h.lock]
      by_cases hl' : l' = l
      · subst hl'
        rw [Function.update_self]
        exact iff_of_false (fun hand => hand.1 rfl) (by simp)
      · rw [Function.update_of_ne hl', and_iff_right hl']
    · rw [Function.update_of_ne hc', h.lock]
      by_cases hl' : l' = l
      · subst hl'
        rw [Function.update_self, hown]
        exact iff_of_false (fun heq => hc' (Option.some.inj heq).symm) (by simp)
      · rw [Function.update_of_ne hl']
  · change (update s.held c ((s.held c).erase l) c).Nodup
    rw [Function.update_self]
    exact (h.nodup c).erase l
  · change f.Needs (update s.held c ((s.held c).erase l) c) (s.cur c)
    rw [Function.update_self]
    exact hnext.needs

/-- **`release_spin_lock`** by the CPU that holds the lock. -/
theorem release (h : Inv s) (hmem : l ∈ s.held c) (hnext : Next s c ((s.held c).erase l) f fs)
    (hmatch : ∀ p, s.cur c = .inr p → f.Matches p (s.proc p)) : Inv (s.release c l (f :: fs)) := by
  have hwith := h.releaseWith hmem hnext (fun _ _ => rfl) hmatch (fun _ => .refl) fun _ => rfl
  unfold State.release at hwith ⊢
  rw [if_pos ((h.lock c l).mp hmem)] at hwith ⊢
  exact hwith

/-- The same with a change of the record of the process itself. -/
theorem releaseSelf (h : Inv s) (hc : s.cur c = .inr p) (hmem : l ∈ s.held c)
    (hnext : Next s c ((s.held c).erase l) f fs) (hmatch : f.Matches p x)
    (hlater : Later (s.proc p) x) (hcalls : (s.proc p).calls = x.calls) :
    Inv ((s.release c l (f :: fs)).setProc p x) := by
  have hsame : (s.release c l (f :: fs)).setProc p x =
      { s.release c l (f :: fs) with proc := update s.proc p x } := by
    unfold State.release
    rw [if_pos ((h.lock c l).mp hmem)]
    rfl
  rw [hsame]
  refine h.releaseWith hmem hnext (fun q hq => ?_) (fun q hq => ?_) hlater.update fun q => ?_
  · exact Function.update_of_ne (by rintro rfl; exact hq hc) _ _
  · obtain rfl := Sum.inr.inj (hc.symm.trans hq)
    rw [Function.update_self]
    exact hmatch
  · by_cases hq : q = p
    · rw [hq, Function.update_self, hcalls]
    · rw [Function.update_of_ne hq]

/-- **A process that is on no CPU**, changed by the CPU that holds its lock. -/
theorem setOff (h : Inv s) (hown : s.owner (.proc q) = some c) (haway : ∀ c', s.running c' ≠ some q)
    (hsched : s.running c = none → ∀ pc gs, s.stack (.inl c) = .sched pc :: gs → pc.chosen ≠ some q)
    (hoff : Off q fs x) (hlater : Later (s.proc q) x) (hcalls : (s.proc q).calls = x.calls)
    (hnest : Nested (.inr q) fs) (hmeant : ∀ f ∈ fs, f.MeantOk s.proc) :
    Inv { s.setProc q x with stack := update s.stack (.inr q) fs } := by
  have hall : ∀ p, Later (s.proc p) (update s.proc q x p) := hlater.update
  have hprocne : ∀ p ≠ q, update s.proc q x p = s.proc p := fun p hp => Function.update_of_ne hp _ _
  have hstackne : ∀ t, t ≠ .inr q → update s.stack (.inr q) fs t = s.stack t := fun t ht =>
    Function.update_of_ne ht _ _
  have hcur : ∀ c', s.cur c' ≠ .inr q := fun c' heq => haway c' (running_of_cur heq)
  refine ⟨h.lock, h.nodup, h.once, fun t => ?_, fun c' => ?_, fun c' p hc' f gs hf => ?_,
    fun c' p hc' => ?_, fun c' hc' pc gs hg p hp => ?_, fun p hp => ?_, fun t f hf => ?_,
    fun t p hp => ?_, fun a ha => Later.settled hall (h.returned a ha), h.unslept⟩
  · change Nested t (update s.stack (.inr q) fs t)
    by_cases ht : t = .inr q
    · rw [ht, Function.update_self]
      exact hnest
    · rw [hstackne t ht]
      exact h.nested t
  · obtain ⟨f, gs, hstack, hneeds⟩ := h.top c'
    refine ⟨f, gs, ?_, hneeds⟩
    exact (hstackne _ (hcur c')).trans hstack
  · have hpq : p ≠ q := by
      rintro rfl
      exact haway c' hc'
    have hf : s.stack (.inr p) = f :: gs := (hstackne _ fun heq => hpq (Sum.inr.inj heq)).symm.trans hf
    change f.Matches p (update s.proc q x p)
    rw [hprocne p hpq]
    exact h.record c' p hc' f gs hf
  · obtain ⟨gs, hgs⟩ := h.away c' p hc'
    exact ⟨gs, (hstackne _ Sum.inl_ne_inr).trans hgs⟩
  · have hg : s.stack (.inl c') = .sched pc :: gs := (hstackne _ Sum.inl_ne_inr).symm.trans hg
    have hpq : p ≠ q := by
      rintro rfl
      have hown' := h.owner_of_chosen hc' hg hp
      rw [hown] at hown'
      obtain rfl := Option.some.inj hown'
      exact hsched hc' pc gs hg hp
    change (update s.proc q x p).status = .runable
    rw [hprocne p hpq]
    exact h.chosen c' hc' pc gs hg p hp
  · change Off p (update s.stack (.inr q) fs (.inr p)) (update s.proc q x p)
    by_cases hpq : p = q
    · subst hpq
      rw [Function.update_self, Function.update_self]
      exact hoff
    · rw [hprocne p hpq, hstackne _ fun heq => hpq (Sum.inr.inj heq)]
      exact h.off p hp
  · have hf : f ∈ update s.stack (.inr q) fs t := hf
    refine Later.meantOk hall ?_
    by_cases ht : t = .inr q
    · rw [ht, Function.update_self] at hf
      exact hmeant f hf
    · rw [hstackne t ht] at hf
      exact h.meant t f hf
  · refine (h.seen t p hp).later (hall p) ?_
    by_cases hpq : p = q
    · subst hpq
      exact hcalls.trans (congrArg Proc.calls (Function.update_self p x s.proc).symm)
    · exact congrArg Proc.calls (hprocne p hpq).symm

/-- **`swtch` in `switch_to_scheduler`**: the process is left to the scheduler of the CPU, with its
lock. -/
theorem leave (h : Inv s) (hc : s.running c = some p) (hheld : s.held c = [.proc p])
    (hoff : Off p fs (s.proc p)) (hnest : Nested (.inr p) fs) (hbelow : ∀ f ∈ fs, f.MeantOk s.proc)
    (hlock : s'.owner = s.owner) (hheld' : s'.held = s.held) (hproc : s'.proc = s.proc)
    (hstack : s'.stack = update s.stack (.inr p) fs) (hrun : s'.running = update s.running c none)
    (hseen : s'.seen = s.seen) (hreturned : s'.returned = s.returned)
    (hpanicked : s'.panicked = s.panicked) : Inv s' := by
  obtain ⟨ks, hks⟩ := h.away c p hc
  have hself : s'.stack (.inr p) = fs := by rw [hstack, Function.update_self]
  have hother : ∀ t, t ≠ .inr p → s'.stack t = s.stack t := fun t ht => by
    rw [hstack, Function.update_of_ne ht]
  have hrunself : s'.running c = none := by rw [hrun, Function.update_self]
  have hrunne : ∀ c' ≠ c, s'.running c' = s.running c' := fun c' hc' => by
    rw [hrun, Function.update_of_ne hc']
  have hcases : ∀ c' r, s'.running c' = some r → c' ≠ c ∧ r ≠ p ∧ s.running c' = some r := by
    intro c' r hr
    have hc' : c' ≠ c := by
      intro heq
      rw [heq, hrunself] at hr
      cases hr
    rw [hrunne c' hc'] at hr
    refine ⟨hc', fun hrp => hc' ?_, hr⟩
    rw [hrp] at hr
    exact h.once c' c p hr hc
  refine ⟨fun c' l => ?_, fun c' => ?_, fun c₁ c₂ r h₁ h₂ => h.once c₁ c₂ r (hcases c₁ r h₁).2.2
    (hcases c₂ r h₂).2.2, fun t => ?_, fun c' => ?_, fun c' r hr f gs hf => ?_, fun c' r hr => ?_,
    fun c' hnone pc gs hg r hr => ?_, fun r hr => ?_, fun t f hf => ?_, fun t r hr => ?_,
    fun a ha => ?_, fun c' => ?_⟩
  · rw [hheld', hlock]
    exact h.lock c' l
  · rw [hheld']
    exact h.nodup c'
  · by_cases ht : t = .inr p
    · rw [ht, hself]
      exact hnest
    · rw [hother t ht]
      exact h.nested t
  · rw [hheld']
    by_cases hc' : c' = c
    · rw [hc', cur_of_none hrunself, hother _ Sum.inl_ne_inr, hheld]
      exact ⟨_, ks, hks, rfl⟩
    · obtain ⟨f, gs, hf, hneeds⟩ := h.top c'
      have hsame : s'.cur c' = s.cur c' := by
        unfold State.cur
        rw [hrunne c' hc']
      refine ⟨f, gs, ?_, hsame ▸ hneeds⟩
      rw [hsame]
      refine (hother _ fun heq => hc' ?_).trans hf
      exact h.once c' c p (running_of_cur heq) hc
  · obtain ⟨-, hrp, hold⟩ := hcases c' r hr
    rw [hother _ fun heq => hrp (Sum.inr.inj heq)] at hf
    rw [hproc]
    exact h.record c' r hold f gs hf
  · obtain ⟨gs, hgs⟩ := h.away c' r (hcases c' r hr).2.2
    exact ⟨gs, (hother _ Sum.inl_ne_inr).trans hgs⟩
  · rw [hother _ Sum.inl_ne_inr] at hg
    rw [hproc]
    by_cases hcc : c' = c
    · rw [hcc, hks] at hg
      obtain ⟨heq, -⟩ := List.cons.inj hg
      obtain rfl := Frame.sched.inj heq
      cases hr
    · exact h.chosen c' ((hrunne c' hcc).symm.trans hnone) pc gs hg r hr
  · rw [hproc]
    by_cases hrp : r = p
    · rw [hrp, hself]
      exact hoff
    · rw [hother _ fun heq => hrp (Sum.inr.inj heq)]
      refine h.off r fun c' hc' => ?_
      by_cases hcc : c' = c
      · rw [hcc, hc] at hc'
        exact hrp (Option.some.inj hc').symm
      · exact hr c' ((hrunne c' hcc).trans hc')
  · rw [hproc]
    by_cases ht : t = .inr p
    · rw [ht, hself] at hf
      exact hbelow f hf
    · rw [hother t ht] at hf
      exact h.meant t f hf
  · rw [hseen] at hr
    rw [hproc]
    exact h.seen t r hr
  · rw [hreturned] at ha
    rw [hproc]
    exact h.returned a ha
  · rw [hpanicked]
    exact h.unslept c'

/-- **`switch_to_scheduler`.** -/
theorem switchToScheduler (h : Inv s) (hc : s.running c = some p) (hmem : .proc p ∈ s.held c)
    (hoff : Off p fs (s.proc p)) (hnest : Nested (.inr p) fs)
    (hbelow : ∀ f ∈ fs, f.MeantOk s.proc) : Inv (s.switchToScheduler c fs) := by
  unfold State.switchToScheduler
  split
  · exact h.panic (by decide)
  · next hlen =>
    obtain ⟨l, hl⟩ := List.length_eq_one_iff.mp (not_not.mp hlen)
    have hheld : s.held c = [.proc p] := by
      rw [hl] at hmem ⊢
      rw [List.mem_singleton.mp hmem]
    refine h.leave hc hheld hoff hnest hbelow rfl rfl rfl ?_ rfl rfl rfl rfl
    change update s.stack (s.cur c) fs = _
    rw [cur_of_running hc]

/-- A process that is ready, at the far side of `swtch`. -/
theorem resumed (hoff : Off p (f :: fs) x) (hstatus : x.status = .runable)
    (hresumes : f.resumes = true) : f.Matches p { x with status := .running } := by
  obtain ⟨hchain, hwoken⟩ := hoff.awake (by rw [hstatus]; decide)
  cases f with
  | sleep l chain pc =>
    cases pc with
    | back | ret => exact ⟨rfl, hchain, hwoken⟩
    | _ => cases hresumes
  | yield pc =>
    cases pc with
    | back => exact ⟨rfl, hchain, hwoken⟩
    | _ => cases hresumes
  | entry => exact ⟨rfl, hchain, hwoken⟩
  | _ => cases hresumes

/-- **`swtch` in `run_process`**, to a process that is ready. -/
theorem dispatch (h : Inv s) (hc : s.running c = none)
    (hstack : s.stack (.inl c) = .sched (.start p) :: fs) (hheld : s.held c = [.proc p])
    (hx : x = { s.proc p with status := .running }) (hlock : s'.owner = s.owner)
    (hheld' : s'.held = s.held) (hproc : s'.proc = update s.proc p x)
    (hstack' : s'.stack = update s.stack (.inl c) (.sched (.back p) :: fs))
    (hrun : s'.running = update s.running c (some p)) (hseen : s'.seen = s.seen)
    (hreturned : s'.returned = s.returned) (hpanicked : s'.panicked = s.panicked) : Inv s' := by
  have hstatus := h.chosen c hc (.start p) fs hstack p rfl
  have hchosen : (SchedPc.start p).chosen = some p := rfl
  have haway : ∀ c', s.running c' ≠ some p := h.away_of_chosen hc hstack hchosen
  have hown : s.owner (.proc p) = some c := h.owner_of_chosen hc hstack hchosen
  obtain ⟨f₀, gs₀, hstack₀, hresumes, hneeds₀⟩ := (h.off p haway).ready (.inr hstatus)
  have hmatch : f₀.Matches p x := by
    have hoff := h.off p haway
    rw [hstack₀] at hoff
    rw [hx]
    exact resumed hoff hstatus hresumes
  have hlater : ∀ q, Later (s.proc q) (s'.proc q) := by
    rw [hproc, hx]
    exact Later.update (.of_last rfl rfl)
  have hcalls : ∀ q, (s.proc q).calls = (s'.proc q).calls := by
    intro q
    rw [hproc]
    by_cases hq : q = p
    · rw [hq, Function.update_self, hx]
    · rw [Function.update_of_ne hq]
  have hprocne : ∀ q ≠ p, s'.proc q = s.proc q := fun q hq => by
    rw [hproc, Function.update_of_ne hq]
  have hself : s'.stack (.inl c) = .sched (.back p) :: fs := by rw [hstack', Function.update_self]
  have hother : ∀ t, t ≠ .inl c → s'.stack t = s.stack t := fun t ht => by
    rw [hstack', Function.update_of_ne ht]
  have hrunself : s'.running c = some p := by rw [hrun, Function.update_self]
  have hrunne : ∀ c' ≠ c, s'.running c' = s.running c' := fun c' hc' => by
    rw [hrun, Function.update_of_ne hc']
  -- whoever else runs, runs another process
  have hcases : ∀ c' r, s'.running c' = some r → c' = c ∧ r = p ∨ c' ≠ c ∧ r ≠ p ∧
      s.running c' = some r := by
    intro c' r hr
    by_cases hc' : c' = c
    · rw [hc', hrunself] at hr
      exact .inl ⟨hc', (Option.some.inj hr).symm⟩
    · rw [hrunne c' hc'] at hr
      refine .inr ⟨hc', fun hrp => haway c' ?_, hr⟩
      rw [← hrp]
      exact hr
  refine ⟨fun c' l => ?_, fun c' => ?_, fun c₁ c₂ r h₁ h₂ => ?_, fun t => ?_, fun c' => ?_,
    fun c' r hr f gs hf => ?_, fun c' r hr => ?_, fun c' hnone pc gs hg r hr => ?_, fun r hr => ?_,
    fun t f hf => ?_, fun t r hr => ?_, fun a ha => ?_, fun c' => ?_⟩
  · rw [hheld', hlock]
    exact h.lock c' l
  · rw [hheld']
    exact h.nodup c'
  · obtain ⟨rfl, rfl⟩ | ⟨hne₁, hrp, hold₁⟩ := hcases c₁ r h₁
    · obtain ⟨rfl, -⟩ | ⟨-, hrp, -⟩ := hcases c₂ r h₂
      · rfl
      · exact absurd rfl hrp
    · obtain ⟨-, rfl⟩ | ⟨-, -, hold₂⟩ := hcases c₂ r h₂
      · exact absurd rfl hrp
      · exact h.once c₁ c₂ r hold₁ hold₂
  · by_cases ht : t = .inl c
    · have hbefore := h.nested (.inl c)
      rw [hstack] at hbefore
      rw [ht, hself]
      exact hbefore.swap (fun _ => rfl) (fun k hk => hk.elim) trivial
    · rw [hother t ht]
      exact h.nested t
  · rw [hheld']
    by_cases hc' : c' = c
    · rw [hc', cur_of_running hrunself, hother _ Sum.inr_ne_inl, hheld]
      exact ⟨f₀, gs₀, hstack₀, hneeds₀⟩
    · obtain ⟨f, gs, hf, hneeds⟩ := h.top c'
      have hsame : s'.cur c' = s.cur c' := by
        unfold State.cur
        rw [hrunne c' hc']
      refine ⟨f, gs, ?_, hsame ▸ hneeds⟩
      rw [hsame]
      refine (hother _ fun heq => hc' ?_).trans hf
      have hnone := none_of_cur heq
      rw [cur_of_none hnone] at heq
      exact Sum.inl.inj heq
  · rw [hother _ Sum.inr_ne_inl] at hf
    obtain ⟨rfl, rfl⟩ | ⟨-, hrp, hold⟩ := hcases c' r hr
    · rw [hstack₀] at hf
      obtain ⟨rfl, -⟩ := List.cons.inj hf
      rw [hproc, Function.update_self]
      exact hmatch
    · rw [hprocne r hrp]
      exact h.record c' r hold f gs hf
  · obtain ⟨rfl, rfl⟩ | ⟨hne, -, hold⟩ := hcases c' r hr
    · exact ⟨fs, hself⟩
    · obtain ⟨gs, hgs⟩ := h.away c' r hold
      exact ⟨gs, (hother _ fun heq => hne (Sum.inl.inj heq)).trans hgs⟩
  · have hne : c' ≠ c := by
      intro heq
      rw [heq, hrunself] at hnone
      cases hnone
    rw [hrunne c' hne] at hnone
    rw [hother _ fun heq => hne (Sum.inl.inj heq)] at hg
    have hrp : r ≠ p := by
      intro heq
      have hown' := h.owner_of_chosen hnone hg hr
      rw [heq, hown] at hown'
      exact hne (Option.some.inj hown').symm
    rw [hprocne r hrp]
    exact h.chosen c' hnone pc gs hg r hr
  · have hrp : r ≠ p := by
      intro heq
      rw [← heq] at hrunself
      exact hr c hrunself
    rw [hprocne r hrp, hother _ Sum.inr_ne_inl]
    refine h.off r fun c' hc' => ?_
    by_cases hcc : c' = c
    · rw [hcc, hc] at hc'
      cases hc'
    · exact hr c' ((hrunne c' hcc).trans hc')
  · refine Later.meantOk hlater ?_
    by_cases ht : t = .inl c
    · rw [ht, hself] at hf
      rcases List.mem_cons.mp hf with rfl | hf
      · trivial
      · exact h.meant (.inl c) f (by rw [hstack]; exact List.mem_cons_of_mem _ hf)
    · rw [hother t ht] at hf
      exact h.meant t f hf
  · rw [hseen] at hr
    exact (h.seen t r hr).later (hlater r) (hcalls r)
  · rw [hreturned] at ha
    exact Later.settled hlater (h.returned a ha)
  · rw [hpanicked]
    exact h.unslept c'

end Inv

end Sleep
