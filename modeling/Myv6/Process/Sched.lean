import Myv6.Process.Keep

/-!
# Process/Sched — a process runs on one CPU and its stack outlives it

    dispatch(q)        status RUNABLE, the context as the last swtch stored it
    free_process(q)    no CPU on the stack of q, none still in the swtch away from it
-/

namespace Process

namespace State

/-- The process that `run_process` makes `my_proc` in this step. -/
def dispatches (s : State) (a : Act) : Option ProcId :=
  match s.pc a.cpu, a.choice with
  | .start q, .run _ => some q
  | _, _ => none

/-- The process this step passes to `free_process`: the child `handle_exit_child` has found, or
the one `fork` could not copy. -/
def frees (s : State) (a : Act) : Option ProcId :=
  match s.pc a.cpu, a.choice with
  | .exec p, .run e =>
    match s.kpc p with
    | .waitHeld w q => if s.status q = .zombie ∧ (w.status && !e.ok) = false then some q else none
    | .forkFree q => some q
    | _ => none
  | _, _ => none

end State

namespace Inv

variable {s : State} {c d : CpuId} {p q : ProcId} {a : Act}

/-- What a dispatch finds. -/
theorem dispatches (h : Inv s) (hq : s.dispatches a = some q) :
    s.status q = .runable ∧ (∃ r, s.context q = some r ∧ Fits q (s.kpc q) r) ∧
      ∀ d, s.myProc d ≠ some q := by
  obtain ⟨hpc, hstart⟩ : (∃ e, a.choice = .run e) ∧ s.pc a.cpu = .start q := by
    unfold State.dispatches at hq
    split at hq <;> simp_all
  obtain ⟨hrun, hctx⟩ : s.status q = .runable ∧ s.context q ≠ none := by
    simpa [hstart, Pc.Ok] using h.cpu a.cpu
  obtain ⟨r, hr⟩ := Option.ne_none_iff_exists'.mp hctx
  refine ⟨hrun, ⟨r, hr, h.fits q r hr⟩, fun d hd => ?_⟩
  have hproc : (s.pc d).proc = some q := by rw [← h.myProc, hd]
  obtain rfl := h.about_one (Pc.about_of_proc hproc) (by rw [hstart]; rfl)
  simp [hstart, Pc.proc] at hproc

/-- A slot that is not in use is on no CPU. -/
theorem not_on_cpu_of_used (h : Inv s) (hq : s.status q = .used) : (s.pc d).proc ≠ some q := by
  intro hd
  obtain hs | ⟨hs, -⟩ := h.status_of_about (Pc.about_of_proc hd) <;> simp_all [Status.off]

/-- The kernel stack that `free_process` frees is no CPU's. -/
theorem frees (h : Inv s) (hq : s.frees a = some q) (d : CpuId) : (s.pc d).proc ≠ some q := by
  unfold State.frees at hq
  split at hq
  · next p e hpc _ =>
    split at hq
    · next w i hk =>
      obtain ⟨⟨hz, -⟩, rfl⟩ := Option.ite_none_right_eq_some.mp hq |>.imp_right Option.some.inj
      intro hd
      -- `wait` holds the lock of the zombie, and so would a CPU that has not left it yet
      have hself : (s.pc a.cpu).Holds s (.proc i) := by simp [hpc, Pc.Holds, hk, Code.Holds]
      obtain hs | ⟨-, hheld⟩ := h.status_of_about (Pc.about_of_proc hd)
      · simp [hz] at hs
      · obtain rfl := h.holder hheld hself
        have hip : i = p := by simpa [hpc, Pc.proc, eq_comm] using hd
        have hdist := h.distinct p
        simp [hk, Code.Distinct, hip] at hdist
    · next i hk =>
      obtain rfl := Option.some.inj hq
      exact h.not_on_cpu_of_used (h.claim p i (by simp [hk, Code.claims]))
    · cases hq
  · cases hq

end Inv

/-- **A process runs on one CPU, resumes what it stored, and is freed when it has left.**  In every
state of every run: at most one CPU has a given process as `my_proc`; a dispatch finds the process
`RUNABLE`, on no CPU, with a context that its last `swtch` (or `init_user_process`) stored and no
CPU has loaded since, and that continues where its code stands; and a call of `free_process` finds
no CPU that executes the process or is still in the `swtch` away from its stack. -/
theorem one_cpu_per_process {s : State} (h : Reachable s) :
    (∀ c d p, s.myProc c = some p → s.myProc d = some p → c = d) ∧
      (∀ a q, s.dispatches a = some q →
        s.status q = .runable ∧ (∃ r, s.context q = some r ∧ Fits q (s.kpc q) r) ∧
          ∀ d, s.myProc d ≠ some q) ∧
      ∀ a q, s.frees a = some q → ∀ d, s.myProc d ≠ some q ∧ (s.pc d).proc ≠ some q := by
  have hinv := Reach.inv h
  refine ⟨fun c d p hc hd => ?_, fun a q => hinv.dispatches, fun a q hq d => ?_⟩
  · rw [hinv.myProc] at hc hd
    exact hinv.one c d p hc hd
  · rw [hinv.myProc]
    exact ⟨hinv.frees hq d, hinv.frees hq d⟩

/-- `init` forks a child, which exits, and `wait` is about to free it. -/
def reapRun : List Act :=
  dispatch 0 0 ++ callFor 0 .fork 10 ++ dispatch 1 1 ++ callFor 1 (.exit 7) 76 ++
    callFor 0 (.wait true) 4

/-- The theorem at the state where `wait` calls `free_process` on a child that ran on CPU 1. -/
theorem one_cpu_per_process_reapRun :
    ∃ s, Reachable s ∧ s.frees (go 0) = some 1 ∧ (∀ d, s.myProc d ≠ some 1) ∧
      s.myProc 0 = some 0 := by
  have hrun : (Run.run step boot reapRun).map (fun s => (s.frees (go 0), s.myProc 0)) =
      some (some 1, some 0) := by decide +kernel
  obtain ⟨s, hs, hlook⟩ := Option.map_eq_some_iff.mp hrun
  obtain ⟨hfree, hmy⟩ := Prod.mk.inj hlook
  have hreach : Reachable s := Run.reachable_of_run .refl hs
  exact ⟨s, hreach, hfree, fun d => ((one_cpu_per_process hreach).2.2 _ _ hfree d).1, hmy⟩

end Process
