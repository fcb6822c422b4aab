import Myv6.Pgroup.Account
import Myv6.Pgroup.Scan

/-!
# Pgroup/Members — who is in which group, over every run

The roster of `Pgroup/Roster` read in the source's terms (the comment on `struct proc_group`), with
the one exception the moves make: a `RUNNING` process between its old group and its new one is in
no list, and a CPU is executing it there.  That such a process is never stranded needs the account
and the scan — the two panics that would stop a CPU half-way are unreachable.
-/

namespace Pgroup

open State

variable {s t : State} {g : GroupId} {c d : CpuId} {p q : ProcId}

/-- The process is between two groups, or leaving its last one. -/
def Pc.moves : Pc → Option ProcId
  | .createDec p | .allocScan p _ | .createAdd p _ | .enterNew p _ _ | .enterBack p _
  | .exitZombie p => some p
  | _ => none

/-- A process in no group that a CPU executes is being moved by that CPU. -/
theorem PcOk.moves {k : Pc} (hok : PcOk s c k) (hk : k.myProc = some p)
    (hp : s.procGroup p = none) : k.moves = some p := by
  cases k <;> simp only [Pc.myProc, Option.some.injEq, reduceCtorEq] at hk <;> subst hk
  case run => exact absurd hp (by rw [hok.2.1]; exact hok.2.2)
  all_goals simp_all [PcOk, Pc.moves]

/-- **No process is stranded**: a `RUNNING` process in no group is on a CPU. -/
def Held (s : State) : Prop :=
  ∀ q, s.status q = .running → s.procGroup q = none → ∃ c, (s.pc c).myProc = some q

/-! ## Steps -/

/-- **One CPU's step**: it holds what it takes out of its group, and goes on holding what it is
moving. -/
theorem Held.of_step (hh : Held s) (hi : Inv s) (c : CpuId) (hpc : ∀ d ≠ c, t.pc d = s.pc d)
    (hnew : ∀ q, t.status q = .running → t.procGroup q = none →
      s.status q = .running ∧ s.procGroup q = none ∨ (t.pc c).myProc = some q)
    (hown : ∀ q, (s.pc c).moves = some q → t.status q = .running → t.procGroup q = none →
      (t.pc c).myProc = some q) : Held t := by
  intro q hst hq
  rcases hnew q hst hq with ⟨hst', hq'⟩ | hmine
  · obtain ⟨d, hd⟩ := hh q hst' hq'
    by_cases hdc : d = c
    · subst hdc
      exact ⟨d, hown q ((hi.here d).moves hd hq') hst hq⟩
    · exact ⟨d, by rw [hpc d hdc]; exact hd⟩
  · exact ⟨c, hmine⟩

/-- The step of a CPU that moves no process and changes none. -/
theorem Held.of_same (hh : Held s) (hi : Inv s) (c : CpuId) (hpc : ∀ d ≠ c, t.pc d = s.pc d)
    (hst : t.status = s.status) (hp : t.procGroup = s.procGroup) (hmove : (s.pc c).moves = none) :
    Held t :=
  hh.of_step hi c hpc (fun q h h' => .inl ⟨by rw [← hst]; exact h, by rw [← hp]; exact h'⟩)
    fun q h => by rw [hmove] at h; cases h

/-- A step that moves no CPU and takes no process out of a group. -/
theorem Held.of_env (hh : Held s) (hpc : t.pc = s.pc)
    (hnew : ∀ q, t.status q = .running → t.procGroup q = none →
      s.status q = .running ∧ s.procGroup q = none) : Held t := by
  intro q hst hq
  obtain ⟨c, hc⟩ := hh q (hnew q hst hq).1 (hnew q hst hq).2
  exact ⟨c, by rw [hpc]; exact hc⟩

/-- The process of a CPU leaves its group, and the CPU goes on holding it. -/
theorem Held.of_procOut (hh : Held s) (hi : Inv s) (hrun : s.pc c = .run p)
    (hpc : ∀ d ≠ c, t.pc d = s.pc d) (hst : t.status = s.status)
    (hp : ∀ q ≠ p, t.procGroup q = s.procGroup q) (hmine : (t.pc c).myProc = some p) : Held t := by
  refine hh.of_step hi c hpc (fun q h h' => ?_) fun q h => by simp [hrun, Pc.moves] at h
  by_cases hqp : q = p
  · exact .inr (hqp ▸ hmine)
  · exact .inl ⟨by rw [← hst]; exact h, by rw [← hp q hqp]; exact h'⟩

/-- The process a CPU moves enters a group. -/
theorem Held.of_procIn (hh : Held s) (hi : Inv s) (hmove : (s.pc c).moves = some p)
    (hpc : ∀ d ≠ c, t.pc d = s.pc d) (hst : t.status = s.status)
    (hp : ∀ q ≠ p, t.procGroup q = s.procGroup q) (hin : t.procGroup p ≠ none) : Held t := by
  refine hh.of_step hi c hpc (fun q h h' => .inl ?_) fun q h _ h' => ?_
  · have hqp : q ≠ p := by
      rintro rfl
      exact hin h'
    exact ⟨by rw [← hst]; exact h, by rw [← hp q hqp]; exact h'⟩
  · obtain rfl : p = q := Option.some.inj (hmove.symm.trans h)
    exact absurd h' hin

/-- The CPU goes on with the process it moves. -/
theorem Held.of_carry (hh : Held s) (hi : Inv s) (hmove : (s.pc c).moves = some p)
    (hpc : ∀ d ≠ c, t.pc d = s.pc d) (hst : t.status = s.status)
    (hp : t.procGroup = s.procGroup) (hmine : (t.pc c).myProc = some p) : Held t := by
  refine hh.of_step hi c hpc (fun q h h' => .inl ?_) fun q h _ _ => ?_
  · exact ⟨by rw [← hst]; exact h, by rw [← hp]; exact h'⟩
  · rw [← hmove.symm.trans h]
    exact hmine

/-- The CPU gives up its process, which runs no longer. -/
theorem Held.of_switch (hh : Held s) (hi : Inv s) (hcp : (s.pc c).myProc = some p)
    (hpc : ∀ d ≠ c, t.pc d = s.pc d) (hst : ∀ q ≠ p, t.status q = s.status q)
    (hstp : t.status p ≠ .running) (hp : t.procGroup = s.procGroup) : Held t := by
  refine hh.of_step hi c hpc (fun q h h' => .inl ?_) fun q hq h _ => ?_
  · have hqp : q ≠ p := by
      rintro rfl
      exact hstp h
    exact ⟨by rw [← hst q hqp]; exact h, by rw [← hp]; exact h'⟩
  · have hcq : (s.pc c).myProc = some q := by
      cases hk : s.pc c <;> rw [hk] at hq <;> simp_all [Pc.moves, Pc.myProc]
    obtain rfl : p = q := Option.some.inj (hcp.symm.trans hcq)
    exact absurd h hstp

theorem Held.of_goto (hh : Held s) (hi : Inv s) {k : Pc} (hgo : Goto (s.pc c) k) :
    Held (s.setPc c k) := by
  have hpc : ∀ d ≠ c, (s.setPc c k).pc d = s.pc d := fun d hd => by simp [hd]
  cases hk : s.pc c <;> rw [hk] at hgo <;> cases hgo
  case enterNew.back p old new =>
    exact hh.of_carry hi (p := p) (by rw [hk]; rfl) hpc rfl rfl (by simp [Pc.myProc])
  all_goals exact hh.of_same hi c hpc rfl rfl (by rw [hk]; rfl)

/-- **Every step goes on holding the processes out of their groups.** -/
theorem Held.of_effect (hh : Held s) (hi : Inv s) (ha : Account s) (hs : Scan s)
    {a : Act} (h : Effect s a t) : Held t := by
  have hfree := ha.free
  cases h with
  | idle => exact hh
  | goto c k hgo _ _ => exact hh.of_goto hi hgo
  | enterDefault c k hk _ =>
    refine hh.of_same hi c (fun d hd => by simp [State.cpuIn, hd]) rfl rfl ?_
    cases hpc : s.pc c <;> rw [hpc] at hk <;> cases hk <;> rfl
  | count c k hk _ =>
    refine hh.of_same hi c (fun d hd => by simp [hd]) rfl rfl ?_
    cases hpc : s.pc c <;> rw [hpc] at hk <;> cases hk <;> rfl
  | negative c hneg => omega
  | noSlot c p i hpc hge => exact absurd (hs.position_lt hpc) (by omega)
  | boxFull c p ty _ _ hfull => simp [ha.not_boxFull hi] at hfull
  | refused c g e hg he =>
    refine hh.of_same hi c (fun d hd => by simp [hd]) rfl rfl ?_
    cases he with
    | noGroup m hpc => rw [hpc]; rfl
    | noFork p q g hpc => rw [hpc]; rfl
    | noRelease p g hpc => rw [hpc]; rfl
  | acquireWake c m hpc =>
    refine hh.of_step hi c (fun d hd => by simp [wakeUp, hd]) (fun q h h' => .inl ⟨?_, h'⟩)
      fun q h => by simp [hpc, Pc.moves] at h
    simp only [setPc, setLock, wakeUp] at h
    split at h
    · cases h
    · exact h
  | dispatch c g q rest hpc hst =>
    refine hh.of_step hi c (fun d hd => by simp [procMoveToTail, hd]) (fun r h h' => ?_)
      fun r h => by simp [hpc, Pc.moves] at h
    by_cases hrq : r = q
    · exact .inr (by simp [hrq, Pc.myProc])
    · exact .inl ⟨by simpa [procMoveToTail, hrq] using h, h'⟩
  | switchOut c p st ch h =>
    obtain ⟨hcp, hst⟩ : (s.pc c).myProc = some p ∧ st ≠ .running := by
      cases h with
      | preempt hpc => rcases hpc with hpc | hpc <;> rw [hpc] <;> exact ⟨rfl, by decide⟩
      | sleep hpc => rw [hpc]; exact ⟨rfl, by decide⟩
      | exit hpc => rw [hpc]; exact ⟨rfl, by decide⟩
    exact hh.of_switch hi hcp (fun d hd => by simp [hd]) (fun q hq => by simp [hq])
      (by simpa using hst) rfl
  | incSleep c p g hpc =>
    exact hh.of_switch hi (p := p) (by rw [hpc]; rfl) (fun d hd => by simp [hd])
      (fun q hq => by simp [hq]) (by simp) rfl
  | createKeep c p g hpc _ _ hc _ _ _ =>
    refine hh.of_env rfl fun q h h' => ⟨h, ?_⟩
    by_cases hqp : q = p
    · simp [State.procIn, hqp] at h'
    · simpa [State.procIn, State.procOut, hqp] using h'
  | createAsk c p hpc _ _ _ _ _ =>
    exact hh.of_procOut hi hpc (fun d hd => by simp [State.cpuOut, State.procOut, hd]) rfl
      (fun q hq => by simp [State.cpuOut, State.procOut, hq]) (by simp [Pc.myProc])
  | createLeave c p g hpc _ _ _ _ _ _ =>
    exact hh.of_procOut hi hpc (fun d hd => by simp [State.cpuOut, State.procOut, hd]) rfl
      (fun q hq => by simp [State.cpuOut, State.procOut, hq]) (by simp [Pc.myProc])
  | createLast c p g hpc _ _ _ _ _ _ _ =>
    exact hh.of_procOut hi hpc (fun d hd => by simp [State.freed, State.cpuOut, State.procOut, hd])
      rfl (fun q hq => by simp [State.freed, State.cpuOut, State.procOut, hq]) (by simp [Pc.myProc])
  | enterLeave c p old new hpc _ _ _ _ _ =>
    exact hh.of_procOut hi hpc (fun d hd => by simp [State.procOut, hd]) rfl
      (fun q hq => by simp [State.procOut, hq]) (by simp [Pc.myProc])
  | exitLeave c p g hpc _ _ _ _ =>
    exact hh.of_procOut hi hpc (fun d hd => by simp [State.procOut, hd]) rfl
      (fun q hq => by simp [State.procOut, hq]) (by simp [Pc.myProc])
  | createGo c p hpc _ =>
    exact hh.of_carry hi (c := c) (p := p) (by rw [hpc]; rfl) (fun d hd => by simp [hd]) rfl rfl
      (by simp [Pc.myProc])
  | allocTake c p g hpc _ =>
    exact hh.of_carry hi (c := c) (p := p) (by rw [hpc]; rfl)
      (fun d hd => by simp [State.cpuIn, State.claimed, hd]) rfl rfl (by simp [Pc.myProc])
  | allocNext c p g hpc _ =>
    exact hh.of_carry hi (c := c) (p := p) (by rw [hpc]; rfl) (fun d hd => by simp [hd]) rfl rfl
      (by simp [Pc.myProc])
  | createBack c p hpc _ =>
    exact hh.of_procIn hi (c := c) (p := p) (by rw [hpc]; rfl)
      (fun d hd => by simp [State.procIn, State.cpuIn, hd]) rfl
      (fun q hq => by simp [State.procIn, State.cpuIn, hq]) (by simp [State.procIn])
  | rejoin c p g hpc _ =>
    refine hh.of_procIn hi (c := c) (p := p) ?_ (fun d hd => by simp [State.procIn, hd]) rfl
      (fun q hq => by simp [State.procIn, hq]) (by simp [State.procIn])
    cases hk : s.pc c <;> rw [hk] at hpc <;> cases hpc <;> rfl
  | enterNew c p old new hpc _ _ =>
    exact hh.of_procIn hi (c := c) (p := p) (by rw [hpc]; rfl)
      (fun d hd => by simp [State.procIn, hd]) rfl (fun q hq => by simp [State.procIn, hq])
      (by simp [State.procIn])
  | take c hpc _ => exact hh.of_same hi c (fun d hd => by simp [hd]) rfl rfl (by rw [hpc]; rfl)
  | tooMany c m hpc _ _ =>
    exact hh.of_same hi c (fun d hd => by simp [hd]) rfl rfl (by rw [hpc]; rfl)
  | acquireLeave c m hpc _ _ =>
    exact hh.of_same hi c (fun d hd => by simp [State.cpuOut, hd]) rfl rfl (by rw [hpc]; rfl)
  | acquireEnter c m hpc _ _ _ =>
    exact hh.of_same hi c (fun d hd => by simp [State.cpuIn, hd]) rfl rfl (by rw [hpc]; rfl)
  | acquireEnterFlex c m hpc _ _ _ =>
    exact hh.of_same hi c (fun d hd => by simp [State.cpuIn, hd]) rfl rfl (by rw [hpc]; rfl)
  | acquireBack c hpc _ =>
    exact hh.of_same hi c (fun d hd => by simp [State.cpuIn, hd]) rfl rfl (by rw [hpc]; rfl)
  | acquireBackCount c hpc _ =>
    exact hh.of_same hi c (fun d hd => by simp [hd]) rfl rfl (by rw [hpc]; rfl)
  | leave c g hpc _ _ _ =>
    exact hh.of_same hi c (fun d hd => by simp [State.cpuOut, hd]) rfl rfl (by rw [hpc]; rfl)
  | leaveLast c g hpc _ _ _ _ =>
    exact hh.of_same hi c (fun d hd => by simp [State.freed, State.cpuOut, hd]) rfl rfl
      (by rw [hpc]; rfl)
  | lockGroup c g hpc _ _ =>
    exact hh.of_same hi c (fun d hd => by simp [hd]) rfl rfl (by rw [hpc]; rfl)
  | dispatchNone c g hpc =>
    exact hh.of_same hi c (fun d hd => by simp [hd]) rfl rfl (by rw [hpc]; rfl)
  | decLeave c p g hpc _ _ _ =>
    exact hh.of_same hi c (fun d hd => by simp [State.cpuOut, hd]) rfl rfl (by rw [hpc]; rfl)
  | decLast c p g hpc _ _ _ _ =>
    exact hh.of_same hi c (fun d hd => by simp [State.freed, State.cpuOut, hd]) rfl rfl
      (by rw [hpc]; rfl)
  | sendWait c p g m hpc _ _ _ _ _ _ =>
    exact hh.of_same hi c (fun d hd => by simp [hd]) rfl rfl (by rw [hpc]; rfl)
  | occupy | ask | askNone | reserve | sendFlex => exact hh.of_env rfl fun q h h' => ⟨h, h'⟩
  | forkAlloc p q _ _ =>
    refine hh.of_env rfl fun r h h' => ⟨?_, h'⟩
    by_cases hrq : r = q
    · simp [hrq] at h
    · simpa [hrq] using h
  | forkRunable p q _ =>
    refine hh.of_env rfl fun r h h' => ⟨?_, h'⟩
    by_cases hrq : r = q
    · simp [hrq] at h
    · simpa [hrq] using h
  | forkInsert p q g _ _ _ _ =>
    refine hh.of_env rfl fun r h h' => ⟨h, ?_⟩
    by_cases hrq : r = q
    · simp [State.procIn, hrq] at h'
    · simpa [State.procIn, hrq] using h'
  | forkFail p q _ =>
    refine hh.of_env rfl fun r h h' => ?_
    by_cases hrq : r = q
    · simp [freeProcess, hrq] at h
    · exact ⟨by simpa [freeProcess, hrq] using h, by simpa [freeProcess, hrq] using h'⟩
  | wake q _ =>
    refine hh.of_env rfl fun r h h' => ⟨?_, h'⟩
    by_cases hrq : r = q
    · simp [hrq] at h
    · simpa [hrq] using h
  | reap q _ =>
    refine hh.of_env rfl fun r h h' => ?_
    by_cases hrq : r = q
    · simp [freeProcess, hrq] at h
    · exact ⟨by simpa [freeProcess, hrq] using h, by simpa [freeProcess, hrq] using h'⟩

theorem Reachable.held (h : Reachable s) : Held s := by
  refine h.invariant_with (fun q hst => ?_) fun _ _ _ hr hh _ hs => ?_
  · by_cases hq : q = initProc <;> simp [Pgroup.boot, hq] at hst
  · have hi := Reachable.inv hr
    exact hh.of_effect hi (Reachable.account hr) (Reachable.scan hr) (hi.effect hs)

/-! ## The groups -/

/-- **The invariants of `struct proc_group`**, in every reachable state: an unused slot is empty; a
slot in use carries its index and has a CPU; the CPU array and the process list of a slot are what
the CPUs and the processes say of themselves, each process once; and a process that has been put in
a group stays in one — except while the CPU executing it moves it, and after its exit. -/
theorem groups_well_formed (h : Reachable s) :
    (∀ g, (s.group g).id = none →
      (s.group g).procs = [] ∧ (∀ c, (s.group g).cpus c = none) ∧
        (s.group g).exclusivelyOccupy = false) ∧
    (∀ g, (s.group g).id ≠ none →
      (s.group g).id = some g ∧ ∃ c, (s.group g).cpus c = some c) ∧
    (∀ g c, (s.group g).cpus c = some c ↔ s.cpuGroup c = some g) ∧
    (∀ g q, (q ∈ (s.group g).procs ↔ s.procGroup q = some g) ∧ (s.group g).procs.Nodup) ∧
    (∀ q, s.inserted q = true → s.status q = .runable ∨ s.status q = .sleep →
      ∃! g, q ∈ (s.group g).procs) ∧
    (∀ q, s.inserted q = true → s.status q = .running →
      (∃! g, q ∈ (s.group g).procs) ∨ ∃ c, (s.pc c).moves = some q) := by
  have hi := h.inv
  have hr := hi.roster
  have hcpu : ∀ g c, (s.group g).cpus c = some c ↔ s.cpuGroup c = some g := fun g c => by
    rw [hr.cpus]
    by_cases hc : s.cpuGroup c = some g <;> simp [hc]
  have hmem : ∀ q, s.procGroup q ≠ none → ∃! g, q ∈ (s.group g).procs := fun q hq => by
    obtain ⟨g, hg⟩ := Option.ne_none_iff_exists'.mp hq
    refine ⟨g, (hr.procs g q).mpr hg, fun g' hg' => ?_⟩
    exact Option.some.inj (((hr.procs g' q).mp hg').symm.trans hg)
  refine ⟨fun g hid => ?_, fun g hid => ⟨hr.id_eq_some hid, ?_⟩, hcpu,
    fun g q => ⟨hr.procs g q, hr.nodup g⟩, fun q hins hst => hmem q ((hi.proc q).mem hins hst),
    fun q _ hst => ?_⟩
  · have hno := hr.id_eq_none_iff.mp hid
    obtain ⟨-, hprocs, hex⟩ := hr.unused g hno
    exact ⟨hprocs, fun c => by rw [hr.cpus, if_neg (hno c)], hex⟩
  · by_contra hno
    exact hid (hr.id_eq_none_iff.mpr fun c hc => hno ⟨c, (hcpu g c).mpr hc⟩)
  · by_cases hq : s.procGroup q = none
    · obtain ⟨c, hc⟩ := h.held q hst hq
      exact .inr ⟨c, (hi.here c).moves hc hq⟩
    · exact .inl (hmem q hq)

/-- A second hart takes a forked process into group 1. -/
def createRun : List Act :=
  [.cpu 1, .cpu 1, .cpu 0, .cpu 0, .cpu 0, .call 0 (.fork 1), .cpu 0, .cpu 0,
    .cpu 1, .cpu 1, .cpu 1, .call 1 .createPgroup, .cpu 1, .cpu 1, .cpu 1, .cpu 1]

theorem groups_well_formed_createRun :
    ∃ s, Run.run step boot createRun = some s ∧ s.procGroup 1 = some 1 ∧
      (s.group 1).procs = [1] ∧ ∃ c, (s.group 1).cpus c = some c := by
  have hsome : ((Run.run step boot createRun).map fun s =>
      (s.procGroup 1, (s.group 1).procs, (s.group 1).id)) = some (some 1, [1], some 1) := by rfl
  obtain ⟨s, hs, heq⟩ := Option.map_eq_some_iff.mp hsome
  simp only [Prod.mk.injEq] at heq
  obtain ⟨hproc, hlist, hid⟩ := heq
  exact ⟨s, hs, hproc, hlist,
    ((groups_well_formed (Run.reachable_of_run .refl hs)).2.1 1 (by rw [hid]; simp)).2⟩

end Pgroup
