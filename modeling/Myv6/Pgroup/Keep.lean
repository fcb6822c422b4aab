import Myv6.Pgroup.Effect

/-!
# Pgroup/Keep — every step keeps the invariant

One lemma per effect that needs an argument, the scheduler's side first, then the process's;
`Inv.of_effect` puts them together.  Each hands the state it leads to to `Inv.of_sched`,
`Inv.of_own`, `Inv.of_env` or `Inv.of_step`.
-/

namespace Pgroup

open State

variable {s t : State} {g : GroupId} {c d : CpuId} {p q : ProcId}

/-- A child being forked is in no group yet. -/
theorem Inv.child_not_inserted (hi : Inv s) (h : (s.kpc p).child = some q) :
    s.inserted q = false := by
  have hk := hi.kpc p
  cases hkp : s.kpc p <;> rw [hkp] at hk h <;> cases h <;> exact hk.2

/-! ## The scheduler's side -/

/-- A CPU in no group enters slot `g`, which is in use, and goes on to `k`. -/
theorem Inv.cpuIn (hi : Inv s) {k : Pc} (hid : (s.group g).id = some g) (hc : s.cpuGroup c = none)
    {l : Option CpuId} (hg : s.lock g = none) (here : PcOk ((s.cpuIn g c).setLock g l) c k)
    (hmine : ∀ p, k.myProc = some p → (s.pc c).myProc = some p) :
    Inv (((s.cpuIn g c).setLock g l).setPc c k) := by
  refine hi.of_sched c k ((hi.roster.cpuIn hid hc).congr rfl rfl rfl) rfl
    (fun d hd => by simp [State.cpuIn, hd]) (fun i d hd h => ⟨?_, procs_cpuIn i⟩) rfl rfl rfl rfl
    here hmine hi.box hi.mail
  exact (setLock_frame (.inl hg) l i d hd h).1

/-- The same, the lock given back at once. -/
theorem Inv.cpuIn_unlocked (hi : Inv s) {k : Pc} (hid : (s.group g).id = some g)
    (hc : s.cpuGroup c = none) (hg : s.lock g = none) (here : PcOk (s.cpuIn g c) c k)
    (hmine : ∀ p, k.myProc = some p → (s.pc c).myProc = some p) :
    Inv ((s.cpuIn g c).setPc c k) := by
  have hself : (s.cpuIn g c).setLock g none = s.cpuIn g c := setLock_self hg
  rw [← hself] at here ⊢
  exact hi.cpuIn hid hc hg here hmine

/-- A CPU leaves slot `g`, where another CPU stays, and goes on to `k`. -/
theorem Inv.cpuOut (hi : Inv s) {k : Pc} (hc : s.cpuGroup c = some g)
    (hother : ∃ d, d ≠ c ∧ s.cpuGroup d = some g) (here : PcOk (s.cpuOut g c) c k)
    (hmine : ∀ p, k.myProc = some p → (s.pc c).myProc = some p) :
    Inv ((s.cpuOut g c).setPc c k) :=
  hi.of_sched c k (hi.roster.cpuOut hc hother) rfl (fun d hd => by simp [State.cpuOut, hd])
    (fun i _ _ h => ⟨h, procs_cpuOut i⟩) rfl rfl rfl rfl here hmine hi.box hi.mail

/-- A CPU leaves slot `g`, the last one in a group without processes, and goes on to `k`. -/
theorem Inv.cpuOut_freed (hi : Inv s) {k : Pc} (hc : s.cpuGroup c = some g)
    (hlast : ∀ d, s.cpuGroup d = some g → d = c) (hprocs : (s.group g).procs = [])
    (here : PcOk ((s.cpuOut g c).freed g) c k)
    (hmine : ∀ p, k.myProc = some p → (s.pc c).myProc = some p) :
    Inv (((s.cpuOut g c).freed g).setPc c k) :=
  hi.of_sched c k (hi.roster.cpuOut_freed hc hlast hprocs) rfl
    (fun d hd => by simp [State.freed, State.cpuOut, hd])
    (fun i _ _ h => ⟨h, (procs_freed i).trans (procs_cpuOut i)⟩) rfl rfl rfl rfl here hmine hi.box
    hi.mail

/-- A CPU goes on from where it entered the default group. -/
theorem Inv.enterDefault (hi : Inv s) {k : Pc} (hk : (s.pc c).afterDefault = some k)
    (hg : s.lock defaultPgroupId = none) : Inv ((s.cpuIn defaultPgroupId c).setPc c k) := by
  have hok := hi.here c
  cases hpc : s.pc c <;> rw [hpc] at hok hk <;> cases hk
  case boot =>
    exact hi.cpuIn_unlocked hi.default_id hok hg (by simp [PcOk, State.cpuIn])
      fun _ hp => by cases hp
  case leaveDefault =>
    exact hi.cpuIn_unlocked hi.default_id hok hg (by simp [PcOk, State.cpuIn])
      fun _ hp => by cases hp
  case decDefault =>
    exact hi.cpuIn_unlocked hi.default_id hok.2.2 hg ⟨hok.1, hok.2.1, by simp [State.cpuIn]⟩
      fun q hq => by rw [hpc]; exact hq

/-- `inc_free_cpus` touches no group. -/
theorem Inv.count (hi : Inv s) {k : Pc} (hk : (s.pc c).afterCount = some k) :
    Inv ({ s with freeCpus := s.freeCpus + 1 }.setPc c k) := by
  have hok := hi.here c
  have hkeep : PcOk s c k → (∀ p, k.myProc = some p → (s.pc c).myProc = some p) →
      Inv ({ s with freeCpus := s.freeCpus + 1 }.setPc c k) := fun here hmine =>
    hi.of_sched (u := { s with freeCpus := s.freeCpus + 1 }) c k
      (hi.roster.congr rfl rfl rfl) rfl (fun _ _ => rfl) (fun _ _ _ h => ⟨h, rfl⟩) rfl rfl rfl rfl
      (here.frame rfl (fun _ h => ⟨h, rfl⟩) fun _ _ => ⟨rfl, rfl, rfl⟩) hmine hi.box hi.mail
  cases hpc : s.pc c <;> rw [hpc] at hok hk <;> cases hk
  case bootCount =>
    have hc : s.cpuGroup c = some defaultPgroupId := hok
    exact hkeep (by simp [PcOk, hc]) fun _ hp => by cases hp
  case leaveCount => exact hkeep hok fun _ hp => by cases hp
  case decCount =>
    exact hkeep ⟨hok.1, hok.2.1, by rw [hok.2.2]; simp⟩ fun q hq => by rw [hpc]; exact hq

theorem Inv.take (hi : Inv s) (hpc : s.pc c = .acquireGet) (hne : s.umBox.requests ≠ []) :
    Inv ({ s with umBox := s.umBox.get.2, taken := s.taken ++ [(c, s.umBox.get.1)] }.setPc c
      (.acquireLeave s.umBox.get.1)) := by
  have hc : s.cpuGroup c = some defaultPgroupId := by
    have := hi.here c
    rwa [hpc] at this
  have hreq := UmBox.requests_get hne
  refine hi.of_sched (u := { s with
      umBox := s.umBox.get.2, taken := s.taken ++ [(c, s.umBox.get.1)] }) c _
    (hi.roster.congr rfl rfl rfl) rfl (fun _ _ => rfl) (fun _ _ _ h => ⟨h, rfl⟩) rfl rfl rfl rfl
    ⟨hc, hi.mail _ (by rw [hreq]; simp)⟩ (fun _ hp => by cases hp)
    (UmBox.wellFormed_get hi.box hne) fun m hmem => ?_
  exact hi.mail m (by rw [hreq]; exact List.mem_cons_of_mem _ hmem)

/-- Waking sleepers on a chain changes no group, and no process any CPU executes. -/
theorem Inv.acquireWake (hi : Inv s) {m : CpuMessage} (hpc : s.pc c = .acquireWake m) :
    Inv (((s.wakeUp m.chain).setLock m.group none).setPc c .schedRun) := by
  obtain ⟨hc, hg⟩ : s.cpuGroup c = some m.group ∧ s.lock m.group = some c := by
    have := hi.here c
    rwa [hpc] at this
  refine hi.of_step (u := (s.wakeUp m.chain).setLock m.group none) c .schedRun
    (hi.roster.congr rfl rfl rfl) rfl (fun _ _ => rfl) (setLock_frame (.inr hg) none)
    (fun p hp _ => ⟨by simp [wakeUp, hp], rfl, rfl⟩) (by simp [PcOk, wakeUp, hc])
    (fun _ hp => by cases hp) (fun q => ?_) (fun p => ?_) hi.child hi.box hi.mail hi.init
  · by_cases hq : s.status q = .sleep ∧ s.chain q = some m.chain
    · have hpq := hi.proc q
      have hins := hpq.was (.inr (.inl hq.1))
      have hmem := hpq.mem hins (.inr hq.1)
      constructor <;> simp [wakeUp, hq, hins, hmem]
    · exact (hi.proc q).congr (by simp [wakeUp, hq]) rfl rfl
  · have hk := hi.kpc p
    change KpcOk _ p (s.kpc p)
    refine hk.congr rfl fun q hq => ⟨?_, rfl⟩
    cases hkp : s.kpc p <;> rw [hkp] at hk hq <;> cases hq <;> simp [wakeUp, hk.1]

/-- The scan of `get_runnable_proc_with_lock` looks only at members of the group, so the process it
finds belongs where the CPU does. -/
theorem Inv.dispatch (hi : Inv s) {rest : List ProcId} (hpc : s.pc c = .dispatch g (q :: rest))
    (hst : s.status q = .runable) :
    Inv ((((s.procMoveToTail g q).setLock g none).setStatus q .running).setPc c (.run q)) := by
  obtain ⟨hc, hg, hrest⟩ : s.cpuGroup c = some g ∧ s.lock g = some c ∧
      ∀ r ∈ q :: rest, r ∈ (s.group g).procs := by
    have := hi.here c
    rwa [hpc] at this
  have hq : s.procGroup q = some g := (hi.roster.procs g q).mp (hrest q (by simp))
  have hins : s.inserted q = true := by
    by_contra hno
    rw [(hi.proc q).out (by simpa using hno)] at hq
    cases hq
  refine hi.of_step (u := (((s.procMoveToTail g q).setLock g none).setStatus q .running)) c
    (.run q) ((hi.roster.procMoveToTail hq).congr rfl rfl rfl) rfl (fun _ _ => rfl)
    (lock_frame (.inr hg) (fun i hig => by simp [procMoveToTail, hig]) fun i hig => by
      simp [procMoveToTail, hig])
    (fun p hp _ => ?_) ⟨⟨by simp, hins⟩, hq.trans hc.symm, by simp [procMoveToTail, hc]⟩
    (fun p hp => .inr ?_) (fun p => ?_) (fun p => ?_) hi.child hi.box hi.mail hi.init
  · have hpq : p ≠ q := by
      rintro rfl
      rw [hst] at hp
      cases hp
    exact ⟨by simp [procMoveToTail, hpq], rfl, rfl⟩
  · obtain rfl : q = p := Option.some.inj hp
    rw [hst]
    simp
  · by_cases hpq : p = q
    · subst hpq
      exact .of_executed ⟨by simp, hins⟩
    · exact (hi.proc p).congr (by simp [procMoveToTail, hpq]) rfl rfl
  · refine (hi.kpc p).congr rfl fun r hr => ⟨?_, rfl⟩
    have hrq : r ≠ q := by
      rintro rfl
      simp [hi.child_not_inserted hr] at hins
    simp [procMoveToTail, hrq]

/-! ## The process's side -/

/-- The process on CPU `c` is switched out, or ends: nothing but its status changes. -/
theorem Inv.switchToScheduler {u : State} (hi : Inv s) {st : Status}
    (hcp : (s.pc c).myProc = some p) (hroster : Roster u) (hpc : u.pc = s.pc)
    (hcpu : u.cpuGroup = s.cpuGroup) (hc : s.cpuGroup c ≠ none)
    (hlock : ∀ g, ∀ d ≠ c, s.lock g = some d →
      u.lock g = some d ∧ (u.group g).procs = (s.group g).procs)
    (hst : u.status = s.status) (hins : u.inserted = s.inserted)
    (hp : u.procGroup = s.procGroup) (hk : u.kpc = s.kpc) (hbox : u.umBox = s.umBox)
    (hgo : (st = .runable ∨ st = .sleep) ∧ s.procGroup p ≠ none ∨
      st = .zombie ∧ s.procGroup p = none) :
    Inv (u.switchToScheduler c p st) := by
  have hex := (hi.here c).executed hcp
  refine hi.of_step (u := u.setStatus p st) c .sched (hroster.congr rfl rfl rfl) hpc
    (fun d _ => congrFun hcpu d) hlock (fun q _ hq => ?_) ?_ (fun _ h => by cases h) (fun q => ?_)
    (fun q => ?_) (by rw [setStatus, hk]; exact hi.child) (by rw [setStatus, hbox]; exact hi.box)
    (by rw [setStatus, hbox]; exact hi.mail) (by rw [setStatus, hp]; exact hi.init)
  · have hqp : q ≠ p := fun h => hq (h ▸ hcp)
    exact ⟨by simp [hqp, hst], congrFun hins q, congrFun hp q⟩
  · change u.cpuGroup c ≠ none
    rwa [hcpu]
  · by_cases hqp : q = p
    · subst hqp
      rcases hgo with ⟨rfl | rfl, hmem⟩ | ⟨rfl, hmem⟩ <;>
        constructor <;> simp [hins, hex.2, hp, hmem]
    · exact (hi.proc q).congr (by simp [hqp, hst]) (congrFun hins q) (congrFun hp q)
  · change KpcOk _ q (u.kpc q)
    rw [hk]
    refine (hi.kpc q).congr (congrFun hp q) fun r hr => ⟨?_, congrFun hins r⟩
    have hrp : r ≠ p := by
      rintro rfl
      exact absurd hex.2 (by simp [hi.child_not_inserted hr])
    simp [hrp, hst]

theorem Inv.switchOut (hi : Inv s) {st : Status} {ch : Option Chain} (h : SwitchOut s c p st ch) :
    Inv ((s.setChain p ch).switchToScheduler c p st) := by
  have hok := hi.here c
  have hkeep : (s.pc c).myProc = some p → s.cpuGroup c ≠ none →
      ((st = .runable ∨ st = .sleep) ∧ s.procGroup p ≠ none ∨
        st = .zombie ∧ s.procGroup p = none) →
      Inv ((s.setChain p ch).switchToScheduler c p st) := fun hcp hc hgo =>
    hi.switchToScheduler hcp (hi.roster.congr rfl rfl rfl) rfl rfl hc (fun _ _ _ h => ⟨h, rfl⟩) rfl
      rfl rfl rfl rfl hgo
  cases h with
  | preempt hpc =>
    rcases hpc with hpc | hpc <;> rw [hpc] at hok
    · exact hkeep (by rw [hpc]; rfl) hok.2.2 (.inl ⟨.inl rfl, by rw [hok.2.1]; exact hok.2.2⟩)
    · exact hkeep (by rw [hpc]; rfl) hok.2.2 (.inl ⟨.inl rfl, hok.2.1⟩)
  | sleep hpc =>
    rw [hpc] at hok
    exact hkeep (by rw [hpc]; rfl) hok.2.2 (.inl ⟨.inr rfl, by rw [hok.2.1]; exact hok.2.2⟩)
  | exit hpc =>
    rw [hpc] at hok
    exact hkeep (by rw [hpc]; rfl) hok.2.2.1 (.inr ⟨rfl, hok.2.1⟩)

theorem Inv.incSleep (hi : Inv s) (hpc : s.pc c = .incSleep p g) :
    Inv (((s.setLock g none).setChain p (some (.request p))).switchToScheduler c p .sleep) := by
  have hok := hi.here c
  rw [hpc] at hok
  exact hi.switchToScheduler (u := (s.setLock g none).setChain p (some (.request p)))
    (by rw [hpc]; rfl) (hi.roster.congr rfl rfl rfl) rfl rfl hok.2.2.1
    (setLock_frame (.inr hok.2.2.2) none) rfl rfl rfl rfl rfl (.inl ⟨.inr rfl, hok.2.1⟩)

/-- The process leaves its group, whose lock it has found free. -/
theorem Inv.procOut (hi : Inv s) {k : Pc} (hcp : (s.pc c).myProc = some p) (hp0 : p ≠ initProc)
    (huser : s.kpc p = .user) (hp : s.procGroup p = some g) (hg : s.lock g = none)
    (here : PcOk (s.procOut g p) c k) (hmine : k.myProc = some p) :
    Inv ((s.procOut g p).setPc c k) :=
  hi.of_own c k hcp hp0 (.inl huser) (hi.roster.procOut hp) rfl (fun _ _ => rfl)
    (lock_frame (.inl hg) (fun _ _ => rfl) fun i hig => by simp [State.procOut, hig]) rfl rfl
    (fun q hq => by simp [State.procOut, hq]) rfl here hmine rfl

/-- The process enters group `g`, whose lock it has found free. -/
theorem Inv.procIn (hi : Inv s) {k : Pc} (hcp : (s.pc c).myProc = some p) (hp0 : p ≠ initProc)
    (hp : s.procGroup p = none) (hid : (s.group g).id = some g) (hg : s.lock g = none)
    (here : PcOk (s.procIn g p) c k) (hmine : k.myProc = some p) :
    Inv ((s.procIn g p).setPc c k) :=
  hi.of_own c k hcp hp0 (.inr hp) (hi.roster.procIn hid hp) rfl (fun _ _ => rfl)
    (lock_frame (.inl hg) (fun _ _ => rfl) fun i hig => by simp [State.procIn, hig]) rfl rfl
    (fun q hq => by simp [State.procIn, hq]) rfl here hmine rfl

/-- `create_pgroup`: the process and its CPU cannot leave, and the process is put back. -/
theorem Inv.createKeep (hi : Inv s) (hrun : s.pc c = .run p) (hp0 : p ≠ initProc)
    (huser : s.kpc p = .user) (hcg : s.cpuGroup c = some g) (hg : s.lock g = none) :
    Inv ((s.procOut g p).procIn g p) := by
  obtain ⟨hex, g', hcg', hpg⟩ := hi.at_run hrun
  obtain rfl : g = g' := Option.some.inj (hcg.symm.trans hcg')
  have hid := hi.roster.used g c hcg
  rw [← setPc_self (s := (s.procOut g p).procIn g p) (c := c) (k := .run p) hrun]
  refine hi.of_own c _ (by rw [hrun]; rfl) hp0 (.inl huser)
    ((hi.roster.procOut hpg).procIn (by simpa [State.procOut] using hid) (by simp [State.procOut]))
    rfl (fun _ _ => rfl) (lock_frame (.inl hg) (fun _ _ => rfl) fun i hig => by
      simp [State.procIn, State.procOut, hig]) rfl rfl
    (fun q hq => by simp [State.procIn, State.procOut, hq]) rfl ?_ rfl rfl
  exact ⟨hex, by simp [State.procIn, State.procOut, hcg],
    by simp [State.procIn, State.procOut, hcg]⟩

/-- `create_pgroup`: the process and its CPU leave a group where another CPU stays. -/
theorem Inv.createOut (hi : Inv s) {k : Pc} {l : Option CpuId} (hrun : s.pc c = .run p)
    (hp0 : p ≠ initProc) (huser : s.kpc p = .user) (hcg : s.cpuGroup c = some g)
    (hg : s.lock g = none) (hother : ∃ d, d ≠ c ∧ s.cpuGroup d = some g)
    (here : Executed s p → PcOk (((s.procOut g p).cpuOut g c).setLock g l) c k)
    (hmine : k.myProc = some p) :
    Inv ((((s.procOut g p).cpuOut g c).setLock g l).setPc c k) := by
  obtain ⟨hex, g', hcg', hpg⟩ := hi.at_run hrun
  obtain rfl : g = g' := Option.some.inj (hcg.symm.trans hcg')
  exact hi.of_own c _ (by rw [hrun]; rfl) hp0 (.inl huser)
    (((hi.roster.procOut hpg).cpuOut hcg hother).congr rfl rfl rfl) rfl
    (fun d hd => by simp [State.cpuOut, State.procOut, hd])
    (lock_frame (.inl hg) (fun i hig => by simp [State.cpuOut, State.procOut, hig]) fun i hig => by
      simp [State.cpuOut, State.procOut, hig]) rfl rfl
    (fun q hq => by simp [State.cpuOut, State.procOut, hq]) rfl (here hex) hmine rfl

theorem Inv.createAsk (hi : Inv s) (hrun : s.pc c = .run p) (hp0 : p ≠ initProc)
    (huser : s.kpc p = .user) (hcg : s.cpuGroup c = some defaultPgroupId)
    (hg : s.lock defaultPgroupId = none)
    (hother : ∃ d, d ≠ c ∧ s.cpuGroup d = some defaultPgroupId) :
    Inv ((((s.procOut defaultPgroupId p).cpuOut defaultPgroupId c).setLock defaultPgroupId
      (some c)).setPc c (.createDec p)) :=
  hi.createOut hrun hp0 huser hcg hg hother (fun hex => ⟨hex,
    by simp [State.cpuOut, State.procOut], by simp [State.cpuOut], hp0, by simp⟩) rfl

theorem Inv.createLeave (hi : Inv s) (hrun : s.pc c = .run p) (hp0 : p ≠ initProc)
    (huser : s.kpc p = .user) (hcg : s.cpuGroup c = some g) (hg : s.lock g = none)
    (hother : ∃ d, d ≠ c ∧ s.cpuGroup d = some g) :
    Inv (((s.procOut g p).cpuOut g c).setPc c (.allocScan p 0)) := by
  have hself : ((s.procOut g p).cpuOut g c).setLock g none = (s.procOut g p).cpuOut g c :=
    setLock_self hg
  rw [← hself]
  exact hi.createOut hrun hp0 huser hcg hg hother (fun hex => ⟨hex,
    by simp [State.cpuOut, State.procOut], by simp [State.cpuOut], hp0⟩) rfl

theorem Inv.createLast (hi : Inv s) (hrun : s.pc c = .run p) (hp0 : p ≠ initProc)
    (huser : s.kpc p = .user) (hcg : s.cpuGroup c = some g) (hg : s.lock g = none)
    (hlast : ∀ d, s.cpuGroup d = some g → d = c)
    (hnil : ((s.procOut g p).group g).procs = []) :
    Inv ((((s.procOut g p).cpuOut g c).freed g).setPc c (.allocScan p 0)) := by
  obtain ⟨hex, g', hcg', hpg⟩ := hi.at_run hrun
  obtain rfl : g = g' := Option.some.inj (hcg.symm.trans hcg')
  refine hi.of_own c _ (by rw [hrun]; rfl) hp0 (.inl huser)
    ((hi.roster.procOut hpg).cpuOut_freed hcg hlast hnil) rfl
    (fun d hd => by simp [State.freed, State.cpuOut, State.procOut, hd])
    (lock_frame (.inl hg) (fun _ _ => rfl) fun i hig => by
      simp [State.freed, State.cpuOut, State.procOut, hig]) rfl rfl
    (fun q hq => by simp [State.freed, State.cpuOut, State.procOut, hq]) rfl ?_ rfl rfl
  exact ⟨hex, by simp [State.freed, State.cpuOut, State.procOut],
    by simp [State.freed, State.cpuOut], hp0⟩

theorem Inv.at_createDec (hi : Inv s) (hpc : s.pc c = .createDec p) :
    Executed s p ∧ s.procGroup p = none ∧ s.cpuGroup c = none ∧ p ≠ initProc ∧
      s.lock defaultPgroupId = some c := by
  have := hi.here c
  rwa [hpc] at this

theorem Inv.createGo (hi : Inv s) (hpc : s.pc c = .createDec p) :
    Inv (({ s with freeCpus := s.freeCpus - 1 }.setLock defaultPgroupId none).setPc c
      (.allocScan p 0)) := by
  obtain ⟨hex, hp, hc, hp0, hg⟩ := hi.at_createDec hpc
  exact hi.of_own (u := { s with freeCpus := s.freeCpus - 1 }.setLock defaultPgroupId none) c
    (.allocScan p 0) (by rw [hpc]; rfl) hp0 (.inr hp) (hi.roster.congr rfl rfl rfl) rfl
    (fun _ _ => rfl) (setLock_frame (.inr hg) none) rfl rfl (fun _ _ => rfl) rfl
    ⟨hex, hp, hc, hp0⟩ rfl rfl

/-- `create_pgroup`, no free CPU: the CPU, then the process, back into the default group. -/
theorem Inv.createBack (hi : Inv s) (hpc : s.pc c = .createDec p) :
    Inv ((((s.cpuIn defaultPgroupId c).procIn defaultPgroupId p).setLock defaultPgroupId
      none).setPc c (.run p)) := by
  obtain ⟨hex, hp, hc, hp0, hg⟩ := hi.at_createDec hpc
  have hid := hi.default_id
  have hid' : ((s.cpuIn defaultPgroupId c).group defaultPgroupId).id = some defaultPgroupId := by
    simpa [State.cpuIn] using hid
  refine hi.of_own (u := ((s.cpuIn defaultPgroupId c).procIn defaultPgroupId p).setLock
      defaultPgroupId none) c (.run p) (by rw [hpc]; rfl) hp0 (.inr hp)
    (((hi.roster.cpuIn hid hc).procIn hid' hp).congr rfl rfl rfl)
    rfl (fun d hd => by simp [State.procIn, State.cpuIn, hd])
    (lock_frame (.inr hg) (fun i hig => by simp [State.procIn, State.cpuIn, hig]) fun i hig => by
      simp [State.procIn, State.cpuIn, hig]) rfl rfl
    (fun q hq => by simp [State.procIn, State.cpuIn, hq]) rfl ?_ rfl rfl
  exact ⟨hex, by simp [State.procIn, State.cpuIn], by simp [State.procIn, State.cpuIn]⟩

/-- `alloc_pgroup`: the free slot is taken, with the CPU in it. -/
theorem Inv.allocTake (hi : Inv s) (hpc : s.pc c = .allocScan p g) :
    Inv (((s.claimed g).cpuIn g c).setPc c (.createAdd p g)) := by
  obtain ⟨hex, hp, hc, hp0⟩ : Executed s p ∧ s.procGroup p = none ∧ s.cpuGroup c = none ∧
      p ≠ initProc := by
    have := hi.here c
    rwa [hpc] at this
  refine hi.of_own c _ (by rw [hpc]; rfl) hp0 (.inr hp) (hi.roster.cpuIn_claimed hc) rfl
    (fun d hd => by simp [State.cpuIn, claimed, hd])
    (fun j _ _ hl => ⟨hl, (procs_cpuIn j).trans (procs_claimed j)⟩) rfl rfl (fun _ _ => rfl)
    rfl ?_ rfl rfl
  exact ⟨hex, hp, by simp [State.cpuIn], hp0⟩

theorem Inv.allocNext (hi : Inv s) {i j : ℕ} (hpc : s.pc c = .allocScan p i) :
    Inv (s.setPc c (.allocScan p j)) := by
  have hok := hi.here c
  rw [hpc] at hok
  exact hi.of_goto c _ hok fun q hq => by rw [hpc]; exact hq

/-- The process enters the group its CPU is in: the end of `create_pgroup`, and the way back of
`enter_pgroup`. -/
theorem Inv.rejoin (hi : Inv s) (hpc : (s.pc c).rejoins = some (p, g)) (hg : s.lock g = none) :
    Inv ((s.procIn g p).setPc c (.run p)) := by
  obtain ⟨hcp, hex, hp, hc, hp0⟩ : (s.pc c).myProc = some p ∧ Executed s p ∧
      s.procGroup p = none ∧ s.cpuGroup c = some g ∧ p ≠ initProc := by
    have hok := hi.here c
    cases hk : s.pc c <;> rw [hk] at hok hpc <;> cases hpc
    case createAdd => exact ⟨rfl, hok⟩
    case enterBack => exact ⟨rfl, hok⟩
  exact hi.procIn hcp hp0 hp (hi.roster.used g c hc) hg
    ⟨hex, by simp [State.procIn, hc], by simp [State.procIn, hc]⟩ rfl

theorem Inv.enterLeave (hi : Inv s) {old new : GroupId} (hrun : s.pc c = .run p)
    (hp0 : p ≠ initProc) (huser : s.kpc p = .user) (hcg : s.cpuGroup c = some old)
    (hg : s.lock old = none) : Inv ((s.procOut old p).setPc c (.enterNew p old new)) := by
  obtain ⟨hex, g', hcg', hpg⟩ := hi.at_run hrun
  obtain rfl : old = g' := Option.some.inj (hcg.symm.trans hcg')
  exact hi.procOut (by rw [hrun]; rfl) hp0 huser hpg hg
    ⟨hex, by simp [State.procOut], hcg, hp0⟩ rfl

theorem Inv.enterNew (hi : Inv s) {old new : GroupId} (hpc : s.pc c = .enterNew p old new)
    (hid : (s.group new).id = some new) (hg : s.lock new = none) :
    Inv ((s.procIn new p).setPc c (.yield p)) := by
  obtain ⟨hex, hp, hc, hp0⟩ : Executed s p ∧ s.procGroup p = none ∧ s.cpuGroup c = some old ∧
      p ≠ initProc := by
    have := hi.here c
    rwa [hpc] at this
  exact hi.procIn (by rw [hpc]; rfl) hp0 hp hid hg
    ⟨hex, by simp [State.procIn], by simp [State.procIn, hc]⟩ rfl

theorem Inv.exitLeave (hi : Inv s) (hrun : s.pc c = .run p) (hp0 : p ≠ initProc)
    (huser : s.kpc p = .user) (hcg : s.cpuGroup c = some g) (hg : s.lock g = none) :
    Inv ((s.procOut g p).setPc c (.exitZombie p)) := by
  obtain ⟨hex, g', hcg', hpg⟩ := hi.at_run hrun
  obtain rfl : g = g' := Option.some.inj (hcg.symm.trans hcg')
  exact hi.procOut (by rw [hrun]; rfl) hp0 huser hpg hg
    ⟨hex, by simp [State.procOut], by simp [State.procOut, hcg], hp0⟩ rfl

/-- `dec_pgroup_cpus`: the process stays a member, its CPU goes. -/
theorem Inv.at_decDefault (hi : Inv s) (hrun : s.pc c = .run p) :
    Executed s p ∧ s.procGroup p ≠ none ∧
      ∀ q, (Pc.decDefault p).myProc = some q → (s.pc c).myProc = some q := by
  obtain ⟨hex, g, -, hpg⟩ := hi.at_run hrun
  exact ⟨hex, by rw [hpg]; simp, fun q hq => by rw [hrun]; exact hq⟩

/-! ### CPU requests -/

/-- A continuation that forks no one: the process's own field, and no other, is rewritten. -/
theorem Inv.setKpc {u : State} (hi : Inv s) {k : KPc} (hgroup : u.group = s.group)
    (hlock : u.lock = s.lock) (hpc : u.pc = s.pc) (hcpu : u.cpuGroup = s.cpuGroup)
    (hp : u.procGroup = s.procGroup) (hst : u.status = s.status) (hins : u.inserted = s.inserted)
    (hk : u.kpc = s.kpc) (box : u.umBox.WellFormed) (mail : ∀ m ∈ u.umBox.requests, m.Proper)
    (hok : KpcOk s p k) (hchild : k.child = none) : Inv (u.setKpc p k) := by
  refine hi.of_env (u := u.setKpc p k) (hi.roster.congr hgroup hcpu hp) hpc hcpu
    (fun g d h => ⟨by rw [← h]; exact congrFun hlock g, by rw [State.setKpc, hgroup]⟩)
    (fun q _ => ⟨congrFun hst q, congrFun hins q, congrFun hp q⟩)
    (fun q => (hi.proc q).congr (congrFun hst q) (congrFun hins q) (congrFun hp q))
    (fun q => ?_) (fun q q' r hq hq' => ?_) box mail (by rw [State.setKpc, hp]; exact hi.init)
  · by_cases hqp : q = p
    · subst hqp
      simp only [State.setKpc, Function.update_self]
      exact hok.congr (congrFun hp q) fun r _ => ⟨congrFun hst r, congrFun hins r⟩
    · simp only [State.setKpc, Function.update_of_ne hqp, hk]
      exact (hi.kpc q).congr (congrFun hp q) fun r _ => ⟨congrFun hst r, congrFun hins r⟩
  · have hne : ∀ a, ((u.setKpc p k).kpc a).child = some r → a ≠ p ∧ (s.kpc a).child = some r := by
      intro a ha
      by_cases hap : a = p
      · subst hap
        simp only [State.setKpc, Function.update_self, hchild] at ha
        cases ha
      · simp only [State.setKpc, Function.update_of_ne hap, hk] at ha
        exact ⟨hap, ha⟩
    exact hi.child q q' r (hne q hq).2 (hne q' hq').2

/-- A box with room stays a box of proper requests. -/
theorem Inv.send (hi : Inv s) {m : CpuMessage} (hm : m.Proper)
    (hroom : s.umBox.boxFull = false) :
    (s.umBox.send m).WellFormed ∧ (s.umBox.send m).requests = s.umBox.requests ++ [m] ∧
      ∀ m' ∈ (s.umBox.send m).requests, m'.Proper := by
  have hlt : s.umBox.requests.length < cpuMessageBoxSize :=
    lt_of_le_of_ne (by rw [UmBox.length_requests]; exact hi.box.fits)
      fun h => by simp [s.umBox.boxFull_iff.mpr h] at hroom
  refine ⟨UmBox.wellFormed_send hi.box hlt m, UmBox.requests_send hi.box hlt m, fun m' hm' => ?_⟩
  rw [UmBox.requests_send hi.box hlt, List.mem_append, List.mem_singleton] at hm'
  rcases hm' with hm' | rfl
  · exact hi.mail m' hm'
  · exact hm

theorem Inv.sendWait (hi : Inv s) {m : CpuMessage} (hrun : s.pc c = .run p) (hm : m.Proper)
    (hroom : s.umBox.boxFull = false) (hg : s.lock g = none) :
    Inv ((({ s with umBox := s.umBox.send m, sent := s.sent ++ [m] }.setLock g
      (some c)).setKpc p .user).setPc c (.incSleep p g)) := by
  obtain ⟨hex, g', hcg, hpg⟩ := hi.at_run hrun
  obtain ⟨hbox, -, hmail⟩ := hi.send hm hroom
  have hi' : Inv (s.setKpc p .user) :=
    hi.setKpc rfl rfl rfl rfl rfl rfl rfl rfl hi.box hi.mail trivial rfl
  exact hi'.of_sched c (.incSleep p g) (hi.roster.congr rfl rfl rfl) rfl (fun _ _ => rfl)
    (setLock_frame (.inl hg) (some c)) rfl rfl rfl rfl
    ⟨hex, by simp [hpg], by simp [hcg], by simp⟩
    (fun q hq => by rw [State.setKpc, hrun]; exact hq) hbox hmail

/-! ### The fork and the reaping of a process

Only the child `q` and the parent's continuation change; `q` is executed by no CPU. -/

/-- A process no CPU executes gets new fields, and one continuation is rewritten. -/
theorem Inv.ofChild {u : State} (hi : Inv s) {k : KPc} (hroster : Roster u) (hpc : u.pc = s.pc)
    (hcpu : u.cpuGroup = s.cpuGroup)
    (hlock : ∀ g d, s.lock g = some d →
      u.lock g = some d ∧ (u.group g).procs = (s.group g).procs)
    (hq : s.status q ≠ .running) (hq0 : q ≠ initProc)
    (hst : ∀ r ≠ q, u.status r = s.status r) (hins : ∀ r ≠ q, u.inserted r = s.inserted r)
    (hp : ∀ r ≠ q, u.procGroup r = s.procGroup r) (hk : u.kpc = Function.update s.kpc p k)
    (hproc : ProcOk u q) (hnone : ∀ r ≠ p, (s.kpc r).child ≠ some q)
    (hchild : k.child = some q ∨ k.child = none) (hkp : KpcOk u p k)
    (hkq : q ≠ p → KpcOk u q (s.kpc q)) (hbox : u.umBox = s.umBox) : Inv u := by
  have hself : u.kpc p = k := by rw [hk, Function.update_self]
  have hne : ∀ r ≠ p, u.kpc r = s.kpc r := fun r hr => by rw [hk, Function.update_of_ne hr]
  refine hi.of_env hroster hpc hcpu hlock (fun r hr => ?_) (fun r => ?_) (fun r => ?_)
    (fun a b r ha hb => ?_) (by rw [hbox]; exact hi.box) (by rw [hbox]; exact hi.mail)
    (by rw [hp _ hq0.symm]; exact hi.init)
  · have hrq : r ≠ q := by
      rintro rfl
      exact hq hr
    exact ⟨hst r hrq, hins r hrq, hp r hrq⟩
  · by_cases hrq : r = q
    · subst hrq; exact hproc
    · exact (hi.proc r).congr (hst r hrq) (hins r hrq) (hp r hrq)
  · by_cases hrp : r = p
    · subst hrp; rw [hself]; exact hkp
    · rw [hne r hrp]
      by_cases hrq : r = q
      · subst hrq; exact hkq hrp
      · refine (hi.kpc r).congr (hp r hrq) fun a ha => ?_
        have haq : a ≠ q := by
          rintro rfl
          exact hnone r hrp ha
        exact ⟨hst a haq, hins a haq⟩
  · -- two parents of one child: both old, or the new one, whose child nobody else has
    have hold : ∀ x ≠ p, (u.kpc x).child = some r → r ≠ q := by
      rintro x hx hxr rfl
      rw [hne x hx] at hxr
      exact hnone x hx hxr
    have hnew : (u.kpc p).child = some r → r = q := by
      intro h
      rw [hself] at h
      rcases hchild with hc | hc <;> rw [hc] at h <;> cases h
      rfl
    by_cases hap : a = p <;> by_cases hbp : b = p
    · rw [hap, hbp]
    · subst hap
      exact (hold b hbp hb (hnew ha)).elim
    · subst hbp
      exact (hold a hap ha (hnew hb)).elim
    · rw [hne a hap] at ha
      rw [hne b hbp] at hb
      exact hi.child a b r ha hb

/-- A slot in no group is not init's. -/
theorem Inv.ne_init (hi : Inv s) (hq : s.procGroup q = none) : q ≠ initProc := by
  rintro rfl
  rw [hi.init] at hq
  cases hq

theorem Inv.forkAlloc (hi : Inv s) (hst : s.status q = .unused) :
    Inv ((s.setStatus q .used).setKpc p (.forkAlloc q)) := by
  have hins := (hi.proc q).fresh (.inl hst)
  have hout := (hi.proc q).out hins
  have hnone : ∀ r, (s.kpc r).child ≠ some q := by
    intro r hr
    have hk := hi.kpc r
    cases hkr : s.kpc r <;> rw [hkr] at hk hr <;> cases hr <;> simp [KpcOk, hst] at hk
  refine hi.ofChild (p := p) (q := q) (k := .forkAlloc q) (hi.roster.congr rfl rfl rfl) rfl rfl
    (fun _ _ h => ⟨h, rfl⟩) (by simp [hst]) (hi.ne_init hout) (fun r hr => by simp [hr])
    (fun _ _ => rfl) (fun _ _ => rfl) rfl ?_ (fun r _ => hnone r) (.inl rfl)
    ⟨by simp, hins⟩ (fun _ => ?_) rfl
  · constructor <;> simp [hins, hout]
  · have hk := hi.kpc q
    refine hk.congr rfl fun r hr => ⟨?_, rfl⟩
    have hrq : r ≠ q := by
      rintro rfl
      exact hnone r hr
    simp [hrq]

/-- The child becomes `RUNABLE`, still in no group. -/
theorem Inv.forkRunable (hi : Inv s) (hk : s.kpc p = .forkAlloc q) :
    Inv ((s.setStatus q .runable).setKpc p (.forkInsert q)) := by
  obtain ⟨hst, hins⟩ : s.status q = .used ∧ s.inserted q = false := by
    have := hi.kpc p
    rwa [hk] at this
  have hout := (hi.proc q).out hins
  have hnone : ∀ r ≠ p, (s.kpc r).child ≠ some q := fun r hr h =>
    hr (hi.child r p q h (by rw [hk]; rfl))
  refine hi.ofChild (p := p) (q := q) (k := .forkInsert q) (hi.roster.congr rfl rfl rfl) rfl rfl
    (fun _ _ h => ⟨h, rfl⟩) (by simp [hst]) (hi.ne_init hout) (fun r hr => by simp [hr])
    (fun _ _ => rfl) (fun _ _ => rfl) rfl ?_ hnone (.inl rfl) ⟨by simp, hins⟩ (fun hqp => ?_) rfl
  · constructor <;> simp [hins, hout]
  · refine (hi.kpc q).congr rfl fun r hr => ⟨?_, rfl⟩
    have hrq : r ≠ q := by
      rintro rfl
      exact hnone r hqp hr
    simp [hrq]

/-- `forkproc_into_pgroup`: the child enters its parent's group. -/
theorem Inv.forkInsert (hi : Inv s) (hk : s.kpc p = .forkInsert q)
    (hid : (s.group g).id = some g) (hg : s.lock g = none) :
    Inv (((s.procIn g q).setInserted q true).setKpc p .user) := by
  obtain ⟨hst, hins⟩ : s.status q = .runable ∧ s.inserted q = false := by
    have := hi.kpc p
    rwa [hk] at this
  have hout := (hi.proc q).out hins
  have hnone : ∀ r ≠ p, (s.kpc r).child ≠ some q := fun r hr h =>
    hr (hi.child r p q h (by rw [hk]; rfl))
  refine hi.ofChild (p := p) (q := q) (k := .user)
    ((hi.roster.procIn hid hout).congr rfl rfl rfl) rfl rfl (fun i d hd => ?_) (by simp [hst])
    (hi.ne_init hout) (fun _ _ => rfl) (fun r hr => by simp [State.procIn, hr])
    (fun r hr => by simp [State.procIn, hr]) rfl ?_ hnone (.inr rfl) trivial (fun hqp => ?_) rfl
  · have hig : i ≠ g := by
      rintro rfl
      rw [hg] at hd
      cases hd
    exact ⟨hd, by simp [State.procIn, hig]⟩
  · constructor <;> simp [State.procIn, hst]
  · refine (hi.kpc q).of_none hout fun r hr => ?_
    have hrq : r ≠ q := by
      rintro rfl
      exact hnone r hqp hr
    exact ⟨rfl, by simp [State.procIn, hrq]⟩

/-- `free_process` on a slot no CPU executes and no group holds. -/
theorem Inv.freeProcess (hi : Inv s) {k : KPc} (hq : s.status q ≠ .running)
    (hout : s.procGroup q = none) (hnone : ∀ r ≠ p, (s.kpc r).child ≠ some q)
    (hk : k = s.kpc p ∧ k.child ≠ some q ∨ k = .user) :
    Inv ((s.freeProcess q).setKpc p k) := by
  have hgroup : ((s.freeProcess q).setKpc p k).procGroup = s.procGroup := by
    change Function.update s.procGroup q none = s.procGroup
    rw [← hout, Function.update_eq_self]
  have hown : ∀ r, (s.kpc r).child ≠ some q →
      KpcOk ((s.freeProcess q).setKpc p k) r (s.kpc r) := fun r hr => by
    refine (hi.kpc r).congr (congrFun hgroup r) fun a ha => ?_
    have haq : a ≠ q := by
      rintro rfl
      exact hr ha
    simp [State.freeProcess, haq]
  have hproc : ProcOk ((s.freeProcess q).setKpc p k) q := by
    constructor <;> simp [State.freeProcess]
  rcases hk with ⟨rfl, hkq⟩ | rfl
  · have hnone' : ∀ r, (s.kpc r).child ≠ some q := fun r => by
      by_cases hr : r = p
      · subst hr; exact hkq
      · exact hnone r hr
    refine hi.of_env (hi.roster.congr rfl rfl hgroup) rfl rfl (fun _ _ h => ⟨h, rfl⟩)
      (fun r hr => ?_) (fun r => ?_) (fun r => ?_) ?_ hi.box hi.mail
      ((congrFun hgroup _).trans hi.init)
    · have hrq : r ≠ q := fun h => hq (h ▸ hr)
      simp [State.freeProcess, hrq]
    · by_cases hrq : r = q
      · subst hrq; exact hproc
      · exact (hi.proc r).congr (by simp [State.freeProcess, hrq])
          (by simp [State.freeProcess, hrq]) (by simp [State.freeProcess, hrq])
    · have hkr : ((s.freeProcess q).setKpc p (s.kpc p)).kpc r = s.kpc r := by
        simp [State.freeProcess]
      rw [hkr]
      exact hown r (hnone' r)
    · simpa [State.freeProcess] using hi.child
  · exact hi.ofChild (p := p) (q := q) (k := .user) (hi.roster.congr rfl rfl hgroup) rfl rfl
      (fun _ _ h => ⟨h, rfl⟩) hq (hi.ne_init hout) (fun r hr => by simp [State.freeProcess, hr])
      (fun r hr => by simp [State.freeProcess, hr]) (fun r hr => by simp [State.freeProcess, hr])
      rfl hproc hnone (.inr rfl) trivial (fun hqp => hown q (hnone q hqp)) rfl

theorem Inv.forkFail (hi : Inv s) (hk : s.kpc p = .forkAlloc q) :
    Inv ((s.freeProcess q).setKpc p .user) := by
  obtain ⟨hst, hins⟩ : s.status q = .used ∧ s.inserted q = false := by
    have := hi.kpc p
    rwa [hk] at this
  refine hi.freeProcess (by simp [hst]) ((hi.proc q).out hins) (fun r hr hc => ?_) (.inr rfl)
  exact hr (hi.child r p q hc (by rw [hk]; rfl))

theorem Inv.reap (hi : Inv s) (hst : s.status q = .zombie) : Inv (s.freeProcess q) := by
  have hins := (hi.proc q).was (.inr (.inr hst))
  have hnone : ∀ r, (s.kpc r).child ≠ some q := fun r hr => by
    simp [hi.child_not_inserted hr] at hins
  have hself : (s.freeProcess q).setKpc initProc (s.kpc initProc) = s.freeProcess q := by
    simp [State.freeProcess]
  rw [← hself]
  exact hi.freeProcess (by simp [hst]) ((hi.proc q).gone hst) (fun r _ => hnone r)
    (.inl ⟨rfl, hnone _⟩)

theorem Inv.wake (hi : Inv s) (hst : s.status q = .sleep) :
    Inv ((s.setStatus q .runable).setChain q none) := by
  have hins := (hi.proc q).was (.inr (.inl hst))
  have hmem := (hi.proc q).mem hins (.inr hst)
  refine hi.of_env (hi.roster.congr rfl rfl rfl) rfl rfl (fun _ _ h => ⟨h, rfl⟩)
    (fun r hr => ?_) (fun r => ?_) (fun r => ?_) hi.child hi.box hi.mail hi.init
  · have hrq : r ≠ q := by
      rintro rfl
      rw [hst] at hr
      cases hr
    simp [hrq]
  · by_cases hrq : r = q
    · subst hrq
      constructor <;> simp [hins, hmem]
    · exact (hi.proc r).congr (by simp [hrq]) rfl rfl
  · refine (hi.kpc r).congr rfl fun a ha => ?_
    have haq : a ≠ q := by
      rintro rfl
      simp [hi.child_not_inserted ha] at hins
    simp [haq]

theorem Inv.occupied (hi : Inv s) (hid : (s.group g).id = some g) (b : Bool) :
    Inv (s.occupied g b) :=
  hi.of_env (hi.roster.occupied hid b) rfl rfl (fun _ _ h => ⟨h, procs_occupied b _⟩)
    (fun _ _ => ⟨rfl, rfl, rfl⟩) (fun q => (hi.proc q).congr rfl rfl rfl)
    (fun p => (hi.kpc p).congr rfl fun _ _ => ⟨rfl, rfl⟩) hi.child hi.box hi.mail hi.init

/-! ## Every step -/

/-- A CPU that stops, having taken a lock it found free or none at all. -/
theorem Inv.stop_lock (hi : Inv s) {l : Option CpuId}
    (hl : s.lock g = l ∨ s.lock g = none ∧ l = some c) (e : Panic) :
    Inv ((s.setLock g l).stop c e) := by
  rcases hl with rfl | ⟨hg, rfl⟩
  · rw [setLock_self rfl]
    exact hi.stop e
  · exact hi.stop_locked hg e

/-- **Every effect keeps the invariant.** -/
theorem Inv.of_effect (hi : Inv s) {a : Act} (h : Effect s a t) : Inv t := by
  cases h with
  | idle => exact hi
  | goto c k hgo hok _ =>
    refine hi.of_goto c k hok fun p hp => ?_
    cases hk : s.pc c <;> rw [hk] at hgo <;> cases hgo <;> cases hp
    rfl
  | enterDefault c k hk hg => exact hi.enterDefault hk hg
  | count c k hk _ => exact hi.count hk
  | negative c _ => exact hi.stop _
  | refused c g e hg _ => exact hi.stop_locked hg e
  | take c hpc hne => exact hi.take hpc hne
  | tooMany c m _ hg _ => exact hi.stop_locked hg _
  | acquireLeave c m hpc _ hother =>
    have hok := hi.here c
    rw [hpc] at hok
    exact hi.cpuOut hok.1 hother ⟨by simp [State.cpuOut], hok.2⟩ fun _ hp => by cases hp
  | acquireEnter c m hpc hg hid _ =>
    have hok := hi.here c
    rw [hpc] at hok
    exact hi.cpuIn hid hok.1 hg ⟨by simp [State.cpuIn], by simp⟩ fun _ hp => by cases hp
  | acquireEnterFlex c m hpc hg hid _ =>
    have hok := hi.here c
    rw [hpc] at hok
    exact hi.cpuIn_unlocked hid hok.1 hg (by simp [PcOk, State.cpuIn]) fun _ hp => by cases hp
  | acquireWake c m hpc => exact hi.acquireWake hpc
  | acquireBack c hpc hg =>
    have hok := hi.here c
    rw [hpc] at hok
    exact hi.cpuIn hi.default_id hok hg ⟨by simp [State.cpuIn], by simp⟩ fun _ hp => by cases hp
  | acquireBackCount c hpc _ =>
    have hok := hi.here c
    rw [hpc] at hok
    exact hi.of_sched
      (u := { s with freeCpus := s.freeCpus + 1 }.setLock defaultPgroupId none) c .schedRun
      (hi.roster.congr rfl rfl rfl) rfl (fun _ _ => rfl) (setLock_frame (.inr hok.2) none) rfl rfl
      rfl rfl (by simp [PcOk, hok.1]) (fun _ hp => by cases hp) hi.box hi.mail
  | leave c g _ hc _ hother =>
    exact hi.cpuOut hc hother (by simp [PcOk, State.cpuOut]) fun _ hp => by cases hp
  | leaveLast c g _ hc _ hlast hprocs =>
    exact hi.cpuOut_freed hc hlast hprocs (by simp [PcOk, State.freed, State.cpuOut])
      fun _ hp => by cases hp
  | lockGroup c g _ hc hg =>
    exact hi.of_sched c _ (hi.roster.congr rfl rfl rfl) rfl (fun _ _ => rfl)
      (setLock_frame (.inl hg) _) rfl rfl rfl rfl ⟨hc, by simp, fun _ hq => hq⟩
      (fun _ hp => by cases hp) hi.box hi.mail
  | dispatchNone c g hpc =>
    have hok := hi.here c
    rw [hpc] at hok
    exact hi.of_sched c .sched (hi.roster.congr rfl rfl rfl) rfl (fun _ _ => rfl)
      (setLock_frame (.inr hok.2.1) none) rfl rfl rfl rfl (by simp [PcOk, hok.1])
      (fun _ hp => by cases hp) hi.box hi.mail
  | dispatch c g q rest hpc hst => exact hi.dispatch hpc hst
  | switchOut c p st ch h => exact hi.switchOut h
  | incSleep c p g hpc => exact hi.incSleep hpc
  | createKeep c p g hpc hp0 huser hc hg _ _ => exact hi.createKeep hpc hp0 huser hc hg
  | createAsk c p hpc hp0 huser hc hg hother => exact hi.createAsk hpc hp0 huser hc hg hother
  | createLeave c p g hpc hp0 huser hc hg _ hother =>
    exact hi.createLeave hpc hp0 huser hc hg hother
  | createLast c p g hpc hp0 huser hc hg _ hlast hprocs =>
    exact hi.createLast hpc hp0 huser hc hg hlast hprocs
  | createGo c p hpc _ => exact hi.createGo hpc
  | createBack c p hpc _ => exact hi.createBack hpc
  | allocTake c p g hpc _ => exact hi.allocTake hpc
  | allocNext c p g hpc _ => exact hi.allocNext hpc
  | noSlot c p i _ _ => exact hi.stop _
  | rejoin c p g hpc hg => exact hi.rejoin hpc hg
  | enterLeave c p old new hpc hp0 huser hc hg _ => exact hi.enterLeave hpc hp0 huser hc hg
  | enterNew c p old new hpc hid hg => exact hi.enterNew hpc hid hg
  | exitLeave c p g hpc hp0 huser hc hg => exact hi.exitLeave hpc hp0 huser hc hg
  | decLeave c p g hpc hc _ hother =>
    obtain ⟨hex, hp, hmine⟩ := hi.at_decDefault hpc
    exact hi.cpuOut hc hother ⟨hex, hp, by simp [State.cpuOut]⟩ hmine
  | decLast c p g hpc hc _ hlast hprocs =>
    obtain ⟨hex, hp, hmine⟩ := hi.at_decDefault hpc
    exact hi.cpuOut_freed hc hlast hprocs ⟨hex, hp, by simp [freed, State.cpuOut]⟩ hmine
  | occupy _ _ g b hid => exact hi.occupied hid b
  | ask p ty _ hty hp =>
    exact hi.setKpc rfl rfl rfl rfl rfl rfl rfl rfl hi.box hi.mail ⟨hp.1, hp.2, hty⟩ rfl
  | askNone p ty _ =>
    exact hi.setKpc rfl rfl rfl rfl rfl rfl rfl rfl hi.box hi.mail trivial rfl
  | reserve p ty hk _ =>
    have hok := hi.kpc p
    rw [hk] at hok
    exact hi.setKpc (u := { s with freeCpus := s.freeCpus - 1 }) rfl rfl rfl rfl rfl rfl rfl rfl
      hi.box hi.mail hok rfl
  | boxFull c p ty _ _ _ g l hl => exact hi.stop_lock hl _
  | sendWait c p g m hpc _ hm hroom hg _ _ => exact hi.sendWait hpc hm hroom hg
  | sendFlex _ p m _ _ hm hroom _ _ =>
    obtain ⟨hbox, -, hmail⟩ := hi.send hm hroom
    exact hi.setKpc (u := { s with umBox := _, sent := _ }) rfl rfl rfl rfl rfl rfl rfl rfl hbox
      hmail trivial rfl
  | forkAlloc p q _ hst => exact hi.forkAlloc hst
  | forkRunable p q hk => exact hi.forkRunable hk
  | forkInsert p q g hk hid hg _ => exact hi.forkInsert hk hid hg
  | forkFail p q hk => exact hi.forkFail hk
  | wake q hst => exact hi.wake hst
  | reap q hst => exact hi.reap hst

/-- Every step keeps the invariant. -/
theorem Inv.step {a : Act} (hi : Inv s) (h : step s a = some t) : Inv t :=
  hi.of_effect (hi.effect h)

theorem Inv.boot : Inv boot := by
  refine ⟨⟨?_, ?_, ?_, ?_, ?_⟩, ?_, ?_, fun q => ⟨?_, ?_, ?_, ?_, ?_⟩, fun _ => trivial, ?_,
    ⟨rfl, by decide⟩, ?_, rfl⟩
  · decide
  · decide
  · intro g hg
    have hne : g ≠ defaultPgroupId := by
      rintro rfl
      exact hg 0 rfl
    simp [Pgroup.boot, hne, emptyGroup]
  · intro g q
    by_cases hg : g = defaultPgroupId <;> by_cases hq : q = initProc <;>
      simp [Pgroup.boot, hg, hq, emptyGroup, Ne.symm]
  · intro g
    by_cases hg : g = defaultPgroupId <;> simp [Pgroup.boot, hg, emptyGroup]
  · intro c
    by_cases hc : c = 0 <;> simp [Pgroup.boot, hc, PcOk]
  · intro c d p hc
    by_cases h : c = 0 <;> simp [Pgroup.boot, h, Pc.myProc] at hc
  all_goals try (by_cases hq : q = initProc <;> simp [Pgroup.boot, hq])
  · intro p p' q hp
    cases hp
  · intro m hm
    simp [Pgroup.boot, UmBox.requests] at hm

/-- **The invariant holds in every reachable state.** -/
theorem Reachable.inv (h : Reachable s) : Inv s :=
  h.invariant Inv.boot fun _ _ _ hi _ hs => hi.step hs

end Pgroup
