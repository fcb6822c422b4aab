import Myv6.Pgroup.Inv

/-!
# Pgroup/Effect — what one step can do

`Effect s a t` lists the outcomes of every section once, with the guard that leads to each and the
state it leaves, written with the moves of `Pgroup/Roster`.  `Inv.effect` reads it off the sections;
afterwards an invariant is a case analysis of `Effect`, and no proof opens a section again.
-/

namespace Pgroup

open State

variable {s t : State} {a : Act} {g : GroupId} {c d : CpuId} {p q : ProcId}

/-- Where a CPU goes once it is in the default group. -/
def Pc.afterDefault : Pc → Option Pc
  | .boot => some .bootCount
  | .leaveDefault g => some (.leaveCount g)
  | .decDefault p => some (.decCount p)
  | _ => none

/-- Where a CPU goes once it is counted free. -/
def Pc.afterCount : Pc → Option Pc
  | .bootCount => some .sched
  | .leaveCount g => some (.leaveRelock g)
  | .decCount p => some (.yield p)
  | _ => none

/-- Sections that change nothing but the CPU's own position. -/
inductive Goto : Pc → Pc → Prop
  | look : Goto .sched .acquireGet
  | skip : Goto .sched .schedRun
  | noMessage : Goto .acquireGet .schedRun
  | gone (m : CpuMessage) (hm : m.type = .needCpuFlex) : Goto (.acquireEnter m) .acquireBack
  | relock (g : GroupId) : Goto (.leaveRelock g) .sched
  | next (g : GroupId) (q : ProcId) (rest : List ProcId) :
      Goto (.dispatch g (q :: rest)) (.dispatch g rest)
  | back (p : ProcId) (old new : GroupId) : Goto (.enterNew p old new) (.enterBack p old)

/-- Where a process goes back into the group its CPU is in. -/
def Pc.rejoins : Pc → Option (ProcId × GroupId)
  | .createAdd p g | .enterBack p g => some (p, g)
  | _ => none

/-- The panics a run can reach: a request of a group that is gone, a fork into an occupied group,
the release of a group that is not occupied alone. -/
inductive Refusal (s : State) (c : CpuId) : GroupId → Panic → Prop
  | noGroup (m : CpuMessage) (hpc : s.pc c = .acquireEnter m) (hid : (s.group m.group).id = none)
      (htype : m.type = .needCpu) : Refusal s c m.group .emptyGroupAcquire
  | noFork (p q : ProcId) (g : GroupId) (hpc : s.pc c = .run p) (hk : s.kpc p = .forkInsert q)
      (hex : (s.group g).exclusivelyOccupy = true) : Refusal s c g .forkIntoGroup
  | noRelease (p : ProcId) (g : GroupId) (hpc : s.pc c = .run p) : Refusal s c g .occupyFail

/-- A process leaves its CPU with a status and a chain. -/
inductive SwitchOut (s : State) (c : CpuId) (p : ProcId) : Status → Option Chain → Prop
  | preempt (hpc : s.pc c = .run p ∨ s.pc c = .yield p) : SwitchOut s c p .runable (s.chain p)
  | sleep (hpc : s.pc c = .run p) : SwitchOut s c p .sleep (some .other)
  | exit (hpc : s.pc c = .exitZombie p) : SwitchOut s c p .zombie (s.chain p)

/-- **What one step can do.** -/
inductive Effect (s : State) : Act → State → Prop
  /-- Nothing: a call refused, a test that fails. -/
  | idle {a : Act} : Effect s a s
  | goto (c : CpuId) (k : Pc) (hgo : Goto (s.pc c) k) (hok : PcOk s c k)
      (hskip : ∀ g q rest, s.pc c = .dispatch g (q :: rest) → s.status q ≠ .runable) :
      Effect s (.cpu c) (s.setPc c k)
  | enterDefault (c : CpuId) (k : Pc) (hk : (s.pc c).afterDefault = some k)
      (hg : s.lock defaultPgroupId = none) :
      Effect s (.cpu c) ((s.cpuIn defaultPgroupId c).setPc c k)
  | count (c : CpuId) (k : Pc) (hk : (s.pc c).afterCount = some k) (hfree : 0 ≤ s.freeCpus) :
      Effect s (.cpu c) ({ s with freeCpus := s.freeCpus + 1 }.setPc c k)
  | negative (c : CpuId) (hfree : s.freeCpus < 0) : Effect s (.cpu c) (s.stop c .freeCpusNegative)
  | refused {a : Act} (c : CpuId) (g : GroupId) (e : Panic) (hg : s.lock g = none)
      (he : Refusal s c g e) : Effect s a ((s.setLock g (some c)).stop c e)
  -- the scheduler's side
  | take (c : CpuId) (hpc : s.pc c = .acquireGet) (hne : s.umBox.requests ≠ []) :
      Effect s (.cpu c)
        ({ s with umBox := s.umBox.get.2, taken := s.taken ++ [(c, s.umBox.get.1)] }.setPc c
          (.acquireLeave s.umBox.get.1))
  | tooMany (c : CpuId) (m : CpuMessage) (hpc : s.pc c = .acquireLeave m)
      (hg : s.lock defaultPgroupId = none)
      (hcount : pgroupCpuCountUnsafe (s.group defaultPgroupId) = 1) :
      Effect s (.cpu c) ((s.setLock defaultPgroupId (some c)).stop c .tooManyAllocated)
  | acquireLeave (c : CpuId) (m : CpuMessage) (hpc : s.pc c = .acquireLeave m)
      (hg : s.lock defaultPgroupId = none)
      (hother : ∃ d, d ≠ c ∧ s.cpuGroup d = some defaultPgroupId) :
      Effect s (.cpu c) ((s.cpuOut defaultPgroupId c).setPc c (.acquireEnter m))
  | acquireEnter (c : CpuId) (m : CpuMessage) (hpc : s.pc c = .acquireEnter m)
      (hg : s.lock m.group = none) (hid : (s.group m.group).id = some m.group)
      (htype : m.type = .needCpu) :
      Effect s (.cpu c) (((s.cpuIn m.group c).setLock m.group (some c)).setPc c (.acquireWake m))
  | acquireEnterFlex (c : CpuId) (m : CpuMessage) (hpc : s.pc c = .acquireEnter m)
      (hg : s.lock m.group = none) (hid : (s.group m.group).id = some m.group)
      (htype : m.type ≠ .needCpu) : Effect s (.cpu c) ((s.cpuIn m.group c).setPc c .schedRun)
  | acquireWake (c : CpuId) (m : CpuMessage) (hpc : s.pc c = .acquireWake m) :
      Effect s (.cpu c) (((s.wakeUp m.chain).setLock m.group none).setPc c .schedRun)
  | acquireBack (c : CpuId) (hpc : s.pc c = .acquireBack) (hg : s.lock defaultPgroupId = none) :
      Effect s (.cpu c) (((s.cpuIn defaultPgroupId c).setLock defaultPgroupId (some c)).setPc c
        .acquireBackCount)
  | acquireBackCount (c : CpuId) (hpc : s.pc c = .acquireBackCount) (hfree : 0 ≤ s.freeCpus) :
      Effect s (.cpu c)
        (({ s with freeCpus := s.freeCpus + 1 }.setLock defaultPgroupId none).setPc c .schedRun)
  | leave (c : CpuId) (g : GroupId) (hpc : s.pc c = .schedRun) (hc : s.cpuGroup c = some g)
      (hgd : g ≠ defaultPgroupId) (hother : ∃ d, d ≠ c ∧ s.cpuGroup d = some g) :
      Effect s (.cpu c) ((s.cpuOut g c).setPc c (.leaveDefault g))
  | leaveLast (c : CpuId) (g : GroupId) (hpc : s.pc c = .schedRun) (hc : s.cpuGroup c = some g)
      (hgd : g ≠ defaultPgroupId) (hlast : ∀ d, s.cpuGroup d = some g → d = c)
      (hprocs : (s.group g).procs = []) :
      Effect s (.cpu c) (((s.cpuOut g c).freed g).setPc c (.leaveDefault g))
  | lockGroup (c : CpuId) (g : GroupId) (hpc : s.pc c = .schedRun) (hc : s.cpuGroup c = some g)
      (hg : s.lock g = none) :
      Effect s (.cpu c) ((s.setLock g (some c)).setPc c (.dispatch g (s.group g).procs))
  | dispatchNone (c : CpuId) (g : GroupId) (hpc : s.pc c = .dispatch g []) :
      Effect s (.cpu c) ((s.setLock g none).setPc c .sched)
  | dispatch (c : CpuId) (g : GroupId) (q : ProcId) (rest : List ProcId)
      (hpc : s.pc c = .dispatch g (q :: rest)) (hst : s.status q = .runable) :
      Effect s (.cpu c)
        ((((s.procMoveToTail g q).setLock g none).setStatus q .running).setPc c (.run q))
  -- the process's side
  | switchOut {a : Act} (c : CpuId) (p : ProcId) (st : Status) (ch : Option Chain)
      (h : SwitchOut s c p st ch) : Effect s a ((s.setChain p ch).switchToScheduler c p st)
  | incSleep (c : CpuId) (p : ProcId) (g : GroupId) (hpc : s.pc c = .incSleep p g) :
      Effect s (.cpu c)
        (((s.setLock g none).setChain p (some (.request p))).switchToScheduler c p .sleep)
  | createKeep (c : CpuId) (p : ProcId) (g : GroupId) (hpc : s.pc c = .run p) (hp0 : p ≠ initProc)
      (huser : s.kpc p = .user) (hc : s.cpuGroup c = some g) (hg : s.lock g = none)
      (hlast : ∀ d, s.cpuGroup d = some g → d = c)
      (hprocs : ((s.procOut g p).group g).procs ≠ []) :
      Effect s (.call c .createPgroup) ((s.procOut g p).procIn g p)
  | createAsk (c : CpuId) (p : ProcId) (hpc : s.pc c = .run p) (hp0 : p ≠ initProc)
      (huser : s.kpc p = .user) (hc : s.cpuGroup c = some defaultPgroupId)
      (hg : s.lock defaultPgroupId = none)
      (hother : ∃ d, d ≠ c ∧ s.cpuGroup d = some defaultPgroupId) :
      Effect s (.call c .createPgroup) ((((s.procOut defaultPgroupId p).cpuOut defaultPgroupId
        c).setLock defaultPgroupId (some c)).setPc c (.createDec p))
  | createLeave (c : CpuId) (p : ProcId) (g : GroupId) (hpc : s.pc c = .run p)
      (hp0 : p ≠ initProc) (huser : s.kpc p = .user) (hc : s.cpuGroup c = some g)
      (hg : s.lock g = none) (hgd : g ≠ defaultPgroupId)
      (hother : ∃ d, d ≠ c ∧ s.cpuGroup d = some g) :
      Effect s (.call c .createPgroup) (((s.procOut g p).cpuOut g c).setPc c (.allocScan p 0))
  | createLast (c : CpuId) (p : ProcId) (g : GroupId) (hpc : s.pc c = .run p)
      (hp0 : p ≠ initProc) (huser : s.kpc p = .user) (hc : s.cpuGroup c = some g)
      (hg : s.lock g = none) (hgd : g ≠ defaultPgroupId)
      (hlast : ∀ d, s.cpuGroup d = some g → d = c)
      (hprocs : ((s.procOut g p).group g).procs = []) :
      Effect s (.call c .createPgroup)
        ((((s.procOut g p).cpuOut g c).freed g).setPc c (.allocScan p 0))
  | createGo (c : CpuId) (p : ProcId) (hpc : s.pc c = .createDec p) (hfree : 0 < s.freeCpus) :
      Effect s (.cpu c) (({ s with freeCpus := s.freeCpus - 1 }.setLock defaultPgroupId
        none).setPc c (.allocScan p 0))
  | createBack (c : CpuId) (p : ProcId) (hpc : s.pc c = .createDec p) (hfree : s.freeCpus = 0) :
      Effect s (.cpu c) ((((s.cpuIn defaultPgroupId c).procIn defaultPgroupId p).setLock
        defaultPgroupId none).setPc c (.run p))
  | allocTake (c : CpuId) (p : ProcId) (g : GroupId) (hpc : s.pc c = .allocScan p g)
      (hid : (s.group g).id = none) :
      Effect s (.cpu c) (((s.claimed g).cpuIn g c).setPc c (.createAdd p g))
  | allocNext (c : CpuId) (p : ProcId) (g : GroupId) (hpc : s.pc c = .allocScan p g)
      (hid : (s.group g).id ≠ none) : Effect s (.cpu c) (s.setPc c (.allocScan p (g + 1)))
  | noSlot (c : CpuId) (p : ProcId) (i : ℕ) (hpc : s.pc c = .allocScan p i)
      (hi : maxProcGroupNum ≤ i) : Effect s (.cpu c) (s.stop c .runOutOfGroups)
  | rejoin (c : CpuId) (p : ProcId) (g : GroupId) (hpc : (s.pc c).rejoins = some (p, g))
      (hg : s.lock g = none) : Effect s (.cpu c) ((s.procIn g p).setPc c (.run p))
  | enterLeave {a : Act} (c : CpuId) (p : ProcId) (old new : GroupId) (hpc : s.pc c = .run p)
      (hp0 : p ≠ initProc) (huser : s.kpc p = .user) (hc : s.cpuGroup c = some old)
      (hg : s.lock old = none) (hne : new ≠ old) :
      Effect s a ((s.procOut old p).setPc c (.enterNew p old new))
  | enterNew (c : CpuId) (p : ProcId) (old new : GroupId) (hpc : s.pc c = .enterNew p old new)
      (hid : (s.group new).id = some new) (hg : s.lock new = none) :
      Effect s (.cpu c) ((s.procIn new p).setPc c (.yield p))
  | exitLeave (c : CpuId) (p : ProcId) (g : GroupId) (hpc : s.pc c = .run p)
      (hp0 : p ≠ initProc) (huser : s.kpc p = .user) (hc : s.cpuGroup c = some g)
      (hg : s.lock g = none) : Effect s (.call c .exit) ((s.procOut g p).setPc c (.exitZombie p))
  | decLeave (c : CpuId) (p : ProcId) (g : GroupId) (hpc : s.pc c = .run p)
      (hc : s.cpuGroup c = some g) (hgd : g ≠ defaultPgroupId)
      (hother : ∃ d, d ≠ c ∧ s.cpuGroup d = some g) :
      Effect s (.call c .decPgroupCpus) ((s.cpuOut g c).setPc c (.decDefault p))
  | decLast (c : CpuId) (p : ProcId) (g : GroupId) (hpc : s.pc c = .run p)
      (hc : s.cpuGroup c = some g) (hgd : g ≠ defaultPgroupId)
      (hlast : ∀ d, s.cpuGroup d = some g → d = c) (hprocs : (s.group g).procs = []) :
      Effect s (.call c .decPgroupCpus) (((s.cpuOut g c).freed g).setPc c (.decDefault p))
  | occupy (c : CpuId) (p : ProcId) (g : GroupId) (b : Bool) (hid : (s.group g).id = some g)
      (hpc : s.pc c = .run p) (hc : s.cpuGroup c = some g)
      (hprocs : pgroupProcsCountUnsafe (s.group g) = 1)
      (hcpus : pgroupCpuCountUnsafe (s.group g) = 1) (hgd : b = true → g ≠ defaultPgroupId) :
      Effect s (.call c (if b then .procOccupyCpu else .procReleaseCpu)) (s.occupied g b)
  -- CPU requests
  | ask {a : Act} (p : ProcId) (ty : MessageType) (hk : s.kpc p = .user) (hty : ty ≠ .empMessage)
      (hp : s.procGroup p ≠ some defaultPgroupId ∧ s.procGroup p ≠ none) :
      Effect s a (s.setKpc p (.incDec ty))
  | askNone {a : Act} (p : ProcId) (ty : MessageType) (hk : s.kpc p = .incDec ty) :
      Effect s a (s.setKpc p .user)
  | reserve {a : Act} (p : ProcId) (ty : MessageType) (hk : s.kpc p = .incDec ty)
      (hfree : 0 < s.freeCpus) : Effect s a ({ s with freeCpus := s.freeCpus - 1 }.setKpc p (.incSend ty))
  | boxFull (c : CpuId) (p : ProcId) (ty : MessageType) (hpc : s.pc c = .run p)
      (hk : s.kpc p = .incSend ty) (hfull : s.umBox.boxFull = true) (g : GroupId)
      (l : Option CpuId) (hl : s.lock g = l ∨ s.lock g = none ∧ l = some c) :
      Effect s (.cpu c) ((s.setLock g l).stop c .boxFull)
  | sendWait (c : CpuId) (p : ProcId) (g : GroupId) (m : CpuMessage) (hpc : s.pc c = .run p)
      (hk : s.kpc p = .incSend m.type) (hm : m.Proper) (hroom : s.umBox.boxFull = false)
      (hg : s.lock g = none) (hp : s.procGroup p = some g)
      (heq : m = ⟨.needCpu, g, .request p⟩) :
      Effect s (.cpu c) ((({ s with umBox := s.umBox.send m, sent := s.sent ++ [m] }.setLock g
        (some c)).setKpc p .user).setPc c (.incSleep p g))
  | sendFlex (c : CpuId) (p : ProcId) (m : CpuMessage) (hpc : s.pc c = .run p)
      (hk : s.kpc p = .incSend m.type) (hm : m.Proper) (hroom : s.umBox.boxFull = false)
      (hp : s.procGroup p = some m.group) (htype : m.type ≠ .needCpu) :
      Effect s (.cpu c) ({ s with umBox := s.umBox.send m, sent := s.sent ++ [m] }.setKpc p .user)
  -- the life of a process
  | forkAlloc {a : Act} (p q : ProcId) (hk : s.kpc p = .user) (hst : s.status q = .unused) :
      Effect s a ((s.setStatus q .used).setKpc p (.forkAlloc q))
  | forkRunable {a : Act} (p q : ProcId) (hk : s.kpc p = .forkAlloc q) :
      Effect s a ((s.setStatus q .runable).setKpc p (.forkInsert q))
  | forkInsert {a : Act} (p q : ProcId) (g : GroupId) (hk : s.kpc p = .forkInsert q)
      (hid : (s.group g).id = some g) (hg : s.lock g = none)
      (hocc : (s.group g).exclusivelyOccupy = false) :
      Effect s a (((s.procIn g q).setInserted q true).setKpc p .user)
  | forkFail {a : Act} (p q : ProcId) (hk : s.kpc p = .forkAlloc q) :
      Effect s a ((s.freeProcess q).setKpc p .user)
  | wake (q : ProcId) (hst : s.status q = .sleep) :
      Effect s (.wake q) ((s.setStatus q .runable).setChain q none)
  | reap (q : ProcId) (hst : s.status q = .zombie) : Effect s (.reap q) (s.freeProcess q)

/-! ## Facts the sections rest on -/

/-- The default group is always in use. -/
theorem Inv.default_id (hi : Inv s) : (s.group defaultPgroupId).id = some defaultPgroupId :=
  hi.roster.id_of_proc hi.init

theorem Inv.default_procs (hi : Inv s) : (s.group defaultPgroupId).procs ≠ [] := by
  intro h
  have hmem : initProc ∈ (s.group defaultPgroupId).procs := (hi.roster.procs _ _).mpr hi.init
  rw [h] at hmem
  cases hmem

/-- A process about to make a call is in its CPU's group. -/
theorem Inv.at_run (hi : Inv s) (hrun : s.pc c = .run p) :
    Executed s p ∧ ∃ g, s.cpuGroup c = some g ∧ s.procGroup p = some g := by
  obtain ⟨hex, hpc, hc⟩ : Executed s p ∧ s.procGroup p = s.cpuGroup c ∧ s.cpuGroup c ≠ none := by
    have := hi.here c
    rwa [hrun] at this
  obtain ⟨g, hcg⟩ := Option.ne_none_iff_exists'.mp hc
  exact ⟨hex, g, hcg, hpc.trans hcg⟩

/-- A group with more than one CPU has another one. -/
theorem Roster.exists_other (h : Roster s) (hc : s.cpuGroup c = some g)
    (hcount : pgroupCpuCountUnsafe (s.group g) ≠ 1) : ∃ d, d ≠ c ∧ s.cpuGroup d = some g := by
  by_contra hno
  refine hcount ?_
  rw [h.count_eq, Finset.card_eq_one]
  refine ⟨c, Finset.ext fun d => ?_⟩
  simp only [Finset.mem_filter, Finset.mem_univ, true_and, Finset.mem_singleton]
  refine ⟨fun hd => ?_, fun hd => hd ▸ hc⟩
  by_contra hdc
  exact hno ⟨d, hdc, hd⟩

/-! ## The scheduler's side -/

theorem Inv.enterDefault_effect (hi : Inv s) {k : Pc} (hk : (s.pc c).afterDefault = some k)
    (hc : s.cpuGroup c = none) (h : s.leaveDefault c k = some t) : Effect s (.cpu c) t := by
  have hadd : (do return (← s.addMyCpuToPgroup defaultPgroupId c).setPc c k : Except Panic State)
      = .ok ((s.cpuIn defaultPgroupId c).setPc c k) := by
    rw [hi.roster.addMyCpu_eq hi.default_id hc]
    rfl
  obtain ⟨hg, rfl⟩ := locked_ok hadd h
  exact .enterDefault c k hk hg

theorem countCpu_effect {k : Pc} (hk : (s.pc c).afterCount = some k)
    (h : s.countCpu c k = some t) : Effect s (.cpu c) t := by
  rw [State.countCpu, incFreeCpus] at h
  split at h
  · next hneg =>
    obtain rfl := Option.some.inj h
    exact .negative c hneg
  · next hpos =>
    obtain rfl := Option.some.inj h
    exact .count c k hk (by omega)

theorem Inv.schedule_effect (hpc : s.pc c = .sched) (hc : s.cpuGroup c ≠ none)
    (h : s.schedule c = some t) : Effect s (.cpu c) t := by
  obtain rfl := Option.some.inj h
  split
  · next hdef => exact .goto c .acquireGet (by rw [hpc]; exact .look) hdef.1 (by simp [hpc])
  · exact .goto c .schedRun (by rw [hpc]; exact .skip) hc (by simp [hpc])

theorem Inv.getCpuMessage_effect (hi : Inv s) (hpc : s.pc c = .acquireGet)
    (hc : s.cpuGroup c = some defaultPgroupId) (h : s.getCpuMessage c = some t) :
    Effect s (.cpu c) t := by
  rw [State.getCpuMessage, if_neg (by simp [hc])] at h
  split at h
  · obtain rfl := Option.some.inj h
    exact .goto c .schedRun (by rw [hpc]; exact .noMessage) (by simp [PcOk, hc]) (by simp [hpc])
  · next hempty =>
    have hne : s.umBox.requests ≠ [] := fun hnil => hempty (s.umBox.boxEmpty_iff.mpr hnil)
    have hm : s.umBox.get.1.Proper := hi.mail _ (by rw [UmBox.requests_get hne]; simp)
    rw [if_neg hm.2] at h
    obtain rfl := Option.some.inj h
    exact .take c hpc hne

theorem Inv.acquireLeave_effect (hi : Inv s) {m : CpuMessage} (hpc : s.pc c = .acquireLeave m)
    (hc : s.cpuGroup c = some defaultPgroupId) (h : s.acquireLeave c m = some t) :
    Effect s (.cpu c) t := by
  by_cases hcount : pgroupCpuCountUnsafe (s.group defaultPgroupId) = 1
  · obtain ⟨hg, rfl⟩ := locked_error (e := .tooManyAllocated) (by rw [if_pos hcount]; rfl) h
    exact .tooMany c m hpc hg hcount
  · obtain ⟨hg, rfl⟩ := locked_ok (u := (s.cpuOut defaultPgroupId c).setPc c (.acquireEnter m))
      (by rw [if_neg hcount, removeMyCpu_eq hi.roster hc]; rfl) h
    exact .acquireLeave c m hpc hg (hi.roster.exists_other hc hcount)

theorem Inv.acquireEnter_effect (hi : Inv s) {m : CpuMessage} (hpc : s.pc c = .acquireEnter m)
    (hc : s.cpuGroup c = none) (hm : m.Proper) (h : s.acquireEnter c m = some t) :
    Effect s (.cpu c) t := by
  by_cases hid : (s.group m.group).id = none
  · cases htype : m.type with
    | empMessage => exact absurd htype hm.2
    | needCpu =>
      obtain ⟨hg, rfl⟩ := locked_error (e := .emptyGroupAcquire)
        (by rw [if_pos ⟨hid, htype⟩]; rfl) h
      exact .refused c m.group .emptyGroupAcquire hg (.noGroup m hpc hid htype)
    | needCpuFlex =>
      obtain ⟨-, rfl⟩ := locked_ok (u := s.setPc c .acquireBack)
        (by rw [if_neg (by simp [htype]), if_pos ⟨hid, htype⟩]; rfl) h
      exact .goto c .acquireBack (by rw [hpc]; exact .gone m htype) hc (by simp [hpc])
  · have hid' := hi.roster.id_eq_some hid
    by_cases htype : m.type = .needCpu
    · obtain ⟨hg, rfl⟩ := locked_ok
        (u := ((s.cpuIn m.group c).setLock m.group (some c)).setPc c (.acquireWake m)) (by
          rw [if_neg (by simp [hid]), if_neg (by simp [hid]),
            hi.roster.addMyCpu_eq hid' hc]
          simp [htype, bind, Except.bind, pure, Except.pure]) h
      exact .acquireEnter c m hpc hg hid' htype
    · obtain ⟨hg, rfl⟩ := locked_ok (u := (s.cpuIn m.group c).setPc c .schedRun) (by
          rw [if_neg (by simp [hid]), if_neg (by simp [hid]),
            hi.roster.addMyCpu_eq hid' hc]
          simp [htype, bind, Except.bind, pure, Except.pure]) h
      exact .acquireEnterFlex c m hpc hg hid' htype

theorem Inv.acquireBack_effect (hi : Inv s) (hpc : s.pc c = .acquireBack)
    (hc : s.cpuGroup c = none) (h : s.acquireBack c = some t) : Effect s (.cpu c) t := by
  obtain ⟨hg, rfl⟩ := locked_ok
    (u := ((s.cpuIn defaultPgroupId c).setLock defaultPgroupId (some c)).setPc c .acquireBackCount)
    (by rw [hi.roster.addMyCpu_eq hi.default_id hc]; rfl) h
  exact .acquireBack c hpc hg

theorem acquireBackCount_effect (hpc : s.pc c = .acquireBackCount)
    (h : s.acquireBackCount c = some t) : Effect s (.cpu c) t := by
  rw [State.acquireBackCount, incFreeCpus] at h
  split at h
  · next hneg =>
    obtain rfl := Option.some.inj h
    exact .negative c hneg
  · next hpos =>
    obtain rfl := Option.some.inj h
    exact .acquireBackCount c hpc (by omega)

theorem Inv.runProcess_effect (hi : Inv s) (hpc : s.pc c = .schedRun) (hc : s.cpuGroup c ≠ none)
    (h : s.runProcess c = some t) : Effect s (.cpu c) t := by
  obtain ⟨g, hcg⟩ := Option.ne_none_iff_exists'.mp hc
  have hid := hi.roster.used g c hcg
  rw [State.runProcess, hcg] at h
  by_cases hleave : g ≠ defaultPgroupId ∧ (s.group g).procs = []
  · have hcount := count_cpuOut_eq_zero_iff (g := g) (c := c) hi.roster
    by_cases hlast : ∀ d, s.cpuGroup d = some g → d = c
    · obtain ⟨-, rfl⟩ := locked_ok
        (u := ((s.cpuOut g c).freed g).setPc c (.leaveDefault g)) (by
          have hfree : (s.cpuOut g c).freePgroup g = .ok ((s.cpuOut g c).freed g) := by
            rw [freePgroup, if_neg (by simpa [State.cpuOut, hid] using hleave.1)]
            rfl
          rw [if_neg (by simp [hid]), if_pos hleave, removeMyCpu_eq hi.roster hcg]
          simp [hcount.mpr hlast, hfree, bind, Except.bind, pure, Except.pure]) h
      exact .leaveLast c g hpc hcg hleave.1 hlast hleave.2
    · obtain ⟨-, rfl⟩ := locked_ok (u := (s.cpuOut g c).setPc c (.leaveDefault g)) (by
          rw [if_neg (by simp [hid]), if_pos hleave, removeMyCpu_eq hi.roster hcg]
          simp [mt hcount.mp hlast, bind, Except.bind, pure, Except.pure]) h
      obtain ⟨d, hd⟩ := not_forall.mp hlast
      obtain ⟨hd, hdc⟩ := Classical.not_imp.mp hd
      exact .leave c g hpc hcg hleave.1 ⟨d, hdc, hd⟩
  · obtain ⟨hg, rfl⟩ := locked_ok
      (u := (s.setLock g (some c)).setPc c (.dispatch g (s.group g).procs))
      (by rw [if_neg (by simp [hid]), if_neg hleave]; rfl) h
    exact .lockGroup c g hpc hcg hg

theorem Inv.dispatch_effect (hi : Inv s) {rest : List ProcId} (hpc : s.pc c = .dispatch g rest)
    (h : s.dispatch c g rest = some t) : Effect s (.cpu c) t := by
  cases rest with
  | nil =>
    obtain rfl := Option.some.inj h
    exact .dispatchNone c g hpc
  | cons q rest =>
    rw [State.dispatch] at h
    split at h
    · next hst =>
      obtain rfl := Option.some.inj h
      exact .dispatch c g q rest hpc hst
    · next hst =>
      obtain rfl := Option.some.inj h
      obtain ⟨hc, hg, hrest⟩ : s.cpuGroup c = some g ∧ s.lock g = some c ∧
          ∀ r ∈ q :: rest, r ∈ (s.group g).procs := by
        have := hi.here c
        rwa [hpc] at this
      exact .goto c _ (by rw [hpc]; exact .next g q rest)
        ⟨hc, hg, fun r hr => hrest r (List.mem_cons_of_mem _ hr)⟩ fun g' q' rest' hpc' => by
          rw [hpc, Pc.dispatch.injEq, List.cons.injEq] at hpc'
          rw [← hpc'.2.1]
          exact hst

/-! ## The process's side -/

/-- `create_pgroup`, first section: the process goes, and the CPU with it if it can. -/
theorem Inv.createPgroup_effect (hi : Inv s) (hrun : s.pc c = .run p) (hp0 : p ≠ initProc)
    (huser : s.kpc p = .user) (h : s.createPgroup c p = some t) :
    Effect s (.call c .createPgroup) t := by
  obtain ⟨-, g, hcg, hpg⟩ := hi.at_run hrun
  have hid := hi.roster.used g c hcg
  have hr : Roster (s.procOut g p) := hi.roster.procOut hpg
  have hdef : ((s.procOut g p).group defaultPgroupId).procs ≠ [] := by
    have hmem : initProc ∈ ((s.procOut g p).group defaultPgroupId).procs := by
      rw [hr.procs]
      simpa [State.procOut, hp0.symm] using hi.init
    exact List.ne_nil_of_mem hmem
  rw [State.createPgroup, hpg] at h
  simp only [removeMyProc_eq hpg] at h
  rcases cpuLeave_cases hr (c := c) (g := g) hcg hdef with
    ⟨hother, heq⟩ | ⟨hlast, hnil, hgd, heq⟩ | ⟨hlast, hprocs, heq⟩
  · by_cases hgd : g = defaultPgroupId
    · subst hgd
      rw [if_neg (not_not.mpr rfl)] at heq
      obtain ⟨hg, rfl⟩ := locked_ok
        (u := (((s.procOut defaultPgroupId p).cpuOut defaultPgroupId c).setLock defaultPgroupId
          (some c)).setPc c (.createDec p))
        (by simp [heq, bind, Except.bind, pure, Except.pure]) h
      exact .createAsk c p hrun hp0 huser hcg hg hother
    · obtain ⟨hg, rfl⟩ := locked_ok
        (u := ((s.procOut g p).cpuOut g c).setPc c (.allocScan p 0))
        (by simp [heq, hgd, bind, Except.bind, pure, Except.pure]) h
      exact .createLeave c p g hrun hp0 huser hcg hg hgd hother
  · obtain ⟨hg, rfl⟩ := locked_ok
      (u := (((s.procOut g p).cpuOut g c).freed g).setPc c (.allocScan p 0))
      (by simp [heq, bind, Except.bind, pure, Except.pure]) h
    exact .createLast c p g hrun hp0 huser hcg hg hgd hlast hnil
  · have hadd : (s.procOut g p).addMyProcToPgroup g p = .ok ((s.procOut g p).procIn g p) :=
      addMyProc_eq (by simpa [State.procOut] using hid) (by simp [State.procOut])
    obtain ⟨hg, rfl⟩ := locked_ok (u := (s.procOut g p).procIn g p)
      (by simp [heq, hadd, bind, Except.bind]) h
    exact .createKeep c p g hrun hp0 huser hcg hg hlast hprocs

/-- `create_pgroup`, the default group: the CPU goes if a free one is left, or is put back. -/
theorem Inv.createDec_effect (hi : Inv s) (hpc : s.pc c = .createDec p)
    (h : s.createDec c p = some t) : Effect s (.cpu c) t := by
  obtain ⟨-, hp, hc, -, -⟩ : Executed s p ∧ s.procGroup p = none ∧ s.cpuGroup c = none ∧
      p ≠ initProc ∧ s.lock defaultPgroupId = some c := by
    have := hi.here c
    rwa [hpc] at this
  have hid := hi.default_id
  rw [State.createDec, decFreeCpus] at h
  split at h
  · next hneg =>
    obtain rfl := Option.some.inj h
    exact .negative c hneg
  split at h
  · next hzero =>
    have hid' : ((s.cpuIn defaultPgroupId c).group defaultPgroupId).id = some defaultPgroupId := by
      simpa [State.cpuIn] using hid
    have hadd : (s.cpuIn defaultPgroupId c).addMyProcToPgroup defaultPgroupId p
        = .ok ((s.cpuIn defaultPgroupId c).procIn defaultPgroupId p) := addMyProc_eq hid' hp
    rw [hi.roster.addMyCpu_eq hid hc] at h
    simp only [bind, Except.bind, hadd] at h
    obtain rfl := Option.some.inj h
    exact .createBack c p hpc hzero
  · obtain rfl := Option.some.inj h
    exact .createGo c p hpc (by omega)

/-- `alloc_pgroup`, one slot: taken if free, passed otherwise. -/
theorem Inv.allocPgroup_effect (hi : Inv s) {i : ℕ} (hpc : s.pc c = .allocScan p i)
    (h : s.allocPgroup c p i = some t) : Effect s (.cpu c) t := by
  obtain ⟨-, -, hc, -⟩ : Executed s p ∧ s.procGroup p = none ∧ s.cpuGroup c = none ∧
      p ≠ initProc := by
    have := hi.here c
    rwa [hpc] at this
  rw [State.allocPgroup] at h
  split at h
  · next hlt =>
    by_cases hid : (s.group ⟨i, hlt⟩).id = none
    · have hadd : (s.claimed ⟨i, hlt⟩).addMyCpuToPgroup ⟨i, hlt⟩ c
          = .ok ((s.claimed ⟨i, hlt⟩).cpuIn ⟨i, hlt⟩ c) := by
        refine addMyCpu_eq (by simp [claimed]) hc ?_
        have := hi.roster.cpus ⟨i, hlt⟩ c
        simpa [claimed, hc] using this
      obtain ⟨-, rfl⟩ := locked_ok
        (u := ((s.claimed ⟨i, hlt⟩).cpuIn ⟨i, hlt⟩ c).setPc c (.createAdd p ⟨i, hlt⟩)) (by
          rw [if_pos hid]
          change (do return (← (s.claimed ⟨i, hlt⟩).addMyCpuToPgroup ⟨i, hlt⟩ c).setPc c _) = _
          rw [hadd]
          rfl) h
      exact .allocTake c p ⟨i, hlt⟩ hpc hid
    · obtain ⟨-, rfl⟩ := locked_ok (u := s.setPc c (.allocScan p (i + 1)))
        (by rw [if_neg hid]; rfl) h
      exact .allocNext c p ⟨i, hlt⟩ hpc hid
  · next hge =>
    obtain rfl := Option.some.inj h
    exact .noSlot c p i hpc (by omega)

theorem Inv.rejoin_effect (hi : Inv s) (hpc : (s.pc c).rejoins = some (p, g))
    (hp : s.procGroup p = none) (hc : s.cpuGroup c = some g) (h : s.createAdd c p g = some t) :
    Effect s (.cpu c) t := by
  obtain ⟨hg, rfl⟩ := locked_ok (u := (s.procIn g p).setPc c (.run p))
    (by rw [addMyProc_eq (hi.roster.used g c hc) hp]; rfl) h
  exact .rejoin c p g hpc hg

theorem Inv.enterPgroup_effect (hi : Inv s) (hrun : s.pc c = .run p) (hp0 : p ≠ initProc)
    (huser : s.kpc p = .user) {i : ℤ} (h : s.enterPgroup c p i = some t) :
    Effect s (.call c (.enterPgroup i)) t := by
  obtain ⟨-, g, hcg, hpg⟩ := hi.at_run hrun
  rw [State.enterPgroup] at h
  split at h
  · simp only [hpg] at h
    split at h
    · obtain rfl := Option.some.inj h
      exact .idle
    · next hne =>
      obtain ⟨hg, rfl⟩ := locked_ok (by rw [removeMyProc_eq hpg]; rfl) h
      exact .enterLeave c p g _ hrun hp0 huser hcg hg hne
  · obtain rfl := Option.some.inj h
    exact .idle

theorem Inv.enterNew_effect (hi : Inv s) {old new : GroupId} (hpc : s.pc c = .enterNew p old new)
    (h : s.enterNew c p old new = some t) : Effect s (.cpu c) t := by
  have hok : Executed s p ∧ s.procGroup p = none ∧ s.cpuGroup c = some old ∧ p ≠ initProc := by
    have := hi.here c
    rwa [hpc] at this
  by_cases hid : (s.group new).id = none
  · obtain ⟨-, rfl⟩ := locked_ok (u := s.setPc c (.enterBack p old)) (by rw [if_pos hid]; rfl) h
    exact .goto c _ (by rw [hpc]; exact .back p old new) hok (by simp [hpc])
  · have hid' := hi.roster.id_eq_some hid
    obtain ⟨hg, rfl⟩ := locked_ok (u := (s.procIn new p).setPc c (.yield p))
      (by rw [if_neg hid, addMyProc_eq hid' hok.2.1]; rfl) h
    exact .enterNew c p old new hpc hid' hg

theorem Inv.exitPgroup_effect (hi : Inv s) (hrun : s.pc c = .run p) (hp0 : p ≠ initProc)
    (huser : s.kpc p = .user) (h : s.exitPgroup c p = some t) : Effect s (.call c .exit) t := by
  obtain ⟨-, g, hcg, hpg⟩ := hi.at_run hrun
  rw [State.exitPgroup, hpg] at h
  obtain ⟨hg, rfl⟩ := locked_ok (by rw [removeMyProc_eq hpg]; rfl) h
  exact .exitLeave c p g hrun hp0 huser hcg hg

theorem Inv.decPgroupCpus_effect (hi : Inv s) (hrun : s.pc c = .run p)
    (h : s.decPgroupCpus c p = some t) : Effect s (.call c .decPgroupCpus) t := by
  obtain ⟨-, g, hcg, -⟩ := hi.at_run hrun
  rw [State.decPgroupCpus, hcg] at h
  simp only at h
  split at h
  · obtain rfl := Option.some.inj h
    exact .idle
  · next hgd =>
    rcases cpuLeave_cases hi.roster hcg hi.default_procs with
      ⟨hother, heq⟩ | ⟨hlast, hnil, -, heq⟩ | ⟨-, -, heq⟩
    · obtain ⟨-, rfl⟩ := locked_ok (u := (s.cpuOut g c).setPc c (.decDefault p))
        (by simp [heq, hgd, bind, Except.bind, pure, Except.pure]) h
      exact .decLeave c p g hrun hcg hgd hother
    · obtain ⟨-, rfl⟩ := locked_ok (u := ((s.cpuOut g c).freed g).setPc c (.decDefault p))
        (by simp [heq, bind, Except.bind, pure, Except.pure]) h
      exact .decLast c p g hrun hcg hgd hlast hnil
    · obtain ⟨-, rfl⟩ := locked_ok (u := s)
        (by simp [heq, bind, Except.bind, pure, Except.pure]) h
      exact .idle

theorem Inv.incPgroupCpus_effect (hi : Inv s) (hrun : s.pc c = .run p) (huser : s.kpc p = .user)
    {ty : MessageType} (hty : ty ≠ .empMessage) (h : s.incPgroupCpus c p ty = some t) :
    Effect s a t := by
  obtain ⟨-, g, -, hpg⟩ := hi.at_run hrun
  rw [State.incPgroupCpus, hpg] at h
  simp only at h
  split at h
  · obtain rfl := Option.some.inj h
    exact .idle
  · next hno =>
    obtain rfl := Option.some.inj h
    refine .ask p ty huser hty ⟨?_, by rw [hpg]; simp⟩
    rw [hpg]
    simpa using fun h => hno (.inl h)

theorem incDec_effect {ty : MessageType} (hk : s.kpc p = .incDec ty)
    (h : s.incDec c p ty = some t) : Effect s (.cpu c) t := by
  rw [State.incDec, decFreeCpus] at h
  split at h
  · next hneg =>
    obtain rfl := Option.some.inj h
    exact .negative c hneg
  split at h
  · obtain rfl := Option.some.inj h
    exact .askNone p ty hk
  · obtain rfl := Option.some.inj h
    exact .reserve p ty hk (by omega)

/-- The lock of a slot, restated. -/
theorem setLock_self {l : Option CpuId} (hg : s.lock g = l) : s.setLock g l = s := by
  rw [setLock, ← hg, Function.update_eq_self]

theorem Inv.incSend_effect (hi : Inv s) (hrun : s.pc c = .run p) {ty : MessageType}
    (hk : s.kpc p = .incSend ty) (h : s.incSend c p ty = some t) : Effect s (.cpu c) t := by
  obtain ⟨-, g, -, hpg⟩ := hi.at_run hrun
  obtain ⟨hnd, -, hty⟩ : s.procGroup p ≠ some defaultPgroupId ∧ s.procGroup p ≠ none ∧
      ty ≠ .empMessage := by
    have := hi.kpc p
    rwa [hk] at this
  have hm : (⟨ty, g, .request p⟩ : CpuMessage).Proper := ⟨fun hgd => hnd (by rw [hpg, ← hgd]), hty⟩
  rw [State.incSend, hpg] at h
  simp only at h
  cases hfull : s.umBox.boxFull with
  | true =>
    have hsend : s.sendCpuMessage ⟨ty, g, .request p⟩ = .error .boxFull := by
      rw [State.sendCpuMessage, if_pos hfull]
    split at h
    · obtain ⟨hg, rfl⟩ := locked_error (e := .boxFull) (by rw [hsend]; rfl) h
      exact .boxFull c p ty hrun hk hfull g (some c) (.inr ⟨hg, rfl⟩)
    · rw [hsend] at h
      obtain rfl := Option.some.inj h
      have heff := Effect.boxFull c p ty hrun hk hfull g _ (.inl rfl)
      rwa [setLock_self rfl] at heff
  | false =>
    have hsend : s.sendCpuMessage ⟨ty, g, .request p⟩
        = .ok { s with umBox := s.umBox.send ⟨ty, g, .request p⟩,
                       sent := s.sent ++ [⟨ty, g, .request p⟩] } := by
      rw [State.sendCpuMessage, if_neg (by simp [hfull])]
    split at h
    · next htype =>
      obtain ⟨hg, rfl⟩ := locked_ok (by rw [hsend]; rfl) h
      exact .sendWait c p g ⟨ty, g, .request p⟩ hrun hk hm hfull hg hpg (by rw [htype])
    · next htype =>
      rw [hsend] at h
      obtain rfl := Option.some.inj h
      exact .sendFlex c p ⟨ty, g, .request p⟩ hrun hk hm hfull hpg htype

theorem Inv.forkInsert_effect (hi : Inv s) (hrun : s.pc c = .run p) (hk : s.kpc p = .forkInsert q)
    (h : s.forkprocIntoPgroup c p q = some t) : Effect s (.cpu c) t := by
  obtain ⟨-, g, hcg, hpg⟩ := hi.at_run hrun
  have hid := hi.roster.used g c hcg
  rw [State.forkprocIntoPgroup, hpg] at h
  by_cases hex : (s.group g).exclusivelyOccupy = true
  · obtain ⟨hg, rfl⟩ := locked_error (e := .forkIntoGroup)
      (by rw [if_pos (.inr hex)]; rfl) h
    exact .refused c g .forkIntoGroup hg (.noFork p q g hrun hk hex)
  · obtain ⟨hg, rfl⟩ := locked_ok (u := ((s.procIn g q).setInserted q true).setKpc p .user)
      (by rw [if_neg (by simp [hid, hex])]; rfl) h
    exact .forkInsert p q g hk hid hg (by simpa using hex)

theorem Inv.procOccupyCpu_effect (hi : Inv s) (hrun : s.pc c = .run p)
    (h : s.procOccupyCpu c p = some t) : Effect s (.call c .procOccupyCpu) t := by
  obtain ⟨-, g, hcg, hpg⟩ := hi.at_run hrun
  rw [State.procOccupyCpu, hpg] at h
  simp only at h
  split at h
  · obtain rfl := Option.some.inj h
    exact .idle
  · next hgd =>
    split at h
    · obtain ⟨-, rfl⟩ := locked_ok rfl h
      exact .idle
    · next hcount =>
      obtain ⟨-, rfl⟩ := locked_ok rfl h
      obtain ⟨hprocs, hcpus⟩ : _ = 1 ∧ _ = 1 := by simpa using hcount
      exact .occupy c p g true (hi.roster.used g c hcg) hrun hcg hprocs hcpus fun _ => hgd

theorem Inv.procReleaseCpu_effect (hi : Inv s) (hrun : s.pc c = .run p)
    (h : s.procReleaseCpu c p = some t) : Effect s (.call c .procReleaseCpu) t := by
  obtain ⟨-, g, hcg, hpg⟩ := hi.at_run hrun
  rw [State.procReleaseCpu, hpg] at h
  by_cases hcount : pgroupProcsCountUnsafe (s.group g) ≠ 1 ∨
      pgroupCpuCountUnsafe (s.group g) ≠ 1
  · obtain ⟨hg, rfl⟩ := locked_error (e := .occupyFail) (by rw [if_pos hcount]; rfl) h
    exact .refused c g .occupyFail hg (.noRelease p g hrun)
  · by_cases hocc : (s.group g).exclusivelyOccupy = false
    · obtain ⟨-, rfl⟩ := locked_ok (u := s) (by rw [if_neg hcount, if_pos hocc]; rfl) h
      exact .idle
    · obtain ⟨-, rfl⟩ := locked_ok (u := s.occupied g false)
        (by rw [if_neg hcount, if_neg hocc]; rfl) h
      obtain ⟨hprocs, hcpus⟩ : _ = 1 ∧ _ = 1 := by simpa using hcount
      exact .occupy c p g false (hi.roster.used g c hcg) hrun hcg hprocs hcpus nofun

/-! ## Every step -/

/-- The process on a CPU is switched out. -/
theorem SwitchOut.effect {st : Status} {ch : Option Chain} (h : SwitchOut s c p st ch)
    (ht : (s.setChain p ch).switchToScheduler c p st = t) : Effect s a t := by
  subst ht
  exact .switchOut c p st ch h

theorem Inv.call_effect (hi : Inv s) {op : Call} (hrun : s.pc c = .run p)
    (huser : s.kpc p = .user) (hop : op.forAll = true ∨ p ≠ initProc)
    (h : s.call c p op = some t) : Effect s (.call c op) t := by
  cases op with
  | fork q =>
    rw [State.call, State.forkAlloc] at h
    split at h
    · next hst =>
      obtain rfl := Option.some.inj h
      exact .forkAlloc p q huser hst
    · cases h
  | createPgroup => exact hi.createPgroup_effect hrun (hop.resolve_left (by decide)) huser h
  | enterPgroup i =>
    exact hi.enterPgroup_effect hrun (hop.resolve_left (by simp [Call.forAll])) huser h
  | incPgroupCpus => exact hi.incPgroupCpus_effect hrun huser (by decide) h
  | incPgroupCpusFlex => exact hi.incPgroupCpus_effect hrun huser (by decide) h
  | decPgroupCpus => exact hi.decPgroupCpus_effect hrun h
  | procOccupyCpu => exact hi.procOccupyCpu_effect hrun h
  | procReleaseCpu => exact hi.procReleaseCpu_effect hrun h
  | exit => exact hi.exitPgroup_effect hrun (hop.resolve_left (by decide)) huser h
  | sleep => exact (SwitchOut.sleep hrun).effect (Option.some.inj h)

theorem Inv.resume_effect (hi : Inv s) (hrun : s.pc c = .run p) (h : s.resume c p = some t) :
    Effect s (.cpu c) t := by
  rw [State.resume] at h
  split at h
  · cases h
  · next q hk =>
    obtain rfl := Option.some.inj h
    exact .forkRunable p q hk
  · next q hk => exact hi.forkInsert_effect hrun hk h
  · next ty hk => exact incDec_effect hk h
  · next ty hk => exact hi.incSend_effect hrun hk h

theorem setChain_self : s.setChain p (s.chain p) = s := by simp

theorem Inv.advance_effect (hi : Inv s) (h : s.advance c = some t) : Effect s (.cpu c) t := by
  have hok := hi.here c
  rw [State.advance] at h
  cases hpc : s.pc c <;> rw [hpc] at h hok <;> simp only at h
  case boot => exact hi.enterDefault_effect (by rw [hpc]; rfl) hok h
  case bootCount => exact countCpu_effect (by rw [hpc]; rfl) h
  case sched => exact Inv.schedule_effect hpc hok h
  case acquireGet => exact hi.getCpuMessage_effect hpc hok h
  case acquireLeave m => exact hi.acquireLeave_effect hpc hok.1 h
  case acquireEnter m => exact hi.acquireEnter_effect hpc hok.1 hok.2 h
  case acquireWake m =>
    obtain rfl := Option.some.inj h
    exact .acquireWake c m hpc
  case acquireBack => exact hi.acquireBack_effect hpc hok h
  case acquireBackCount => exact acquireBackCount_effect hpc h
  case schedRun => exact hi.runProcess_effect hpc hok h
  case leaveDefault g => exact hi.enterDefault_effect (by rw [hpc]; rfl) hok h
  case leaveCount g => exact countCpu_effect (by rw [hpc]; rfl) h
  case leaveRelock g =>
    obtain ⟨-, rfl⟩ := locked_ok rfl h
    have hc : s.cpuGroup c = some defaultPgroupId := hok
    exact .goto c .sched (by rw [hpc]; exact .relock g) (by simp [PcOk, hc]) (by simp [hpc])
  case dispatch g rest => exact hi.dispatch_effect hpc h
  case run p => exact hi.resume_effect hpc h
  case createDec p => exact hi.createDec_effect hpc h
  case allocScan p i => exact hi.allocPgroup_effect hpc h
  case createAdd p g => exact hi.rejoin_effect (by rw [hpc]; rfl) hok.2.1 hok.2.2.1 h
  case enterNew p old new => exact hi.enterNew_effect hpc h
  case enterBack p old => exact hi.rejoin_effect (by rw [hpc]; rfl) hok.2.1 hok.2.2.1 h
  case yield p =>
    exact (SwitchOut.preempt (.inr hpc)).effect (by rw [setChain_self]; exact Option.some.inj h)
  case incSleep p g =>
    obtain rfl := Option.some.inj h
    exact .incSleep c p g hpc
  case decDefault p => exact hi.enterDefault_effect (by rw [hpc]; rfl) hok.2.2 h
  case decCount p => exact countCpu_effect (by rw [hpc]; rfl) h
  case exitZombie p =>
    exact (SwitchOut.exit hpc).effect (by rw [setChain_self]; exact Option.some.inj h)
  case panic e => cases h

/-- **Every step is one of the effects.** -/
theorem Inv.effect {a : Act} (hi : Inv s) (h : step s a = some t) : Effect s a t := by
  cases a with
  | cpu c => exact hi.advance_effect h
  | call c op =>
    rw [Pgroup.step] at h
    split at h
    · next p hrun =>
      split at h
      · next hok => exact hi.call_effect hrun hok.1 hok.2 h
      · cases h
    · cases h
  | forkFail c =>
    rw [Pgroup.step] at h
    split at h
    · next p _ =>
      split at h
      · next q hk =>
        obtain rfl := Option.some.inj h
        exact .forkFail p q hk
      · cases h
    · cases h
  | preempt c =>
    rw [Pgroup.step] at h
    split at h
    · next p hrun =>
      exact (SwitchOut.preempt (.inl hrun)).effect (by rw [setChain_self]; exact Option.some.inj h)
    · cases h
  | wake q =>
    rw [Pgroup.step] at h
    split at h
    · next hst =>
      obtain rfl := Option.some.inj h
      exact .wake q hst
    · cases h
  | reap q =>
    rw [Pgroup.step] at h
    split at h
    · next hst =>
      obtain rfl := Option.some.inj h
      exact .reap q hst
    · cases h

/-! ## Which panics a step can end in -/

/-- A CPU that goes anywhere else is stopped only if it was. -/
theorem setPc_panic {u : State} {k : Pc} {e : Panic} (hpc : u.pc = s.pc) (hk : ∀ e, k ≠ .panic e)
    (h : (u.setPc c k).pc d = .panic e) : s.pc d = .panic e := by
  by_cases hd : d = c
  · subst hd
    simp only [setPc, Function.update_self] at h
    exact absurd h (hk e)
  · rw [← hpc]
    simpa [hd] using h

/-- A CPU stopped by `stop` is that CPU, or was stopped before. -/
theorem stop_panic {u : State} {e e' : Panic} (hpc : u.pc = s.pc)
    (h : (u.stop c e').pc d = .panic e) : s.pc d = .panic e ∨ d = c ∧ e = e' := by
  by_cases hd : d = c
  · subst hd
    simp only [stop, setPc, Function.update_self, Pc.panic.injEq] at h
    exact .inr ⟨rfl, h.symm⟩
  · rw [← hpc]
    exact .inl (by simpa [hd] using h)

theorem Goto.not_panic {k k' : Pc} (h : Goto k k') : ∀ e, k' ≠ .panic e := by
  cases h <;> simp

theorem Pc.afterDefault_not_panic {k k' : Pc} (h : k.afterDefault = some k') :
    ∀ e, k' ≠ .panic e := by
  cases k <;> cases h <;> simp

theorem Pc.afterCount_not_panic {k k' : Pc} (h : k.afterCount = some k') :
    ∀ e, k' ≠ .panic e := by
  cases k <;> cases h <;> simp

/-- Why a CPU is stopped by a step. -/
inductive Stops (s : State) (d : CpuId) : Panic → Prop
  | before (e : Panic) (h : s.pc d = .panic e) : Stops s d e
  | negative (h : s.freeCpus < 0) : Stops s d .freeCpusNegative
  | tooMany (m : CpuMessage) (hpc : s.pc d = .acquireLeave m) (hg : s.lock defaultPgroupId = none)
      (h : pgroupCpuCountUnsafe (s.group defaultPgroupId) = 1) : Stops s d .tooManyAllocated
  | boxFull (h : s.umBox.boxFull = true) : Stops s d .boxFull
  | noSlot (p : ProcId) (i : ℕ) (hpc : s.pc d = .allocScan p i) (h : maxProcGroupNum ≤ i) :
      Stops s d .runOutOfGroups
  | refused (g : GroupId) (e : Panic) (h : Refusal s d g e) : Stops s d e

/-- **A CPU stopped after a step was stopped before it or by it.** -/
theorem Effect.stops {e : Panic} (h : Effect s a t) (hp : t.pc d = .panic e) : Stops s d e := by
  cases h with
  | idle => exact .before e hp
  | goto c k hgo _ _ => exact .before e (setPc_panic rfl hgo.not_panic hp)
  | enterDefault c k hk _ => exact .before e (setPc_panic rfl (Pc.afterDefault_not_panic hk) hp)
  | count c k hk _ =>
    exact .before e (setPc_panic (u := { s with freeCpus := s.freeCpus + 1 }) rfl
      (Pc.afterCount_not_panic hk) hp)
  | negative c hneg =>
    rcases stop_panic rfl hp with hp | ⟨-, rfl⟩
    · exact .before e hp
    · exact .negative hneg
  | refused c g e' _ he =>
    rcases stop_panic (u := s.setLock g (some c)) rfl hp with hp | ⟨rfl, rfl⟩
    · exact .before e hp
    · exact .refused g e he
  | tooMany c m hpc hg hcount =>
    rcases stop_panic (u := s.setLock defaultPgroupId (some c)) rfl hp with hp | ⟨rfl, rfl⟩
    · exact .before e hp
    · exact .tooMany m hpc hg hcount
  | boxFull c p ty _ _ hfull g l _ =>
    rcases stop_panic (u := s.setLock g l) rfl hp with hp | ⟨-, rfl⟩
    · exact .before e hp
    · exact .boxFull hfull
  | noSlot c p i hpc hi =>
    rcases stop_panic rfl hp with hp | ⟨rfl, rfl⟩
    · exact .before e hp
    · exact .noSlot p i hpc hi
  | createKeep | occupy | ask | askNone | reserve | sendFlex | forkAlloc | forkRunable | forkInsert
  | forkFail | wake | reap => exact .before e hp
  | take c _ _ =>
    exact .before e (setPc_panic
      (u := { s with umBox := s.umBox.get.2, taken := s.taken ++ [(c, s.umBox.get.1)] }) rfl
      (by simp) hp)
  | switchOut c p st ch _ =>
    exact .before e (setPc_panic (u := (s.setChain p ch).setStatus p st) rfl (by simp) hp)
  | incSleep c p g _ =>
    exact .before e (setPc_panic
      (u := ((s.setLock g none).setChain p (some (.request p))).setStatus p .sleep) rfl (by simp)
      hp)
  | _ => exact .before e (setPc_panic rfl (by simp) hp)

end Pgroup
