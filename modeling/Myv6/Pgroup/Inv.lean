import Myv6.Pgroup.Roster

/-!
# Pgroup/Inv — what holds wherever a CPU stands

`PcOk` is the assertion at each point of the group code, `ProcOk` and `KpcOk` what a process's own
fields say, and `Inv` all of it together with the roster.  A step of one CPU changes a group only
under its lock and a process only if no other CPU executes it, so the assertions of the other CPUs
survive (`PcOk.frame`); `Inv.of_step` reduces each step to its own CPU and its own process.
-/

namespace Pgroup

open State

variable {s t : State} {g : GroupId} {c d : CpuId} {p q : ProcId}

/-- Process `p` is executed: its status is `RUNNING` and it has been in a group. -/
def Executed (s : State) (p : ProcId) : Prop := s.status p = .running ∧ s.inserted p = true

/-- The request names a group that can ask, and asks for something. -/
def CpuMessage.Proper (m : CpuMessage) : Prop :=
  m.group ≠ defaultPgroupId ∧ m.type ≠ .empMessage

/-- **What holds where a CPU stands.** -/
def PcOk (s : State) (c : CpuId) : Pc → Prop
  | .boot | .acquireBack | .leaveDefault _ => s.cpuGroup c = none
  | .bootCount | .acquireGet | .leaveCount _ | .leaveRelock _ =>
    s.cpuGroup c = some defaultPgroupId
  | .sched | .schedRun => s.cpuGroup c ≠ none
  | .acquireLeave m => s.cpuGroup c = some defaultPgroupId ∧ m.Proper
  | .acquireEnter m => s.cpuGroup c = none ∧ m.Proper
  | .acquireWake m => s.cpuGroup c = some m.group ∧ s.lock m.group = some c
  | .acquireBackCount =>
    s.cpuGroup c = some defaultPgroupId ∧ s.lock defaultPgroupId = some c
  | .dispatch g rest =>
    s.cpuGroup c = some g ∧ s.lock g = some c ∧ ∀ q ∈ rest, q ∈ (s.group g).procs
  | .run p => Executed s p ∧ s.procGroup p = s.cpuGroup c ∧ s.cpuGroup c ≠ none
  | .createDec p => Executed s p ∧ s.procGroup p = none ∧ s.cpuGroup c = none ∧ p ≠ initProc ∧
      s.lock defaultPgroupId = some c
  | .allocScan p _ => Executed s p ∧ s.procGroup p = none ∧ s.cpuGroup c = none ∧ p ≠ initProc
  | .createAdd p g | .enterBack p g | .enterNew p g _ =>
    Executed s p ∧ s.procGroup p = none ∧ s.cpuGroup c = some g ∧ p ≠ initProc
  | .yield p => Executed s p ∧ s.procGroup p ≠ none ∧ s.cpuGroup c ≠ none
  | .incSleep p g =>
    Executed s p ∧ s.procGroup p ≠ none ∧ s.cpuGroup c ≠ none ∧ s.lock g = some c
  | .decDefault p => Executed s p ∧ s.procGroup p ≠ none ∧ s.cpuGroup c = none
  | .decCount p => Executed s p ∧ s.procGroup p ≠ none ∧ s.cpuGroup c = some defaultPgroupId
  | .exitZombie p =>
    Executed s p ∧ s.procGroup p = none ∧ s.cpuGroup c ≠ none ∧ p ≠ initProc
  | .panic _ => True

/-- What a process's status says about its group. -/
structure ProcOk (s : State) (q : ProcId) : Prop where
  fresh : s.status q = .unused ∨ s.status q = .used → s.inserted q = false
  out : s.inserted q = false → s.procGroup q = none
  mem : s.inserted q = true → s.status q = .runable ∨ s.status q = .sleep → s.procGroup q ≠ none
  was : s.status q = .running ∨ s.status q = .sleep ∨ s.status q = .zombie → s.inserted q = true
  gone : s.status q = .zombie → s.procGroup q = none

/-- What a process's continuation says: the child of a `fork` is nobody's member yet, and a CPU
request is made for a group other than the default one. -/
def KpcOk (s : State) (p : ProcId) : KPc → Prop
  | .user => True
  | .forkAlloc q => s.status q = .used ∧ s.inserted q = false
  | .forkInsert q => s.status q = .runable ∧ s.inserted q = false
  | .incDec ty | .incSend ty =>
    s.procGroup p ≠ some defaultPgroupId ∧ s.procGroup p ≠ none ∧ ty ≠ .empMessage

/-- **The invariant of the group subsystem.** -/
structure Inv (s : State) : Prop where
  roster : Roster s
  here : ∀ c, PcOk s c (s.pc c)
  one : ∀ c d p, (s.pc c).myProc = some p → (s.pc d).myProc = some p → c = d
  proc : ∀ q, ProcOk s q
  kpc : ∀ p, KpcOk s p (s.kpc p)
  child : ∀ p p' q, (s.kpc p).child = some q → (s.kpc p').child = some q → p = p'
  box : s.umBox.WellFormed
  mail : ∀ m ∈ s.umBox.requests, m.Proper
  init : s.procGroup initProc = some defaultPgroupId

/-! ## Frames -/

/-- The process a CPU executes is `RUNNING`. -/
theorem PcOk.executed {k : Pc} (h : PcOk s c k) (hp : k.myProc = some p) : Executed s p := by
  cases k <;> simp only [Pc.myProc, Option.some.injEq, reduceCtorEq] at hp
  all_goals
    subst hp
    exact h.1

/-- **The assertion of a CPU survives what the others do**: its own group, the groups it has locked
and the process it executes are not touched. -/
theorem PcOk.frame {k : Pc} (h : PcOk s d k) (hcpu : t.cpuGroup d = s.cpuGroup d)
    (hlock : ∀ g, s.lock g = some d → t.lock g = some d ∧ (t.group g).procs = (s.group g).procs)
    (hproc : ∀ p, k.myProc = some p →
      t.status p = s.status p ∧ t.inserted p = s.inserted p ∧ t.procGroup p = s.procGroup p) :
    PcOk t d k := by
  cases k <;> simp_all [PcOk, Pc.myProc, Executed]

theorem ProcOk.congr (h : ProcOk s q) (hst : t.status q = s.status q)
    (hins : t.inserted q = s.inserted q) (hp : t.procGroup q = s.procGroup q) : ProcOk t q := by
  refine ⟨?_, ?_, ?_, ?_, ?_⟩
  · rw [hst, hins]; exact h.fresh
  · rw [hins, hp]; exact h.out
  · rw [hst, hins, hp]; exact h.mem
  · rw [hst, hins]; exact h.was
  · rw [hst, hp]; exact h.gone

/-- A `RUNNING` process may be moved between groups. -/
theorem ProcOk.of_executed (h : Executed t q) : ProcOk t q := by
  obtain ⟨hst, hins⟩ := h
  constructor <;> simp [hst, hins]

theorem KpcOk.congr {k : KPc} (h : KpcOk s p k) (hp : t.procGroup p = s.procGroup p)
    (hchild : ∀ q, k.child = some q → t.status q = s.status q ∧ t.inserted q = s.inserted q) :
    KpcOk t p k := by
  cases k <;> simp_all [KpcOk, KPc.child]

/-- A process in no group makes no CPU request, so its group may be set. -/
theorem KpcOk.of_none {k : KPc} (h : KpcOk s p k) (hp : s.procGroup p = none)
    (hchild : ∀ q, k.child = some q → t.status q = s.status q ∧ t.inserted q = s.inserted q) :
    KpcOk t p k := by
  cases k <;> simp_all [KpcOk, KPc.child]

/-- **One step, seen from the CPU that takes it**: `u` is what the section made of the data, `k` where
the CPU goes.  `hproc` asks that the processes of the other CPUs keep their fields; a process
becomes this CPU's only if it was not `RUNNING`. -/
theorem Inv.of_step {u : State} (hi : Inv s) (c : CpuId) (k : Pc) (roster : Roster u)
    (hpc : u.pc = s.pc) (hcpu : ∀ d ≠ c, u.cpuGroup d = s.cpuGroup d)
    (hlock : ∀ g, ∀ d ≠ c, s.lock g = some d →
      u.lock g = some d ∧ (u.group g).procs = (s.group g).procs)
    (hproc : ∀ p, s.status p = .running → (s.pc c).myProc ≠ some p →
      u.status p = s.status p ∧ u.inserted p = s.inserted p ∧ u.procGroup p = s.procGroup p)
    (here : PcOk u c k)
    (hmine : ∀ p, k.myProc = some p → (s.pc c).myProc = some p ∨ s.status p ≠ .running)
    (proc : ∀ q, ProcOk u q) (kpc : ∀ p, KpcOk u p (u.kpc p))
    (child : ∀ p p' q, (u.kpc p).child = some q → (u.kpc p').child = some q → p = p')
    (box : u.umBox.WellFormed) (mail : ∀ m ∈ u.umBox.requests, m.Proper)
    (init : u.procGroup initProc = some defaultPgroupId) : Inv (u.setPc c k) := by
  -- another CPU's process is `RUNNING` and not this CPU's
  have hother : ∀ d ≠ c, ∀ p, (s.pc d).myProc = some p →
      s.status p = .running ∧ (s.pc c).myProc ≠ some p := fun d hd p hp =>
    ⟨((hi.here d).executed hp).1, fun hc => hd (hi.one d c p hp hc)⟩
  have hdisj : ∀ d ≠ c, ∀ p, k.myProc = some p → (s.pc d).myProc = some p → False := by
    intro d hd p hk hpd
    rcases hmine p hk with h | h
    · exact (hother d hd p hpd).2 h
    · exact h (hother d hd p hpd).1
  have hself : (u.setPc c k).pc c = k := Function.update_self ..
  have hne : ∀ d ≠ c, (u.setPc c k).pc d = s.pc d := fun d hd => by
    rw [setPc, ← hpc]
    exact Function.update_of_ne hd ..
  refine ⟨roster.congr rfl rfl rfl, fun d => ?_, fun d e p hdp hep => ?_,
    fun q => (proc q).congr rfl rfl rfl, fun p => (kpc p).congr rfl fun _ _ => ⟨rfl, rfl⟩, child,
    box, mail, init⟩
  · by_cases hd : d = c
    · subst hd
      rw [hself]
      exact here.frame rfl (fun _ h => ⟨h, rfl⟩) fun _ _ => ⟨rfl, rfl, rfl⟩
    · rw [hne d hd]
      exact (hi.here d).frame (hcpu d hd) (fun g hg => hlock g d hd hg) fun p hp =>
        hproc p (hother d hd p hp).1 (hother d hd p hp).2
  · by_cases hd : d = c <;> by_cases he : e = c
    · rw [hd, he]
    · subst hd
      rw [hself] at hdp
      rw [hne e he] at hep
      exact (hdisj e he p hdp hep).elim
    · subst he
      rw [hself] at hep
      rw [hne d hd] at hdp
      exact (hdisj d hd p hep hdp).elim
    · rw [hne d hd] at hdp
      rw [hne e he] at hep
      exact hi.one d e p hdp hep

/-- **A step that moves no CPU**: continuations change, and processes no CPU executes. -/
theorem Inv.of_env {u : State} (hi : Inv s) (roster : Roster u) (hpc : u.pc = s.pc)
    (hcpu : u.cpuGroup = s.cpuGroup)
    (hlock : ∀ g d, s.lock g = some d →
      u.lock g = some d ∧ (u.group g).procs = (s.group g).procs)
    (hproc : ∀ p, s.status p = .running →
      u.status p = s.status p ∧ u.inserted p = s.inserted p ∧ u.procGroup p = s.procGroup p)
    (proc : ∀ q, ProcOk u q) (kpc : ∀ p, KpcOk u p (u.kpc p))
    (child : ∀ p p' q, (u.kpc p).child = some q → (u.kpc p').child = some q → p = p')
    (box : u.umBox.WellFormed) (mail : ∀ m ∈ u.umBox.requests, m.Proper)
    (init : u.procGroup initProc = some defaultPgroupId) : Inv u := by
  refine ⟨roster, fun d => ?_, by rw [hpc]; exact hi.one, proc, kpc, child, box, mail, init⟩
  rw [hpc]
  exact (hi.here d).frame (congrFun hcpu d) (fun g hg => hlock g d hg) fun p hp =>
    hproc p ((hi.here d).executed hp).1

/-- **A step of scheduler code**: no process field changes. -/
theorem Inv.of_sched {u : State} (hi : Inv s) (c : CpuId) (k : Pc) (roster : Roster u)
    (hpc : u.pc = s.pc) (hcpu : ∀ d ≠ c, u.cpuGroup d = s.cpuGroup d)
    (hlock : ∀ g, ∀ d ≠ c, s.lock g = some d →
      u.lock g = some d ∧ (u.group g).procs = (s.group g).procs)
    (hst : u.status = s.status) (hins : u.inserted = s.inserted)
    (hp : u.procGroup = s.procGroup) (hk : u.kpc = s.kpc) (here : PcOk u c k)
    (hmine : ∀ p, k.myProc = some p → (s.pc c).myProc = some p)
    (box : u.umBox.WellFormed) (mail : ∀ m ∈ u.umBox.requests, m.Proper) :
    Inv (u.setPc c k) := by
  refine hi.of_step c k roster hpc hcpu hlock (fun p _ _ => ?_) here
    (fun p h => .inl (hmine p h)) (fun q => ?_) (fun p => ?_) (by rw [hk]; exact hi.child) box mail
    (by rw [hp]; exact hi.init)
  · rw [hst, hins, hp]; exact ⟨rfl, rfl, rfl⟩
  · exact (hi.proc q).congr (by rw [hst]) (by rw [hins]) (by rw [hp])
  · rw [hk]
    exact (hi.kpc p).congr (by rw [hp]) fun q _ => ⟨by rw [hst], by rw [hins]⟩

/-- **A step of the process's own code** that leaves its status alone: only its group changes.  The
process makes no CPU request meanwhile: it is at no such point, or in no group. -/
theorem Inv.of_own {u : State} (hi : Inv s) (c : CpuId) (k : Pc)
    (hcp : (s.pc c).myProc = some p) (hp0 : p ≠ initProc)
    (huser : s.kpc p = .user ∨ s.procGroup p = none)
    (roster : Roster u) (hpc : u.pc = s.pc) (hcpu : ∀ d ≠ c, u.cpuGroup d = s.cpuGroup d)
    (hlock : ∀ g, ∀ d ≠ c, s.lock g = some d →
      u.lock g = some d ∧ (u.group g).procs = (s.group g).procs)
    (hst : u.status = s.status) (hins : u.inserted = s.inserted)
    (hp : ∀ q ≠ p, u.procGroup q = s.procGroup q) (hk : u.kpc = s.kpc) (here : PcOk u c k)
    (hmine : k.myProc = some p) (hbox : u.umBox = s.umBox) : Inv (u.setPc c k) := by
  have hex : Executed u p := by
    have := (hi.here c).executed hcp
    rwa [Executed, hst, hins]
  refine hi.of_step c k roster hpc hcpu hlock (fun q _ hq => ?_) here
    (fun q h => .inl (by rw [← h, hmine]; exact hcp)) (fun q => ?_) (fun q => ?_)
    (by rw [hk]; exact hi.child) (by rw [hbox]; exact hi.box) (by rw [hbox]; exact hi.mail)
    (by rw [hp _ hp0.symm]; exact hi.init)
  · have hqp : q ≠ p := fun h => hq (h ▸ hcp)
    rw [hst, hins, hp q hqp]; exact ⟨rfl, rfl, rfl⟩
  · by_cases hqp : q = p
    · subst hqp; exact .of_executed hex
    · exact (hi.proc q).congr (by rw [hst]) (by rw [hins]) (hp q hqp)
  · rw [hk]
    by_cases hqp : q = p
    · subst hqp
      have hkq := hi.kpc q
      rcases huser with huser | hnone
      · rw [huser]
        trivial
      · exact hkq.of_none hnone fun _ _ => ⟨by rw [hst], by rw [hins]⟩
    · exact (hi.kpc q).congr (hp q hqp) fun _ _ => ⟨by rw [hst], by rw [hins]⟩

/-- A step that only moves the CPU's own position. -/
theorem Inv.of_goto (hi : Inv s) (c : CpuId) (k : Pc) (here : PcOk s c k)
    (hmine : ∀ p, k.myProc = some p → (s.pc c).myProc = some p) : Inv (s.setPc c k) :=
  hi.of_sched c k hi.roster rfl (fun _ _ => rfl) (fun _ _ _ h => ⟨h, rfl⟩) rfl rfl rfl rfl here
    hmine hi.box hi.mail

/-- A CPU that stops keeps the invariant. -/
theorem Inv.stop (hi : Inv s) (e : Panic) : Inv (s.stop c e) :=
  hi.of_goto c (.panic e) trivial fun _ h => by cases h

/-- The CPU's own position, restated. -/
theorem setPc_self {k : Pc} (h : s.pc c = k) : s.setPc c k = s := by
  subst h
  simp

/-! ## Reading the sections -/

theorem locked_ok {body : Except Panic State} {u : State} (hb : body = .ok u)
    (h : s.locked c g body = some t) : s.lock g = none ∧ t = u := by
  subst hb
  rw [locked] at h
  split at h
  · next hg => exact ⟨hg, (Option.some.inj h).symm⟩
  · cases h

theorem locked_error {body : Except Panic State} {e : Panic} (hb : body = .error e)
    (h : s.locked c g body = some t) :
    s.lock g = none ∧ t = (s.setLock g (some c)).stop c e := by
  subst hb
  rw [locked] at h
  split at h
  · next hg => exact ⟨hg, (Option.some.inj h).symm⟩
  · cases h

/-- A section that leaves the locks alone, or only takes or frees one of this CPU's, touches no
other CPU's. -/
theorem lock_frame (hg : s.lock g = none ∨ s.lock g = some c) {l : GroupId → Option CpuId}
    {G : GroupId → ProcGroup} (hl : ∀ i ≠ g, l i = s.lock i)
    (hG : ∀ i ≠ g, (G i).procs = (s.group i).procs) :
    ∀ i, ∀ d ≠ c, s.lock i = some d → l i = some d ∧ (G i).procs = (s.group i).procs := by
  intro i d hd h
  have hi : i ≠ g := by
    rintro rfl
    rcases hg with hg | hg
    · rw [hg] at h; cases h
    · rw [hg] at h; exact hd (Option.some.inj h).symm
  exact ⟨(hl i hi).trans h, hG i hi⟩

/-- Taking or freeing one lock of this CPU's. -/
theorem setLock_frame (hg : s.lock g = none ∨ s.lock g = some c) (l : Option CpuId) :
    ∀ i, ∀ d ≠ c, s.lock i = some d → (s.setLock g l).lock i = some d ∧
      ((s.setLock g l).group i).procs = (s.group i).procs :=
  lock_frame hg (fun _ h => Function.update_of_ne h ..) fun _ _ => rfl

/-- A CPU that stops with a lock it found free keeps the invariant. -/
theorem Inv.stop_locked (hi : Inv s) (hg : s.lock g = none) (e : Panic) :
    Inv ((s.setLock g (some c)).stop c e) :=
  hi.of_sched c (.panic e) (hi.roster.congr rfl rfl rfl) rfl (fun _ _ => rfl)
    (setLock_frame (.inl hg) _) rfl rfl rfl rfl trivial (fun _ h => by cases h) hi.box hi.mail

end Pgroup
