import Myv6.Pgroup.Members

/-!
# Pgroup/Occupy — a process that has its CPU to itself

    proc_occupy_cpu     checks that its group has one process and one CPU, and sets the flag
    forkproc_into_pgroup, inc_pgroup_cpus, inc_pgroup_cpus_flex     refuse on the flag
    enter_pgroup, handle_cpu_acquire                                do not look at it

`enter_pgroup` lets a second process into an occupied group, and `handle_cpu_acquire` a second CPU
that was asked for before.  In a run where neither happens the occupying process is alone.
-/

namespace Pgroup

open State

variable {s t : State} {a : Act} {g : GroupId} {c d : CpuId} {p q : ProcId}

/-! ## The condition -/

/-- The group that the next section of a CPU adds a process or a CPU to, without a look at
`exclusively_occupy`. -/
def Pc.joins : Pc → Option GroupId
  | .enterNew _ _ new => some new
  | .acquireEnter m => some m.group
  | _ => none

/-- The step lets nobody into an occupied group. -/
def KeepsOut (s : State) (a : Act) : Prop :=
  ∀ c g, a = .cpu c → (s.pc c).joins = some g → (s.group g).exclusivelyOccupy = false

instance : Decidable (KeepsOut s a) := inferInstanceAs (Decidable (∀ _ _, _ → _ → _))

/-! ## Occupied groups -/

/-- The group has at most one process and one CPU, and none while the CPU moves its process. -/
structure Sole (s : State) (g : GroupId) : Prop where
  procs : (s.group g).procs.length ≤ 1
  cpus : ∀ c d, s.cpuGroup c = some g → s.cpuGroup d = some g → c = d
  moving : ∀ c p, (s.pc c).moves = some p → s.cpuGroup c = some g → (s.group g).procs = []

/-- **Every occupied group is like that**, and is not the default group. -/
def Alone (s : State) : Prop :=
  ∀ g, (s.group g).exclusivelyOccupy = true → g ≠ defaultPgroupId ∧ Sole s g

/-- A step that adds nothing to an occupied group and occupies none. -/
theorem Alone.of_step (h : Alone s) (c : CpuId) (hpc : ∀ d ≠ c, t.pc d = s.pc d)
    (hflag : ∀ g, (t.group g).exclusivelyOccupy = true → (s.group g).exclusivelyOccupy = true)
    (hprocs : ∀ g, (s.group g).exclusivelyOccupy = true →
      (t.group g).procs.length ≤ (s.group g).procs.length)
    (hcpu : ∀ g d, (s.group g).exclusivelyOccupy = true → g ≠ defaultPgroupId →
      t.cpuGroup d = some g → s.cpuGroup d = some g)
    (hmove : ∀ g p, (s.group g).exclusivelyOccupy = true → (t.pc c).moves = some p →
      t.cpuGroup c = some g → (s.pc c).moves = some p ∨ (t.group g).procs = []) : Alone t := by
  intro g hg
  have hs := hflag g hg
  obtain ⟨hgd, hsole⟩ := h g hs
  have hlen := hprocs g hs
  refine ⟨hgd, by have := hsole.procs; omega, fun d e hd he => ?_, fun d p hd hdg => ?_⟩
  · exact hsole.cpus d e (hcpu g d hs hgd hd) (hcpu g e hs hgd he)
  · have hnil : (s.group g).procs = [] → (t.group g).procs = [] := by
      intro hnil
      rw [hnil] at hlen
      exact List.length_eq_zero_iff.mp (by simpa using hlen)
    by_cases hdc : d = c
    · subst hdc
      rcases hmove g p hs hd hdg with hm | hm
      · exact hnil (hsole.moving d p hm (hcpu g d hs hgd hdg))
      · exact hm
    · rw [hpc d hdc] at hd
      exact hnil (hsole.moving d p hd (hcpu g d hs hgd hdg))

/-- A step that touches neither the groups nor where the CPUs belong. -/
theorem Alone.of_same (h : Alone s) (c : CpuId) (hpc : ∀ d ≠ c, t.pc d = s.pc d)
    (hgroup : t.group = s.group) (hcpu : t.cpuGroup = s.cpuGroup)
    (hmove : ∀ p, (t.pc c).moves = some p → (s.pc c).moves = some p) : Alone t := by
  refine h.of_step c hpc ?_ ?_ ?_ fun g p _ hp _ => .inl (hmove p hp)
  · rw [hgroup]
    exact fun _ h => h
  · rw [hgroup]
    exact fun _ _ => le_rfl
  · rw [hcpu]
    exact fun _ _ _ _ h => h

/-! ## Marks on the slots -/

@[simp] theorem occupy_cpuOut (i : GroupId) :
    ((s.cpuOut g c).group i).exclusivelyOccupy = (s.group i).exclusivelyOccupy := by
  by_cases hi : i = g <;> simp [State.cpuOut, hi]

@[simp] theorem occupy_cpuIn (i : GroupId) :
    ((s.cpuIn g c).group i).exclusivelyOccupy = (s.group i).exclusivelyOccupy := by
  by_cases hi : i = g <;> simp [State.cpuIn, hi]

@[simp] theorem occupy_procOut (i : GroupId) :
    ((s.procOut g p).group i).exclusivelyOccupy = (s.group i).exclusivelyOccupy := by
  by_cases hi : i = g <;> simp [State.procOut, hi]

@[simp] theorem occupy_procIn (i : GroupId) :
    ((s.procIn g p).group i).exclusivelyOccupy = (s.group i).exclusivelyOccupy := by
  by_cases hi : i = g <;> simp [State.procIn, hi]

@[simp] theorem occupy_claimed (i : GroupId) :
    ((s.claimed g).group i).exclusivelyOccupy = (s.group i).exclusivelyOccupy := by
  by_cases hi : i = g <;> simp [State.claimed, hi]

@[simp] theorem occupy_procMoveToTail (i : GroupId) :
    ((s.procMoveToTail g p).group i).exclusivelyOccupy = (s.group i).exclusivelyOccupy := by
  by_cases hi : i = g <;> simp [State.procMoveToTail, hi]

theorem occupy_freed {i : GroupId} (h : ((s.freed g).group i).exclusivelyOccupy = true) :
    (s.group i).exclusivelyOccupy = true := by
  by_cases hi : i = g <;> simp_all [State.freed]

/-! A CPU that leaves a group, and one that enters another. -/

theorem cpuGroup_cpuOut {i : GroupId} (h : (s.cpuOut g c).cpuGroup d = some i) :
    s.cpuGroup d = some i := by
  by_cases hd : d = c <;> simp_all [State.cpuOut]

theorem cpuGroup_cpuIn {i : GroupId} (hi : i ≠ g) (h : (s.cpuIn g c).cpuGroup d = some i) :
    s.cpuGroup d = some i := by
  by_cases hd : d = c <;> simp_all [State.cpuIn]

theorem procs_procOut_le (i : GroupId) :
    ((s.procOut g p).group i).procs.length ≤ (s.group i).procs.length := by
  by_cases hi : i = g
  · subst hi
    simpa [State.procOut] using List.length_erase_le
  · simp [State.procOut, hi]

/-! ## Every step -/

/-- A CPU leaves its group; an occupied group does not gain by it. -/
theorem Alone.of_cpuOut (h : Alone s) (c : CpuId) (hpc : ∀ d ≠ c, t.pc d = s.pc d)
    (hgroup : t.group = (s.cpuOut g c).group ∨ t.group = ((s.cpuOut g c).freed g).group)
    (hcpu : t.cpuGroup = (s.cpuOut g c).cpuGroup) : Alone t := by
  refine h.of_step c hpc (fun i hi => ?_) (fun i _ => ?_) (fun i d _ _ hd => ?_) fun i p _ _ hc => ?_
  · rcases hgroup with hgroup | hgroup <;> rw [hgroup] at hi
    · simpa using hi
    · simpa using occupy_freed hi
  · rcases hgroup with hgroup | hgroup <;> simp [hgroup]
  · rw [hcpu] at hd
    exact cpuGroup_cpuOut hd
  · simp [hcpu, State.cpuOut] at hc

/-- A CPU enters a group that is not occupied. -/
theorem Alone.of_cpuIn (h : Alone s) (c : CpuId) (hpc : ∀ d ≠ c, t.pc d = s.pc d)
    (hg : (s.group g).exclusivelyOccupy = false ∨ g = defaultPgroupId)
    (hflag : ∀ i, (t.group i).exclusivelyOccupy = (s.group i).exclusivelyOccupy)
    (hprocs : ∀ i ≠ g, (t.group i).procs = (s.group i).procs)
    (hcpu : t.cpuGroup = (s.cpuIn g c).cpuGroup) : Alone t := by
  have hne : ∀ i, (s.group i).exclusivelyOccupy = true → i ≠ g := by
    rintro i hi rfl
    rcases hg with hg | rfl
    · simp [hg] at hi
    · exact (h _ hi).1 rfl
  refine h.of_step c hpc (fun i hi => by rwa [← hflag]) (fun i hi => by rw [hprocs i (hne i hi)])
    (fun i d hi _ hd => ?_) fun i p hi _ hc => ?_
  · rw [hcpu] at hd
    exact cpuGroup_cpuIn (hne i hi) hd
  · simp only [hcpu, State.cpuIn, setCpuGroup, Function.update_self, Option.some.injEq] at hc
    exact absurd hc.symm (hne i hi)

/-- A CPU takes the process it executes out of its group. -/
theorem Alone.of_procOut (h : Alone s) (hi : Inv s) (hrun : s.pc c = .run p)
    (hc : s.cpuGroup c = some g) (hpc : ∀ d ≠ c, t.pc d = s.pc d)
    (hflag : ∀ i, (t.group i).exclusivelyOccupy = true → (s.group i).exclusivelyOccupy = true)
    (hprocs : ∀ i, (t.group i).procs = ((s.procOut g p).group i).procs)
    (hcpu : ∀ d i, t.cpuGroup d = some i → s.cpuGroup d = some i) : Alone t := by
  refine h.of_step c hpc hflag (fun i _ => ?_) (fun i d _ _ hd => hcpu d i hd) fun i q hocc _ hci => ?_
  · rw [hprocs]
    exact procs_procOut_le i
  · obtain ⟨-, g', hcg', hpg⟩ := hi.at_run hrun
    obtain rfl : i = g := by
      have := hcpu c i hci
      rw [hc] at this
      exact (Option.some.inj this).symm
    obtain rfl : i = g' := by
      rw [hc] at hcg'
      exact Option.some.inj hcg'
    have hmem : p ∈ (s.group i).procs := (hi.roster.procs i p).mpr hpg
    have hlen := (h i hocc).2.procs
    refine .inr ?_
    rw [hprocs]
    simp only [State.procOut, setGroup, setProcGroup, Function.update_self]
    refine List.length_eq_zero_iff.mp ?_
    rw [List.length_erase_of_mem hmem]
    omega

/-- The process a CPU was moving comes into the CPU's group: if that is occupied, it is the only
one there. -/
theorem Alone.of_rejoin (h : Alone s) (hi : Inv s) (hpc : (s.pc c).rejoins = some (p, g)) :
    Alone ((s.procIn g p).setPc c (.run p)) := by
  obtain ⟨hmove, hc⟩ : (s.pc c).moves = some p ∧ s.cpuGroup c = some g := by
    have hok := hi.here c
    cases hk : s.pc c <;> rw [hk] at hpc hok <;> cases hpc
    · exact ⟨rfl, hok.2.2.1⟩
    · exact ⟨rfl, hok.2.2.1⟩
  intro i hocc
  replace hocc : (s.group i).exclusivelyOccupy = true := by simpa using hocc
  obtain ⟨hid, hsole⟩ := h i hocc
  by_cases hig : i = g
  · subst hig
    have hnil := hsole.moving c p hmove hc
    refine ⟨hid, by simp [State.procIn, hnil], hsole.cpus, fun d q hd hdg => ?_⟩
    obtain rfl := hsole.cpus d c hdg hc
    simp [Pc.moves] at hd
  · refine ⟨hid, by simpa [State.procIn, hig] using hsole.procs, hsole.cpus, fun d q hd hdg => ?_⟩
    by_cases hdc : d = c
    · subst hdc
      simp [Pc.moves] at hd
    · simpa [State.procIn, hig] using hsole.moving d q (by simpa [State.procIn, hdc] using hd) hdg

/-- `proc_occupy_cpu` and `proc_release_cpu` check first. -/
theorem Alone.of_occupy (h : Alone s) (hi : Inv s) (hrun : s.pc c = .run p)
    (hc : s.cpuGroup c = some g) (hprocs : pgroupProcsCountUnsafe (s.group g) = 1)
    (hcpus : pgroupCpuCountUnsafe (s.group g) = 1) {b : Bool}
    (hgd : b = true → g ≠ defaultPgroupId) : Alone (s.occupied g b) := by
  intro i hocc
  by_cases hig : i = g
  · subst hig
    obtain rfl : b = true := by simpa [State.occupied] using hocc
    have hone : ∀ d, s.cpuGroup d = some i → d = c := by
      intro d hd
      by_contra hne
      rw [hi.roster.count_eq, Finset.card_eq_one] at hcpus
      obtain ⟨e, he⟩ := hcpus
      have hde : d ∈ ({e} : Finset CpuId) := by rw [← he]; simpa using hd
      have hce : c ∈ ({e} : Finset CpuId) := by rw [← he]; simpa using hc
      rw [Finset.mem_singleton] at hde hce
      exact hne (hde.trans hce.symm)
    refine ⟨hgd rfl, ?_, fun d e hd he => (hone d hd).trans (hone e he).symm, fun d q hd hdg => ?_⟩
    · rw [procs_occupied]
      exact hprocs.le
    · obtain rfl := hone d hdg
      simp [State.occupied, hrun, Pc.moves] at hd
  · replace hocc : (s.group i).exclusivelyOccupy = true := by simpa [State.occupied, hig] using hocc
    obtain ⟨hid, hsole⟩ := h i hocc
    exact ⟨hid, by simpa using hsole.procs, hsole.cpus, fun d q hd hdg => by
      simpa using hsole.moving d q hd hdg⟩

/-- **A step that keeps everybody out of the occupied groups leaves them alone.** -/
theorem Alone.of_effect (h : Alone s) (hi : Inv s) (hout : KeepsOut s a) (he : Effect s a t) :
    Alone t := by
  cases he with
  | idle => exact h
  | goto c k hgo _ _ =>
    refine h.of_same c (fun d hd => by simp [hd]) rfl rfl fun p hp => ?_
    cases hk : s.pc c <;> rw [hk] at hgo <;> cases hgo <;> simp_all [Pc.moves]
  | enterDefault c k hk _ =>
    exact h.of_cpuIn (g := defaultPgroupId) c (fun d hd => by simp [State.cpuIn, hd]) (.inr rfl)
      (by simp) (by simp) rfl
  | count c k hk _ =>
    refine h.of_same c (fun d hd => by simp [hd]) rfl rfl fun p hp => ?_
    cases hpc : s.pc c <;> rw [hpc] at hk <;> cases hk <;> simp [Pc.moves] at hp
  | negative c _ => exact h.of_same c (fun d hd => by simp [hd]) rfl rfl (by simp [Pc.moves])
  | refused c g e _ _ => exact h.of_same c (fun d hd => by simp [hd]) rfl rfl (by simp [Pc.moves])
  | take c _ _ => exact h.of_same c (fun d hd => by simp [hd]) rfl rfl (by simp [Pc.moves])
  | tooMany c m _ _ _ => exact h.of_same c (fun d hd => by simp [hd]) rfl rfl (by simp [Pc.moves])
  | acquireLeave c m _ _ _ =>
    exact h.of_cpuOut (g := defaultPgroupId) c (fun d hd => by simp [State.cpuOut, hd]) (.inl rfl) rfl
  | acquireEnter c m hpc _ _ _ =>
    exact h.of_cpuIn (g := m.group) c (fun d hd => by simp [State.cpuIn, hd])
      (.inl (hout c m.group rfl (by rw [hpc]; rfl))) (by simp) (by simp) rfl
  | acquireEnterFlex c m hpc _ _ _ =>
    exact h.of_cpuIn (g := m.group) c (fun d hd => by simp [State.cpuIn, hd])
      (.inl (hout c m.group rfl (by rw [hpc]; rfl))) (by simp) (by simp) rfl
  | acquireWake c m hpc =>
    exact h.of_same c (fun d hd => by simp [wakeUp, hd]) rfl rfl (by simp [Pc.moves])
  | acquireBack c _ _ =>
    exact h.of_cpuIn (g := defaultPgroupId) c (fun d hd => by simp [State.cpuIn, hd]) (.inr rfl)
      (by simp) (by simp) rfl
  | acquireBackCount c _ _ => exact h.of_same c (fun d hd => by simp [hd]) rfl rfl (by simp [Pc.moves])
  | leave c g _ _ _ _ =>
    exact h.of_cpuOut (g := g) c (fun d hd => by simp [State.cpuOut, hd]) (.inl rfl) rfl
  | leaveLast c g _ _ _ _ _ =>
    exact h.of_cpuOut (g := g) c (fun d hd => by simp [State.freed, State.cpuOut, hd]) (.inr rfl) rfl
  | lockGroup c g _ _ _ => exact h.of_same c (fun d hd => by simp [hd]) rfl rfl (by simp [Pc.moves])
  | dispatchNone c g _ => exact h.of_same c (fun d hd => by simp [hd]) rfl rfl (by simp [Pc.moves])
  | dispatch c g q rest hpc hst =>
    refine h.of_step c (fun d hd => by simp [procMoveToTail, hd]) (by simp) (fun i _ => ?_)
      (fun _ _ _ _ hd => hd) (by simp [Pc.moves])
    have hq : q ∈ (s.group g).procs := by
      have hok := hi.here c
      rw [hpc] at hok
      exact hok.2.2 q List.mem_cons_self
    have hpos := List.length_pos_of_mem hq
    by_cases hig : i = g
    · subst hig
      simp [procMoveToTail, List.length_erase_of_mem hq]
      omega
    · simp [procMoveToTail, hig]
  | switchOut c p st ch _ => exact h.of_same c (fun d hd => by simp [hd]) rfl rfl (by simp [Pc.moves])
  | incSleep c p g _ => exact h.of_same c (fun d hd => by simp [hd]) rfl rfl (by simp [Pc.moves])
  | createKeep c p g hpc _ _ hc _ _ _ =>
    refine h.of_step c (fun d hd => rfl) (by simp) (fun i _ => ?_) (fun _ _ _ _ hd => hd)
      fun i q _ hq _ => .inl hq
    obtain ⟨-, g', hcg', hpg⟩ := hi.at_run hpc
    obtain rfl : g = g' := by
      rw [hc] at hcg'
      exact Option.some.inj hcg'
    have hmem : p ∈ (s.group g).procs := (hi.roster.procs g p).mpr hpg
    have hpos := List.length_pos_of_mem hmem
    by_cases hig : i = g
    · subst hig
      simp [State.procIn, State.procOut, List.length_erase_of_mem hmem]
      omega
    · simp [State.procIn, State.procOut, hig]
  | createAsk c p hpc _ _ hc _ _ =>
    exact h.of_procOut hi hpc hc (fun d hd => by simp [State.cpuOut, State.procOut, hd]) (by simp)
      (by simp) fun d i hd => by simpa [State.procOut] using cpuGroup_cpuOut hd
  | createLeave c p g hpc _ _ hc _ _ _ =>
    exact h.of_procOut hi hpc hc (fun d hd => by simp [State.cpuOut, State.procOut, hd]) (by simp)
      (by simp) fun d i hd => by simpa [State.procOut] using cpuGroup_cpuOut hd
  | createLast c p g hpc _ _ hc _ _ _ _ =>
    exact h.of_procOut hi hpc hc (fun d hd => by simp [State.freed, State.cpuOut, State.procOut, hd])
      (fun i hocc => by simpa using occupy_freed hocc) (by simp)
      fun d i hd => by simpa [State.procOut] using cpuGroup_cpuOut hd
  | createGo c p hpc _ =>
    exact h.of_same c (fun d hd => by simp [hd]) rfl rfl (by simp [hpc, Pc.moves])
  | createBack c p _ _ =>
    exact h.of_cpuIn (g := defaultPgroupId) c (fun d hd => by simp [State.procIn, State.cpuIn, hd])
      (.inr rfl) (by simp) (fun i hi => by simp [State.procIn, State.cpuIn, hi]) rfl
  | allocTake c p g hpc hid =>
    refine h.of_cpuIn (g := g) c (fun d hd => by simp [State.cpuIn, State.claimed, hd]) (.inl ?_)
      (by simp) (by simp) rfl
    exact (hi.roster.unused g (hi.roster.id_eq_none_iff.mp hid)).2.2
  | allocNext c p g hpc _ =>
    exact h.of_same c (fun d hd => by simp [hd]) rfl rfl (by simp [hpc, Pc.moves])
  | noSlot c p i _ _ => exact h.of_same c (fun d hd => by simp [hd]) rfl rfl (by simp [Pc.moves])
  | rejoin c p g hpc _ => exact h.of_rejoin hi hpc
  | enterLeave c p old new hpc _ _ hc _ _ =>
    exact h.of_procOut hi hpc hc (fun d hd => by simp [State.procOut, hd]) (by simp) (by simp)
      fun d i hd => hd
  | enterNew c p old new hpc _ _ =>
    have hfree := hout c new rfl (by rw [hpc]; rfl)
    refine h.of_step c (fun d hd => by simp [State.procIn, hd]) (by simp) (fun i hocc => ?_)
      (fun _ _ _ _ hd => hd) (by simp [Pc.moves])
    have hin : i ≠ new := by
      rintro rfl
      simp [hfree] at hocc
    simp [State.procIn, hin]
  | exitLeave c p g hpc _ _ hc _ =>
    exact h.of_procOut hi hpc hc (fun d hd => by simp [State.procOut, hd]) (by simp) (by simp)
      fun d i hd => hd
  | decLeave c p g _ _ _ _ =>
    exact h.of_cpuOut (g := g) c (fun d hd => by simp [State.cpuOut, hd]) (.inl rfl) rfl
  | decLast c p g _ _ _ _ _ =>
    exact h.of_cpuOut (g := g) c (fun d hd => by simp [State.freed, State.cpuOut, hd]) (.inr rfl) rfl
  | occupy c p g b _ hpc hc hprocs hcpus hgd => exact h.of_occupy hi hpc hc hprocs hcpus hgd
  | boxFull c p ty _ _ _ g l _ =>
    exact h.of_same c (fun d hd => by simp [hd]) rfl rfl (by simp [Pc.moves])
  | sendWait c p g m _ _ _ _ _ _ _ =>
    exact h.of_same c (fun d hd => by simp [hd]) rfl rfl (by simp [Pc.moves])
  | forkInsert p q g _ _ _ hocc =>
    refine h.of_step 0 (fun d hd => rfl) (by simp) (fun i hi => ?_) (fun _ _ _ _ hd => hd)
      fun i q _ hq _ => .inl hq
    have hne : i ≠ g := by
      rintro rfl
      simp [hocc] at hi
    simp [State.procIn, hne]
  | ask | askNone | reserve | sendFlex | forkAlloc | forkRunable | forkFail | wake | reap =>
    exact h.of_same 0 (fun d hd => rfl) rfl rfl fun p hp => hp

theorem Alone.boot : Alone boot := by
  intro g hg
  by_cases h : g = defaultPgroupId <;> simp [Pgroup.boot, h, emptyGroup] at hg

/-! ## Who occupies -/

/-- The process and its group, if the step is a `proc_occupy_cpu` that succeeds. -/
def occupies (s : State) : Act → Option (ProcId × GroupId)
  | .call c .procOccupyCpu =>
    match s.pc c with
    | .run p =>
      match s.procGroup p with
      | some g =>
        if g ≠ defaultPgroupId ∧ pgroupProcsCountUnsafe (s.group g) = 1 ∧
          pgroupCpuCountUnsafe (s.group g) = 1 then some (p, g) else none
      | none => none
    | _ => none
  | _ => none

/-- The process has exited, or is in another group. -/
def Gone (s : State) (g : GroupId) (p : ProcId) : Prop :=
  s.status p = .zombie ∨ s.status p = .unused ∨ s.procGroup p ≠ none ∧ s.procGroup p ≠ some g

instance : Decidable (Gone s g p) := inferInstanceAs (Decidable (_ ∨ _ ∨ _ ∧ _))

/-- **The record of who occupies a group**: from its `proc_occupy_cpu` until `exclusively_occupy` is
cleared or the process is gone. -/
def occupier (s : State) (a : Act) (t : State) (occ : GroupId → Option ProcId) (g : GroupId) :
    Option ProcId :=
  if (t.group g).exclusivelyOccupy = false then none
  else
    match occupies s a with
    | some (p, g') => if g' = g then some p else (occ g).filter fun q => ¬Gone t g q
    | none => (occ g).filter fun q => ¬Gone t g q

/-- The group subsystem, with the occupiers. -/
abbrev occupyStep :
    State × (GroupId → Option ProcId) → Act → Option (State × (GroupId → Option ProcId)) :=
  Run.watch step occupier

/-- **The occupying process is alone in its group.** -/
def Exclusive (x : State × (GroupId → Option ProcId)) : Prop :=
  ∀ g p, (x.1.group g).exclusivelyOccupy = true → x.2 g = some p → x.1.procGroup p = some g →
    pgroupProcsCountUnsafe (x.1.group g) = 1 ∧ pgroupCpuCountUnsafe (x.1.group g) = 1

/-- **Exclusive occupation**: in every run in which no process enters, and no CPU is handed over to, a
group whose `exclusively_occupy` is set, an occupying process that has not left its group is the only
process there and has the only CPU. -/
theorem exclusive_occupation {x : State × (GroupId → Option ProcId)}
    (hx : Run.Reach occupyStep (fun x a => KeepsOut x.1 a) (boot, fun _ => none) x) :
    Exclusive x := by
  have halone : Alone x.1 := by
    refine hx.invariant_with (P := fun x => Alone x.1) Alone.boot fun y a z hy h hout hstep => ?_
    have hi := Reachable.inv hy.fst
    exact h.of_effect hi hout (hi.effect (Run.watch_eq_some_iff.mp hstep).1)
  intro g p hocc _ hp
  have hi := Reachable.inv hx.fst
  obtain ⟨-, hsole⟩ := halone g hocc
  have hmem : p ∈ (x.1.group g).procs := (hi.roster.procs g p).mpr hp
  have hpos := List.length_pos_of_mem hmem
  have hlen := hsole.procs
  refine ⟨by unfold pgroupProcsCountUnsafe; omega, ?_⟩
  obtain ⟨c, hc⟩ : ∃ c, x.1.cpuGroup c = some g := by
    by_contra hno
    have hid := hi.roster.id_eq_none_iff.mpr fun c hc => hno ⟨c, hc⟩
    rw [hi.roster.id_of_proc hp] at hid
    cases hid
  rw [hi.roster.count_eq, Finset.card_eq_one]
  refine ⟨c, Finset.ext fun d => ?_⟩
  simp only [Finset.mem_filter, Finset.mem_univ, true_and, Finset.mem_singleton]
  exact ⟨fun hd => hsole.cpus d c hd hc, fun hd => hd ▸ hc⟩

/-- Process 1 takes CPU 1 into a group of its own and occupies it; process 2 is dispatched on
CPU 2. -/
def occupyRun : List Act :=
  [.cpu 1, .cpu 1, .cpu 2, .cpu 2,
    .cpu 0, .cpu 0, .cpu 0, .call 0 (.fork 1), .cpu 0, .cpu 0,
    .cpu 1, .cpu 1, .cpu 1, .call 1 .createPgroup, .cpu 1, .cpu 1, .cpu 1, .cpu 1,
    .call 1 .procOccupyCpu, .call 0 (.fork 2), .cpu 0, .cpu 0, .cpu 2, .cpu 2, .cpu 2]

/-- The theorem there. -/
theorem exclusive_occupation_occupyRun :
    ∃ x, Run.Reach occupyStep (fun x a => KeepsOut x.1 a) (boot, fun _ => none) x ∧
      x.2 1 = some 1 ∧ pgroupProcsCountUnsafe (x.1.group 1) = 1 ∧
      pgroupCpuCountUnsafe (x.1.group 1) = 1 := by
  have hrun : (Run.run (Run.guard occupyStep fun x a => decide (KeepsOut x.1 a))
      (boot, fun _ => none) occupyRun).map (fun x =>
        ((x.1.group 1).exclusivelyOccupy, x.2 1, x.1.procGroup 1)) =
      some (true, some 1, some 1) := by decide +kernel
  obtain ⟨x, hx, hlook⟩ := Option.map_eq_some_iff.mp hrun
  simp only [Prod.mk.injEq] at hlook
  obtain ⟨hocc, hp, hg⟩ := hlook
  have hreach : Run.Reach occupyStep (fun x a => KeepsOut x.1 a) (boot, fun _ => none) x :=
    Run.reach_of_guard (fun _ _ h => of_decide_eq_true h) .refl hx
  exact ⟨x, hreach, hp, exclusive_occupation hreach 1 1 hocc hp hg⟩

/-- **A second process enters an occupied group**: process 2 calls `enter_pgroup(1)`, which does not
look at `exclusively_occupy`. -/
theorem not_exclusive_occupation :
    ¬∀ x, Run.Reachable occupyStep (boot, fun _ => none) x → Exclusive x := by
  intro hall
  have hrun : (Run.run occupyStep (boot, fun _ => none)
      (occupyRun ++ [.call 2 (.enterPgroup 1), .cpu 2])).map (fun x =>
        ((x.1.group 1).exclusivelyOccupy, x.2 1, x.1.procGroup 1, (x.1.group 1).procs)) =
      some (true, some 1, some 1, [2, 1]) := by decide +kernel
  obtain ⟨x, hx, hlook⟩ := Option.map_eq_some_iff.mp hrun
  simp only [Prod.mk.injEq] at hlook
  obtain ⟨hocc, hp, hg, hprocs⟩ := hlook
  have hone := (hall x (Run.reachable_of_run .refl hx) 1 1 hocc hp hg).1
  simp [pgroupProcsCountUnsafe, hprocs] at hone

end Pgroup
