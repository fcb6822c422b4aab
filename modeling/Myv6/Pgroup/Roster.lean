import Myv6.Pgroup.Step

/-!
# Pgroup/Roster — the group arrays are the graph of two maps

`cpuGroup` sends a CPU to its group and `procGroup` a process to its group.  `Roster` says that the
arrays in `proc_group_set` hold nothing else: `cpus[c]` is the graph of `cpuGroup`, the process lists
are the fibres of `procGroup`, and a slot is in use exactly when some CPU is sent to it.

The four moves — a CPU or a process, out of a group or into one — are named here, with the section
that performs each and what it does to a roster.
-/

namespace Pgroup

open State

/-- **The group arrays, read off `cpuGroup` and `procGroup`.** -/
structure Roster (s : State) : Prop where
  cpus : ∀ g c, (s.group g).cpus c = if s.cpuGroup c = some g then some c else none
  used : ∀ g c, s.cpuGroup c = some g → (s.group g).id = some g
  unused : ∀ g, (∀ c, s.cpuGroup c ≠ some g) →
    (s.group g).id = none ∧ (s.group g).procs = [] ∧ (s.group g).exclusivelyOccupy = false
  procs : ∀ g q, q ∈ (s.group g).procs ↔ s.procGroup q = some g
  nodup : ∀ g, (s.group g).procs.Nodup

variable {s t : State} {g : GroupId} {c : CpuId} {p : ProcId}

/-- A roster reads three fields. -/
theorem Roster.congr (h : Roster s) (hg : t.group = s.group) (hc : t.cpuGroup = s.cpuGroup)
    (hp : t.procGroup = s.procGroup) : Roster t := by
  refine ⟨?_, ?_, ?_, ?_, ?_⟩
  · rw [hg, hc]; exact h.cpus
  · rw [hg, hc]; exact h.used
  · rw [hg, hc]; exact h.unused
  · rw [hg, hp]; exact h.procs
  · rw [hg]; exact h.nodup

/-- A slot is free exactly when no CPU is sent to it. -/
theorem Roster.id_eq_none_iff (h : Roster s) :
    (s.group g).id = none ↔ ∀ c, s.cpuGroup c ≠ some g := by
  refine ⟨fun hid c hc => ?_, fun hc => (h.unused g hc).1⟩
  rw [h.used g c hc] at hid
  cases hid

/-- A slot in use carries its own index. -/
theorem Roster.id_eq_some (h : Roster s) (hid : (s.group g).id ≠ none) :
    (s.group g).id = some g := by
  by_contra hne
  refine hid (h.id_eq_none_iff.mpr fun c hc => hne (h.used g c hc))

/-- A group with a process has a CPU. -/
theorem Roster.id_of_proc (h : Roster s) (hp : s.procGroup p = some g) :
    (s.group g).id = some g := by
  refine h.id_eq_some fun hid => ?_
  have hmem : p ∈ (s.group g).procs := (h.procs g p).mpr hp
  rw [(h.unused g (h.id_eq_none_iff.mp hid)).2.1] at hmem
  cases hmem

/-! ## The moves -/

namespace State

/-- CPU `c` out of group `g`. -/
def cpuOut (s : State) (g : GroupId) (c : CpuId) : State :=
  (s.setGroup g { s.group g with cpus := Function.update (s.group g).cpus c none }).setCpuGroup c none

/-- CPU `c` into group `g`. -/
def cpuIn (s : State) (g : GroupId) (c : CpuId) : State :=
  (s.setGroup g { s.group g with cpus := Function.update (s.group g).cpus c (some c) }).setCpuGroup c
    (some g)

/-- Process `p` out of group `g`. -/
def procOut (s : State) (g : GroupId) (p : ProcId) : State :=
  (s.setGroup g { s.group g with procs := (s.group g).procs.erase p }).setProcGroup p none

/-- Process `p` into group `g`, first in its list. -/
def procIn (s : State) (g : GroupId) (p : ProcId) : State :=
  (s.setGroup g { s.group g with procs := p :: (s.group g).procs }).setProcGroup p (some g)

/-- Slot `g` given up. -/
def freed (s : State) (g : GroupId) : State :=
  s.setGroup g { s.group g with id := none, exclusivelyOccupy := false }

/-- Slot `g` taken. -/
def claimed (s : State) (g : GroupId) : State := s.setGroup g { s.group g with id := some g }

/-- Exclusive occupation of group `g` switched on or off. -/
def occupied (s : State) (g : GroupId) (b : Bool) : State :=
  s.setGroup g { s.group g with exclusivelyOccupy := b }

end State

attribute [simp] State.setGroup State.setLock State.setCpuGroup State.setPc State.setProcGroup
  State.setStatus State.setChain State.setKpc State.setInserted State.stop State.switchToScheduler

/-! A CPU's move, and the marking of a slot, leave every process list alone. -/

@[simp] theorem procs_cpuOut (i : GroupId) :
    ((s.cpuOut g c).group i).procs = (s.group i).procs := by
  by_cases hi : i = g <;> simp [State.cpuOut, hi]

@[simp] theorem procs_cpuIn (i : GroupId) :
    ((s.cpuIn g c).group i).procs = (s.group i).procs := by
  by_cases hi : i = g <;> simp [State.cpuIn, hi]

@[simp] theorem procs_freed (i : GroupId) :
    ((s.freed g).group i).procs = (s.group i).procs := by
  by_cases hi : i = g <;> simp [State.freed, hi]

@[simp] theorem procs_claimed (i : GroupId) :
    ((s.claimed g).group i).procs = (s.group i).procs := by
  by_cases hi : i = g <;> simp [State.claimed, hi]

@[simp] theorem procs_occupied (b : Bool) (i : GroupId) :
    ((s.occupied g b).group i).procs = (s.group i).procs := by
  by_cases hi : i = g <;> simp [State.occupied, hi]

/-! ## The sections that perform them -/

theorem removeMyCpu_eq (h : Roster s) (hc : s.cpuGroup c = some g) :
    s.removeMyCpuFromPgroup g c = .ok (s.cpuOut g c) := by
  have hcpu : (s.group g).cpus c = some c := by rw [h.cpus, if_pos hc]
  rw [removeMyCpuFromPgroup, if_neg (by rw [hcpu, hc, h.used g c hc]; simp)]
  rfl

theorem addMyCpu_eq (hid : (s.group g).id = some g) (hc : s.cpuGroup c = none)
    (hcpu : (s.group g).cpus c = none) : s.addMyCpuToPgroup g c = .ok (s.cpuIn g c) := by
  rw [addMyCpuToPgroup, if_neg (by rw [hcpu, hc]; simp), hid]
  rfl

/-- A CPU in no group is added to any slot in use. -/
theorem Roster.addMyCpu_eq (h : Roster s) (hid : (s.group g).id = some g)
    (hc : s.cpuGroup c = none) : s.addMyCpuToPgroup g c = .ok (s.cpuIn g c) :=
  Pgroup.addMyCpu_eq hid hc (by rw [h.cpus, hc]; rfl)

theorem removeMyProc_eq (hp : s.procGroup p = some g) :
    s.removeMyProcFromPgroup g p = .ok (s.procOut g p) := by
  rw [removeMyProcFromPgroup, if_neg (by rw [hp]; simp)]
  rfl

theorem addMyProc_eq (hid : (s.group g).id = some g) (hp : s.procGroup p = none) :
    s.addMyProcToPgroup g p = .ok (s.procIn g p) := by
  rw [addMyProcToPgroup, if_neg (by rw [hp]; simp), hid]
  rfl

/-! ## What the moves do to a roster -/

/-- **Only group `g` has to be looked at**, when only `g`'s slot changes and no other group gains or
loses anyone. -/
theorem Roster.update {G : ProcGroup} (h : Roster s) (ht : t.group = Function.update s.group g G)
    (hcpu : ∀ i ≠ g, ∀ d, t.cpuGroup d = some i ↔ s.cpuGroup d = some i)
    (hproc : ∀ i ≠ g, ∀ q, t.procGroup q = some i ↔ s.procGroup q = some i)
    (cpus : ∀ d, G.cpus d = if t.cpuGroup d = some g then some d else none)
    (used : ∀ d, t.cpuGroup d = some g → G.id = some g)
    (unused : (∀ d, t.cpuGroup d ≠ some g) →
      G.id = none ∧ G.procs = [] ∧ G.exclusivelyOccupy = false)
    (procs : ∀ q, q ∈ G.procs ↔ t.procGroup q = some g) (nodup : G.procs.Nodup) : Roster t := by
  have hself : t.group g = G := by rw [ht, Function.update_self]
  have hne : ∀ i ≠ g, t.group i = s.group i := fun i hi => by rw [ht, Function.update_of_ne hi]
  refine ⟨fun i d => ?_, fun i d hd => ?_, fun i hi => ?_, fun i q => ?_, fun i => ?_⟩
  all_goals by_cases hig : i = g
  · subst hig; rw [hself]; exact cpus d
  · rw [hne i hig, h.cpus]; simp only [hcpu i hig d]
  · subst hig; rw [hself]; exact used d hd
  · rw [hne i hig]; exact h.used i d ((hcpu i hig d).mp hd)
  · subst hig; rw [hself]; exact unused hi
  · rw [hne i hig]; exact h.unused i fun d hd => hi d ((hcpu i hig d).mpr hd)
  · subst hig; rw [hself]; exact procs q
  · rw [hne i hig, h.procs, hproc i hig q]
  · subst hig; rw [hself]; exact nodup
  · rw [hne i hig]; exact h.nodup i

/-- Re-sending one point of a map between `none` and `g` is seen at `g` alone. -/
theorem update_eq_some_iff {α : Type*} [DecidableEq α] {f : α → Option GroupId} {a : α}
    {v : Option GroupId} (hf : f a = none ∨ f a = some g) (hv : v = none ∨ v = some g) :
    ∀ i ≠ g, ∀ b, Function.update f a v b = some i ↔ f b = some i := by
  intro i hi b
  by_cases hb : b = a
  · subst hb
    rw [Function.update_self]
    rcases hf with hf | hf <;> rcases hv with rfl | rfl <;> simp [hf, hi.symm]
  · rw [Function.update_of_ne hb]

theorem Roster.procOut (h : Roster s) (hp : s.procGroup p = some g) : Roster (s.procOut g p) := by
  refine h.update rfl (fun _ _ _ => Iff.rfl) (update_eq_some_iff (.inr hp) (.inl rfl)) (h.cpus g)
    (h.used g) (fun hc => ?_) (fun q => ?_) ((h.nodup g).erase p)
  · obtain ⟨hid, hnil, hex⟩ := h.unused g hc
    exact ⟨hid, by simp [hnil], hex⟩
  · change q ∈ (s.group g).procs.erase p ↔ Function.update s.procGroup p none q = some g
    rw [(h.nodup g).mem_erase_iff, h.procs]
    by_cases hq : q = p <;> simp [hq]

theorem Roster.procIn (h : Roster s) (hid : (s.group g).id = some g)
    (hp : s.procGroup p = none) : Roster (s.procIn g p) := by
  have hmem : p ∉ (s.group g).procs := by rw [h.procs, hp]; simp
  refine h.update rfl (fun _ _ _ => Iff.rfl) (update_eq_some_iff (.inl hp) (.inr rfl)) (h.cpus g)
    (h.used g) (fun hc => ?_) (fun q => ?_) (List.nodup_cons.mpr ⟨hmem, h.nodup g⟩)
  · exact absurd (h.id_eq_none_iff.mpr hc) (by rw [hid]; simp)
  · change q ∈ p :: (s.group g).procs ↔ Function.update s.procGroup p (some g) q = some g
    rw [List.mem_cons, h.procs]
    by_cases hq : q = p <;> simp [hq]

/-- The CPU array of a group one CPU has left. -/
theorem Roster.cpus_cpuOut (h : Roster s) (d : CpuId) :
    Function.update (s.group g).cpus c none d
      = if Function.update s.cpuGroup c none d = some g then some d else none := by
  by_cases hd : d = c
  · subst hd; simp
  · rw [Function.update_of_ne hd, Function.update_of_ne hd, h.cpus]

/-- A CPU may go as long as another stays. -/
theorem Roster.cpuOut (h : Roster s) (hc : s.cpuGroup c = some g)
    (hother : ∃ d, d ≠ c ∧ s.cpuGroup d = some g) : Roster (s.cpuOut g c) := by
  obtain ⟨d, hdc, hd⟩ := hother
  refine h.update rfl (update_eq_some_iff (.inr hc) (.inl rfl)) (fun _ _ _ => Iff.rfl)
    h.cpus_cpuOut (fun _ _ => h.used g c hc) (fun hno => ?_) (h.procs g) (h.nodup g)
  exact (hno d (by simpa [State.cpuOut, hdc] using hd)).elim

/-- The last CPU of a group without processes goes and frees it. -/
theorem Roster.cpuOut_freed (h : Roster s) (hc : s.cpuGroup c = some g)
    (hlast : ∀ d, s.cpuGroup d = some g → d = c) (hprocs : (s.group g).procs = []) :
    Roster ((s.cpuOut g c).freed g) := by
  refine h.update (G := ⟨none, (s.group g).procs, Function.update (s.group g).cpus c none, false⟩)
    (by simp [State.freed, State.cpuOut]) (update_eq_some_iff (.inr hc) (.inl rfl))
    (fun _ _ _ => Iff.rfl) h.cpus_cpuOut (fun d hd => ?_) (fun _ => ⟨rfl, hprocs, rfl⟩)
    (h.procs g) (h.nodup g)
  change Function.update s.cpuGroup c none d = some g at hd
  by_cases hdc : d = c
  · subst hdc; simp at hd
  · exact absurd (hlast d ((Function.update_of_ne hdc none s.cpuGroup).symm.trans hd)) hdc

/-- A CPU in no group enters a slot, which is marked in use with it. -/
theorem Roster.cpuIn_claimed (h : Roster s) (hc : s.cpuGroup c = none) :
    Roster ((s.claimed g).cpuIn g c) := by
  refine h.update (G := { s.group g with
      id := some g, cpus := Function.update (s.group g).cpus c (some c) })
    (by simp [State.claimed, State.cpuIn]) (update_eq_some_iff (.inl hc) (.inr rfl))
    (fun _ _ _ => Iff.rfl) (fun d => ?_) (fun _ _ => rfl) (fun hno => ?_) (h.procs g) (h.nodup g)
  · change Function.update (s.group g).cpus c (some c) d
      = if Function.update s.cpuGroup c (some g) d = some g then some d else none
    by_cases hd : d = c
    · subst hd; simp
    · rw [Function.update_of_ne hd, Function.update_of_ne hd, h.cpus]
  · exact (hno c (by simp [State.cpuIn])).elim

/-- Claiming a slot that is in use changes nothing. -/
theorem claimed_eq (hid : (s.group g).id = some g) : s.claimed g = s := by
  have hG : ({ s.group g with id := some g } : ProcGroup) = s.group g := by rw [← hid]
  simp [State.claimed, hG]

theorem Roster.cpuIn (h : Roster s) (hid : (s.group g).id = some g) (hc : s.cpuGroup c = none) :
    Roster (s.cpuIn g c) := by
  have := h.cpuIn_claimed (g := g) hc
  rwa [claimed_eq hid] at this

theorem Roster.occupied (h : Roster s) (hid : (s.group g).id = some g) (b : Bool) :
    Roster (s.occupied g b) := by
  refine h.update rfl (fun _ _ _ => Iff.rfl) (fun _ _ _ => Iff.rfl) (h.cpus g) (h.used g)
    (fun hc => ?_) (h.procs g) (h.nodup g)
  exact absurd (h.id_eq_none_iff.mpr hc) (by rw [hid]; simp)

/-- Moving a process to the tail of its list permutes the list. -/
theorem Roster.procMoveToTail (h : Roster s) (hp : s.procGroup p = some g) :
    Roster (s.procMoveToTail g p) := by
  have hperm : ((s.group g).procs.erase p ++ [p]).Perm (s.group g).procs :=
    List.perm_append_comm.trans (List.perm_cons_erase ((h.procs g p).mpr hp)).symm
  refine h.update rfl (fun _ _ _ => Iff.rfl) (fun _ _ _ => Iff.rfl) (h.cpus g) (h.used g)
    (fun hc => ?_) (fun q => hperm.mem_iff.trans (h.procs g q)) (hperm.nodup_iff.mpr (h.nodup g))
  exact absurd (h.id_eq_none_iff.mpr hc) (by rw [h.id_of_proc hp]; simp)

/-! ## Counting the CPUs of a group -/

theorem count_cpuOut_eq_zero_iff (h : Roster s) :
    pgroupCpuCountUnsafe ((s.cpuOut g c).group g) = 0 ↔ ∀ d, s.cpuGroup d = some g → d = c := by
  simp only [pgroupCpuCountUnsafe, Finset.card_eq_zero, Finset.filter_eq_empty_iff,
    Finset.mem_univ, true_implies, not_not, State.cpuOut, setGroup, setCpuGroup,
    Function.update_self, Function.update_apply, h.cpus]
  refine forall_congr' fun d => ?_
  by_cases hdc : d = c <;> simp [hdc]

/-- The default group's count is the number of CPUs sent to it. -/
theorem Roster.count_eq (h : Roster s) :
    pgroupCpuCountUnsafe (s.group g)
      = (Finset.univ.filter fun d : CpuId => s.cpuGroup d = some g).card := by
  simp only [pgroupCpuCountUnsafe, h.cpus]
  congr 1
  refine Finset.filter_congr fun d _ => ?_
  by_cases hd : s.cpuGroup d = some g <;> simp [hd]

/-- Out of a group and in again is nowhere. -/
theorem cpuIn_cpuOut (h : Roster s) (hc : s.cpuGroup c = some g) :
    (s.cpuOut g c).cpuIn g c = s := by
  have hcpu : (s.group g).cpus c = some c := by rw [h.cpus, if_pos hc]
  have hG : Function.update (Function.update (s.group g).cpus c none) c (some c)
      = (s.group g).cpus := by
    rw [Function.update_idem, ← hcpu, Function.update_eq_self]
  have hself : Function.update s.cpuGroup c (some g) = s.cpuGroup := by
    rw [← hc, Function.update_eq_self]
  simp [State.cpuIn, State.cpuOut, hG, hself]

/-- **What `cpu_leave_pgroup` does**: the CPU goes if another stays, or if the group has no process
left and is freed with it; otherwise nothing changes. -/
theorem cpuLeave_cases (h : Roster s) (hc : s.cpuGroup c = some g)
    (hdef : (s.group defaultPgroupId).procs ≠ []) :
    ((∃ d, d ≠ c ∧ s.cpuGroup d = some g) ∧
      s.cpuLeavePgroup c
        = .ok (s.cpuOut g c, if g ≠ defaultPgroupId then .left else .asks)) ∨
    ((∀ d, s.cpuGroup d = some g → d = c) ∧ (s.group g).procs = [] ∧ g ≠ defaultPgroupId ∧
      s.cpuLeavePgroup c = .ok ((s.cpuOut g c).freed g, .left)) ∨
    ((∀ d, s.cpuGroup d = some g → d = c) ∧ (s.group g).procs ≠ [] ∧
      s.cpuLeavePgroup c = .ok (s, .stays)) := by
  have hleave : s.cpuLeavePgroup c = do
      let t ← Except.ok (s.cpuOut g c)
      if pgroupCpuCountUnsafe (t.group g) ≠ 0 then
        return (t, if g ≠ defaultPgroupId then .left else .asks)
      else if (t.group g).procs = [] then
        return (← t.freePgroup g, .left)
      else
        return (← t.addMyCpuToPgroup g c, .stays) := by
    rw [cpuLeavePgroup, hc]
    simp only [removeMyCpu_eq h hc]
  have hid : ((s.cpuOut g c).group g).id = some g := by
    simpa [State.cpuOut] using h.used g c hc
  by_cases hlast : ∀ d, s.cpuGroup d = some g → d = c
  · have hzero := (count_cpuOut_eq_zero_iff h).mpr hlast
    by_cases hnil : (s.group g).procs = []
    · have hg : g ≠ defaultPgroupId := by
        rintro rfl
        exact hdef hnil
      have hfree : (s.cpuOut g c).freePgroup g = .ok ((s.cpuOut g c).freed g) := by
        rw [freePgroup, hid, if_neg (by simpa using hg)]
        rfl
      refine .inr (.inl ⟨hlast, hnil, hg, ?_⟩)
      rw [hleave]
      simp [hzero, hnil, hfree, bind, Except.bind, pure, Except.pure]
    · have hadd : (s.cpuOut g c).addMyCpuToPgroup g c = .ok s := by
        rw [Pgroup.addMyCpu_eq hid (by simp [State.cpuOut]) (by simp [State.cpuOut]),
          cpuIn_cpuOut h hc]
      refine .inr (.inr ⟨hlast, hnil, ?_⟩)
      rw [hleave]
      simp [hzero, hnil, hadd, bind, Except.bind, pure, Except.pure]
  · have hne : pgroupCpuCountUnsafe ((s.cpuOut g c).group g) ≠ 0 := fun hz =>
      hlast ((count_cpuOut_eq_zero_iff h).mp hz)
    have hother : ∃ d, d ≠ c ∧ s.cpuGroup d = some g := by
      obtain ⟨d, hd⟩ := not_forall.mp hlast
      obtain ⟨hd, hdc⟩ := Classical.not_imp.mp hd
      exact ⟨d, hdc, hd⟩
    refine .inl ⟨hother, ?_⟩
    rw [hleave]
    simp only [bind, Except.bind, if_pos hne]
    rfl

end Pgroup
