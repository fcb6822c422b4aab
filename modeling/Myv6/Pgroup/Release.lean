import Myv6.Pgroup.Occupy

/-!
# Pgroup/Release — `proc_release_cpu`

    one process, one CPU?  ──no──▸  panic
      │ yes
    exclusively_occupy?    ──no──▸  -1
      │ yes
    exclusively_occupy = 0, 0

The counts are checked before the flag, so a call that should only fail panics where the group has
more than its caller; the default group has no guard at all.
-/

namespace Pgroup

open State

variable {s : State} {x : State × (GroupId → Option ProcId)} {g : GroupId} {c : CpuId} {p : ProcId}
  {a : Act}

/-- The section of `proc_release_cpu` under the lock of the group, with what it returns. -/
def releaseSection (G : ProcGroup) : Except Panic (ℤ × ProcGroup) :=
  if pgroupProcsCountUnsafe G ≠ 1 ∨ pgroupCpuCountUnsafe G ≠ 1 then .error .occupyFail
  else if G.exclusivelyOccupy = false then .ok (-1, G)
  else .ok (0, { G with exclusivelyOccupy := false })

/-- The step is a call of `proc_release_cpu` by process `p` of group `g`, whose lock is free. -/
structure Releasing (s : State) (a : Act) (c : CpuId) (p : ProcId) (g : GroupId) : Prop where
  act : a = .call c .procReleaseCpu
  pc : s.pc c = .run p
  user : s.kpc p = .user
  notInit : p ≠ initProc
  group : s.procGroup p = some g
  free : s.lock g = none

/-- **A call of `proc_release_cpu` keeps its contract**: in a group that is not occupied it returns
`-1` and changes nothing, and to the occupying process it returns 0 and clears the flag. -/
def KeepsContract (x : State × (GroupId → Option ProcId)) (a : Act) : Prop :=
  ∀ c p g, Releasing x.1 a c p g → ∃ ret G, releaseSection (x.1.group g) = .ok (ret, G) ∧
    step x.1 a = some (x.1.setGroup g G) ∧
    ((x.1.group g).exclusivelyOccupy = false → ret = -1 ∧ x.1.setGroup g G = x.1) ∧
    (x.2 g = some p → ret = 0 ∧ G = { x.1.group g with exclusivelyOccupy := false })

/-- The group of a process that calls `proc_release_cpu` has one process and one CPU. -/
def ReleasesAlone (s : State) (a : Act) : Prop :=
  ∀ c p g, Releasing s a c p g →
    pgroupProcsCountUnsafe (s.group g) = 1 ∧ pgroupCpuCountUnsafe (s.group g) = 1

/-- The step is the section. -/
theorem Releasing.step_eq (h : Releasing s a c p g) : step s a = some (
    match releaseSection (s.group g) with
    | .ok (_, G) => s.setGroup g G
    | .error e => (s.setLock g (some c)).stop c e) := by
  obtain ⟨rfl, hpc, huser, hp, hg, hfree⟩ := h
  have hcall : step s (.call c .procReleaseCpu) = s.procReleaseCpu c p := by
    simp [step, hpc, huser, hp, State.call]
  rw [hcall, procReleaseCpu, hg]
  simp only [locked, hfree, if_true, releaseSection]
  by_cases hcount : pgroupProcsCountUnsafe (s.group g) ≠ 1 ∨ pgroupCpuCountUnsafe (s.group g) ≠ 1
  · rw [if_pos hcount, if_pos hcount]
    rfl
  · rw [if_neg hcount, if_neg hcount]
    by_cases hocc : (s.group g).exclusivelyOccupy = false
    · rw [if_pos hocc]
      simp [hocc, setGroup]
      rfl
    · rw [if_neg hocc]
      simp [hocc]
      rfl

/-- A group with an occupier is occupied. -/
theorem occupied_of_occupier (hx : Run.Reachable occupyStep (boot, fun _ => none) x)
    (h : x.2 g = some p) : (x.1.group g).exclusivelyOccupy = true := by
  cases hx with
  | refl => cases h
  | tail _ _ hstep =>
    rw [(Run.watch_eq_some_iff.mp hstep).2] at h
    unfold occupier at h
    split at h
    · cases h
    · next hocc => exact Bool.eq_true_of_not_eq_false hocc

/-- **One call.** -/
theorem keepsContract_iff (hx : Run.Reachable occupyStep (boot, fun _ => none) x) (a : Act) :
    ReleasesAlone x.1 a ↔ KeepsContract x a := by
  constructor
  · intro halone c p g hrel
    obtain ⟨hprocs, hcpus⟩ := halone c p g hrel
    have hcount : ¬(pgroupProcsCountUnsafe (x.1.group g) ≠ 1 ∨
        pgroupCpuCountUnsafe (x.1.group g) ≠ 1) := by omega
    have hsection : releaseSection (x.1.group g) = if (x.1.group g).exclusivelyOccupy = false then
        .ok (-1, x.1.group g) else .ok (0, { x.1.group g with exclusivelyOccupy := false }) := by
      rw [releaseSection, if_neg hcount]
    by_cases hocc : (x.1.group g).exclusivelyOccupy = false
    · rw [if_pos hocc] at hsection
      refine ⟨_, _, hsection, ?_, fun _ => ⟨rfl, ?_⟩, fun howner => ?_⟩
      · rw [hrel.step_eq, hsection]
      · simp [setGroup]
      · rw [occupied_of_occupier hx howner] at hocc
        cases hocc
    · rw [if_neg hocc] at hsection
      refine ⟨_, _, hsection, ?_, fun hfree => absurd hfree hocc, fun _ => ⟨rfl, rfl⟩⟩
      rw [hrel.step_eq, hsection]
  · intro hkeep c p g hrel
    obtain ⟨ret, G, hsection, -⟩ := hkeep c p g hrel
    unfold releaseSection at hsection
    split at hsection
    · cases hsection
    · next hcount => exact not_or.mp hcount |>.imp not_not.mp not_not.mp

/-- **`proc_release_cpu` keeps its contract along a run** exactly when every call of it comes from a
process that is alone in its group, with one CPU. -/
theorem release_contract (as : List Act) :
    Run.Along occupyStep (fun x a => ReleasesAlone x.1 a) (boot, fun _ => none) as ↔
      Run.Along occupyStep KeepsContract (boot, fun _ => none) as :=
  Run.along_congr (fun _ hx a => keepsContract_iff hx a) .refl

/-- Process 1 shares the default group with init, and is dispatched on CPU 0. -/
def sharedRun : List Act :=
  [.cpu 0, .cpu 0, .cpu 0, .call 0 (.fork 1), .cpu 0, .cpu 0, .preempt 0,
    .cpu 0, .cpu 0, .cpu 0]

/-- **A release in the default group** panics. -/
theorem not_release_contract :
    ¬∀ as : List Act, Run.Along occupyStep KeepsContract (boot, fun _ => none) as := by
  intro hall
  have hrun : (Run.run occupyStep (boot, fun _ => none) sharedRun).map (fun x =>
      decide (x.1.pc 0 = .run 1 ∧ x.1.kpc 1 = .user ∧ x.1.procGroup 1 = some 0 ∧
        x.1.lock 0 = none ∧ (x.1.group 0).procs = [0, 1])) = some true := by decide +kernel
  obtain ⟨x, hx, hlook⟩ := Option.map_eq_some_iff.mp hrun
  obtain ⟨hpc, huser, hgroup, hfree, hprocs⟩ := of_decide_eq_true hlook
  have hkeep := (hall (sharedRun ++ [.call 0 .procReleaseCpu])).at hx
  obtain ⟨ret, G, hsection, -⟩ := hkeep 0 1 0 ⟨rfl, hpc, huser, by decide, hgroup, hfree⟩
  simp [releaseSection, pgroupProcsCountUnsafe, hprocs] at hsection

end Pgroup
