import Myv6.Pgroup.Members

/-!
# Pgroup/RoundRobin — turns within a group

    get_runnable_proc_with_lock     the first RUNABLE of the list
    proc_move_to_tail               … becomes its last

A process behind another in the list is not dispatched before it.  `create_pgroup` and
`enter_pgroup` take the caller out of the list first and put it back in front when they fail, so a
process that calls them in vain overtakes those that wait.  In a run without such a failure nobody
has a second turn while another member waits for its first.
-/

namespace Pgroup

open State

variable {s t : State} {a : Act} {g : GroupId} {c d : CpuId} {p q r : ProcId}
  {rest : List ProcId}

/-! ## The record of turns -/

/-- The process is `RUNABLE` in a group. -/
def Waits (s : State) (p : ProcId) : Prop := s.status p = .runable ∧ s.procGroup p ≠ none

/-- Process `q` has left the group of `p`, or exited. -/
def Away (s : State) (p q : ProcId) : Prop :=
  s.procGroup q ≠ none ∧ s.procGroup q ≠ s.procGroup p ∨ s.status q = .zombie ∨
    s.status q = .unused ∨ s.status q = .used

instance : Decidable (Waits s p) := inferInstanceAs (Decidable (_ ∧ _))

instance : Decidable (Away s p q) := inferInstanceAs (Decidable (_ ∧ _ ∨ _ ∨ _ ∨ _))

/-- The process that the step dispatches, and from which group. -/
def dispatched (s : State) : Act → Option (ProcId × GroupId)
  | .cpu c =>
    match s.pc c with
    | .dispatch g (q :: _) => if s.status q = .runable then some (q, g) else none
    | _ => none
  | _ => none

/-- **The turns of `q` while `p` waits**: how often `q` has been dispatched from the group of `p` since
`p` waits there and `q` has stayed a member. -/
def turns (s : State) (a : Act) (t : State) (h : ProcId → ProcId → ℕ) (p q : ProcId) : ℕ :=
  if Waits t p ∧ ¬Away t p q then
    match dispatched s a with
    | some (r, g) => if r = q ∧ t.procGroup p = some g then h p q + 1 else h p q
    | none => h p q
  else 0

/-- The group subsystem, with the turns. -/
abbrev turnStep :
    State × (ProcId → ProcId → ℕ) → Act → Option (State × (ProcId → ProcId → ℕ)) :=
  Run.watch step turns

/-! ## The condition -/

/-- `create_pgroup` in the default group, before it knows whether a CPU is free. -/
def Pc.asksFree : Pc → Bool
  | .createDec _ => true
  | _ => false

/-- `enter_pgroup`, its target does not exist. -/
def Pc.goesBack : Pc → Bool
  | .enterBack _ _ => true
  | _ => false

/-- **The step puts nobody back in front of its list**: no `create_pgroup` finds its CPU to be the last
one of a group with other processes, or no free CPU for the default group, and no `enter_pgroup`
finds no group. -/
def KeepsTurn (s : State) (a : Act) : Prop :=
  (∀ c g, a = .call c .createPgroup → s.cpuGroup c = some g →
    (∃ d, d ≠ c ∧ s.cpuGroup d = some g) ∨
      ∀ p, (s.pc c).myProc = some p → (s.group g).procs.erase p = []) ∧
  ∀ c, a = .cpu c → ((s.pc c).asksFree = true → s.freeCpus ≠ 0) ∧ (s.pc c).goesBack = false

instance : Decidable (KeepsTurn s a) := inferInstanceAs (Decidable (_ ∧ _))

/-! ## What a step does to a list -/

/-- The group a process that is in none heads for. -/
def Pc.headsFor : Pc → Option (ProcId × GroupId)
  | .enterNew p _ new => some (p, new)
  | .createAdd p g => some (p, g)
  | _ => none

/-- **What a step that keeps the turns does to the list of a group.**  A list changes only while nobody
scans it. -/
inductive Place (s : State) (a : Act) (t : State) (g : GroupId) : Prop
  | same (h : (t.group g).procs = (s.group g).procs)
  | out (r : ProcId) (hrun : s.status r = .running)
      (hprocs : (t.group g).procs = (s.group g).procs.erase r) (hnone : t.procGroup r = none)
      (hscan : ∀ d rest, t.pc d ≠ .dispatch g rest)
  | into (r : ProcId) (hnone : s.procGroup r = none)
      (hprocs : (t.group g).procs = r :: (s.group g).procs)
      (hwhy : (∃ c, (s.pc c).headsFor = some (r, g)) ∨ s.inserted r = false)
      (hscan : ∀ d rest, t.pc d ≠ .dispatch g rest)
  | tail (c : CpuId) (r : ProcId) (rest : List ProcId) (hpc : s.pc c = .dispatch g (r :: rest))
      (ha : dispatched s a = some (r, g)) (hst : s.status r = .runable)
      (hrun : t.status r = .running)
      (hprocs : (t.group g).procs = (s.group g).procs.erase r ++ [r])
      (hscan : ∀ d rest, t.pc d ≠ .dispatch g rest)

/-- Whoever scans a list has its lock. -/
theorem Inv.not_scanned (hi : Inv s) (hg : s.lock g = none ∨ s.lock g = some c)
    (hpc : ∀ d ≠ c, t.pc d = s.pc d) (hc : ∀ rest, t.pc c ≠ .dispatch g rest) (d : CpuId)
    (rest : List ProcId) : t.pc d ≠ .dispatch g rest := by
  intro hd
  by_cases hdc : d = c
  · subst hdc
    exact hc rest hd
  · rw [hpc d hdc] at hd
    have hok := hi.here d
    rw [hd] at hok
    rcases hg with hg | hg
    · rw [hok.2.1] at hg
      cases hg
    · rw [hok.2.1] at hg
      exact hdc (Option.some.inj hg)

theorem place_of_procOut (hi : Inv s) {i : GroupId} (hrun : s.pc c = .run p)
    (hg : s.lock g = none) (hprocs : ∀ i, (t.group i).procs = ((s.procOut g p).group i).procs)
    (hnone : t.procGroup p = none) (hpc : ∀ d ≠ c, t.pc d = s.pc d)
    (hc : ∀ rest, t.pc c ≠ .dispatch i rest) : Place s a t i := by
  by_cases hig : i = g
  · subst hig
    refine .out p ((hi.here c).executed (by rw [hrun]; rfl)).1 ?_ hnone
      (hi.not_scanned (.inl hg) hpc hc)
    simp [hprocs, State.procOut]
  · refine .same ?_
    simp [hprocs, State.procOut, hig]

/-- **Every step that keeps the turns.** -/
theorem Effect.place (he : Effect s a t) (hi : Inv s) (hkeep : KeepsTurn s a) (i : GroupId) :
    Place s a t i := by
  cases he with
  | dispatch c g q rest hpc hst =>
    have hok := hi.here c
    rw [hpc] at hok
    by_cases hig : i = g
    · subst hig
      refine .tail c q rest hpc (by simp [dispatched, hpc, hst]) hst (by simp)
        (by simp [procMoveToTail]) (hi.not_scanned (.inr hok.2.1) (c := c)
          (fun d hd => by simp [procMoveToTail, hd]) (by simp))
    · exact .same (by simp [procMoveToTail, hig])
  | createKeep c p g hpc _ _ hc _ hlast hprocs =>
    rcases hkeep.1 c g rfl hc with ⟨d, hdc, hd⟩ | hnil
    · exact absurd (hlast d hd) hdc
    · exact absurd (by simpa [State.procOut] using hnil p (by rw [hpc]; rfl)) hprocs
  | createAsk c p hpc _ _ _ hg _ =>
    exact place_of_procOut hi hpc hg (by simp) (by simp [State.cpuOut, State.procOut])
      (fun d hd => by simp [State.cpuOut, State.procOut, hd]) (by simp)
  | createLeave c p g hpc _ _ _ hg _ _ =>
    exact place_of_procOut hi hpc hg (by simp) (by simp [State.cpuOut, State.procOut])
      (fun d hd => by simp [State.cpuOut, State.procOut, hd]) (by simp)
  | createLast c p g hpc _ _ _ hg _ _ _ =>
    exact place_of_procOut hi hpc hg (by simp) (by simp [State.freed, State.cpuOut, State.procOut])
      (fun d hd => by simp [State.freed, State.cpuOut, State.procOut, hd]) (by simp)
  | createBack c p hpc hfree => exact absurd hfree ((hkeep.2 c rfl).1 (by rw [hpc]; rfl))
  | rejoin c p g hpc hg =>
    have hback := (hkeep.2 c rfl).2
    have hok := hi.here c
    have hheads : (s.pc c).headsFor = some (p, g) ∧ s.procGroup p = none := by
      cases hk : s.pc c <;> rw [hk] at hpc hback hok <;> cases hpc
      · exact ⟨rfl, hok.2.1⟩
      · cases hback
    by_cases hig : i = g
    · subst hig
      exact .into p hheads.2 (by simp [State.procIn]) (.inl ⟨c, hheads.1⟩)
        (hi.not_scanned (.inl hg) (c := c) (fun d hd => by simp [State.procIn, hd]) (by simp))
    · exact .same (by simp [State.procIn, hig])
  | enterLeave c p old new hpc _ _ _ hg _ =>
    exact place_of_procOut hi hpc hg (by simp) (by simp [State.procOut])
      (fun d hd => by simp [State.procOut, hd]) (by simp)
  | enterNew c p old new hpc _ hg =>
    have hok := hi.here c
    rw [hpc] at hok
    by_cases hig : i = new
    · subst hig
      exact .into p hok.2.1 (by simp [State.procIn]) (.inl ⟨c, by rw [hpc]; rfl⟩)
        (hi.not_scanned (.inl hg) (c := c) (fun d hd => by simp [State.procIn, hd]) (by simp))
    · exact .same (by simp [State.procIn, hig])
  | exitLeave c p g hpc _ _ _ hg =>
    exact place_of_procOut hi hpc hg (by simp) (by simp [State.procOut])
      (fun d hd => by simp [State.procOut, hd]) (by simp)
  | forkInsert p q g hk _ hg _ =>
    have hins : s.inserted q = false := by
      have := hi.kpc p
      rw [hk] at this
      exact this.2
    by_cases hig : i = g
    · subst hig
      refine .into q ((hi.proc q).out hins) (by simp [State.procIn]) (.inr hins) fun d rest hd => ?_
      have hok := hi.here d
      rw [show s.pc d = .dispatch i rest from hd] at hok
      rw [hok.2.1] at hg
      cases hg
    · exact .same (by simp [State.procIn, hig])
  | acquireWake | forkFail | reap => exact .same rfl
  | _ => exact .same (by simp)

/-- A CPU that scans a list has just begun, or has skipped a process that is not `RUNABLE`, or stands
where it stood. -/
theorem Effect.scans (he : Effect s a t) {rest : List ProcId} (hd : t.pc d = .dispatch g rest) :
    s.pc d = .dispatch g rest ∨ (∃ r, s.pc d = .dispatch g (r :: rest) ∧ s.status r ≠ .runable) ∨
      rest = (s.group g).procs := by
  cases he with
  | lockGroup c g' _ _ _ =>
    by_cases hdc : d = c
    · simp only [setPc, hdc, Function.update_self, Pc.dispatch.injEq] at hd
      exact .inr (.inr (by rw [← hd.2, hd.1]))
    · exact .inl (by simpa [hdc] using hd)
  | goto c k hgo _ hskip =>
    by_cases hdc : d = c
    · simp only [setPc, hdc, Function.update_self] at hd
      subst hd
      generalize hk : s.pc c = k at hgo
      cases hgo with
      | next g q rest => exact .inr (.inl ⟨q, by rw [hdc, hk], hskip g q rest hk⟩)
    · exact .inl (by simpa [hdc] using hd)
  | enterDefault c k hk _ =>
    by_cases hdc : d = c
    · simp only [setPc, hdc, Function.update_self] at hd
      cases hpc : s.pc c <;> rw [hpc] at hk <;> cases hk <;> cases hd
    · exact .inl (by simpa [State.cpuIn, hdc] using hd)
  | count c k hk _ =>
    by_cases hdc : d = c
    · simp only [setPc, hdc, Function.update_self] at hd
      cases hpc : s.pc c <;> rw [hpc] at hk <;> cases hk <;> cases hd
    · exact .inl (by simpa [hdc] using hd)
  | idle | createKeep | occupy | ask | askNone | reserve | sendFlex | forkAlloc | forkRunable
  | forkInsert | forkFail | wake | reap => exact .inl hd
  | negative c | refused c | take c | tooMany c | acquireLeave c | acquireEnter c
  | acquireEnterFlex c | acquireWake c | acquireBack c | acquireBackCount c | leave c | leaveLast c
  | dispatchNone c | dispatch c | switchOut c | incSleep c | createAsk c | createLeave c
  | createLast c | createGo c | createBack c | allocTake c | allocNext c | noSlot c | rejoin c
  | enterLeave c | enterNew c | exitLeave c | decLeave c | decLast c | boxFull c | sendWait c =>
    by_cases hdc : d = c
    · simp [hdc] at hd
    · exact .inl (by simpa [State.cpuIn, State.cpuOut, State.procIn, State.procOut, State.freed,
        State.claimed, procMoveToTail, wakeUp, hdc] using hd)

/-- A process heads for another group than the one it has left, or for one that was not in use. -/
theorem Effect.heads (he : Effect s a t) (hi : Inv s) (hd : (t.pc d).headsFor = some (q, g)) :
    (s.pc d).headsFor = some (q, g) ∨ (∃ old, s.procGroup q = some old ∧ old ≠ g) ∨
      (s.group g).id = none := by
  cases he with
  | enterLeave c p old new hpc _ _ hc _ hne =>
    by_cases hdc : d = c
    · simp only [setPc, hdc, Function.update_self, Pc.headsFor, Option.some.injEq,
        Prod.mk.injEq] at hd
      obtain ⟨-, g', hcg, hpg⟩ := hi.at_run hpc
      rw [hc, Option.some.injEq] at hcg
      exact .inr (.inl ⟨old, by rw [← hd.1, hpg, hcg], by rw [← hd.2]; exact hne.symm⟩)
    · exact .inl (by simpa [State.procOut, hdc] using hd)
  | allocTake c p g' _ hid =>
    by_cases hdc : d = c
    · simp only [setPc, hdc, Function.update_self, Pc.headsFor, Option.some.injEq,
        Prod.mk.injEq] at hd
      exact .inr (.inr (by rw [← hd.2]; exact hid))
    · exact .inl (by simpa [State.cpuIn, State.claimed, hdc] using hd)
  | goto c k hgo _ _ =>
    by_cases hdc : d = c
    · simp only [setPc, hdc, Function.update_self] at hd
      generalize s.pc c = k' at hgo
      cases hgo <;> simp [Pc.headsFor] at hd
    · exact .inl (by simpa [hdc] using hd)
  | enterDefault c k hk _ =>
    by_cases hdc : d = c
    · simp only [setPc, hdc, Function.update_self] at hd
      cases hpc : s.pc c <;> rw [hpc] at hk <;> cases hk <;> simp [Pc.headsFor] at hd
    · exact .inl (by simpa [State.cpuIn, hdc] using hd)
  | count c k hk _ =>
    by_cases hdc : d = c
    · simp only [setPc, hdc, Function.update_self] at hd
      cases hpc : s.pc c <;> rw [hpc] at hk <;> cases hk <;> simp [Pc.headsFor] at hd
    · exact .inl (by simpa [hdc] using hd)
  | idle | createKeep | occupy | ask | askNone | reserve | sendFlex | forkAlloc | forkRunable
  | forkInsert | forkFail | wake | reap => exact .inl hd
  | lockGroup c | negative c | refused c | take c | tooMany c | acquireLeave c | acquireEnter c
  | acquireEnterFlex c | acquireWake c | acquireBack c | acquireBackCount c | leave c | leaveLast c
  | dispatchNone c | dispatch c | switchOut c | incSleep c | createAsk c | createLeave c
  | createLast c | createGo c | createBack c | allocNext c | noSlot c | rejoin c
  | enterNew c | exitLeave c | decLeave c | decLast c | boxFull c | sendWait c =>
    by_cases hdc : d = c
    · simp [hdc, Pc.headsFor] at hd
    · exact .inl (by simpa [State.cpuIn, State.cpuOut, State.procIn, State.procOut, State.freed,
        State.claimed, procMoveToTail, wakeUp, hdc] using hd)

/-- A process that has been in a group has been, until its slot is freed. -/
theorem Effect.inserted (he : Effect s a t) (hq : s.inserted q = true) :
    t.inserted q = true ∨ t.status q = .unused := by
  cases he with
  | forkInsert p r g _ _ _ _ =>
    by_cases hqr : q = r
    · simp [hqr]
    · exact .inl (by simpa [State.procIn, hqr] using hq)
  | forkFail p r _ =>
    by_cases hqr : q = r
    · simp [hqr, freeProcess]
    · exact .inl (by simpa [freeProcess, hqr] using hq)
  | reap r _ =>
    by_cases hqr : q = r
    · simp [hqr, freeProcess]
    · exact .inl (by simpa [freeProcess, hqr] using hq)
  | _ => exact .inl hq

/-! ## Order -/

/-- In a list without repetition one of two is first. -/
theorem not_sublist_swap {l : List ProcId} (hl : l.Nodup) (hpq : p ≠ q) (h : [p, q].Sublist l) :
    ¬[q, p].Sublist l := by
  intro h'
  induction l with
  | nil => cases h
  | cons r l ih =>
    have hr : r ∉ l := (List.nodup_cons.mp hl).1
    cases h with
    | cons _ h =>
      cases h' with
      | cons _ h' => exact ih (List.nodup_cons.mp hl).2 h h'
      | cons_cons _ h' => exact hr (h.subset (by simp))
    | cons_cons _ h =>
      cases h' with
      | cons _ h' => exact hr (h'.subset (by simp))
      | cons_cons _ h' => exact hpq rfl

theorem sublist_erase {l : List ProcId} (h : [p, q].Sublist l) (hp : r ≠ p) (hq : r ≠ q) :
    [p, q].Sublist (l.erase r) := by
  have := h.erase r
  rwa [List.erase_of_not_mem (by simp [hp, hq])] at this

/-- **What the turns say about the lists.**  A process that has had its turn while `p` waits is behind
`p`, or on its way out of the group; and whoever scans the list has `p` still to come. -/
structure Turns (s : State) (h : ProcId → ProcId → ℕ) : Prop where
  waits : ∀ p q, h p q ≠ 0 → Waits s p
  inserted : ∀ p q, h p q ≠ 0 → s.inserted q = true
  le : ∀ p q, p ≠ q → h p q ≤ 1
  order : ∀ p q g, p ≠ q → h p q ≠ 0 → s.procGroup p = some g →
    s.procGroup q = none ∨ s.procGroup q = some g ∧ [p, q].Sublist (s.group g).procs
  scan : ∀ c p q g rest, p ≠ q → h p q ≠ 0 → s.pc c = .dispatch g rest → s.procGroup p = some g →
    p ∈ rest
  heads : ∀ c p q g, p ≠ q → h p q ≠ 0 → s.procGroup p = some g → (s.pc c).headsFor ≠ some (q, g)
  suffix : ∀ c g rest, s.pc c = .dispatch g rest → rest <:+ (s.group g).procs

/-- A process that waits keeps its group. -/
theorem Place.waits (h : Place s a t g) (hi : Inv s) (hi' : Inv t) (hst : s.status p = .runable)
    (hp : s.procGroup p = some g) : t.procGroup p = some g := by
  have hmem : p ∈ (s.group g).procs := (hi.roster.procs g p).mpr hp
  refine (hi'.roster.procs g p).mp ?_
  cases h with
  | same h => rwa [h]
  | out r hrun hprocs _ _ =>
    have hpr : p ≠ r := by
      rintro rfl
      rw [hst] at hrun
      cases hrun
    rw [hprocs]
    exact (List.mem_erase_of_ne hpr).mpr hmem
  | into r _ hprocs _ _ =>
    rw [hprocs]
    exact List.mem_cons_of_mem _ hmem
  | tail c r rest _ _ _ _ hprocs _ =>
    rw [hprocs]
    by_cases hpr : p = r
    · simp [hpr]
    · exact List.mem_append_left _ ((List.mem_erase_of_ne hpr).mpr hmem)

/-- The step that dispatches a process. -/
theorem dispatched_iff : dispatched s a = some (q, g) ↔
    ∃ c rest, a = .cpu c ∧ s.pc c = .dispatch g (q :: rest) ∧ s.status q = .runable := by
  constructor
  · intro h
    unfold dispatched at h
    split at h
    · split at h
      · next hpc =>
        split at h
        · next hst =>
          simp only [Option.some.injEq, Prod.mk.injEq] at h
          obtain ⟨rfl, rfl⟩ := h
          exact ⟨_, _, rfl, hpc, hst⟩
        · cases h
      · cases h
    · cases h
  · rintro ⟨c, rest, rfl, hpc, hst⟩
    simp [dispatched, hpc, hst]

/-- What a turn in the record comes from. -/
theorem turns_ne_zero {h : ProcId → ProcId → ℕ} (hne : turns s a t h p q ≠ 0) :
    Waits t p ∧ ¬Away t p q ∧ (h p q ≠ 0 ∨ ∃ g, dispatched s a = some (q, g) ∧
      t.procGroup p = some g) := by
  unfold turns at hne
  split at hne
  · next hw =>
    refine ⟨hw.1, hw.2, ?_⟩
    split at hne
    · next r g hdisp =>
      split at hne
      · next hr => exact .inr ⟨g, by rw [hdisp, hr.1], hr.2⟩
      · exact .inl hne
    · exact .inl hne
  · exact absurd rfl hne

/-- **A process is not dispatched a second time while another waits.** -/
theorem Turns.first {h : ProcId → ProcId → ℕ} (ht : Turns s h) (hi : Inv s) (hpq : p ≠ q)
    (hpc : s.pc c = .dispatch g (q :: rest)) (hp : s.procGroup p = some g) : h p q = 0 := by
  by_contra hne
  have hok := hi.here c
  rw [hpc] at hok
  have hq : s.procGroup q = some g := (hi.roster.procs g q).mp (hok.2.2 q List.mem_cons_self)
  have hmem : p ∈ rest := by
    have := ht.scan c p q g _ hpq hne hpc hp
    exact (List.mem_cons.mp this).resolve_left hpq
  have hswap : [q, p].Sublist (s.group g).procs := by
    refine List.Sublist.trans ?_ (ht.suffix c g _ hpc).sublist
    exact (List.singleton_sublist.mpr hmem).cons_cons q
  rcases ht.order p q g hpq hne hp with hnone | ⟨-, horder⟩
  · rw [hq] at hnone
    cases hnone
  · exact not_sublist_swap (hi.roster.nodup g) hpq horder hswap

/-- **Every step that keeps the turns keeps the order.** -/
theorem Turns.of_step {h : ProcId → ProcId → ℕ} (hturn : Turns s h) (hi : Inv s) (hi' : Inv t)
    (hkeep : KeepsTurn s a) (hstep : step s a = some t) : Turns t (turns s a t h) := by
  have he := hi.effect hstep
  have hplace := he.place hi hkeep
  -- who waited before the step waits in the same group after it
  have hback : ∀ p q g, turns s a t h p q ≠ 0 → t.procGroup p = some g →
      h p q ≠ 0 → s.procGroup p = some g := by
    intro p q g _ hp hne
    obtain ⟨hst, hg⟩ := hturn.waits p q hne
    obtain ⟨g', hg'⟩ := Option.ne_none_iff_exists'.mp hg
    rw [(hplace g').waits hi hi' hst hg'] at hp
    rwa [← Option.some.inj hp]
  -- whoever is dispatched is the first, and nobody scans the list afterwards
  have hfirst : ∀ q g, dispatched s a = some (q, g) →
      (t.group g).procs = (s.group g).procs.erase q ++ [q] ∧
        (∀ d rest, t.pc d ≠ .dispatch g rest) ∧ s.procGroup q = some g ∧ t.status q = .running ∧
        (∀ d, (t.pc d).headsFor = some (q, g) → False) ∧ ∀ r, t.procGroup r = s.procGroup r := by
    intro q g hdisp
    obtain ⟨c, rest, rfl, hpc, hst⟩ := dispatched_iff.mp hdisp
    have hok := hi.here c
    rw [hpc] at hok
    have hq : s.procGroup q = some g := (hi.roster.procs g q).mp (hok.2.2 q List.mem_cons_self)
    have heq : t = (((s.procMoveToTail g q).setLock g none).setStatus q .running).setPc c
        (.run q) := by
      simp only [step, State.advance, hpc, State.dispatch, hst, if_true, Option.some.injEq] at hstep
      exact hstep.symm
    subst heq
    refine ⟨by simp [procMoveToTail], hi.not_scanned (.inr hok.2.1) (c := c)
      (fun d hd => by simp [procMoveToTail, hd]) (by simp), hq, by simp, fun d hd => ?_,
      fun _ => rfl⟩
    by_cases hdc : d = c
    · simp [hdc, Pc.headsFor] at hd
    · replace hd : (s.pc d).headsFor = some (q, g) := by simpa [procMoveToTail, hdc] using hd
      have hnone : s.procGroup q = none := by
        have hokd := hi.here d
        cases hk : s.pc d <;> rw [hk] at hd hokd <;> simp [Pc.headsFor] at hd
        · rw [← hd.1]; exact hokd.2.1
        · rw [← hd.1]; exact hokd.2.1
      rw [hq] at hnone
      cases hnone
  constructor
  case waits => exact fun p q hne => (turns_ne_zero hne).1
  case inserted =>
    intro p q hne
    obtain ⟨-, haway, hwhy⟩ := turns_ne_zero hne
    have hins : s.inserted q = true := by
      rcases hwhy with hwhy | ⟨g, hdisp, -⟩
      · exact hturn.inserted p q hwhy
      · by_contra hno
        have := (hi.proc q).out (by simpa using hno)
        rw [(hfirst q g hdisp).2.2.1] at this
        cases this
    refine (he.inserted hins).resolve_right fun hun => haway ?_
    exact .inr (.inr (.inl hun))
  case le =>
    intro p q hpq
    unfold turns
    split
    · next hw =>
      split
      · next r g hdisp =>
        split
        · next hr =>
          obtain ⟨rfl, hp⟩ := hr
          obtain ⟨c, rest, rfl, hpc, -⟩ := dispatched_iff.mp hdisp
          have hzero := hturn.first hi hpq hpc (by rwa [← (hfirst r g hdisp).2.2.2.2.2 p])
          omega
        · exact hturn.le p q hpq
      · exact hturn.le p q hpq
    · omega
  case order =>
    intro p q g hpq hne hp
    obtain ⟨hw, haway, hwhy⟩ := turns_ne_zero hne
    cases hq : t.procGroup q with
    | none => exact .inl rfl
    | some g' =>
      obtain rfl : g' = g := by
        by_contra hg
        refine haway (.inl ⟨by simp [hq], ?_⟩)
        rw [hq, hp]
        simpa using hg
      refine .inr ⟨rfl, ?_⟩
      rcases hwhy with hwhy | ⟨g'', hdisp, hpg⟩
      · have hps := hback p q g' hne hp hwhy
        obtain ⟨hst, -⟩ := hturn.waits p q hwhy
        have hmem : q ∈ (t.group g').procs := (hi'.roster.procs g' q).mpr hq
        have hold : q ∈ (s.group g').procs → [p, q].Sublist (s.group g').procs := by
          intro hqs
          rcases hturn.order p q g' hpq hwhy hps with hnone | ⟨-, h⟩
          · rw [(hi.roster.procs g' q).mp hqs] at hnone
            cases hnone
          · exact h
        cases hplace g' with
        | same h =>
          rw [h] at hmem ⊢
          exact hold hmem
        | out r hrun hprocs hnone _ =>
          rw [hprocs] at hmem ⊢
          refine sublist_erase (hold (List.mem_of_mem_erase hmem)) ?_ ?_
          · rintro rfl
            rw [hst] at hrun
            cases hrun
          · rintro rfl
            rw [hnone] at hq
            cases hq
        | into r hnone hprocs hreason _ =>
          rw [hprocs] at hmem ⊢
          rcases List.mem_cons.mp hmem with rfl | hmem
          · rcases hreason with ⟨c, hc⟩ | hins
            · exact absurd hc (hturn.heads c p q g' hpq hwhy hps)
            · rw [hturn.inserted p q hwhy] at hins
              cases hins
          · exact (hold hmem).cons r
        | tail c r rest _ _ _ hrun hprocs _ =>
          have hrp : r ≠ p := by
            rintro rfl
            rw [hw.1] at hrun
            cases hrun
          rw [hprocs] at hmem ⊢
          have hps' : p ∈ (s.group g').procs := (hi.roster.procs g' p).mpr hps
          by_cases hrq : r = q
          · subst hrq
            exact (List.singleton_sublist.mpr ((List.mem_erase_of_ne hpq).mpr hps')).append
              (.refl [r])
          · have hmem : q ∈ (s.group g').procs := by
              rcases List.mem_append.mp hmem with h | h
              · exact List.mem_of_mem_erase h
              · exact absurd (List.mem_singleton.mp h).symm hrq
            exact (sublist_erase (hold hmem) hrp hrq).trans (List.sublist_append_left _ _)
      · obtain rfl : g'' = g' := by
          rw [hp] at hpg
          exact (Option.some.inj hpg).symm
        obtain ⟨hprocs, -, -, -, -, hsame⟩ := hfirst q g'' hdisp
        have hps : p ∈ (s.group g'').procs := (hi.roster.procs g'' p).mpr (by rwa [← hsame p])
        rw [hprocs]
        exact (List.singleton_sublist.mpr ((List.mem_erase_of_ne hpq).mpr hps)).append (.refl [q])
  case scan =>
    intro d p q g rest hpq hne hd hp
    obtain ⟨-, -, hwhy⟩ := turns_ne_zero hne
    rcases hwhy with hwhy | ⟨g', hdisp, hpg⟩
    · have hps := hback p q g hne hp hwhy
      obtain ⟨hst, -⟩ := hturn.waits p q hwhy
      rcases he.scans hd with hd | ⟨r, hd, hr⟩ | rfl
      · exact hturn.scan d p q g rest hpq hwhy hd hps
      · refine (List.mem_cons.mp (hturn.scan d p q g _ hpq hwhy hd hps)).resolve_left ?_
        rintro rfl
        exact hr hst
      · exact (hi.roster.procs g p).mpr hps
    · obtain rfl : g' = g := by
        rw [hp] at hpg
        exact (Option.some.inj hpg).symm
      exact absurd hd ((hfirst q g' hdisp).2.1 d rest)
  case heads =>
    intro d p q g hpq hne hp hd
    obtain ⟨-, -, hwhy⟩ := turns_ne_zero hne
    rcases hwhy with hwhy | ⟨g', hdisp, hpg⟩
    · have hps := hback p q g hne hp hwhy
      rcases he.heads hi hd with hd | ⟨old, hold, hneq⟩ | hid
      · exact hturn.heads d p q g hpq hwhy hps hd
      · rcases hturn.order p q g hpq hwhy hps with hnone | ⟨hg, -⟩
        · rw [hold] at hnone
          cases hnone
        · rw [hold] at hg
          exact hneq (Option.some.inj hg)
      · rw [hi.roster.id_of_proc hps] at hid
        cases hid
    · obtain rfl : g' = g := by
        rw [hp] at hpg
        exact (Option.some.inj hpg).symm
      exact (hfirst q g' hdisp).2.2.2.2.1 d hd
  case suffix =>
    intro d g rest hd
    have hsame : (t.group g).procs = (s.group g).procs := by
      cases hplace g with
      | same h => exact h
      | out _ _ _ _ hscan => exact absurd hd (hscan d rest)
      | into _ _ _ _ hscan => exact absurd hd (hscan d rest)
      | tail _ _ _ _ _ _ _ _ hscan => exact absurd hd (hscan d rest)
    rw [hsame]
    rcases he.scans hd with hd | ⟨r, hd, -⟩ | rfl
    · exact hturn.suffix d g rest hd
    · exact (List.suffix_cons r rest).trans (hturn.suffix d g _ hd)
    · exact List.suffix_refl _

theorem Turns.boot : Turns boot fun _ _ => 0 := by
  constructor
  case suffix =>
    intro c g rest hc
    by_cases h0 : c = 0 <;> simp [Pgroup.boot, h0] at hc
  all_goals simp

/-! ## Turns -/

/-- **Nobody has a second turn while another waits.** -/
def RoundRobin (x : State × (ProcId → ProcId → ℕ)) : Prop := ∀ p q, p ≠ q → x.2 p q ≤ 1

/-- **Round robin within a group**: in every run in which no `create_pgroup` or `enter_pgroup` fails
after it has taken its caller out of the list, no process is dispatched twice while another member of
its group waits. -/
theorem round_robin {x : State × (ProcId → ProcId → ℕ)}
    (hx : Run.Reach turnStep (fun x a => KeepsTurn x.1 a) (boot, fun _ _ => 0) x) :
    RoundRobin x := by
  have hturn : Turns x.1 x.2 := by
    refine hx.invariant_with (P := fun x => Turns x.1 x.2) Turns.boot fun y a z hy h hkeep hstep => ?_
    obtain ⟨hstep, hnote⟩ := Run.watch_eq_some_iff.mp hstep
    have hi := Reachable.inv hy.fst
    rw [hnote]
    exact h.of_step hi (hi.step hstep) hkeep hstep
  exact hturn.le

/-- Process 1 creates a group with CPU 1 and forks process 2 there, which waits. -/
def waitRun : List Act :=
  [.cpu 1, .cpu 1, .cpu 0, .cpu 0, .cpu 0, .call 0 (.fork 1), .cpu 0, .cpu 0,
    .cpu 1, .cpu 1, .cpu 1, .call 1 .createPgroup, .cpu 1, .cpu 1, .cpu 1, .cpu 1,
    .call 1 (.fork 2), .cpu 1, .cpu 1]

/-- The theorem there, when the timer has ended the turn of process 1: process 2 is dispatched while
process 1 waits. -/
theorem round_robin_waitRun :
    ∃ x, Run.Reach turnStep (fun x a => KeepsTurn x.1 a) (boot, fun _ _ => 0) x ∧
      x.1.pc 1 = .run 2 ∧ x.2 1 2 ≤ 1 := by
  have hrun : (Run.run (Run.guard turnStep fun x a => decide (KeepsTurn x.1 a))
      (boot, fun _ _ => 0) (waitRun ++ [.preempt 1, .cpu 1, .cpu 1, .cpu 1])).map
        (fun x => x.1.pc 1) = some (.run 2) := by decide +kernel
  obtain ⟨x, hx, hpc⟩ := Option.map_eq_some_iff.mp hrun
  have hreach : Run.Reach turnStep (fun x a => KeepsTurn x.1 a) (boot, fun _ _ => 0) x :=
    Run.reach_of_guard (fun _ _ h => of_decide_eq_true h) .refl hx
  exact ⟨x, hreach, hpc, round_robin hreach 1 2 (by decide)⟩

/-- **A failing `create_pgroup` jumps the queue**: process 1 calls it in each of its turns, and is
dispatched twice while process 2 waits. -/
theorem not_round_robin :
    ¬∀ x, Run.Reachable turnStep (boot, fun _ _ => 0) x → RoundRobin x := by
  intro hall
  have hrun : (Run.run turnStep (boot, fun _ _ => 0) (waitRun ++
      [.call 1 .createPgroup, .preempt 1, .cpu 1, .cpu 1, .cpu 1] ++
      [.call 1 .createPgroup, .preempt 1, .cpu 1, .cpu 1, .cpu 1])).map (fun x => x.2 2 1) =
      some 2 := by decide +kernel
  obtain ⟨x, hx, hturns⟩ := Option.map_eq_some_iff.mp hrun
  have := hall x (Run.reachable_of_run .refl hx) 2 1 (by decide)
  omega

end Pgroup
