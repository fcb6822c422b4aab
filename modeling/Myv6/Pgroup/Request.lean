import Myv6.Pgroup.Members

/-!
# Pgroup/Request — a process that sleeps until it has its CPU

    inc_pgroup_cpus           handle_cpu_acquire
    send {NEED_CPU, &m} ────▸ take ──▸ leave the default group ──▸ enter m.pgroup_id
    sleep(&m) … return 0 ◂────────────────────────────────────── wake_up(&m)

The request is a record on the stack of the sleeper, and the sleep is not in a loop.  The number of
requests of a process that are under way is 1 while it is inside `inc_pgroup_cpus` after the sending
and 0 otherwise, as long as only `handle_cpu_acquire` ends such a sleep.  `wake_up_parent` in the
`exit` of a child does not look at the chain.
-/

namespace Pgroup

open State

variable {s t : State} {a : Act} {g : GroupId} {c d : CpuId} {p q : ProcId} {m : CpuMessage}

/-! ## Requests under way -/

/-- The request is a `NEED_CPU` of process `p`. -/
def CpuMessage.asks (m : CpuMessage) (p : ProcId) : Bool :=
  decide (m.type = .needCpu ∧ m.chain = .request p)

/-- The request a CPU serves, up to the wake-up of its sender. -/
def Pc.serves : Pc → Option CpuMessage
  | .acquireLeave m | .acquireEnter m | .acquireWake m => some m
  | _ => none

/-- The request is in the box or with a CPU. -/
def UnderWay (s : State) (m : CpuMessage) : Prop :=
  m ∈ s.umBox.requests ∨ ∃ c, (s.pc c).serves = some m

/-- The process sleeps in `inc_pgroup_cpus`. -/
def Asleep (s : State) (p : ProcId) : Prop :=
  s.status p = .sleep ∧ s.chain p = some (.request p)

/-- The process is inside `inc_pgroup_cpus`, behind the sending of its request. -/
def Inside (s : State) (p : ProcId) : Prop := (∃ c g, s.pc c = .incSleep p g) ∨ Asleep s p

/-- How many requests of a process are in the box and with the CPUs. -/
def underWay (s : State) (p : ProcId) : ℕ :=
  s.umBox.requests.countP (·.asks p) +
    Tally.count fun c => ((s.pc c).serves.any (·.asks p)) = true

/-- **Requests and their senders.** -/
structure Served (s : State) : Prop where
  one : ∀ p, Inside s p → underWay s p = 1
  zero : ∀ p, ¬Inside s p → underWay s p = 0
  group : ∀ m p, UnderWay s m → m.asks p → s.procGroup p = some m.group
  chain : ∀ m, UnderWay s m → m.type = .needCpu → ∃ p, m.chain = .request p
  here : ∀ c p g, s.pc c = .incSleep p g → s.procGroup p = some g
  wakes : ∀ c m, s.pc c = .acquireWake m → m.type = .needCpu

/-- The step wakes no process that sleeps in `inc_pgroup_cpus`, unless it is the wake-up of
`handle_cpu_acquire`. -/
def Undisturbed (s : State) (a : Act) : Prop := ∀ q, a = .wake q → s.chain q ≠ some (.request q)

instance : Decidable (Undisturbed s a) := inferInstanceAs (Decidable (∀ _, _ → _))

namespace Served

theorem inside (h : Served s) (hm : UnderWay s m) (hp : m.asks p) : Inside s p := by
  by_contra hno
  have hzero := h.zero p hno
  rw [underWay, Nat.add_eq_zero_iff, List.countP_eq_zero, Tally.count_eq_zero_iff] at hzero
  rcases hm with hm | ⟨c, hc⟩
  · exact hzero.1 m hm hp
  · exact hzero.2 c (by simp [hc, hp])

/-- The group of a `NEED_CPU` under way is in use. -/
theorem alive (h : Served s) (hi : Inv s) (hm : UnderWay s m) (htype : m.type = .needCpu) :
    (s.group m.group).id = some m.group := by
  obtain ⟨p, hp⟩ := h.chain m hm htype
  exact hi.roster.id_of_proc (h.group m p hm (by simp [CpuMessage.asks, htype, hp]))

end Served

/-! ## Steps -/

/-- **A step that leaves the requests under way and their senders alone.** -/
structure SameRequests (s t : State) : Prop where
  count : ∀ p, underWay t p = underWay s p
  way : ∀ m, m.type = .needCpu → UnderWay t m → UnderWay s m
  inside : ∀ p, Inside t p ↔ Inside s p
  group : ∀ p, Inside s p → t.procGroup p = s.procGroup p
  sleeps : ∀ c p g, t.pc c = .incSleep p g → s.pc c = .incSleep p g
  wakes : ∀ c m, t.pc c = .acquireWake m → s.pc c = .acquireWake m ∨ m.type = .needCpu

theorem CpuMessage.asks_iff : m.asks p ↔ m.type = .needCpu ∧ m.chain = .request p := by
  simp [CpuMessage.asks]

theorem Served.of_same (h : Served s) (hr : SameRequests s t) : Served t := by
  constructor
  case one => exact fun p hp => (hr.count p).trans (h.one p ((hr.inside p).mp hp))
  case zero =>
    exact fun p hp => (hr.count p).trans (h.zero p fun hs => hp ((hr.inside p).mpr hs))
  case group =>
    intro m p hm hp
    have hs := hr.way m (CpuMessage.asks_iff.mp hp).1 hm
    rw [hr.group p (h.inside hs hp)]
    exact h.group m p hs hp
  case chain => exact fun m hm htype => h.chain m (hr.way m htype hm) htype
  case here =>
    intro c p g hc
    have hs := hr.sleeps c p g hc
    rw [hr.group p (.inl ⟨c, g, hs⟩)]
    exact h.here c p g hs
  case wakes => exact fun c m hc => (hr.wakes c m hc).elim (h.wakes c m) id

/-- What a CPU counts for. -/
def Pc.asksFor (p : ProcId) (k : Pc) : Bool := k.serves.any (·.asks p)

/-- **One CPU's step** moves the number by what it does to the box and what the CPU serves. -/
theorem underWay_of_pc (hpc : ∀ d ≠ c, t.pc d = s.pc d) (p : ProcId) :
    underWay t p + s.umBox.requests.countP (·.asks p) + (if (s.pc c).asksFor p then 1 else 0) =
      underWay s p + t.umBox.requests.countP (·.asks p) + if (t.pc c).asksFor p then 1 else 0 := by
  have hupd : t.pc = Function.update s.pc c (t.pc c) := by
    funext d
    by_cases hd : d = c
    · subst hd
      simp
    · simp [hd, hpc d hd]
  have hcount := Tally.count_update (Pc.asksFor p) s.pc c (t.pc c)
  rw [← hupd] at hcount
  have ht : underWay t p = t.umBox.requests.countP (·.asks p) +
      Tally.count fun d => ((t.pc d).asksFor p) = true := rfl
  have hs : underWay s p = s.umBox.requests.countP (·.asks p) +
      Tally.count fun d => ((s.pc d).asksFor p) = true := rfl
  rw [ht, hs]
  cases htc : (t.pc c).asksFor p <;> cases hsc : (s.pc c).asksFor p <;>
    simp only [htc, hsc, if_true, if_false, Bool.false_eq_true] at hcount ⊢ <;> omega

/-- The same requests with the same CPUs. -/
theorem underWay_eq_of_serves (hbox : t.umBox = s.umBox)
    (hserve : ∀ d m, m.type = .needCpu → ((t.pc d).serves = some m ↔ (s.pc d).serves = some m))
    (p : ProcId) : underWay t p = underWay s p := by
  have hasks : ∀ d, ((t.pc d).serves.any (·.asks p)) = ((s.pc d).serves.any (·.asks p)) := by
    intro d
    rw [Bool.eq_iff_iff, Option.any_eq_true, Option.any_eq_true]
    constructor
    · rintro ⟨m, hm, hp⟩
      exact ⟨m, (hserve d m (CpuMessage.asks_iff.mp hp).1).mp hm, hp⟩
    · rintro ⟨m, hm, hp⟩
      exact ⟨m, (hserve d m (CpuMessage.asks_iff.mp hp).1).mpr hm, hp⟩
  simp only [underWay, hbox, hasks]

theorem way_of_serves (hbox : t.umBox = s.umBox)
    (hserve : ∀ d m, m.type = .needCpu → ((t.pc d).serves = some m ↔ (s.pc d).serves = some m))
    (hm : m.type = .needCpu) (h : UnderWay t m) : UnderWay s m := by
  rcases h with h | ⟨c, hc⟩
  · exact .inl (hbox ▸ h)
  · exact .inr ⟨c, (hserve c m hm).mp hc⟩

/-- A process that a CPU executes elsewhere is not inside. -/
theorem Inv.not_inside (hi : Inv s) (hcp : (s.pc c).myProc = some p)
    (hc : ∀ g, s.pc c ≠ .incSleep p g) : ¬Inside s p := by
  rintro (⟨d, g, hd⟩ | hsleep)
  · obtain rfl := hi.one d c p (by rw [hd]; rfl) hcp
    exact hc g hd
  · have := ((hi.here c).executed hcp).1
    rw [hsleep.1] at this
    cases this

theorem Inv.not_inside_of_status (hi : Inv s) (hrun : s.status p ≠ .running)
    (hsleep : s.status p ≠ .sleep) : ¬Inside s p := by
  rintro (⟨d, g, hd⟩ | h)
  · exact hrun ((hi.here d).executed (by rw [hd]; rfl)).1
  · exact hsleep h.1

/-- One CPU's step, away from the sending. -/
theorem SameRequests.of_pc (c : CpuId) (hpc : ∀ d ≠ c, t.pc d = s.pc d) (hbox : t.umBox = s.umBox)
    (hs : ∀ p g, s.pc c ≠ .incSleep p g) (ht : ∀ p g, t.pc c ≠ .incSleep p g)
    (hserve : ∀ m, m.type = .needCpu → ((t.pc c).serves = some m ↔ (s.pc c).serves = some m))
    (hwake : ∀ m, t.pc c = .acquireWake m → m.type = .needCpu)
    (hasleep : ∀ p, Asleep t p ↔ Asleep s p)
    (hgroup : ∀ p, Inside s p → t.procGroup p = s.procGroup p) : SameRequests s t := by
  have hserve' : ∀ d m, m.type = .needCpu →
      ((t.pc d).serves = some m ↔ (s.pc d).serves = some m) := by
    intro d m hm
    by_cases hd : d = c
    · subst hd
      exact hserve m hm
    · rw [hpc d hd]
  have hsleeps : ∀ d p g, t.pc d = .incSleep p g ↔ s.pc d = .incSleep p g := by
    intro d p g
    by_cases hd : d = c
    · subst hd
      exact ⟨fun h => absurd h (ht p g), fun h => absurd h (hs p g)⟩
    · rw [hpc d hd]
  refine ⟨underWay_eq_of_serves hbox hserve', fun m hm h => way_of_serves hbox hserve' hm h,
    fun p => ?_, hgroup, fun d p g h => (hsleeps d p g).mp h, fun d m h => ?_⟩
  · simp only [Inside, hsleeps, hasleep]
  · by_cases hd : d = c
    · subst hd
      exact .inr (hwake m h)
    · exact .inl (by rwa [hpc d hd] at h)

/-- A step of scheduler code: no process field changes. -/
theorem SameRequests.of_sched (c : CpuId) (hpc : ∀ d ≠ c, t.pc d = s.pc d)
    (hbox : t.umBox = s.umBox) (hs : ∀ p g, s.pc c ≠ .incSleep p g)
    (ht : ∀ p g, t.pc c ≠ .incSleep p g)
    (hserve : ∀ m, m.type = .needCpu → ((t.pc c).serves = some m ↔ (s.pc c).serves = some m))
    (hwake : ∀ m, t.pc c = .acquireWake m → m.type = .needCpu)
    (hst : t.status = s.status) (hch : t.chain = s.chain) (hp : t.procGroup = s.procGroup) :
    SameRequests s t :=
  .of_pc c hpc hbox hs ht hserve hwake (fun p => by rw [Asleep, Asleep, hst, hch])
    fun p _ => by rw [hp]

theorem Pc.serves_of_myProc {k : Pc} (h : k.myProc = some p) : k.serves = none := by
  cases k <;> simp_all [Pc.myProc, Pc.serves]

/-- A step of the code of process `p`, which is not inside: only its own group changes. -/
theorem SameRequests.of_own (hi : Inv s) (hcp : (s.pc c).myProc = some p)
    (hpc : ∀ d ≠ c, t.pc d = s.pc d) (hbox : t.umBox = s.umBox) (hs : ∀ p g, s.pc c ≠ .incSleep p g)
    (ht : ∀ p g, t.pc c ≠ .incSleep p g) (hmine : (t.pc c).myProc = some p)
    (hst : t.status = s.status) (hch : t.chain = s.chain)
    (hp : ∀ q ≠ p, t.procGroup q = s.procGroup q) : SameRequests s t := by
  have hnone := Pc.serves_of_myProc hcp
  have hnone' := Pc.serves_of_myProc hmine
  refine .of_pc c hpc hbox hs ht (by simp [hnone, hnone']) (fun m hm => ?_)
    (fun p => by rw [Asleep, Asleep, hst, hch]) fun q hq => hp q ?_
  · rw [hm] at hmine
    cases hmine
  · rintro rfl
    exact hi.not_inside hcp (hs q) hq

/-- A step that moves no CPU: some process that is not inside gets another status or group. -/
theorem SameRequests.of_env (q : ProcId) (hpc : t.pc = s.pc) (hbox : t.umBox = s.umBox)
    (hs : ¬Inside s q) (ht : ¬Asleep t q)
    (hother : ∀ p ≠ q, t.status p = s.status p ∧ t.chain p = s.chain p ∧
      t.procGroup p = s.procGroup p) : SameRequests s t := by
  have hasleep : ∀ p, Asleep t p ↔ Asleep s p := by
    intro p
    by_cases hpq : p = q
    · subst hpq
      exact ⟨fun h => absurd h ht, fun h => absurd (.inr h) hs⟩
    · rw [Asleep, Asleep, (hother p hpq).1, (hother p hpq).2.1]
  have hserve : ∀ d m, m.type = .needCpu →
      ((t.pc d).serves = some m ↔ (s.pc d).serves = some m) := fun d m _ => by rw [hpc]
  refine ⟨underWay_eq_of_serves hbox hserve, fun m hm h => way_of_serves hbox hserve hm h,
    fun p => ?_, fun p hp => ?_, fun d p g h => by rwa [← hpc], fun d m h => .inl (by rwa [← hpc])⟩
  · simp only [Inside, hpc, hasleep]
  · refine (hother p ?_).2.2
    rintro rfl
    exact hs hp

/-- A continuation changes. -/
theorem SameRequests.of_kpc (hpc : t.pc = s.pc) (hbox : t.umBox = s.umBox)
    (hst : t.status = s.status) (hch : t.chain = s.chain) (hp : t.procGroup = s.procGroup) :
    SameRequests s t := by
  have hasleep : ∀ p, Asleep t p ↔ Asleep s p := fun p => by rw [Asleep, Asleep, hst, hch]
  have hserve : ∀ d m, m.type = .needCpu →
      ((t.pc d).serves = some m ↔ (s.pc d).serves = some m) := fun d m _ => by rw [hpc]
  refine ⟨underWay_eq_of_serves hbox hserve, fun m hm h => way_of_serves hbox hserve hm h,
    fun p => ?_, fun p _ => by rw [hp], fun d p g h => by rwa [← hpc],
    fun d m h => .inl (by rwa [← hpc])⟩
  simp only [Inside, hpc, hasleep]

/-- The process a CPU executes is switched out, other than in `inc_pgroup_cpus`. -/
theorem SwitchOut.same {st : Status} {ch : Option Chain} (hi : Inv s) (h : SwitchOut s c p st ch) :
    SameRequests s ((s.setChain p ch).switchToScheduler c p st) := by
  obtain ⟨hcp, hc, hno⟩ : (s.pc c).myProc = some p ∧ (∀ q g, s.pc c ≠ .incSleep q g) ∧
      ¬(st = .sleep ∧ ch = some (.request p)) := by
    cases h with
    | preempt hpc => rcases hpc with hpc | hpc <;> simp [hpc, Pc.myProc]
    | sleep hpc => simp [hpc, Pc.myProc]
    | exit hpc => simp [hpc, Pc.myProc]
  have hnone := Pc.serves_of_myProc hcp
  refine .of_pc c (fun d hd => by simp [hd]) rfl hc (by simp)
    (fun m _ => by rw [hnone]; simp [Pc.serves]) (by simp) (fun q => ?_) fun _ _ => rfl
  by_cases hq : q = p
  · subst hq
    have hs : ¬Asleep s q := fun h => hi.not_inside hcp (hc q) (.inr h)
    refine ⟨fun h => absurd h ?_, fun h => absurd h hs⟩
    simpa [Asleep] using hno
  · simp [Asleep, hq]

/-- `sleep` in `inc_pgroup_cpus`. -/
theorem SameRequests.incSleep (hpc : s.pc c = .incSleep p g) :
    SameRequests s
      (((s.setLock g none).setChain p (some (.request p))).switchToScheduler c p .sleep) := by
  have hserve : ∀ d m, m.type = .needCpu →
      (((((s.setLock g none).setChain p (some (.request p))).switchToScheduler c p .sleep).pc
        d).serves = some m ↔ (s.pc d).serves = some m) := by
    intro d m _
    by_cases hd : d = c
    · simp [hd, hpc, Pc.serves]
    · simp [hd]
  refine ⟨underWay_eq_of_serves rfl hserve, fun m hm h => ?_, fun q => ?_, fun _ _ => rfl,
    fun d q g' h => ?_, fun d m h => ?_⟩
  · refine way_of_serves ?_ hserve hm h
    rfl
  · by_cases hq : q = p
    · subst hq
      refine ⟨fun _ => .inl ⟨c, g, hpc⟩, fun _ => .inr ?_⟩
      simp [Asleep]
    · have hasleep : Asleep (((s.setLock g none).setChain p (some (.request p))).switchToScheduler c p
          .sleep) q ↔ Asleep s q := by simp [Asleep, hq]
      rw [Inside, Inside, hasleep]
      refine or_congr_left (exists_congr fun d => exists_congr fun g' => ?_)
      by_cases hd : d = c
      · subst hd
        simp [hpc, Ne.symm hq]
      · simp [hd]
  · by_cases hd : d = c
    · simp [hd] at h
    · simpa [hd] using h
  · by_cases hd : d = c
    · simp [hd] at h
    · exact .inl (by simpa [hd] using h)

/-- A step of one CPU that does not touch a process. -/
theorem inside_of_pc (hpc : ∀ d ≠ c, t.pc d = s.pc d) (hs : ∀ p g, s.pc c ≠ .incSleep p g)
    (hst : t.status = s.status) (hch : t.chain = s.chain) :
    Inside t p ↔ (∃ g, t.pc c = .incSleep p g) ∨ Inside s p := by
  have hasleep : Asleep t p ↔ Asleep s p := by rw [Asleep, Asleep, hst, hch]
  rw [Inside, Inside, hasleep, ← or_assoc]
  refine or_congr_left ?_
  constructor
  · rintro ⟨d, g, hd⟩
    by_cases hdc : d = c
    · exact .inl ⟨g, hdc ▸ hd⟩
    · exact .inr ⟨d, g, by rwa [← hpc d hdc]⟩
  · rintro (⟨g, hc⟩ | ⟨d, g, hd⟩)
    · exact ⟨c, g, hc⟩
    · refine ⟨d, g, ?_⟩
      rwa [hpc d]
      rintro rfl
      exact hs p g hd

/-- A CPU takes a request out of the box. -/
theorem SameRequests.take (hpc : s.pc c = .acquireGet) (hne : s.umBox.requests ≠ [])
    (hpcs : ∀ d ≠ c, t.pc d = s.pc d) (hc : t.pc c = .acquireLeave s.umBox.get.1)
    (hbox : t.umBox = s.umBox.get.2) (hst : t.status = s.status) (hch : t.chain = s.chain)
    (hp : t.procGroup = s.procGroup) : SameRequests s t := by
  have hget := UmBox.requests_get hne
  constructor
  case count =>
    intro p
    have hcount := underWay_of_pc hpcs p
    rw [hc, hpc, hbox, hget, List.countP_cons] at hcount
    simp only [Pc.asksFor, Pc.serves, Option.any_some, Option.any_none, Bool.false_eq_true,
      if_false] at hcount
    cases hask : s.umBox.get.1.asks p <;> simp [hask] at hcount <;> omega
  case way =>
    rintro m - (hm | ⟨d, hd⟩)
    · rw [hbox] at hm
      exact .inl (by rw [hget]; exact List.mem_cons_of_mem _ hm)
    · by_cases hdc : d = c
      · rw [hdc, hc] at hd
        obtain rfl := Option.some.inj hd
        exact .inl (by rw [hget]; exact List.mem_cons_self)
      · exact .inr ⟨d, by rwa [← hpcs d hdc]⟩
  case inside =>
    intro p
    rw [inside_of_pc hpcs (by simp [hpc]) hst hch]
    simp [hc]
  case group => exact fun _ _ => by rw [hp]
  case sleeps =>
    intro d p g hd
    by_cases hdc : d = c
    · simp [hdc, hc] at hd
    · rwa [← hpcs d hdc]
  case wakes =>
    intro d m hd
    by_cases hdc : d = c
    · simp [hdc, hc] at hd
    · exact .inl (by rwa [← hpcs d hdc])

/-- A request of another kind is sent. -/
theorem SameRequests.sendFlex (htype : m.type ≠ .needCpu) (hpc : t.pc = s.pc)
    (hreq : t.umBox.requests = s.umBox.requests ++ [m]) (hst : t.status = s.status)
    (hch : t.chain = s.chain) (hp : t.procGroup = s.procGroup) : SameRequests s t := by
  have hno : ∀ q, m.asks q = false := fun q => by simp [CpuMessage.asks, htype]
  constructor
  case count =>
    intro q
    simp only [underWay, hreq, hpc, List.countP_append, List.countP_singleton, hno]
    rfl
  case way =>
    rintro m' hm' (h | ⟨d, hd⟩)
    · rw [hreq] at h
      obtain h | h := List.mem_append.mp h
      · exact .inl h
      · rw [List.mem_singleton.mp h] at hm'
        exact absurd hm' htype
    · exact .inr ⟨d, by rwa [← hpc]⟩
  case inside => exact fun _ => by simp only [Inside, Asleep, hpc, hst, hch]
  case group => exact fun _ _ => by rw [hp]
  case sleeps => exact fun _ _ _ h => by rwa [← hpc]
  case wakes => exact fun _ _ h => .inl (by rwa [← hpc])

/-- **`inc_pgroup_cpus` sends its request**: none of the process was under way. -/
theorem Served.sendWait (h : Served s) (hi : Inv s) (hpc : s.pc c = .run p)
    (hp : s.procGroup p = some g) (hpcs : ∀ d ≠ c, t.pc d = s.pc d) (hc : t.pc c = .incSleep p g)
    (hreq : t.umBox.requests = s.umBox.requests ++ [⟨.needCpu, g, .request p⟩])
    (hst : t.status = s.status) (hch : t.chain = s.chain) (hproc : t.procGroup = s.procGroup) :
    Served t := by
  have hnot : ¬Inside s p := hi.not_inside (c := c) (by rw [hpc]; rfl) (by simp [hpc])
  have hzero := h.zero p hnot
  have hcount : ∀ q, underWay t q = underWay s q + if q = p then 1 else 0 := by
    intro q
    have hcount := underWay_of_pc hpcs q
    rw [hc, hpc, hreq, List.countP_append, List.countP_singleton] at hcount
    have hask : (⟨.needCpu, g, .request p⟩ : CpuMessage).asks q = decide (q = p) := by
      simp [CpuMessage.asks, eq_comm]
    rw [hask] at hcount
    simp only [Pc.asksFor, Pc.serves, Option.any_none, Bool.false_eq_true, if_false,
      decide_eq_true_eq] at hcount
    omega
  have hinside : ∀ q, Inside t q ↔ q = p ∨ Inside s q := by
    intro q
    rw [inside_of_pc hpcs (by simp [hpc]) hst hch]
    simp [hc, eq_comm]
  have hway : ∀ m, UnderWay t m → UnderWay s m ∨ m = ⟨.needCpu, g, .request p⟩ := by
    rintro m (hm | ⟨d, hd⟩)
    · rw [hreq] at hm
      obtain hm | hm := List.mem_append.mp hm
      · exact .inl (.inl hm)
      · exact .inr (List.mem_singleton.mp hm)
    · have hdc : d ≠ c := by
        rintro rfl
        simp [hc, Pc.serves] at hd
      exact .inl (.inr ⟨d, by rwa [← hpcs d hdc]⟩)
  constructor
  case one =>
    intro q hq
    rw [hcount]
    by_cases hqp : q = p
    · simp [hqp, hzero]
    · simpa [hqp] using h.one q (((hinside q).mp hq).resolve_left hqp)
  case zero =>
    intro q hq
    rw [hinside, not_or] at hq
    rw [hcount, if_neg hq.1, h.zero q hq.2]
  case group =>
    intro m q hm hask
    rw [hproc]
    obtain hm | rfl := hway m hm
    · exact h.group m q hm hask
    · obtain rfl : p = q := by simpa using (CpuMessage.asks_iff.mp hask).2
      exact hp
  case chain =>
    intro m hm htype
    obtain hm | rfl := hway m hm
    · exact h.chain m hm htype
    · exact ⟨p, rfl⟩
  case here =>
    intro d q g' hd
    rw [hproc]
    by_cases hdc : d = c
    · rw [hdc, hc, Pc.incSleep.injEq] at hd
      obtain ⟨rfl, rfl⟩ := hd
      exact hp
    · exact h.here d q g' (by rwa [← hpcs d hdc])
  case wakes =>
    intro d m hd
    by_cases hdc : d = c
    · simp [hdc, hc] at hd
    · exact h.wakes d m (by rwa [← hpcs d hdc])

/-- The sender of a request whose CPU has come sleeps. -/
theorem Served.asleep (h : Served s) (hi : Inv s) (hpc : s.pc c = .acquireWake m)
    (hask : m.asks p) : Asleep s p ∧ ∀ d g, s.pc d ≠ .incSleep p g := by
  have hway : UnderWay s m := .inr ⟨c, by rw [hpc]; rfl⟩
  have hno : ∀ d g, s.pc d ≠ .incSleep p g := by
    intro d g hd
    have hg := h.here d p g hd
    rw [h.group m p hway hask, Option.some.injEq] at hg
    have hlock := hi.here d
    have hlock' := hi.here c
    rw [hd] at hlock
    rw [hpc] at hlock'
    have hdc : d = c := by
      have := hlock.2.2.2
      rw [← hg, hlock'.2] at this
      exact (Option.some.inj this).symm
    rw [hdc, hpc] at hd
    cases hd
  refine ⟨(h.inside hway hask).resolve_left ?_, hno⟩
  rintro ⟨d, g, hd⟩
  exact hno d g hd

/-- **`handle_cpu_acquire` wakes the sender**: its request is served. -/
theorem Served.acquireWake (h : Served s) (hi : Inv s) (hpc : s.pc c = .acquireWake m) :
    Served (((s.wakeUp m.chain).setLock m.group none).setPc c .schedRun) := by
  have htype := h.wakes c m hpc
  obtain ⟨p, hp⟩ := h.chain m (.inr ⟨c, by rw [hpc]; rfl⟩) htype
  have hask : m.asks p := CpuMessage.asks_iff.mpr ⟨htype, hp⟩
  obtain ⟨hasleep, hno⟩ := h.asleep hi hpc hask
  set t := ((s.wakeUp m.chain).setLock m.group none).setPc c .schedRun with ht
  have hpcs : ∀ d ≠ c, t.pc d = s.pc d := fun d hd => by simp [ht, wakeUp, hd]
  have hc : t.pc c = .schedRun := by simp [ht]
  have hsleep : ∀ q, Asleep t q ↔ q ≠ p ∧ Asleep s q := by
    intro q
    by_cases hq : q = p
    · subst hq
      simp [ht, Asleep, wakeUp, hp, hasleep.1, hasleep.2]
    · have hne : ¬(s.status q = .sleep ∧ s.chain q = some (.request p)) ∨ ¬Asleep s q := by
        by_cases hs : Asleep s q
        · refine .inl fun h' => hq ?_
          have := hs.2.symm.trans h'.2
          simpa using this
        · exact .inr hs
      by_cases hwoken : s.status q = .sleep ∧ s.chain q = some (.request p)
      · have hs := hne.resolve_left (not_not.mpr hwoken)
        simp [ht, Asleep, wakeUp, hp, hwoken, hq, Ne.symm hq]
      · simp [ht, Asleep, wakeUp, hp, hwoken, hq]
  have hinside : ∀ q, Inside t q ↔ q ≠ p ∧ Inside s q := by
    intro q
    have hpcq : (∃ d g, t.pc d = .incSleep q g) ↔ ∃ d g, s.pc d = .incSleep q g := by
      refine exists_congr fun d => exists_congr fun g => ?_
      by_cases hdc : d = c
      · simp [hdc, hc, hpc]
      · rw [hpcs d hdc]
    rw [Inside, Inside, hpcq, hsleep]
    constructor
    · rintro (⟨d, g, hd⟩ | ⟨hq, hs⟩)
      · refine ⟨?_, .inl ⟨d, g, hd⟩⟩
        rintro rfl
        exact hno d g hd
      · exact ⟨hq, .inr hs⟩
    · rintro ⟨hq, hs | hs⟩
      · exact .inl hs
      · exact .inr ⟨hq, hs⟩
  have hcount : ∀ q, underWay t q + (if q = p then 1 else 0) = underWay s q := by
    intro q
    have hcount := underWay_of_pc hpcs q
    have hask' : m.asks q = decide (q = p) := by simp [CpuMessage.asks, htype, hp, eq_comm]
    have hbox : t.umBox = s.umBox := rfl
    rw [hc, hpc, hbox] at hcount
    simp only [Pc.asksFor, Pc.serves, Option.any_none, Option.any_some, hask',
      Bool.false_eq_true, if_false, decide_eq_true_eq] at hcount
    omega
  have hway : ∀ m', UnderWay t m' → UnderWay s m' := by
    rintro m' (hm | ⟨d, hd⟩)
    · exact .inl hm
    · have hdc : d ≠ c := by
        rintro rfl
        simp [hc, Pc.serves] at hd
      exact .inr ⟨d, by rwa [← hpcs d hdc]⟩
  constructor
  case one =>
    intro q hq
    obtain ⟨hqp, hs⟩ := (hinside q).mp hq
    have := hcount q
    rw [if_neg hqp, h.one q hs] at this
    omega
  case zero =>
    intro q hq
    have hq' := hcount q
    by_cases hqp : q = p
    · subst hqp
      rw [if_pos rfl, h.one q (.inr hasleep)] at hq'
      omega
    · rw [if_neg hqp, h.zero q fun hs => hq ((hinside q).mpr ⟨hqp, hs⟩)] at hq'
      omega
  case group => exact fun m' q hm hask => h.group m' q (hway m' hm) hask
  case chain => exact fun m' hm htype => h.chain m' (hway m' hm) htype
  case here =>
    intro d q g hd
    have hdc : d ≠ c := by
      rintro rfl
      simp [hc] at hd
    exact h.here d q g (by rwa [← hpcs d hdc])
  case wakes =>
    intro d m' hd
    have hdc : d ≠ c := by
      rintro rfl
      simp [hc] at hd
    exact h.wakes d m' (by rwa [← hpcs d hdc])

/-! ## Every step -/

/-- A section of the scheduler's side, away from the requests. -/
theorem SameRequests.of_serves_none (c : CpuId) {k : Pc} (hs : s.pc c = k) (hk : k.myProc = none)
    (hnone : k.serves = none) (hpc : ∀ d ≠ c, t.pc d = s.pc d) (hbox : t.umBox = s.umBox)
    (ht : (t.pc c).serves = none) (hsleep : ∀ p g, t.pc c ≠ .incSleep p g)
    (hst : t.status = s.status) (hch : t.chain = s.chain) (hp : t.procGroup = s.procGroup) :
    SameRequests s t := by
  refine .of_sched c hpc hbox (fun p g h => ?_) hsleep (by rw [hs]; simp [hnone, ht])
    (fun m hm => ?_) hst hch hp
  · rw [← hs, h] at hk
    cases hk
  · rw [hm] at ht
    cases ht

/-- **Every step keeps requests and senders together**, as long as it does not wake a sender. -/
theorem Served.of_effect (h : Served s) (hi : Inv s) (ha : Account s) (hun : Undisturbed s a)
    (he : Effect s a t) : Served t := by
  have hfree := ha.free
  cases he with
  | idle => exact h
  | goto c k hgo _ _ =>
    refine h.of_same ?_
    cases hk : s.pc c <;> rw [hk] at hgo <;> cases hgo
    case acquireEnter.gone =>
      refine .of_sched c (fun d hd => by simp [hd]) rfl (by simp [hk]) (by simp) (fun m' hm' => ?_)
        (by simp) rfl rfl rfl
      rw [hk]
      simp only [setPc, Function.update_self, Pc.serves, reduceCtorEq, Option.some.injEq, false_iff]
      rintro rfl
      simp_all
    case enterNew.back =>
      exact .of_own hi (by rw [hk]; rfl) (fun d hd => by simp [hd]) rfl (by simp [hk]) (by simp)
        (by simp [Pc.myProc]) rfl rfl fun _ _ => rfl
    all_goals
      exact .of_serves_none c hk rfl rfl (fun d hd => by simp [hd]) rfl (by simp [Pc.serves])
        (by simp) rfl rfl rfl
  | enterDefault c k hk _ =>
    refine h.of_same ?_
    cases hpc : s.pc c <;> rw [hpc] at hk <;> cases hk
    case enterDefault.decDefault.refl p =>
      exact .of_own (p := p) hi (by rw [hpc]; rfl) (fun d hd => by simp [State.cpuIn, hd]) rfl
        (by simp [hpc]) (by simp) (by simp [Pc.myProc]) rfl rfl fun _ _ => rfl
    all_goals
      exact .of_serves_none c hpc rfl rfl (fun d hd => by simp [State.cpuIn, hd]) rfl
        (by simp [Pc.serves]) (by simp) rfl rfl rfl
  | count c k hk _ =>
    refine h.of_same ?_
    cases hpc : s.pc c <;> rw [hpc] at hk <;> cases hk
    case count.decCount.refl p =>
      exact .of_own (p := p) hi (by rw [hpc]; rfl) (fun d hd => by simp [hd]) rfl
        (by simp [hpc]) (by simp) (by simp [Pc.myProc]) rfl rfl fun _ _ => rfl
    all_goals
      exact .of_serves_none c hpc rfl rfl (fun d hd => by simp [hd]) rfl (by simp [Pc.serves])
        (by simp) rfl rfl rfl
  | negative c hneg => omega
  | refused c g e _ he =>
    refine h.of_same ?_
    cases he with
    | noGroup m hpc hid htype =>
      have := h.alive hi (.inr ⟨c, by rw [hpc]; rfl⟩) htype
      rw [this] at hid
      cases hid
    | noFork p q g hpc =>
      exact .of_sched c (fun d hd => by simp [hd]) rfl (by simp [hpc]) (by simp)
        (by simp [hpc, Pc.serves]) (by simp) rfl rfl rfl
    | noRelease p g hpc =>
      exact .of_sched c (fun d hd => by simp [hd]) rfl (by simp [hpc]) (by simp)
        (by simp [hpc, Pc.serves]) (by simp) rfl rfl rfl
  | take c hpc hne =>
    exact h.of_same (.take hpc hne (fun d hd => by simp [hd]) (by simp) rfl rfl rfl rfl)
  | tooMany c m hpc hg hcount => exact absurd hcount (ha.not_last hi hpc hg)
  | acquireLeave c m hpc _ _ =>
    exact h.of_same (.of_sched c (fun d hd => by simp [State.cpuOut, hd]) rfl (by simp [hpc])
      (by simp) (by simp [hpc, Pc.serves]) (by simp) rfl rfl rfl)
  | acquireEnter c m hpc _ _ htype =>
    refine h.of_same (.of_sched c (fun d hd => by simp [State.cpuIn, hd]) rfl (by simp [hpc])
      (by simp) (by simp [hpc, Pc.serves]) (fun m' hm' => ?_) rfl rfl rfl)
    simp only [setPc, Function.update_self, Pc.acquireWake.injEq] at hm'
    rwa [← hm']
  | acquireEnterFlex c m hpc _ _ htype =>
    refine h.of_same (.of_sched c (fun d hd => by simp [State.cpuIn, hd]) rfl (by simp [hpc])
      (by simp) (fun m' hm' => ?_) (by simp) rfl rfl rfl)
    rw [hpc]
    simp only [setPc, Function.update_self, Pc.serves, reduceCtorEq, Option.some.injEq, false_iff]
    rintro rfl
    exact htype hm'
  | acquireWake c m hpc => exact h.acquireWake hi hpc
  | acquireBack c hpc _ =>
    exact h.of_same (.of_serves_none c hpc rfl rfl (fun d hd => by simp [State.cpuIn, hd]) rfl
      (by simp [Pc.serves]) (by simp) rfl rfl rfl)
  | acquireBackCount c hpc _ =>
    exact h.of_same (.of_serves_none c hpc rfl rfl (fun d hd => by simp [hd]) rfl
      (by simp [Pc.serves]) (by simp) rfl rfl rfl)
  | leave c g hpc _ _ _ =>
    exact h.of_same (.of_serves_none c hpc rfl rfl (fun d hd => by simp [State.cpuOut, hd]) rfl
      (by simp [Pc.serves]) (by simp) rfl rfl rfl)
  | leaveLast c g hpc _ _ _ _ =>
    exact h.of_same (.of_serves_none c hpc rfl rfl
      (fun d hd => by simp [State.freed, State.cpuOut, hd]) rfl (by simp [Pc.serves]) (by simp) rfl
      rfl rfl)
  | lockGroup c g hpc _ _ =>
    exact h.of_same (.of_serves_none c hpc rfl rfl (fun d hd => by simp [hd]) rfl
      (by simp [Pc.serves]) (by simp) rfl rfl rfl)
  | dispatchNone c g hpc =>
    exact h.of_same (.of_serves_none c hpc rfl rfl (fun d hd => by simp [hd]) rfl
      (by simp [Pc.serves]) (by simp) rfl rfl rfl)
  | dispatch c g q rest hpc hst =>
    refine h.of_same (.of_pc c (fun d hd => by simp [procMoveToTail, hd]) rfl (by simp [hpc])
      (by simp) (by simp [hpc, Pc.serves]) (by simp) (fun p => ?_) fun _ _ => rfl)
    by_cases hpq : p = q
    · subst hpq
      simp [Asleep, hst]
    · simp [Asleep, procMoveToTail, hpq]
  | switchOut c p st ch hout => exact h.of_same (hout.same hi)
  | incSleep c p g hpc => exact h.of_same (.incSleep hpc)
  | createKeep c p g hpc _ _ _ _ _ _ =>
    exact h.of_same (.of_own (p := p) (c := c) hi (by rw [hpc]; rfl) (fun _ _ => rfl) rfl
      (by simp [hpc]) (by simp [State.procIn, State.procOut, hpc])
      (by simp [State.procIn, State.procOut, hpc, Pc.myProc]) rfl rfl
      fun q hq => by simp [State.procIn, State.procOut, hq])
  | createAsk c p hpc _ _ _ _ _ =>
    exact h.of_same (.of_own (p := p) hi (by rw [hpc]; rfl)
      (fun d hd => by simp [State.cpuOut, State.procOut, hd]) rfl (by simp [hpc]) (by simp)
      (by simp [Pc.myProc]) rfl rfl fun q hq => by simp [State.cpuOut, State.procOut, hq])
  | createLeave c p g hpc _ _ _ _ _ _ =>
    exact h.of_same (.of_own (p := p) hi (by rw [hpc]; rfl)
      (fun d hd => by simp [State.cpuOut, State.procOut, hd]) rfl (by simp [hpc]) (by simp)
      (by simp [Pc.myProc]) rfl rfl fun q hq => by simp [State.cpuOut, State.procOut, hq])
  | createLast c p g hpc _ _ _ _ _ _ _ =>
    exact h.of_same (.of_own (p := p) hi (by rw [hpc]; rfl)
      (fun d hd => by simp [State.freed, State.cpuOut, State.procOut, hd]) rfl (by simp [hpc])
      (by simp) (by simp [Pc.myProc]) rfl rfl
      fun q hq => by simp [State.freed, State.cpuOut, State.procOut, hq])
  | createGo c p hpc _ =>
    exact h.of_same (.of_own (p := p) hi (by rw [hpc]; rfl) (fun d hd => by simp [hd]) rfl
      (by simp [hpc]) (by simp) (by simp [Pc.myProc]) rfl rfl fun _ _ => rfl)
  | createBack c p hpc _ =>
    exact h.of_same (.of_own (p := p) hi (by rw [hpc]; rfl)
      (fun d hd => by simp [State.procIn, State.cpuIn, hd]) rfl (by simp [hpc]) (by simp)
      (by simp [Pc.myProc]) rfl rfl fun q hq => by simp [State.procIn, State.cpuIn, hq])
  | allocTake c p g hpc _ =>
    exact h.of_same (.of_own (p := p) hi (by rw [hpc]; rfl)
      (fun d hd => by simp [State.cpuIn, State.claimed, hd]) rfl (by simp [hpc]) (by simp)
      (by simp [Pc.myProc]) rfl rfl fun _ _ => rfl)
  | allocNext c p g hpc _ =>
    exact h.of_same (.of_own (p := p) hi (by rw [hpc]; rfl) (fun d hd => by simp [hd]) rfl
      (by simp [hpc]) (by simp) (by simp [Pc.myProc]) rfl rfl fun _ _ => rfl)
  | noSlot c p i hpc _ =>
    exact h.of_same (.of_sched c (fun d hd => by simp [hd]) rfl (by simp [hpc]) (by simp)
      (by simp [hpc, Pc.serves]) (by simp) rfl rfl rfl)
  | rejoin c p g hpc _ =>
    refine h.of_same (.of_own (c := c) (p := p) hi ?_ (fun d hd => by simp [State.procIn, hd]) rfl ?_
      (by simp) (by simp [Pc.myProc]) rfl rfl fun q hq => by simp [State.procIn, hq])
    · cases hk : s.pc c <;> rw [hk] at hpc <;> cases hpc <;> rfl
    · cases hk : s.pc c <;> rw [hk] at hpc <;> cases hpc <;> simp
  | enterLeave c p old new hpc _ _ _ _ _ =>
    exact h.of_same (.of_own (p := p) hi (by rw [hpc]; rfl)
      (fun d hd => by simp [State.procOut, hd]) rfl (by simp [hpc]) (by simp) (by simp [Pc.myProc])
      rfl rfl fun q hq => by simp [State.procOut, hq])
  | enterNew c p old new hpc _ _ =>
    exact h.of_same (.of_own (p := p) hi (by rw [hpc]; rfl)
      (fun d hd => by simp [State.procIn, hd]) rfl (by simp [hpc]) (by simp) (by simp [Pc.myProc])
      rfl rfl fun q hq => by simp [State.procIn, hq])
  | exitLeave c p g hpc _ _ _ _ =>
    exact h.of_same (.of_own (p := p) hi (by rw [hpc]; rfl)
      (fun d hd => by simp [State.procOut, hd]) rfl (by simp [hpc]) (by simp) (by simp [Pc.myProc])
      rfl rfl fun q hq => by simp [State.procOut, hq])
  | decLeave c p g hpc _ _ _ =>
    exact h.of_same (.of_own (p := p) hi (by rw [hpc]; rfl)
      (fun d hd => by simp [State.cpuOut, hd]) rfl (by simp [hpc]) (by simp) (by simp [Pc.myProc])
      rfl rfl fun _ _ => rfl)
  | decLast c p g hpc _ _ _ _ =>
    exact h.of_same (.of_own (p := p) hi (by rw [hpc]; rfl)
      (fun d hd => by simp [State.freed, State.cpuOut, hd]) rfl (by simp [hpc]) (by simp)
      (by simp [Pc.myProc]) rfl rfl fun _ _ => rfl)
  | boxFull c p ty _ _ hfull => simp [ha.not_boxFull hi] at hfull
  | sendWait c p g m hpc _ hm hroom _ hp heq =>
    subst heq
    exact h.sendWait hi hpc hp (fun d hd => by simp [hd]) (by simp) (hi.send hm hroom).2.1 rfl rfl rfl
  | sendFlex c p m _ _ hm hroom _ htype =>
    exact h.of_same (.sendFlex htype rfl (hi.send hm hroom).2.1 rfl rfl rfl)
  | occupy | ask | askNone | reserve => exact h.of_same (.of_kpc rfl rfl rfl rfl rfl)
  | forkAlloc p q _ hst =>
    exact h.of_same (.of_env q rfl rfl (hi.not_inside_of_status (by simp [hst]) (by simp [hst]))
      (by simp [Asleep]) fun r hr => ⟨by simp [hr], rfl, rfl⟩)
  | forkRunable p q hk =>
    have hst : s.status q = .used := by
      have := hi.kpc p
      rw [hk] at this
      exact this.1
    exact h.of_same (.of_env q rfl rfl (hi.not_inside_of_status (by simp [hst]) (by simp [hst]))
      (by simp [Asleep]) fun r hr => ⟨by simp [hr], rfl, rfl⟩)
  | forkInsert p q g hk _ _ _ =>
    have hst : s.status q = .runable := by
      have := hi.kpc p
      rw [hk] at this
      exact this.1
    exact h.of_same (.of_env q rfl rfl (hi.not_inside_of_status (by simp [hst]) (by simp [hst]))
      (by simp [Asleep, State.procIn, hst]) fun r hr => ⟨rfl, rfl, by simp [State.procIn, hr]⟩)
  | forkFail p q hk =>
    have hst : s.status q = .used := by
      have := hi.kpc p
      rw [hk] at this
      exact this.1
    exact h.of_same (.of_env q rfl rfl (hi.not_inside_of_status (by simp [hst]) (by simp [hst]))
      (by simp [Asleep, freeProcess]) fun r hr => by simp [freeProcess, hr])
  | wake q hst =>
    have hch := hun q rfl
    refine h.of_same (.of_env q rfl rfl ?_ (by simp [Asleep]) fun r hr => by simp [hr])
    rintro (⟨d, g, hd⟩ | hsleep)
    · have := ((hi.here d).executed (by rw [hd]; rfl)).1
      rw [hst] at this
      cases this
    · exact hch hsleep.2
  | reap q hst =>
    exact h.of_same (.of_env q rfl rfl (hi.not_inside_of_status (by simp [hst]) (by simp [hst]))
      (by simp [Asleep, freeProcess]) fun r hr => by simp [freeProcess, hr])

theorem Served.boot : Served boot := by
  have hpc : ∀ c, (Pgroup.boot.pc c).serves = none ∧ (∀ p g, Pgroup.boot.pc c ≠ .incSleep p g) ∧
      ∀ m, Pgroup.boot.pc c ≠ .acquireWake m := by
    intro c
    by_cases hc : c = 0 <;> simp [Pgroup.boot, hc, Pc.serves]
  have hreq : Pgroup.boot.umBox.requests = [] := rfl
  have hway : ∀ m, ¬UnderWay Pgroup.boot m := by
    rintro m (hm | ⟨c, hc⟩)
    · simp [hreq] at hm
    · simp [(hpc c).1] at hc
  have hinside : ∀ p, ¬Inside Pgroup.boot p := by
    rintro p (⟨c, g, hc⟩ | hsleep)
    · exact (hpc c).2.1 p g hc
    · simp [Asleep, Pgroup.boot] at hsleep
  constructor
  case one => exact fun p hp => absurd hp (hinside p)
  case zero =>
    intro p _
    rw [underWay, hreq, List.countP_nil, Nat.zero_add, Tally.count_eq_zero_iff]
    intro c
    simp [(hpc c).1]
  case group => exact fun m p hm => absurd hm (hway m)
  case chain => exact fun m hm => absurd hm (hway m)
  case here => exact fun c p g hc => absurd hc ((hpc c).2.1 p g)
  case wakes => exact fun c m hc => absurd hc ((hpc c).2.2 m)

/-! ## The sleep of `inc_pgroup_cpus` -/

/-- The step is the wake-up of process `p` by a CPU that has served its request: the CPU is in the
group the request names, which is the group of `p`. -/
def servedBy (s : State) (p : ProcId) : Act → Bool
  | .cpu c =>
    match s.pc c with
    | .acquireWake m =>
      m.asks p && decide (s.procGroup p = some m.group ∧ s.cpuGroup c = some m.group)
    | _ => false
  | _ => false

instance : Decidable (Asleep s p) := inferInstanceAs (Decidable (_ ∧ _))

/-- The record of the processes whose sleep in `inc_pgroup_cpus`, after which it returns 0, has ended
before their request was served. -/
def early (s : State) (a : Act) (t : State) (h : ProcId → Bool) (p : ProcId) : Bool :=
  h p || (decide (Asleep s p ∧ ¬Asleep t p) && !servedBy s p a)

/-- The group subsystem, with that record. -/
abbrev earlyStep : State × (ProcId → Bool) → Act → Option (State × (ProcId → Bool)) :=
  Run.watch step early

/-- **A request is served before its sender returns.**  While a `NEED_CPU` is in the box or with a CPU,
its sender is inside `inc_pgroup_cpus`, in the group the request names, and has no other request
under way; nobody returns early; and no CPU stops for a request of a group that is gone. -/
structure ServedFirst (x : State × (ProcId → Bool)) : Prop where
  inside : ∀ m, UnderWay x.1 m → m.type = .needCpu →
    ∃ p, m.chain = .request p ∧ Inside x.1 p ∧ x.1.procGroup p = some m.group ∧ underWay x.1 p = 1
  returns : ∀ p, x.2 p = false
  alive : ∀ c, x.1.pc c ≠ .panic .emptyGroupAcquire

/-- Nobody but the handler of its request, or a wake-up from outside, ends the sleep. -/
theorem Served.returns (h : Served s) (hi : Inv s) (hp : Asleep s p) (ht : ¬Asleep t p)
    (he : Effect s a t) :
    a = .wake p ∨ ∃ c m, a = .cpu c ∧ s.pc c = .acquireWake m ∧ m.asks p ∧
      s.procGroup p = some m.group ∧ s.cpuGroup c = some m.group := by
  have hnot : ∀ q, s.status q ≠ .sleep → q ≠ p := by
    rintro q hq rfl
    exact hq hp.1
  cases he with
  | acquireWake c m hpc =>
    refine .inr ⟨c, m, rfl, hpc, ?_⟩
    have hok := hi.here c
    rw [hpc] at hok
    have hchain : m.chain = .request p := by
      by_contra hne
      refine ht ?_
      have : ¬(s.status p = .sleep ∧ s.chain p = some m.chain) := by
        rw [hp.2]
        simpa [hp.1, eq_comm] using hne
      simpa [Asleep, wakeUp, this] using hp
    have hask : m.asks p := CpuMessage.asks_iff.mpr ⟨h.wakes c m hpc, hchain⟩
    exact ⟨hask, h.group m p (.inr ⟨c, by rw [hpc]; rfl⟩) hask, hok.1⟩
  | wake q _ =>
    by_cases hq : p = q
    · exact .inl (by rw [hq])
    · exact absurd (by simpa [Asleep, hq] using hp) ht
  | dispatch c g q rest hpc hst =>
    have hq := (hnot q (by simp [hst])).symm
    exact absurd (by simpa [Asleep, procMoveToTail, hq] using hp) ht
  | switchOut c q st ch hout =>
    have hq : p ≠ q := by
      refine (hnot q ?_).symm
      have hcq : (s.pc c).myProc = some q := by
        cases hout with
        | preempt hpc => rcases hpc with hpc | hpc <;> rw [hpc] <;> rfl
        | sleep hpc => rw [hpc]; rfl
        | exit hpc => rw [hpc]; rfl
      simp [((hi.here c).executed hcq).1]
    exact absurd (by simpa [Asleep, hq] using hp) ht
  | incSleep c q g hpc =>
    have hq : p ≠ q := (hnot q (by simp [((hi.here c).executed (by rw [hpc]; rfl)).1])).symm
    exact absurd (by simpa [Asleep, hq] using hp) ht
  | forkAlloc r q _ hst =>
    have hq := (hnot q (by simp [hst])).symm
    exact absurd (by simpa [Asleep, hq] using hp) ht
  | forkRunable r q hk =>
    have hst := hi.kpc r
    rw [hk] at hst
    have hq := (hnot q (by simp [hst.1])).symm
    exact absurd (by simpa [Asleep, hq] using hp) ht
  | forkFail r q hk =>
    have hst := hi.kpc r
    rw [hk] at hst
    have hq := (hnot q (by simp [hst.1])).symm
    exact absurd (by simpa [Asleep, freeProcess, hq] using hp) ht
  | reap q hst =>
    have hq := (hnot q (by simp [hst])).symm
    exact absurd (by simpa [Asleep, freeProcess, hq] using hp) ht
  | _ => exact absurd hp ht

/-- **`inc_pgroup_cpus` returns 0 only when its CPU has come**, in every run in which no process that
sleeps there is woken by anything but `handle_cpu_acquire`. -/
theorem served_first {x : State × (ProcId → Bool)}
    (hx : Run.Reach earlyStep (fun x a => Undisturbed x.1 a) (boot, fun _ => false) x) :
    ServedFirst x := by
  obtain ⟨hserved, hreturns, halive⟩ : Served x.1 ∧ (∀ p, x.2 p = false) ∧
      ∀ c, x.1.pc c ≠ .panic .emptyGroupAcquire := by
    refine hx.invariant_with (P := fun x => Served x.1 ∧ (∀ p, x.2 p = false) ∧
      ∀ c, x.1.pc c ≠ .panic .emptyGroupAcquire) ⟨Served.boot, fun _ => rfl, fun c => ?_⟩ ?_
    · by_cases hc : c = 0 <;> simp [Pgroup.boot, hc]
    rintro y a z hy ⟨h, hret, hal⟩ hun hstep
    obtain ⟨hstep, hnote⟩ := Run.watch_eq_some_iff.mp hstep
    have hi := Reachable.inv hy.fst
    have he := hi.effect hstep
    refine ⟨h.of_effect hi (Reachable.account hy.fst) hun he, fun p => ?_, fun c hc => ?_⟩
    · rw [hnote, early, hret p, Bool.false_or]
      by_cases hp : Asleep y.1 p ∧ ¬Asleep z.1 p
      · rcases h.returns hi hp.1 hp.2 he with rfl | ⟨c, m, rfl, hpc, hask, hg, hcg⟩
        · exact absurd hp.1.2 (hun p rfl)
        · simp [servedBy, hpc, hask, hg, hcg]
      · simp [hp]
    · cases he.stops hc with
      | before e hbefore => exact hal c hbefore
      | refused g e hrefused =>
        cases hrefused with
        | noGroup m hpc hid htype =>
          rw [h.alive hi (.inr ⟨c, by rw [hpc]; rfl⟩) htype] at hid
          cases hid
  refine ⟨fun m hm htype => ?_, hreturns, halive⟩
  obtain ⟨p, hp⟩ := hserved.chain m hm htype
  have hask : m.asks p := CpuMessage.asks_iff.mpr ⟨htype, hp⟩
  have hin := hserved.inside hm hask
  exact ⟨p, hp, hin, hserved.group m p hm hask, hserved.one p hin⟩

/-- Process 1 creates a group with CPU 1, forks process 2 there, asks for a CPU and sleeps; CPU 1
dispatches process 2. -/
def askRun : List Act :=
  [.cpu 1, .cpu 1, .cpu 2, .cpu 2,
    .cpu 0, .cpu 0, .cpu 0, .call 0 (.fork 1), .cpu 0, .cpu 0,
    .cpu 1, .cpu 1, .cpu 1, .call 1 .createPgroup, .cpu 1, .cpu 1, .cpu 1, .cpu 1,
    .call 1 (.fork 2), .cpu 1, .cpu 1, .call 1 .incPgroupCpus, .cpu 1, .cpu 1, .cpu 1,
    .cpu 1, .cpu 1, .cpu 1]

/-- The theorem there: the request is in the box, and process 1 is inside. -/
theorem served_first_askRun :
    ∃ x, Run.Reach earlyStep (fun x a => Undisturbed x.1 a) (boot, fun _ => false) x ∧
      x.1.umBox.requests = [⟨.needCpu, 1, .request 1⟩] ∧ Inside x.1 1 := by
  have hrun : (Run.run (Run.guard earlyStep fun x a => decide (Undisturbed x.1 a))
      (boot, fun _ => false) askRun).map (fun x => x.1.umBox.requests) =
      some [⟨.needCpu, 1, .request 1⟩] := by decide +kernel
  obtain ⟨x, hx, hreq⟩ := Option.map_eq_some_iff.mp hrun
  have hreach : Run.Reach earlyStep (fun x a => Undisturbed x.1 a) (boot, fun _ => false) x :=
    Run.reach_of_guard (fun _ _ h => of_decide_eq_true h) .refl hx
  obtain ⟨p, hp, hin, -⟩ := (served_first hreach).inside ⟨.needCpu, 1, .request 1⟩
    (.inl (by rw [hreq]; simp)) rfl
  obtain rfl : 1 = p := by simpa using hp
  exact ⟨x, hreach, hreq, hin⟩

/-- **The exit of a child wakes the sleeper**: process 2, a child of process 1, exits; its
`wake_up_parent` makes process 1 `RUNABLE`, and process 1 returns from `inc_pgroup_cpus` with its
request still in the box. -/
theorem not_served_first :
    ¬∀ x, Run.Reachable earlyStep (boot, fun _ => false) x → ServedFirst x := by
  intro hall
  have hrun : (Run.run earlyStep (boot, fun _ => false) (askRun ++ [.call 1 .exit, .wake 1,
      .cpu 1, .cpu 1, .cpu 1, .cpu 1])).map (fun x => (x.2 1, x.1.pc 1, x.1.umBox.requests)) =
      some (true, .run 1, [⟨.needCpu, 1, .request 1⟩]) := by decide +kernel
  obtain ⟨x, hx, hlook⟩ := Option.map_eq_some_iff.mp hrun
  simp only [Prod.mk.injEq] at hlook
  have := (hall x (Run.reachable_of_run .refl hx)).returns 1
  rw [hlook.1] at this
  cases this

end Pgroup
