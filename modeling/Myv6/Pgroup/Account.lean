import Myv6.Pgroup.Keep
import Myv6.Lib.Tally

/-!
# Pgroup/Account — every free CPU is accounted for

    CPUs in the default group − 1
      = free_cpus + (reserved: being sent, queued, held by a handler) + (added, not yet counted)

The counter, the CPU array and the box are guarded by three locks and move at different moments, so
the equation holds only with the terms in flight.  `balance` is the CPU's contribution to the left
side less its contribution to the right; between `create_pgroup`'s removal of its CPU and its
`dec_free_cpus` a CPU is owed the other way, but then the default group's lock is held.
-/

namespace Pgroup

open State

variable {s t : State} {g : GroupId} {c d : CpuId} {p q : ProcId}

/-- The CPU is in the default group and not yet counted by `inc_free_cpus`. -/
def Pc.uncounted : Pc → Bool
  | .bootCount | .leaveCount _ | .decCount _ | .acquireBackCount => true
  | _ => false

/-- The CPU holds a request it has taken, and is still in the default group. -/
def Pc.handling : Pc → Bool
  | .acquireLeave _ => true
  | _ => false

/-- The CPU is out of the default group, and `dec_free_cpus` not yet called for it. -/
def Pc.leaving : Pc → Bool
  | .createDec _ => true
  | _ => false

/-- The process has reserved a CPU and not yet sent its request. -/
def KPc.sending : KPc → Bool
  | .incSend _ => true
  | _ => false

/-- A truth value as a summand. -/
def one : Bool → ℤ
  | true => 1
  | false => 0

/-- The CPU's group is the default one. -/
def inDefault (g : Option GroupId) : Bool := g == some defaultPgroupId

/-- What a CPU in group `g` at `k` contributes to the default group's count. -/
def balance (g : Option GroupId) (k : Pc) : ℤ :=
  one (inDefault g) + one k.leaving - one k.handling - one k.uncounted

attribute [simp] Pc.uncounted Pc.handling Pc.leaving KPc.sending

@[simp] theorem inDefault_none : inDefault none = false := rfl

@[simp] theorem inDefault_default : inDefault (some defaultPgroupId) = true := rfl

theorem inDefault_eq_false {g : Option GroupId} (h : g ≠ some defaultPgroupId) :
    inDefault g = false := by simpa [inDefault] using h

theorem inDefault_some (h : g ≠ defaultPgroupId) : inDefault (some g) = false :=
  inDefault_eq_false (by simpa using h)

@[simp] theorem one_true : one true = 1 := rfl

@[simp] theorem one_false : one false = 0 := rfl

theorem one_le_one (b : Bool) : one b ≤ 1 := by cases b <;> decide

/-- **The account**: the balance of the CPUs covers the counter and every reservation, the counter
is not negative, and no request is lost or taken twice. -/
structure Account (s : State) : Prop where
  sum : ∑ c, balance (s.cpuGroup c) (s.pc c) - ∑ p, one (s.kpc p).sending
    = 1 + s.freeCpus + s.umBox.requests.length
  free : 0 ≤ s.freeCpus
  mail : s.sent = s.taken.map Prod.snd ++ s.umBox.requests

/-! ## Steps -/

/-- **A step of one CPU and one process** keeps the account if it moves both sides alike. -/
theorem Account.of_change (ha : Account s) (c : CpuId) (p : ProcId)
    (hcpu : ∀ d ≠ c, t.cpuGroup d = s.cpuGroup d) (hpc : ∀ d ≠ c, t.pc d = s.pc d)
    (hk : ∀ q ≠ p, t.kpc q = s.kpc q)
    (hbal : balance (t.cpuGroup c) (t.pc c) - one (t.kpc p).sending - t.freeCpus
        - t.umBox.requests.length
      = balance (s.cpuGroup c) (s.pc c) - one (s.kpc p).sending - s.freeCpus
        - s.umBox.requests.length)
    (hfree : 0 ≤ t.freeCpus) (hmail : t.sent = t.taken.map Prod.snd ++ t.umBox.requests) :
    Account t := by
  have h₁ := Tally.sum_eq_add_sub (f := fun d => balance (t.cpuGroup d) (t.pc d))
    (g := fun d => balance (s.cpuGroup d) (s.pc d)) c fun d hd => by rw [hcpu d hd, hpc d hd]
  have h₂ := Tally.sum_eq_add_sub (f := fun q => one (t.kpc q).sending)
    (g := fun q => one (s.kpc q).sending) p fun q hq => by rw [hk q hq]
  refine ⟨?_, hfree, hmail⟩
  have := ha.sum
  omega

/-- A step that touches neither the counter nor the box nor a request: the CPU's own balance must
stay. -/
theorem Account.of_cpu (ha : Account s) (c : CpuId)
    (hcpu : ∀ d ≠ c, t.cpuGroup d = s.cpuGroup d) (hpc : ∀ d ≠ c, t.pc d = s.pc d)
    (hk : t.kpc = s.kpc) (hfree : t.freeCpus = s.freeCpus) (hbox : t.umBox = s.umBox)
    (hsent : t.sent = s.sent) (htaken : t.taken = s.taken)
    (hbal : balance (t.cpuGroup c) (t.pc c) = balance (s.cpuGroup c) (s.pc c)) : Account t :=
  ha.of_change c initProc hcpu hpc (fun q _ => congrFun hk q) (by rw [hbal, hk, hfree, hbox])
    (by rw [hfree]; exact ha.free) (by rw [hsent, htaken, hbox]; exact ha.mail)

/-- A step that moves no CPU at all. -/
theorem Account.of_env (ha : Account s) (p : ProcId) (hcpu : t.cpuGroup = s.cpuGroup)
    (hpc : t.pc = s.pc) (hk : ∀ q ≠ p, t.kpc q = s.kpc q)
    (hsend : (t.kpc p).sending = (s.kpc p).sending) (hfree : t.freeCpus = s.freeCpus)
    (hbox : t.umBox = s.umBox) (hsent : t.sent = s.sent) (htaken : t.taken = s.taken) :
    Account t :=
  ha.of_change 0 p (fun d _ => congrFun hcpu d) (fun d _ => congrFun hpc d) hk
    (by rw [hcpu, hpc, hsend, hfree, hbox]) (by rw [hfree]; exact ha.free)
    (by rw [hsent, htaken, hbox]; exact ha.mail)

/-! ## The panics the account rules out -/

/-- Where the CPU stands, its balance is at most one. -/
theorem balance_le_one {k : Pc} (hok : PcOk s c k) : balance (s.cpuGroup c) k ≤ 1 := by
  cases k <;> simp only [PcOk] at hok <;>
    simp [balance, hok, one_le_one]

/-- A CPU outside the default group has no balance, while the group's lock is free. -/
theorem balance_eq_zero {k : Pc} (hok : PcOk s c k) (hg : s.lock defaultPgroupId = none)
    (hc : s.cpuGroup c ≠ some defaultPgroupId) : balance (s.cpuGroup c) k = 0 := by
  have hout := inDefault_eq_false hc
  cases k <;> simp only [PcOk] at hok <;> simp_all [balance]

theorem sending_nonneg : 0 ≤ ∑ p, one (s.kpc p).sending :=
  Finset.sum_nonneg fun p _ => by cases (s.kpc p).sending <;> simp

/-- The box never fills up: there are not enough CPUs to reserve. -/
theorem Account.not_boxFull (ha : Account s) (hi : Inv s) : s.umBox.boxFull = false := by
  by_contra hfull
  have hlen := s.umBox.boxFull_iff.mp (by simpa using hfull)
  have hle : ∑ c, balance (s.cpuGroup c) (s.pc c) ≤ ∑ _c : CpuId, 1 :=
    Finset.sum_le_sum fun c _ => balance_le_one (hi.here c)
  have hsum := ha.sum
  have hfree := ha.free
  have hsend := sending_nonneg (s := s)
  have hcard : ∑ _c : CpuId, (1 : ℤ) = 8 := by decide
  rw [hlen] at hsum
  change _ = 1 + s.freeCpus + (8 : ℤ) at hsum
  omega

/-- A CPU that handles a request is not the last of the default group. -/
theorem Account.not_last (ha : Account s) (hi : Inv s) {m : CpuMessage}
    (hpc : s.pc c = .acquireLeave m) (hg : s.lock defaultPgroupId = none) :
    pgroupCpuCountUnsafe (s.group defaultPgroupId) ≠ 1 := by
  intro hcount
  have hc : s.cpuGroup c = some defaultPgroupId := by
    have := hi.here c
    rw [hpc] at this
    exact this.1
  rw [hi.roster.count_eq, Finset.card_eq_one] at hcount
  obtain ⟨e, he⟩ := hcount
  have honly : ∀ d, s.cpuGroup d = some defaultPgroupId → d = c := by
    have hmem : ∀ d, s.cpuGroup d = some defaultPgroupId → d = e := fun d hd => by
      have : d ∈ ({e} : Finset CpuId) := by rw [← he]; simp [hd]
      simpa using this
    exact fun d hd => (hmem d hd).trans (hmem c hc).symm
  have hle : ∑ d, balance (s.cpuGroup d) (s.pc d) ≤ ∑ _d : CpuId, 0 := by
    refine Finset.sum_le_sum fun d _ => ?_
    by_cases hd : s.cpuGroup d = some defaultPgroupId
    · rw [honly d hd, hc, hpc]
      simp [balance]
    · rw [balance_eq_zero (hi.here d) hg hd]
  have hsum := ha.sum
  have hfree := ha.free
  have hsend := sending_nonneg (s := s)
  simp only [Finset.sum_const_zero] at hle
  omega

/-! ## Every step -/

/-- Where the two sides move together. -/
theorem Account.of_effect (ha : Account s) (hi : Inv s) {a : Act} (h : Effect s a t) :
    Account t := by
  have hfree := ha.free
  have hat : ∀ c k, s.pc c = k → PcOk s c k := fun c k hk => hk ▸ hi.here c
  cases h with
  | idle => exact ha
  | goto c k hgo hok _ =>
    refine ha.of_cpu c (fun _ _ => rfl) (fun d hd => by simp [hd]) rfl rfl rfl rfl rfl ?_
    cases hk : s.pc c <;> rw [hk] at hgo <;> cases hgo <;> simp [balance]
  | enterDefault c k hk hg =>
    have hok := hi.here c
    refine ha.of_cpu c (fun d hd => by simp [State.cpuIn, hd]) (fun d hd => by simp [State.cpuIn, hd])
      rfl rfl rfl rfl rfl ?_
    cases hpc : s.pc c <;> rw [hpc] at hk hok <;> cases hk <;>
      simp_all [balance, PcOk, State.cpuIn]
  | count c k hk _ =>
    have hok := hi.here c
    refine ha.of_change c initProc (fun _ _ => rfl) (fun d hd => by simp [hd]) (fun _ _ => rfl) ?_
      (by simp; omega) ha.mail
    cases hpc : s.pc c <;> rw [hpc] at hk hok <;> cases hk <;>
      simp_all [balance, PcOk] <;> omega
  | negative c hneg => omega
  | refused c g e hg he =>
    refine ha.of_cpu c (fun _ _ => rfl) (fun d hd => by simp [hd]) rfl rfl rfl rfl rfl ?_
    cases he with
    | noGroup m hpc => simp [balance, hpc]
    | noFork p q g hpc => simp [balance, hpc]
    | noRelease p g hpc => simp [balance, hpc]
  | take c hpc hne =>
    have hreq := UmBox.requests_get hne
    refine ha.of_change c initProc (fun _ _ => rfl) (fun d hd => by simp [hd]) (fun _ _ => rfl) ?_
      hfree ?_
    · have hlen := congrArg List.length hreq
      simp only [List.length_cons] at hlen
      simp only [balance, hpc, setPc, Function.update_self, Pc.leaving, Pc.handling, Pc.uncounted,
        one_true, one_false]
      omega
    · simp [ha.mail, hreq]
  | tooMany c m hpc hg hcount => exact (ha.not_last hi hpc hg hcount).elim
  | acquireLeave c m hpc hg hother =>
    exact ha.of_cpu c (fun d hd => by simp [State.cpuOut, hd])
      (fun d hd => by simp [State.cpuOut, hd]) rfl rfl rfl rfl rfl
      (by simp [balance, State.cpuOut, hpc, (hat c _ hpc).1])
  | acquireEnter c m hpc hg hid _ =>
    obtain ⟨hc, hm⟩ := hat c _ hpc
    exact ha.of_cpu c (fun d hd => by simp [State.cpuIn, hd])
      (fun d hd => by simp [State.cpuIn, hd]) rfl rfl rfl rfl rfl
      (by simp [balance, State.cpuIn, hpc, hc, inDefault_some hm.1])
  | acquireEnterFlex c m hpc hg hid _ =>
    obtain ⟨hc, hm⟩ := hat c _ hpc
    exact ha.of_cpu c (fun d hd => by simp [State.cpuIn, hd])
      (fun d hd => by simp [State.cpuIn, hd]) rfl rfl rfl rfl rfl
      (by simp [balance, State.cpuIn, hpc, hc, inDefault_some hm.1])
  | acquireWake c m hpc =>
    exact ha.of_cpu c (fun _ _ => rfl) (fun d hd => by simp [State.wakeUp, hd]) rfl rfl rfl rfl rfl
      (by simp [balance, State.wakeUp, hpc])
  | acquireBack c hpc hg =>
    have hc : s.cpuGroup c = none := hat c _ hpc
    exact ha.of_cpu c (fun d hd => by simp [State.cpuIn, hd])
      (fun d hd => by simp [State.cpuIn, hd]) rfl rfl rfl rfl rfl
      (by simp [balance, State.cpuIn, hpc, hc])
  | acquireBackCount c hpc _ =>
    refine ha.of_change c initProc (fun _ _ => rfl) (fun d hd => by simp [hd]) (fun _ _ => rfl) ?_
      (by simp; omega) ha.mail
    simp [balance, hpc, (hat c _ hpc).1]
    omega
  | leave c g hpc hc hgd hother =>
    exact ha.of_cpu c (fun d hd => by simp [State.cpuOut, hd])
      (fun d hd => by simp [State.cpuOut, hd]) rfl rfl rfl rfl rfl
      (by simp [balance, State.cpuOut, hpc, hc, inDefault_some hgd])
  | leaveLast c g hpc hc hgd hlast hprocs =>
    exact ha.of_cpu c (fun d hd => by simp [State.cpuOut, State.freed, hd])
      (fun d hd => by simp [State.cpuOut, State.freed, hd]) rfl rfl rfl rfl rfl
      (by simp [balance, State.cpuOut, State.freed, hpc, hc, inDefault_some hgd])
  | lockGroup c g hpc hc hg =>
    exact ha.of_cpu c (fun _ _ => rfl) (fun d hd => by simp [hd]) rfl rfl rfl rfl rfl
      (by simp [balance, hpc])
  | dispatchNone c g hpc =>
    exact ha.of_cpu c (fun _ _ => rfl) (fun d hd => by simp [hd]) rfl rfl rfl rfl rfl
      (by simp [balance, hpc])
  | dispatch c g q rest hpc hst =>
    exact ha.of_cpu c (fun _ _ => rfl) (fun d hd => by simp [procMoveToTail, hd]) rfl rfl rfl rfl
      rfl (by simp [balance, procMoveToTail, hpc])
  | switchOut c p st ch h =>
    refine ha.of_cpu c (fun _ _ => rfl) (fun d hd => by simp [hd]) rfl rfl rfl rfl rfl ?_
    cases h with
    | preempt hpc => rcases hpc with hpc | hpc <;> simp [balance, hpc]
    | sleep hpc => simp [balance, hpc]
    | exit hpc => simp [balance, hpc]
  | incSleep c p g hpc =>
    exact ha.of_cpu c (fun _ _ => rfl) (fun d hd => by simp [hd]) rfl rfl rfl rfl rfl
      (by simp [balance, hpc])
  | createKeep c p g _ _ _ _ _ _ _ =>
    exact ha.of_env p rfl rfl (fun _ _ => rfl) rfl rfl rfl rfl rfl
  | createAsk c p hpc _ _ hc _ _ =>
    exact ha.of_cpu c (fun d hd => by simp [State.cpuOut, State.procOut, hd])
      (fun d hd => by simp [State.cpuOut, State.procOut, hd]) rfl rfl rfl rfl rfl
      (by simp [balance, State.cpuOut, State.procOut, hpc, hc])
  | createLeave c p g hpc _ _ hc _ hgd _ =>
    exact ha.of_cpu c (fun d hd => by simp [State.cpuOut, State.procOut, hd])
      (fun d hd => by simp [State.cpuOut, State.procOut, hd]) rfl rfl rfl rfl rfl
      (by simp [balance, State.cpuOut, State.procOut, hpc, hc, inDefault_some hgd])
  | createLast c p g hpc _ _ hc _ hgd _ _ =>
    exact ha.of_cpu c (fun d hd => by simp [State.freed, State.cpuOut, State.procOut, hd])
      (fun d hd => by simp [State.freed, State.cpuOut, State.procOut, hd]) rfl rfl rfl rfl rfl
      (by simp [balance, State.freed, State.cpuOut, State.procOut, hpc, hc, inDefault_some hgd])
  | createGo c p hpc _ =>
    refine ha.of_change c initProc (fun _ _ => rfl) (fun d hd => by simp [hd]) (fun _ _ => rfl) ?_
      (by simp; omega) ha.mail
    simp [balance, hpc, (hat c _ hpc).2.2.1]
    omega
  | createBack c p hpc _ =>
    exact ha.of_cpu c (fun d hd => by simp [State.cpuIn, State.procIn, hd])
      (fun d hd => by simp [State.cpuIn, State.procIn, hd]) rfl rfl rfl rfl rfl
      (by simp [balance, State.cpuIn, State.procIn, hpc, (hat c _ hpc).2.2.1])
  | allocTake c p g hpc hid =>
    have hgd : g ≠ defaultPgroupId := by
      rintro rfl
      rw [hi.default_id] at hid
      cases hid
    exact ha.of_cpu c (fun d hd => by simp [State.cpuIn, State.claimed, hd])
      (fun d hd => by simp [State.cpuIn, State.claimed, hd]) rfl rfl rfl rfl rfl
      (by simp [balance, State.cpuIn, State.claimed, hpc, (hat c _ hpc).2.2.1, inDefault_some hgd])
  | allocNext c p g hpc _ =>
    exact ha.of_cpu c (fun _ _ => rfl) (fun d hd => by simp [hd]) rfl rfl rfl rfl rfl
      (by simp [balance, hpc])
  | noSlot c p i hpc _ =>
    exact ha.of_cpu c (fun _ _ => rfl) (fun d hd => by simp [hd]) rfl rfl rfl rfl rfl
      (by simp [balance, hpc])
  | rejoin c p g hpc hg =>
    refine ha.of_cpu c (fun _ _ => rfl) (fun d hd => by simp [State.procIn, hd]) rfl rfl rfl rfl
      rfl ?_
    cases hk : s.pc c <;> rw [hk] at hpc <;> cases hpc <;> simp [balance, State.procIn]
  | enterLeave c p old new hpc _ _ _ _ _ =>
    exact ha.of_cpu c (fun _ _ => rfl) (fun d hd => by simp [State.procOut, hd]) rfl rfl rfl rfl
      rfl (by simp [balance, State.procOut, hpc])
  | enterNew c p old new hpc _ _ =>
    exact ha.of_cpu c (fun _ _ => rfl) (fun d hd => by simp [State.procIn, hd]) rfl rfl rfl rfl
      rfl (by simp [balance, State.procIn, hpc])
  | exitLeave c p g hpc _ _ _ _ =>
    exact ha.of_cpu c (fun _ _ => rfl) (fun d hd => by simp [State.procOut, hd]) rfl rfl rfl rfl
      rfl (by simp [balance, State.procOut, hpc])
  | decLeave c p g hpc hc hgd _ =>
    exact ha.of_cpu c (fun d hd => by simp [State.cpuOut, hd])
      (fun d hd => by simp [State.cpuOut, hd]) rfl rfl rfl rfl rfl
      (by simp [balance, State.cpuOut, hpc, hc, inDefault_some hgd])
  | decLast c p g hpc hc hgd _ _ =>
    exact ha.of_cpu c (fun d hd => by simp [State.freed, State.cpuOut, hd])
      (fun d hd => by simp [State.freed, State.cpuOut, hd]) rfl rfl rfl rfl rfl
      (by simp [balance, State.freed, State.cpuOut, hpc, hc, inDefault_some hgd])
  | occupy _ _ g b _ => exact ha.of_env initProc rfl rfl (fun _ _ => rfl) rfl rfl rfl rfl rfl
  | ask p ty hk _ _ =>
    exact ha.of_env p rfl rfl (fun q hq => by simp [hq]) (by simp [hk]) rfl rfl rfl rfl
  | askNone p ty hk =>
    exact ha.of_env p rfl rfl (fun q hq => by simp [hq]) (by simp [hk]) rfl rfl rfl rfl
  | reserve p ty hk _ =>
    refine ha.of_change 0 p (fun _ _ => rfl) (fun _ _ => rfl) (fun q hq => by simp [hq]) ?_
      (by simp; omega) ha.mail
    simp [hk]
  | boxFull c p ty _ _ hfull => simp [ha.not_boxFull hi] at hfull
  | sendWait c p g m hpc hk hm hroom hg _ _ =>
    obtain ⟨-, hreq, -⟩ := hi.send hm hroom
    refine ha.of_change c p (fun _ _ => rfl) (fun d hd => by simp [hd]) (fun q hq => by simp [hq])
      ?_ hfree ?_
    · simp [balance, hpc, hk, hreq]
      omega
    · simp [ha.mail, hreq]
  | sendFlex _ p m _ hk hm hroom _ _ =>
    obtain ⟨-, hreq, -⟩ := hi.send hm hroom
    refine ha.of_change 0 p (fun _ _ => rfl) (fun _ _ => rfl) (fun q hq => by simp [hq]) ?_ hfree ?_
    · simp [hk, hreq]
      omega
    · simp [ha.mail, hreq]
  | forkAlloc p q hk _ =>
    exact ha.of_env p rfl rfl (fun r hr => by simp [hr]) (by simp [hk]) rfl rfl rfl rfl
  | forkRunable p q hk =>
    exact ha.of_env p rfl rfl (fun r hr => by simp [hr]) (by simp [hk]) rfl rfl rfl rfl
  | forkInsert p q g hk _ _ _ =>
    exact ha.of_env p rfl rfl (fun r hr => by simp [State.procIn, hr])
      (by simp [State.procIn, hk]) rfl rfl rfl rfl
  | forkFail p q hk =>
    exact ha.of_env p rfl rfl (fun r hr => by simp [freeProcess, hr])
      (by simp [hk]) rfl rfl rfl rfl
  | wake q _ => exact ha.of_env q rfl rfl (fun _ _ => rfl) rfl rfl rfl rfl rfl
  | reap q _ => exact ha.of_env q rfl rfl (fun _ _ => rfl) rfl rfl rfl rfl rfl

theorem Account.boot : Account boot := by
  refine ⟨?_, le_refl _, rfl⟩
  have hcpu : ∑ c, balance (Pgroup.boot.cpuGroup c) (Pgroup.boot.pc c) = 1 := by decide
  have hproc : ∑ p, one (Pgroup.boot.kpc p).sending = 0 := Finset.sum_eq_zero fun _ _ => rfl
  rw [hcpu, hproc]
  rfl

/-- **The account holds in every reachable state.** -/
theorem Reachable.account (h : Reachable s) : Account s :=
  h.invariant_with Account.boot fun _ _ _ hr ha _ hs =>
    have hi := Reachable.inv hr
    ha.of_effect hi (hi.effect hs)

/-! ## The equation, and what it rules out -/

/-- The balance, CPU by CPU, is a count of the default group and of the CPUs in flight. -/
theorem sum_balance (hi : Inv s) (hg : s.lock defaultPgroupId = none) :
    ∑ c, balance (s.cpuGroup c) (s.pc c)
      = (pgroupCpuCountUnsafe (s.group defaultPgroupId) : ℤ)
        - Tally.count (fun c => (s.pc c).handling = true)
        - Tally.count (fun c => (s.pc c).uncounted = true) := by
  have hleaving : ∀ c, (s.pc c).leaving = false := fun c => by
    have hok := hi.here c
    cases hk : s.pc c <;> simp only [Pc.leaving]
    rw [hk] at hok
    rw [hok.2.2.2.2] at hg
    cases hg
  have hone : ∀ b : Bool, (if b = true then 1 else 0) = one b := fun b => by cases b <;> rfl
  have hin : ∀ c, (if s.cpuGroup c = some defaultPgroupId then (1 : ℤ) else 0)
      = one (inDefault (s.cpuGroup c)) := fun c => by
    by_cases hc : s.cpuGroup c = some defaultPgroupId
    · simp [hc]
    · simp [hc, inDefault_eq_false hc]
  rw [hi.roster.count_eq, show (Finset.univ.filter _).card = Tally.count _ from rfl,
    Tally.count_eq_sum, Tally.count_eq_sum, Tally.count_eq_sum, ← Finset.sum_sub_distrib,
    ← Finset.sum_sub_distrib]
  refine Finset.sum_congr rfl fun c _ => ?_
  rw [balance, hleaving, hin, hone, hone]
  simp

/-- The panics that need an account out of balance. -/
def Panic.accounting : Panic → Bool
  | .freeCpusNegative | .tooManyAllocated | .boxFull => true
  | _ => false

/-- **No CPU is ever stopped by an account out of balance.** -/
theorem Reachable.not_accounting (h : Reachable s) {e : Panic} (he : e.accounting = true) :
    ∀ c, s.pc c ≠ .panic e := by
  refine h.invariant_with (P := fun s => ∀ c, s.pc c ≠ .panic e) (fun c => ?_)
    fun s _ t hr hno _ hs c hc => ?_
  · by_cases hc : c = 0 <;> simp [Pgroup.boot, hc]
  · have hi := Reachable.inv hr
    have ha := Reachable.account hr
    have hfree := ha.free
    cases (hi.effect hs).stops hc with
    | before _ h => exact hno c h
    | negative h => omega
    | tooMany m hpc hg h => exact ha.not_last hi hpc hg h
    | boxFull h => simp [ha.not_boxFull hi] at h
    | noSlot => cases he
    | refused g _ h => cases h <;> cases he

/-- **CPU accounting**: whenever the default group's lock is free, its CPUs but one are free, reserved
or about to be counted; so the counter never goes negative, a handler never takes the last CPU, the
box never overflows, the default group keeps a CPU, and the requests sent are, in order, those taken
— each by one CPU — and those still in the box. -/
theorem cpu_accounting (h : Reachable s) :
    (s.lock defaultPgroupId = none →
      0 ≤ s.freeCpus ∧
      (pgroupCpuCountUnsafe (s.group defaultPgroupId) : ℤ) - 1
        = s.freeCpus
          + (Tally.count (fun p => (s.kpc p).sending = true) + s.umBox.size.toNat
            + Tally.count (fun c => (s.pc c).handling = true))
          + Tally.count (fun c => (s.pc c).uncounted = true)) ∧
    (∀ c, s.pc c ≠ .panic .freeCpusNegative ∧ s.pc c ≠ .panic .tooManyAllocated ∧
      s.pc c ≠ .panic .boxFull) ∧
    (∃ c, (s.group defaultPgroupId).cpus c = some c) ∧
    s.sent = s.taken.map Prod.snd ++ s.umBox.requests := by
  have hi := h.inv
  have ha := h.account
  refine ⟨fun hg => ⟨ha.free, ?_⟩, fun c => ⟨h.not_accounting rfl c, h.not_accounting rfl c,
    h.not_accounting rfl c⟩, ?_, ha.mail⟩
  · have hone : ∀ b : Bool, (if b = true then 1 else 0) = one b := fun b => by cases b <;> rfl
    have hsend : (Tally.count (fun p => (s.kpc p).sending = true) : ℤ)
        = ∑ p, one (s.kpc p).sending := by
      rw [Tally.count_eq_sum]
      exact Finset.sum_congr rfl fun p _ => hone _
    have hsum := ha.sum
    rw [sum_balance hi hg, UmBox.length_requests] at hsum
    omega
  · by_contra hno
    have hid := hi.default_id
    refine absurd (hi.roster.id_eq_none_iff.mpr fun c hc => hno ⟨c, ?_⟩) (by rw [hid]; simp)
    rw [hi.roster.cpus, if_pos hc]

/-- Two harts join, a process takes one of them into a group of its own and asks for the other. -/
def requestRun : List Act :=
  [.cpu 1, .cpu 1, .cpu 2, .cpu 2,
    .cpu 0, .cpu 0, .cpu 0, .call 0 (.fork 1), .cpu 0, .cpu 0,
    .cpu 1, .cpu 1, .cpu 1, .call 1 .createPgroup, .cpu 1, .cpu 1, .cpu 1, .cpu 1,
    .call 1 .incPgroupCpus, .cpu 1, .cpu 1]

theorem cpu_accounting_requestRun :
    ∃ s, Run.run step boot requestRun = some s ∧ s.umBox.size = 1 ∧
      s.lock defaultPgroupId = none ∧
      (pgroupCpuCountUnsafe (s.group defaultPgroupId) : ℤ) - 1
        = s.freeCpus
          + (Tally.count (fun p => (s.kpc p).sending = true) + s.umBox.size.toNat
            + Tally.count (fun c => (s.pc c).handling = true))
          + Tally.count (fun c => (s.pc c).uncounted = true) := by
  have hsome : ((Run.run step boot requestRun).map fun s =>
      (s.umBox.size, s.lock defaultPgroupId)) = some (1, none) := by rfl
  obtain ⟨s, hs, heq⟩ := Option.map_eq_some_iff.mp hsome
  obtain ⟨hsize, hlock⟩ := Prod.mk.inj heq
  exact ⟨s, hs, hsize, hlock, ((cpu_accounting (Run.reachable_of_run .refl hs)).1 hlock).2⟩

end Pgroup
