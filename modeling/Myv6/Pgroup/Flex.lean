import Myv6.Pgroup.Members

/-!
# Pgroup/Flex — a flexible request and the group that sent it

    inc_pgroup_cpus_flex          group freed          create_pgroup          handle_cpu_acquire
    sends the slot's address ───▸ id = -1 ──────────▸ same slot, id ≠ -1 ───▸ adds its CPU there

A `NEED_CPU_FLEX` carries the address of a slot, not the group that was in it.  The record counts
the groups each slot has had and stamps every request with the count at its sending.  As long as no
slot is given out again while such a request for it is under way, a CPU goes to the group that asked
or back to the default group.
-/

namespace Pgroup

open State

variable {s t : State} {a : Act} {g : GroupId} {c d : CpuId} {p q : ProcId} {m : CpuMessage}

/-- The request a CPU handles. -/
def Pc.handles : Pc → Option CpuMessage
  | .acquireLeave m | .acquireEnter m => some m
  | _ => none

/-! ## The record -/

/-- The groups each slot has had, the stamp of every request sent, and of the one a CPU handles. -/
structure Eras where
  era : GroupId → ℕ
  stamps : List ℕ
  held : CpuId → ℕ

def noEras : Eras := ⟨fun _ => 0, [], fun _ => 0⟩

/-- **What a step adds to the record.**  A slot that is given out begins an era, a request is stamped
with the era of its slot, and a CPU that takes a request takes its stamp along. -/
def eras (s : State) (a : Act) (t : State) (h : Eras) : Eras where
  era g := if (s.group g).id = none ∧ (t.group g).id ≠ none then h.era g + 1 else h.era g
  stamps := h.stamps ++ (t.sent.drop s.sent.length).map fun m => h.era m.group
  held c :=
    if a = .cpu c ∧ t.taken.length = s.taken.length + 1 then h.stamps.getD s.taken.length 0
    else h.held c

/-- The group subsystem, with the eras. -/
abbrev eraStep : State × Eras → Act → Option (State × Eras) := Run.watch step eras

/-! ## The condition -/

/-- The slot that `alloc_pgroup` looks at next. -/
def Pc.scansAt : Pc → Option ℕ
  | .allocScan _ i => some i
  | _ => none

/-- A flexible request for slot `g` is in the box or with a CPU. -/
def FlexPending (s : State) (g : GroupId) : Prop :=
  (∃ m ∈ s.umBox.requests, m.type = .needCpuFlex ∧ m.group = g) ∨
    ∃ d, ∃ m ∈ (s.pc d).handles.toList, m.type = .needCpuFlex ∧ m.group = g

/-- The step gives out no slot that a flexible request is still under way for. -/
def NoReuse (s : State) (a : Act) : Prop :=
  ∀ c (g : GroupId), a = .cpu c → (s.pc c).scansAt = some g.val → (s.group g).id = none →
    ¬FlexPending s g

instance : Decidable (FlexPending s g) := inferInstanceAs (Decidable (_ ∨ _))

instance : Decidable (NoReuse s a) := inferInstanceAs (Decidable (∀ _ _, _ → _ → _ → _))

/-! ## What a step does to the requests -/

/-- No request is sent or taken. -/
structure SameMail (s t : State) : Prop where
  box : t.umBox = s.umBox
  sent : t.sent = s.sent
  taken : t.taken = s.taken
  handles : ∀ d m, (t.pc d).handles = some m → (s.pc d).handles = some m

/-- The step of one CPU that goes on to a place where it handles nothing new. -/
theorem SameMail.of_pc (c : CpuId) (hpc : ∀ d ≠ c, t.pc d = s.pc d) (hbox : t.umBox = s.umBox)
    (hsent : t.sent = s.sent) (htaken : t.taken = s.taken)
    (hc : ∀ m, (t.pc c).handles = some m → (s.pc c).handles = some m) : SameMail s t := by
  refine ⟨hbox, hsent, htaken, fun d m hd => ?_⟩
  by_cases hdc : d = c
  · subst hdc
    exact hc m hd
  · rwa [hpc d hdc] at hd

/-- **A step sends a request, takes one, or gives out a slot, or none of these.** -/
inductive Mail (s : State) (a : Act) (t : State) : Prop
  | same (hmail : SameMail s t)
      (hid : ∀ g, (s.group g).id = none → (t.group g).id ≠ none →
        ∃ c p, a = .cpu c ∧ s.pc c = .allocScan p g)
  | take (c : CpuId) (ha : a = .cpu c) (hne : s.umBox.requests ≠ []) (hgroup : t.group = s.group)
      (hbox : t.umBox = s.umBox.get.2) (hsent : t.sent = s.sent)
      (htaken : t.taken = s.taken ++ [(c, s.umBox.get.1)])
      (hc : t.pc c = .acquireLeave s.umBox.get.1) (hpc : ∀ d ≠ c, t.pc d = s.pc d)
  | send (m : CpuMessage) (hroom : s.umBox.boxFull = false) (hgroup : t.group = s.group)
      (hbox : t.umBox = s.umBox.send m) (hsent : t.sent = s.sent ++ [m])
      (htaken : t.taken = s.taken)
      (hpc : ∀ d m, (t.pc d).handles = some m → (s.pc d).handles = some m)

theorem Effect.mail (he : Effect s a t) : Mail s a t := by
  cases he with
  | take c _ hne =>
    exact .take c rfl hne rfl rfl rfl rfl (by simp) fun d hd => by simp [hd]
  | sendWait c p g m hpc _ _ hroom _ _ _ =>
    refine .send m hroom rfl rfl rfl rfl fun d m' hd => ?_
    by_cases hdc : d = c
    · simp [hdc, Pc.handles] at hd
    · simpa [hdc] using hd
  | sendFlex c p m _ _ _ hroom _ _ => exact .send m hroom rfl rfl rfl rfl fun _ _ h => h
  | allocTake c p g hpc hid =>
    refine .same (.of_pc c (fun d hd => by simp [State.cpuIn, State.claimed, hd]) rfl rfl rfl
      (by simp [Pc.handles])) fun i hi ht => ⟨c, p, rfl, ?_⟩
    have : i = g := by
      by_contra hne
      simp [State.claimed, hne, hi] at ht
    rwa [this]
  | goto c k hgo _ _ =>
    refine .same (.of_pc c (fun d hd => by simp [hd]) rfl rfl rfl fun m hm => ?_)
      fun i hi ht => absurd hi ht
    cases hk : s.pc c <;> rw [hk] at hgo <;> cases hgo <;> simp_all [Pc.handles]
  | enterDefault c k hk _ =>
    refine .same (.of_pc c (fun d hd => by simp [State.cpuIn, hd]) rfl rfl rfl fun m hm => ?_)
      fun i hi ht => absurd hi (by simpa using ht)
    cases hpc : s.pc c <;> rw [hpc] at hk <;> cases hk <;> simp [Pc.handles] at hm
  | count c k hk _ =>
    refine .same (.of_pc c (fun d hd => by simp [hd]) rfl rfl rfl fun m hm => ?_)
      fun i hi ht => absurd hi ht
    cases hpc : s.pc c <;> rw [hpc] at hk <;> cases hk <;> simp [Pc.handles] at hm
  | acquireLeave c m hpc _ _ =>
    exact .same (.of_pc c (fun d hd => by simp [State.cpuOut, hd]) rfl rfl rfl
      (by simp [hpc, Pc.handles])) fun i hi ht => absurd hi (by simpa using ht)
  | createLast c p g _ _ _ _ _ _ _ _ =>
    exact .same (.of_pc c (fun d hd => by simp [State.freed, State.cpuOut, State.procOut, hd]) rfl rfl
      rfl (by simp [Pc.handles])) fun i hi ht => absurd (id_freed (by simpa using hi)) ht
  | leaveLast c g _ _ _ _ _ =>
    exact .same (.of_pc c (fun d hd => by simp [State.freed, State.cpuOut, hd]) rfl rfl rfl
      (by simp [Pc.handles])) fun i hi ht => absurd (id_freed (by simpa using hi)) ht
  | decLast c p g _ _ _ _ _ =>
    exact .same (.of_pc c (fun d hd => by simp [State.freed, State.cpuOut, hd]) rfl rfl rfl
      (by simp [Pc.handles])) fun i hi ht => absurd (id_freed (by simpa using hi)) ht
  | idle | createKeep | occupy | ask | askNone | reserve | forkAlloc | forkRunable | forkInsert
  | forkFail | wake | reap =>
    exact .same ⟨rfl, rfl, rfl, fun _ _ h => h⟩ fun i hi ht => absurd hi (by
      simpa [freeProcess] using ht)
  | negative c | refused c | tooMany c | acquireEnter c | acquireEnterFlex c | acquireWake c
  | acquireBack c | acquireBackCount c | leave c | lockGroup c | dispatchNone c | dispatch c
  | switchOut c | incSleep c | createAsk c | createLeave c | createGo c | createBack c | allocNext c
  | noSlot c | rejoin c | enterLeave c | enterNew c | exitLeave c | decLeave c | boxFull c =>
    exact .same (.of_pc c (fun d hd => by
        simp [State.cpuIn, State.cpuOut, State.procIn, State.procOut, procMoveToTail, wakeUp, hd])
      rfl rfl rfl (by simp [Pc.handles])) fun i hi ht => absurd hi (by simpa [wakeUp] using ht)

/-! ## Stamps -/

/-- **Every flexible request under way carries the era of its slot.** -/
structure Stamped (x : State × Eras) : Prop where
  length : x.2.stamps.length = x.1.sent.length
  box : List.Forall₂ (fun m n => m.type = .needCpuFlex → n = x.2.era m.group) x.1.umBox.requests
    (x.2.stamps.drop x.1.taken.length)
  held : ∀ c m, (x.1.pc c).handles = some m → m.type = .needCpuFlex →
    x.2.held c = x.2.era m.group

/-- The era of a slot that a request is under way for goes on. -/
theorem era_eq {h : Eras} (hreuse : NoReuse s a)
    (hid : ∀ g, (s.group g).id = none → (t.group g).id ≠ none →
      ∃ c p, a = .cpu c ∧ s.pc c = .allocScan p g)
    (hpending : FlexPending s g) : (eras s a t h).era g = h.era g := by
  refine if_neg fun hnew => ?_
  obtain ⟨c, p, ha, hpc⟩ := hid g hnew.1 hnew.2
  exact hreuse c g ha (by rw [hpc]; rfl) hnew.1 hpending

/-- A step that leaves the slots alone begins no era. -/
theorem era_of_group {h : Eras} (hgroup : t.group = s.group) : (eras s a t h).era = h.era := by
  funext g
  refine if_neg fun hnew => ?_
  rw [hgroup] at hnew
  exact hnew.2 hnew.1

theorem held_of_taken {h : Eras} (htaken : t.taken = s.taken) :
    (eras s a t h).held = h.held := by
  funext c
  exact if_neg fun hnew => by simp [htaken] at hnew

theorem Stamped.of_mail {h : Eras} (hs : Stamped (s, h)) (hi : Inv s) (hacc : Account s)
    (hreuse : NoReuse s a) (hmail : Mail s a t) : Stamped (t, eras s a t h) := by
  have hlen : s.taken.length ≤ h.stamps.length := by
    have := hs.length
    have hsent := congrArg List.length hacc.mail
    simp only [List.length_append, List.length_map] at this hsent
    omega
  have hbox := hs.box
  cases hmail with
  | same hmail hid =>
    have hstamps : (eras s a t h).stamps = h.stamps := by simp [eras, hmail.sent]
    refine ⟨?_, ?_, fun c m hc hm => ?_⟩
    · rw [hstamps, hmail.sent]
      exact hs.length
    · rw [hstamps, hmail.box, hmail.taken]
      refine List.forall₂_iff_get.mpr ⟨hbox.length_eq, fun i h₁ h₂ hm => ?_⟩
      rw [era_eq hreuse hid (.inl ⟨_, List.get_mem _ _, hm, rfl⟩)]
      exact (List.forall₂_iff_get.mp hbox).2 i h₁ h₂ hm
    · have hc' := hmail.handles c m hc
      rw [held_of_taken hmail.taken, era_eq hreuse hid (.inr ⟨c, m, by simp [hc'], hm, rfl⟩)]
      exact hs.held c m hc' hm
  | take c ha hne hgroup hbox' hsent htaken hc hpc =>
    have hstamps : (eras s a t h).stamps = h.stamps := by simp [eras, hsent]
    rw [UmBox.requests_get hne] at hbox
    obtain ⟨n, rest, hn, hrest, hdrop⟩ := List.forall₂_cons_left_iff.mp hbox
    dsimp only at hdrop
    have hlt : s.taken.length < h.stamps.length := by
      by_contra hge
      rw [List.drop_eq_nil_of_le (by omega)] at hdrop
      cases hdrop
    rw [List.drop_eq_getElem_cons hlt, List.cons.injEq] at hdrop
    refine ⟨?_, ?_, fun d m hd hm => ?_⟩
    · rw [hstamps, hsent]
      exact hs.length
    · rw [hstamps, hbox', htaken, era_of_group hgroup]
      simpa [hdrop.2] using hrest
    · rw [era_of_group hgroup]
      by_cases hdc : d = c
      · subst hdc
        rw [hc] at hd
        obtain rfl := Option.some.inj hd
        have hheld : (eras s a t h).held d = n := by
          simp [eras, ha, htaken, hlt, hdrop.1]
        rw [hheld]
        exact hn hm
      · rw [hpc d hdc] at hd
        have hheld : (eras s a t h).held d = h.held d :=
          if_neg fun hnew => hdc (by simpa [ha, eq_comm] using hnew.1)
        rw [hheld]
        exact hs.held d m hd hm
  | send m hroom hgroup hbox' hsent htaken hpc =>
    have hstamps : (eras s a t h).stamps = h.stamps ++ [h.era m.group] := by simp [eras, hsent]
    refine ⟨?_, ?_, fun d m' hd hm => ?_⟩
    · rw [hstamps, hsent]
      simpa using hs.length
    · have hfull : s.umBox.requests.length < cpuMessageBoxSize := by
        have hfits := hi.box.fits
        have := (s.umBox.boxFull_iff).not.mp (by simp [hroom])
        rw [UmBox.length_requests] at this ⊢
        omega
      rw [hstamps, hbox', htaken, era_of_group hgroup, UmBox.requests_send hi.box hfull,
        List.drop_append_of_le_length hlen]
      exact List.rel_append hbox (.cons (fun _ => rfl) .nil)
    · rw [held_of_taken htaken, era_of_group hgroup]
      exact hs.held d m' (hpc d m' hd) hm

/-- **A flexible request goes to the group that sent it, or nowhere.**  A CPU that handles one enters
only the era the request was sent in; if that group is gone, the CPU goes back to the default group
and is counted free again. -/
def FlexToSender (x : State × Eras) : Prop :=
  ∀ c t, step x.1 (.cpu c) = some t →
    (∀ m, x.1.pc c = .acquireEnter m → m.type = .needCpuFlex →
      if (x.1.group m.group).id = some m.group ∧ x.2.held c = x.2.era m.group then
        t.cpuGroup c = some m.group
      else t.cpuGroup c = none ∧ t.pc c = .acquireBack) ∧
    (x.1.pc c = .acquireBack →
      t.cpuGroup c = some defaultPgroupId ∧ t.pc c = .acquireBackCount) ∧
    (x.1.pc c = .acquireBackCount → t.cpuGroup c = some defaultPgroupId ∧
      t.freeCpus = x.1.freeCpus + 1)

/-- Where `handle_cpu_acquire` goes with a flexible request. -/
theorem Inv.flex_step (hi : Inv s) (hpc : s.pc c = .acquireEnter m) (hm : m.type = .needCpuFlex)
    (hstep : Pgroup.step s (.cpu c) = some t) :
    if (s.group m.group).id = some m.group then t.cpuGroup c = some m.group
    else t.cpuGroup c = none ∧ t.pc c = .acquireBack := by
  have hc : s.cpuGroup c = none := by
    have := hi.here c
    rw [hpc] at this
    exact this.1
  have hstep : s.acquireEnter c m = some t := by
    simpa [Pgroup.step, State.advance, hpc] using hstep
  by_cases hid : (s.group m.group).id = none
  · obtain ⟨-, rfl⟩ := locked_ok (u := s.setPc c .acquireBack)
      (by rw [if_neg (by simp [hm]), if_pos ⟨hid, hm⟩]; rfl) hstep
    simp [hid, hc]
  · have hid' := hi.roster.id_eq_some hid
    obtain ⟨-, rfl⟩ := locked_ok (u := (s.cpuIn m.group c).setPc c .schedRun) (by
      rw [if_neg (by simp [hid]), if_neg (by simp [hid]), hi.roster.addMyCpu_eq hid' hc]
      simp [hm, bind, Except.bind, pure, Except.pure]) hstep
    simp [hid', State.cpuIn]

/-- **Flexible requests**, in every run in which no slot is given out while a flexible request for it
is under way. -/
theorem flex_to_sender {x : State × Eras}
    (hx : Run.Reach eraStep (fun x a => NoReuse x.1 a) (boot, noEras) x) : FlexToSender x := by
  have hstamped : Stamped x := by
    refine hx.invariant_with (P := Stamped) ⟨rfl, ?_, ?_⟩ fun y a z hy hs hreuse hstep => ?_
    · simp [Pgroup.boot, UmBox.requests, noEras]
    · intro c m hc
      by_cases h0 : c = 0 <;> simp [Pgroup.boot, h0, Pc.handles] at hc
    · obtain ⟨ht, hnote⟩ := Run.watch_eq_some_iff.mp hstep
      have hi := Reachable.inv hy.fst
      obtain ⟨t, h⟩ := z
      dsimp only at ht hnote
      subst hnote
      exact hs.of_mail hi (Reachable.account hy.fst) hreuse (hi.effect ht).mail
  have hi := Reachable.inv hx.fst
  intro c t hstep
  refine ⟨fun m hpc hm => ?_, fun hpc => ?_, fun hpc => ?_⟩
  · have hheld := hstamped.held c m (by rw [hpc]; rfl) hm
    simpa [hheld] using hi.flex_step hpc hm hstep
  · have hok := hi.here c
    rw [hpc] at hok
    have hstep : x.1.acquireBack c = some t := by simpa [step, State.advance, hpc] using hstep
    obtain ⟨-, rfl⟩ := locked_ok (u := ((x.1.cpuIn defaultPgroupId c).setLock defaultPgroupId
      (some c)).setPc c .acquireBackCount) (by
        rw [hi.roster.addMyCpu_eq hi.default_id hok]; rfl) hstep
    simp [State.cpuIn]
  · have hok := hi.here c
    rw [hpc] at hok
    have hfree := (Reachable.account hx.fst).free
    have hstep : x.1.acquireBackCount c = some t := by
      simpa [step, State.advance, hpc] using hstep
    rw [State.acquireBackCount, incFreeCpus, if_neg (by omega)] at hstep
    obtain rfl := Option.some.inj hstep
    exact ⟨hok.1, rfl⟩

/-- Process 1 creates a group with CPU 1, asks for a CPU and exits; CPU 1 frees the group and comes
back to the default group.  Process 2 is on CPU 2. -/
def leaveFastRun : List Act :=
  [.cpu 1, .cpu 1, .cpu 2, .cpu 2,
    .cpu 0, .cpu 0, .cpu 0, .call 0 (.fork 1), .cpu 0, .cpu 0,
    .cpu 1, .cpu 1, .cpu 1, .call 1 .createPgroup, .cpu 1, .cpu 1, .cpu 1, .cpu 1,
    .call 0 (.fork 2), .cpu 0, .cpu 0, .cpu 2, .cpu 2, .cpu 2,
    .call 1 .incPgroupCpusFlex, .cpu 1, .cpu 1,
    .call 1 .exit, .cpu 1, .cpu 1, .cpu 1, .cpu 1, .cpu 1, .cpu 1]

/-- The theorem there: CPU 1 takes the request, finds no group and goes back. -/
theorem flex_to_sender_leaveFastRun :
    ∃ x t, Run.Reach eraStep (fun x a => NoReuse x.1 a) (boot, noEras) x ∧
      step x.1 (.cpu 1) = some t ∧ t.pc 1 = .acquireBack := by
  have hrun : (Run.run (Run.guard eraStep fun x a => decide (NoReuse x.1 a)) (boot, noEras)
      (leaveFastRun ++ [.cpu 1, .cpu 1, .cpu 1])).map (fun x =>
        (x.1.pc 1, (x.1.group 1).id, (step x.1 (.cpu 1)).isSome)) =
      some (.acquireEnter ⟨.needCpuFlex, 1, .request 1⟩, none, true) := by decide +kernel
  obtain ⟨x, hx, hlook⟩ := Option.map_eq_some_iff.mp hrun
  simp only [Prod.mk.injEq] at hlook
  obtain ⟨hpc, hid, hsome⟩ := hlook
  obtain ⟨t, ht⟩ := Option.isSome_iff_exists.mp hsome
  have hreach : Run.Reach eraStep (fun x a => NoReuse x.1 a) (boot, noEras) x :=
    Run.reach_of_guard (fun _ _ h => of_decide_eq_true h) .refl hx
  have hflex := (flex_to_sender hreach 1 t ht).1 _ hpc rfl
  rw [if_neg (by simp [hid])] at hflex
  exact ⟨x, t, hreach, ht, hflex.2⟩

/-- **The slot is given out again**: process 2 creates its group there before CPU 1 takes the request
of process 1, and CPU 1 joins the group of process 2. -/
theorem not_flex_to_sender :
    ¬∀ x, Run.Reachable eraStep (boot, noEras) x → FlexToSender x := by
  intro hall
  have hrun : (Run.run eraStep (boot, noEras) (leaveFastRun ++ [.call 2 .createPgroup,
      .cpu 2, .cpu 2, .cpu 2, .cpu 2, .cpu 1, .cpu 1, .cpu 1])).map (fun x =>
        (x.1.pc 1, x.2.held 1, x.2.era 1, (step x.1 (.cpu 1)).map fun t => t.cpuGroup 1)) =
      some (.acquireEnter ⟨.needCpuFlex, 1, .request 1⟩, 1, 2, some (some 1)) := by decide +kernel
  obtain ⟨x, hx, hlook⟩ := Option.map_eq_some_iff.mp hrun
  simp only [Prod.mk.injEq] at hlook
  obtain ⟨hpc, hheld, hera, hstep⟩ := hlook
  obtain ⟨t, ht, hgroup⟩ := Option.map_eq_some_iff.mp hstep
  have hflex := (hall x (Run.reachable_of_run .refl hx) 1 t ht).1 _ hpc rfl
  simp [hheld, hera, hgroup] at hflex

end Pgroup
