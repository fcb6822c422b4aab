import Myv6.Sleep.Inv

/-!
# Sleep/Wake — the steps of `sleep`, `wake_up` and the scheduler keep the invariant

    sleeper   lk ───────────┐ gives up lk, has proc->lock ─── SLEEP ┆ the scheduler gives it up
    waker                   └▸ lk … wake_up: slot 0, slot 1, … waits for proc->lock ─▸ RUNABLE

Whoever is in `sleep` holds `lk` or its process lock from the call until the scheduler of its CPU has
its context.  A waker that holds `lk`, or has had it after it was given up, comes to the slot of the
sleeper only when the sleeper is asleep or has been woken by somebody else.
-/

namespace Sleep

open Function (update)

variable {n : ℕ} {s s' : State n} {c : CpuId} {p q : Fin n} {f g : Frame n} {fs : List (Frame n)}
  {t : Tid n} {x : Proc n}
  {l : Lock n} {chain : Option Chan} {meant : List (Fin n × ℕ)} {held : List (Lock n)}

/-- What the test of `wake_up` leaves. -/
theorem wakeIf_not : ¬(((s.wakeIf q chain).proc q).status = .sleep ∧
    ((s.wakeIf q chain).proc q).chain = chain) := by
  unfold State.wakeIf
  split
  · intro hand
    have hawake : (s.setProc q (s.proc q).wake).proc q = (s.proc q).wake := Function.update_self _ _ _
    rw [hawake] at hand
    cases hand.1
  · next hno => exact hno

namespace Inv

/-- Another frame in the place of the one at the top. -/
theorem next_swap (h : Inv s) (hstack : s.stack (s.cur c) = g :: fs) (hneeds : f.Needs held (s.cur c))
    (hbase : g.base = true → f.base = true) (habove : ∀ k, g.Above k → f.Above k)
    (hfits : f.Fits (s.cur c)) (hmeant : f.MeantOk s.proc)
    (hchosen : ∀ pc, f = .sched pc → ∀ p, pc.chosen = some p → (s.proc p).status = .runable) :
    Next s c held f fs := by
  have hnest := h.nested (s.cur c)
  rw [hstack] at hnest
  refine ⟨hneeds, hnest.swap hbase habove hfits, fun _ => hchosen, hmeant, fun k hk => ?_⟩
  rw [hstack]
  exact List.mem_cons_of_mem _ hk

theorem next_process (h : Inv s) (hc : s.running c = some p) (hstack : s.stack (.inr p) = g :: fs)
    (hneeds : f.Needs held (.inr p)) (hbase : g.base = true → f.base = true)
    (habove : ∀ k, g.Above k → f.Above k) (hfits : f.Fits (.inr p)) (hmeant : f.MeantOk s.proc) :
    Next s c held f fs := by
  have hcur := cur_of_running hc
  refine h.next_swap (by rw [hcur]; exact hstack) (by rw [hcur]; exact hneeds) hbase habove
    (by rw [hcur]; exact hfits) hmeant ?_
  rintro pc rfl
  exact hfits.elim

/-- The frame at the top of the process, and its record. -/
theorem at_top (h : Inv s) (hc : s.running c = some p) (hstack : s.stack (.inr p) = f :: fs) :
    f.Needs (s.held c) (.inr p) ∧ f.Matches p (s.proc p) := by
  obtain ⟨g, gs, htop, hneeds, hmatch⟩ := h.top_of_running hc
  rw [hstack] at htop
  obtain ⟨rfl, -⟩ := List.cons.inj htop
  exact ⟨hneeds, hmatch⟩

/-- The rest of a stack at the top of which a function returns. -/
theorem next_return (h : Inv s) (hc : s.running c = some p) (hstack : s.stack (.inr p) = f :: fs)
    (hf : f.base = false) (habove : ∀ k, f.Above k → k = .code) :
    ∃ gs, fs = .code :: gs ∧ Next s c held .code gs := by
  have hcur := cur_of_running hc
  have hnest := h.nested (.inr p)
  rw [hstack] at hnest
  obtain ⟨gs, rfl⟩ := hnest.caller hf habove
  refine ⟨gs, rfl, ⟨trivial, ?_, ?_, trivial, fun k hk => ?_⟩⟩
  · rw [hcur]
    exact hnest.tail
  · intro _ pc hcode
    cases hcode
  · rw [hcur, hstack]
    exact List.mem_cons_of_mem _ (List.mem_cons_of_mem _ hk)

/-! ## `sleep` -/

/-- **A step of `sleep`.** -/
theorem goSleep (h : Inv s) (hc : s.running c = some p) {pc : SleepPc}
    (hstack : s.stack (.inr p) = .sleep l chain pc :: fs)
    (hs : s.goSleep c p l chain fs pc = some s') : Inv s' := by
  obtain ⟨hneeds, hmatch⟩ := h.at_top hc hstack
  have hcur := cur_of_running hc
  have hswap (pc' : SleepPc) {held : List (Lock n)} (hpc : pc'.Needs (.proc p) l held) :
      Next s c held (.sleep l chain pc') fs :=
    h.next_process hc hstack hpc (fun hb => by cases hb) (fun _ hk => hk) trivial trivial
  have hself {f : Frame n} (hf : f.Matches p (s.proc p)) :
      ∀ p', s.cur c = .inr p' → f.Matches p' (s.proc p') := fun p' hp' => by
    obtain rfl := Sum.inr.inj (hcur.symm.trans hp')
    exact hf
  cases pc with
  | check =>
    have hmem : l ∈ s.held c := hneeds
    have hnone : (s.proc p).chain = none := hmatch.chain
    rw [State.goSleep, if_neg (not_not.mpr hnone)] at hs
    obtain rfl := Option.some.inj hs
    by_cases hl : l = .proc p
    · subst hl
      rw [if_pos rfl]
      refine h.setStack (hswap .set hmem) (hself ⟨hmatch.status, hmatch.chain, ?_⟩)
      refine Eq.trans hmatch.latest ?_
      rw [if_pos rfl]
    · rw [if_neg hl]
      exact h.setStack (hswap .acquire ⟨hmem, hl⟩)
        (hself ⟨hmatch.status, hmatch.chain, hmatch.latest⟩)
  | acquire =>
    obtain ⟨hmem, hl⟩ : l ∈ s.held c ∧ l ≠ .proc p := hneeds
    exact h.acquire (hswap .release ⟨List.mem_cons_of_mem _ hmem, List.mem_cons_self, hl⟩)
      (hself ⟨hmatch.status, hmatch.chain, hmatch.latest⟩) hs
  | release =>
    obtain ⟨hmem, hown, hl⟩ : l ∈ s.held c ∧ Lock.proc p ∈ s.held c ∧ l ≠ .proc p := hneeds
    have hlast : (s.proc p).last = some ⟨l, chain, .called⟩ := hmatch.latest
    rw [State.goSleep, if_pos ((h.lock c l).mp hmem)] at hs
    obtain rfl := Option.some.inj hs
    have hneeds' : Lock.proc p ∈ (s.held c).erase l :=
      ((h.nodup c).mem_erase_iff).mpr ⟨Ne.symm hl, hown⟩
    have hlater : Later (s.proc p) ((s.proc p).setPhase .gave) := by
      refine .of_setPhase fun call hcall => ?_
      obtain rfl := Option.some.inj (hlast.symm.trans hcall)
      exact ⟨fun _ => rfl, fun hcalled => by cases hcalled⟩
    refine h.releaseSelf hcur hmem (hswap .set hneeds') ⟨hmatch.status, hmatch.chain, ?_⟩ hlater rfl
    change (s.proc p).last.map _ = _
    rw [hlast, if_neg hl]
    rfl
  | set =>
    have hlast : (s.proc p).last = some ⟨l, chain, if l = .proc p then .called else .gave⟩ :=
      hmatch.latest
    obtain rfl := Option.some.inj hs
    refine h.setSelf hcur (hswap .switch hneeds) ⟨rfl, rfl, ?_⟩ (.of_setPhase fun call hcall => ?_) rfl
    · change (s.proc p).last.map _ = _
      rw [hlast]
      rfl
    · obtain rfl := Option.some.inj (hlast.symm.trans hcall)
      refine ⟨fun _ => rfl, fun hwoken => ?_⟩
      split at hwoken
      · cases hwoken
      · cases hwoken
  | switch =>
    obtain rfl := Option.some.inj hs
    have hnest := h.nested (.inr p)
    rw [hstack] at hnest
    have hback : ∀ pc : SleepPc, (Frame.sleep l chain pc).resumes = true →
        pc.Needs (.proc p) l [.proc p] → Inv (s.switchToScheduler c (.sleep l chain pc :: fs)) := by
      intro pc hresumes hpc
      refine h.switchToScheduler hc hneeds ⟨?_, fun _ => ?_, fun hn => absurd hmatch.status hn,
        fun _ => ⟨_, fs, rfl, hresumes, hpc⟩⟩ (hnest.swap (fun hb => by cases hb) (fun _ hk => hk) trivial)
        fun f hf => ?_
      · rw [hmatch.status]
        exact fun hrunning => by cases hrunning
      · exact ⟨l, chain, pc, fs, rfl, hmatch.chain, hmatch.latest⟩
      · rcases List.mem_cons.mp hf with rfl | hf
        · trivial
        · exact h.meant (.inr p) f (by rw [hstack]; exact List.mem_cons_of_mem _ hf)
    by_cases hl : l = .proc p
    · rw [if_pos hl]
      exact hback .ret rfl (by rw [hl]; rfl)
    · rw [if_neg hl]
      exact hback .back rfl ⟨rfl, hl⟩
  | back =>
    obtain ⟨hheld, -⟩ : s.held c = [Lock.proc p] ∧ l ≠ .proc p := hneeds
    obtain rfl := Option.some.inj hs
    refine h.release (by rw [hheld]; exact List.mem_cons_self) (hswap .relock ?_)
      (hself ⟨hmatch.status, hmatch.chain, hmatch.latest⟩)
    change (s.held c).erase _ = []
    rw [hheld, List.erase_cons_head]
  | relock =>
    have hheld : s.held c = [] := hneeds
    refine h.acquire (hswap .ret ?_) (hself ⟨hmatch.status, hmatch.chain, hmatch.latest⟩) hs
    change l :: s.held c = [l]
    rw [hheld]
  | ret =>
    obtain rfl := Option.some.inj hs
    obtain ⟨gs, rfl, hnext⟩ := h.next_return hc hstack rfl fun _ hk => hk
    exact h.setStack hnext (hself ⟨hmatch.status, hmatch.chain, hmatch.latest⟩)

/-! ## `wake_up` -/

/-- The process whose lock this CPU holds is on no CPU, when it is not `RUNNING` and another frame is at
the top here. -/
theorem away_of_other (h : Inv s) (hown : s.owner (.proc q) = some c)
    (hstack : s.stack (s.cur c) = f :: fs) (hf : f.status = .running)
    (hstatus : (s.proc q).status ≠ .running) : ∀ c', s.running c' ≠ some q := by
  refine h.away_of_owner hown hstatus fun hc => ?_
  rw [cur_of_running hc] at hstack
  exact hstatus ((h.at_top hc hstack).2.status.trans hf)

/-- **A sleeper is woken** by the CPU that holds its lock. -/
theorem wake (h : Inv s) (hown : s.owner (.proc q) = some c) (hstack : s.stack (s.cur c) = f :: fs)
    (hf : f.status = .running) (hsched : ∀ pc, f ≠ .sched pc) (hsleep : (s.proc q).status = .sleep) :
    Inv (s.setProc q (s.proc q).wake) := by
  have haway := h.away_of_other hown hstack hf (by rw [hsleep]; decide)
  have hoff := h.off q haway
  have hwoken : ∀ call, (s.proc q).wake.last = some call → call.phase = .woken := by
    intro call hcall
    obtain ⟨call', -, rfl⟩ := Option.map_eq_some_iff.mp hcall
    rfl
  have hawake : Off q (s.stack (.inr q)) (s.proc q).wake := by
    refine ⟨?_, ?_, fun _ => ⟨rfl, hwoken⟩, fun _ => hoff.ready (.inl hsleep)⟩
    · intro hrunning
      cases hrunning
    · intro hasleep
      cases hasleep
  have hset := h.setOff hown haway (fun hc pc gs hg => ?_) hawake
    (.of_setPhase fun call _ => ⟨fun _ => rfl, fun _ => rfl⟩) rfl (h.nested _) (h.meant _)
  · rwa [Function.update_eq_self] at hset
  · rw [cur_of_none hc, hg] at hstack
    exact absurd (List.cons.inj hstack).1.symm (hsched pc)

/-- **The test of `wake_up`** on a slot whose lock is held. -/
theorem wakeIf (h : Inv s) (hown : s.owner (.proc q) = some c) (hstack : s.stack (s.cur c) = f :: fs)
    (hf : f.status = .running) (hsched : ∀ pc, f ≠ .sched pc) : Inv (s.wakeIf q chain) := by
  unfold State.wakeIf
  split
  · next hif => exact h.wake hown hstack hf hsched hif.1
  · exact h

/-- **After the test no call of `sleep` on the chain is asleep in the slot**, if it had given up its
lock. -/
theorem woken_of_test (h : Inv s) (hown : s.owner (.proc q) = some c)
    (hstack : s.stack (s.cur c) = f :: fs) (hf : ∀ l chain pc, f ≠ .sleep l chain pc)
    {call : Call n} (hcall : (s.proc q).last = some call) (hchain : call.chain = chain)
    (hgave : call.phase.gaveUp = true)
    (hno : ¬((s.proc q).status = .sleep ∧ (s.proc q).chain = chain)) : call.phase = .woken := by
  by_cases haway : ∀ c', s.running c' ≠ some q
  · have hoff := h.off q haway
    by_cases hsleep : (s.proc q).status = .sleep
    · obtain ⟨l, chain', pc, gs, -, hc', hlast⟩ := hoff.asleep hsleep
      obtain rfl := Option.some.inj (hcall.symm.trans hlast)
      exact absurd ⟨hsleep, hc'.trans hchain⟩ hno
    · exact (hoff.awake hsleep).2 call hcall
  · push Not at haway
    obtain ⟨c', hc'⟩ := haway
    obtain ⟨g, gs, hg, hneeds, hmatch⟩ := h.top_of_running hc'
    have hlatest := hmatch.latest
    rw [hcall] at hlatest
    -- a process that holds its lock in `sleep` would be the one that executes the test
    have hmine : Lock.proc q ∈ s.held c' → ∀ l chain pc, g ≠ .sleep l chain pc := by
      intro hmem l chain pc hsleep
      have hsame := (h.lock c' _).mp hmem
      rw [hown] at hsame
      obtain rfl := Option.some.inj hsame
      rw [cur_of_running hc', hg] at hstack
      exact hf l chain pc ((List.cons.inj hstack).1.symm.trans hsleep)
    cases g with
    | sleep l chain' pc =>
      cases pc with
      | check | acquire | release =>
        obtain rfl := Option.some.inj hlatest
        cases hgave
      | set => exact absurd rfl (hmine hneeds l chain' .set)
      | switch => exact absurd rfl (hmine hneeds l chain' .switch)
      | back | relock | ret => exact hlatest call rfl
    | _ => exact hlatest call rfl

/-- A call of `wake_up` returns. -/
theorem return_ (h : Inv s) {r : List (Fin n × ℕ)} (hr : ∀ x ∈ r, Settled s.proc x) :
    Inv { s with returned := r ++ s.returned } :=
  ⟨h.lock, h.nodup, h.once, h.nested, h.top, h.record, h.away, h.chosen, h.off, h.meant, h.seen,
    fun x hx => (List.mem_append.mp hx).elim (hr x) (h.returned x), h.unslept⟩

/-- **A step of `wake_up`.** -/
theorem goWakeUp (h : Inv s) {pc : WakePc n} (hstack : s.stack (s.cur c) = .wakeUp chain pc meant :: fs)
    (hs : s.goWakeUp c chain meant fs pc = some s') : Inv s' := by
  obtain ⟨f, gs, htop, hneeds⟩ := h.top c
  rw [hstack] at htop
  obtain ⟨rfl, rfl⟩ := List.cons.inj htop
  have hmeant : ∀ x ∈ meant, Meant s.proc chain pc.left x := by
    refine h.meant (s.cur c) (.wakeUp chain pc meant) ?_
    rw [hstack]
    exact List.mem_cons_self
  have hnext (pc' : WakePc n) {held : List (Lock n)} (hpc : pc'.Needs held)
      (hm : ∀ x ∈ meant, Meant s.proc chain pc'.left x) :
      Next s c held (.wakeUp chain pc' meant) fs :=
    h.next_swap hstack hpc (fun hb => by cases hb) (fun _ hk => hk) trivial hm
      fun _ hsched => by cases hsched
  have hself {f : Frame n} (hf : ∀ p x, (Frame.wakeUp chain pc meant).Matches p x → f.Matches p x) :
      ∀ p, s.cur c = .inr p → f.Matches p (s.proc p) := fun p hp => by
    rw [hp] at hstack
    exact hf p _ (h.at_top (running_of_cur hp) hstack).2
  cases pc with
  | acquire todo =>
    cases todo with
    | nil =>
      obtain rfl := Option.some.inj hs
      have hnest := h.nested (s.cur c)
      rw [hstack] at hnest
      obtain ⟨gs, rfl⟩ := hnest.caller rfl fun _ hk => hk
      have hcode : Next s c (s.held c) .code gs := by
        refine ⟨trivial, hnest.tail, ?_, trivial, fun k hk => ?_⟩
        · intro _ pc hcode
          cases hcode
        · rw [hstack]
          exact List.mem_cons_of_mem _ (List.mem_cons_of_mem _ hk)
      have hback := h.setStack hcode (hself fun _ _ hm => ⟨hm.status, hm.chain, hm.latest⟩)
      -- every slot has been passed
      refine hback.return_ fun x hx => ?_
      obtain ⟨hle, hmeant⟩ := hmeant x hx
      refine ⟨hle, fun heq => ?_⟩
      obtain ⟨call, hlast, -, -, hwoken⟩ := hmeant heq
      exact ⟨call, hlast, hwoken List.not_mem_nil⟩
    | cons q todo =>
      exact h.acquire (hnext (.test q todo) List.mem_cons_self hmeant)
        (hself fun _ _ hm => ⟨hm.status, hm.chain, hm.latest⟩) hs
  | test q todo =>
    obtain rfl := Option.some.inj hs
    have hown := (h.lock c _).mp hneeds
    have htested : Inv (s.wakeIf q chain) := h.wakeIf hown hstack rfl fun _ hsched => by cases hsched
    have hcur : (s.wakeIf q chain).cur c = s.cur c := by
      unfold State.wakeIf
      split <;> rfl
    have hheld : (s.wakeIf q chain).held = s.held := by
      unfold State.wakeIf
      split <;> rfl
    have hstack' : (s.wakeIf q chain).stack = s.stack := by
      unfold State.wakeIf
      split <;> rfl
    have htop : (s.wakeIf q chain).stack ((s.wakeIf q chain).cur c) =
        .wakeUp chain (.test q todo) meant :: fs := by rw [hcur, hstack', hstack]
    refine htested.setStack (htested.next_swap htop ?_ (fun hb => by cases hb) (fun _ hk => hk)
      trivial (fun x hx => ?_) fun _ hsched => by cases hsched) fun p hp => ?_
    · rw [hheld]
      exact hneeds
    · have hok := htested.meant _ (.wakeUp chain (.test q todo) meant) (by
        rw [htop]
        exact List.mem_cons_self)
      obtain ⟨hle, hmeant'⟩ := hok x hx
      refine ⟨hle, fun heq => ?_⟩
      obtain ⟨call, hlast, hchain, hgave, hwoken⟩ := hmeant' heq
      refine ⟨call, hlast, hchain, hgave, fun hout => ?_⟩
      by_cases hq : x.1 = q
      · have hown' : (s.wakeIf q chain).owner (.proc q) = some c := by
          rw [← htested.lock, hheld]
          exact hneeds
        rw [hq] at hlast
        exact htested.woken_of_test hown' htop (fun _ _ _ hsleep => by cases hsleep) hlast hchain hgave
          wakeIf_not
      · exact hwoken fun hin => (List.mem_cons.mp hin).elim hq hout
    · rw [hp] at htop
      have hm := (htested.at_top (running_of_cur hp) htop).2
      exact ⟨hm.status, hm.chain, hm.latest⟩
  | release q todo =>
    obtain rfl := Option.some.inj hs
    exact h.release hneeds (hnext (.acquire todo) trivial hmeant)
      (hself fun _ _ hm => ⟨hm.status, hm.chain, hm.latest⟩)

/-! ## `yield`, the end of `exit`, and the scheduler -/

theorem goYield (h : Inv s) (hc : s.running c = some p) {pc : YieldPc}
    (hstack : s.stack (.inr p) = .yield pc :: fs) (hs : s.goYield c p fs pc = some s') : Inv s' := by
  obtain ⟨hneeds, hmatch⟩ := h.at_top hc hstack
  have hcur := cur_of_running hc
  have hswap (pc' : YieldPc) {held : List (Lock n)} (hpc : pc'.Needs (.proc p) held) :
      Next s c held (.yield pc') fs :=
    h.next_process hc hstack hpc (fun hb => by cases hb) (fun _ hk => hk) trivial trivial
  have hself {f : Frame n} (hf : f.Matches p (s.proc p)) :
      ∀ p', s.cur c = .inr p' → f.Matches p' (s.proc p') := fun p' hp' => by
    obtain rfl := Sum.inr.inj (hcur.symm.trans hp')
    exact hf
  cases pc with
  | acquire =>
    exact h.acquire (hswap .set List.mem_cons_self)
      (hself ⟨hmatch.status, hmatch.chain, hmatch.latest⟩) hs
  | set =>
    obtain rfl := Option.some.inj hs
    exact h.setSelf hcur (hswap .switch hneeds) ⟨rfl, hmatch.chain, hmatch.latest⟩
      (.of_last rfl rfl) rfl
  | switch =>
    obtain rfl := Option.some.inj hs
    have hnest := h.nested (.inr p)
    rw [hstack] at hnest
    refine h.switchToScheduler hc hneeds ⟨?_, ?_, fun _ => ⟨hmatch.chain, hmatch.latest⟩,
      fun _ => ⟨_, fs, rfl, rfl, rfl⟩⟩ (hnest.swap (fun hb => by cases hb) (fun _ hk => hk) trivial)
      fun f hf => ?_
    · rw [hmatch.status]
      intro hrunning
      cases hrunning
    · rw [hmatch.status]
      intro hsleep
      cases hsleep
    · rcases List.mem_cons.mp hf with rfl | hf
      · trivial
      · exact h.meant (.inr p) f (by rw [hstack]; exact List.mem_cons_of_mem _ hf)
  | back =>
    have hheld : s.held c = [.proc p] := hneeds
    obtain rfl := Option.some.inj hs
    have hcaller : ∃ gs, fs = .code :: gs ∧ Next s c ((s.held c).erase (.proc p)) .code gs :=
      h.next_return hc hstack rfl fun _ hk => hk
    obtain ⟨gs, rfl, hnext⟩ := hcaller
    exact h.release (by rw [hheld]; exact List.mem_cons_self) hnext
      (hself ⟨hmatch.status, hmatch.chain, hmatch.latest⟩)

/-- The `switch_to_scheduler` of `exit`. -/
theorem goExit (h : Inv s) (hc : s.running c = some p) (hstack : s.stack (.inr p) = .exit :: fs) :
    Inv (s.switchToScheduler c []) := by
  obtain ⟨hneeds, hmatch⟩ := h.at_top hc hstack
  have hzombie : (s.proc p).status = .zombie := hmatch.status
  refine h.switchToScheduler hc hneeds ⟨?_, ?_, fun _ => ⟨hmatch.chain, hmatch.latest⟩, ?_⟩ trivial
    fun f hf => absurd hf List.not_mem_nil
  · rw [hzombie]
    decide
  · rw [hzombie]
    intro hsleep
    cases hsleep
  · rw [hzombie]
    rintro (hsleep | hrunable)
    · cases hsleep
    · cases hrunable

/-- `user_proc_entry` gives up the lock that the scheduler has taken. -/
theorem goEntry (h : Inv s) (hc : s.running c = some p) (hstack : s.stack (.inr p) = .entry :: fs) :
    Inv (s.release c (.proc p) (.code :: fs)) := by
  obtain ⟨hneeds, hmatch⟩ := h.at_top hc hstack
  have hheld : s.held c = [.proc p] := hneeds
  refine h.release (by rw [hheld]; exact List.mem_cons_self)
    (h.next_process hc hstack trivial (fun _ => rfl) (fun _ hk => hk.elim) trivial trivial)
    fun p' hp' => ?_
  obtain rfl := Sum.inr.inj ((cur_of_running hc).symm.trans hp')
  exact ⟨hmatch.status, hmatch.chain, hmatch.latest⟩

/-- **A step of the scheduler.** -/
theorem goSched (h : Inv s) (hc : s.running c = none) {pc : SchedPc n}
    (hstack : s.stack (.inl c) = .sched pc :: fs) (hs : s.goSched c fs pc = some s') : Inv s' := by
  have hcur := cur_of_none hc
  obtain ⟨f, gs, htop, hneeds⟩ := h.top c
  rw [hcur] at htop hneeds
  rw [hstack] at htop
  obtain ⟨rfl, rfl⟩ := List.cons.inj htop
  have hnext (pc' : SchedPc n) {held : List (Lock n)} (hpc : pc'.Needs held)
      (hchosen : ∀ p, pc'.chosen = some p → (s.proc p).status = .runable) :
      Next s c held (.sched pc') fs := by
    refine h.next_swap (by rw [hcur]; exact hstack) (by rw [hcur]; exact hpc) (fun _ => rfl)
      (fun k (hk : (Frame.sched pc).Above k) => hk.elim) (by rw [hcur]; trivial) trivial fun pc'' heq => ?_
    obtain rfl := Frame.sched.inj heq
    exact hchosen
  have hnone {f : Frame n} : ∀ p, s.cur c = .inr p → f.Matches p (s.proc p) := fun p hp => by
    rw [hcur] at hp
    cases hp
  cases pc with
  | loop => cases hs
  | group g =>
    have hheld : s.held c = [.other g] := hneeds
    obtain rfl := Option.some.inj hs
    refine h.release (by rw [hheld]; exact List.mem_cons_self) (hnext .loop ?_ fun p hp => by cases hp)
      hnone
    change (s.held c).erase _ = []
    rw [hheld, List.erase_cons_head]
  | look g p =>
    have hheld : s.held c = [.proc p, .other g] := hneeds
    rw [State.goSched] at hs
    split at hs
    · next hrunable =>
      obtain rfl := Option.some.inj hs
      refine h.setStack (hnext (.found g p) hheld fun q hq => ?_) hnone
      obtain rfl := Option.some.inj hq
      exact hrunable
    · obtain rfl := Option.some.inj hs
      refine h.release (by rw [hheld]; exact List.mem_cons_self)
        (hnext (.group g) ?_ fun p hp => by cases hp) hnone
      change (s.held c).erase _ = [.other g]
      rw [hheld, List.erase_cons_head]
  | found g p =>
    have hheld : s.held c = [.proc p, .other g] := hneeds
    obtain rfl := Option.some.inj hs
    refine h.release (by rw [hheld]; simp) (hnext (.start p) ?_ fun q hq => ?_) hnone
    · change (s.held c).erase _ = [.proc p]
      rw [hheld, List.erase_cons_tail (by simp), List.erase_cons_head]
    · exact h.chosen c hc (.found g p) fs hstack q hq
  | start p =>
    obtain rfl := Option.some.inj hs
    refine h.dispatch hc hstack hneeds rfl rfl rfl rfl ?_ rfl rfl rfl rfl
    change update s.stack (s.cur c) _ = _
    rw [hcur]
  | back p =>
    have hheld : s.held c = [.proc p] := hneeds
    obtain rfl := Option.some.inj hs
    refine h.release (by rw [hheld]; exact List.mem_cons_self) (hnext .loop ?_ fun p hp => by cases hp)
      hnone
    change (s.held c).erase _ = []
    rw [hheld, List.erase_cons_head]

end Inv

end Sleep
