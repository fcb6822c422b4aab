import Myv6.Sleep.Wake

/-!
# Sleep/Lost — no lost wake-up

    sleep(lk, ch)        check ▸ … ▸ SLEEP ┆ woken ▸ … ▸ returns with lk, and with no chain
    lk; wake_up(ch)            └── of this call ──▸ not asleep in it, once wake_up has returned

What a call of `wake_up` is meant for is fixed when it begins.  Each of the calls of `sleep` has given
up its lock then: its process is asleep, or holds its own lock until it is, and the waker waits for
that lock.
-/

namespace Sleep

open Function (update)

variable {n : ℕ} {s s' : State n} {c : CpuId} {p q : Fin n} {f g : Frame n} {fs : List (Frame n)}
  {t : Tid n} {x : Proc n} {l : Lock n} {chain : Option Chan} {held : List (Lock n)}

namespace Inv

/-! ## Interrupts -/

/-- Interrupts come where no lock is held. -/
theorem idle_of_needs (h : f.Needs [] (s.cur c)) : f.idle = true := by
  cases hcur : s.cur c with
  | inl c' =>
    rw [hcur] at h
    cases f with
    | code => rfl
    | wakeUp chain pc meant =>
      cases pc with
      | acquire todo => rfl
      | _ => exact absurd h List.not_mem_nil
    | sched pc =>
      cases pc with
      | loop => rfl
      | _ => exact absurd h (List.cons_ne_nil _ _).symm
    | _ => exact h.elim
  | inr p =>
    rw [hcur] at h
    cases f with
    | code => rfl
    | wakeUp chain pc meant =>
      cases pc with
      | acquire todo => rfl
      | _ => exact absurd h List.not_mem_nil
    | sleep l chain pc =>
      cases pc with
      | relock => rfl
      | check | set | switch => exact absurd h List.not_mem_nil
      | acquire | release | back => exact absurd h.1 (by simp)
      | ret => exact absurd h (List.cons_ne_nil _ _).symm
    | yield pc =>
      cases pc with
      | acquire => rfl
      | set | switch => exact absurd h List.not_mem_nil
      | back => exact absurd h (List.cons_ne_nil _ _).symm
    | exit => exact absurd h List.not_mem_nil
    | entry => exact absurd h (List.cons_ne_nil _ _).symm
    | sched pc => exact h.elim

/-- Where a frame was interrupted, nothing has been held. -/
theorem needs_of_idle (hf : f.idle = true) (hfits : f.Fits t) : f.Needs [] t := by
  cases t with
  | inl c =>
    cases f with
    | code => trivial
    | wakeUp chain pc meant =>
      cases pc with
      | acquire todo => trivial
      | _ => cases hf
    | sched pc =>
      cases pc with
      | loop => rfl
      | _ => cases hf
    | _ => exact hfits.elim
  | inr p =>
    cases f with
    | code => trivial
    | wakeUp chain pc meant =>
      cases pc with
      | acquire todo => trivial
      | _ => cases hf
    | sleep l chain pc =>
      cases pc with
      | relock => rfl
      | _ => cases hf
    | yield pc =>
      cases pc with
      | acquire => trivial
      | _ => cases hf
    | sched pc => exact hfits.elim
    | _ => cases hf

/-- To the record of a process one frame that can be interrupted is as good as another. -/
theorem matches_of_idle (hf : f.idle = true) (hg : g.idle = true) (hm : f.Matches p x) :
    g.Matches p x := by
  have hcode : Frame.code.Matches p x := by
    cases f with
    | sleep l chain pc =>
      cases pc with
      | relock => exact ⟨hm.status, hm.chain, hm.latest⟩
      | _ => cases hf
    | yield pc =>
      cases pc with
      | acquire => exact ⟨hm.status, hm.chain, hm.latest⟩
      | _ => cases hf
    | code | wakeUp | sched => exact ⟨hm.status, hm.chain, hm.latest⟩
    | _ => cases hf
  cases g with
  | sleep l chain pc =>
    cases pc with
    | relock => exact ⟨hcode.status, hcode.chain, hcode.latest⟩
    | _ => cases hg
  | yield pc =>
    cases pc with
    | acquire => exact ⟨hcode.status, hcode.chain, hcode.latest⟩
    | _ => cases hg
  | code | wakeUp | sched => exact ⟨hcode.status, hcode.chain, hcode.latest⟩
  | _ => cases hg

/-- **An interrupt.** -/
theorem enter (h : Inv s) (hstack : s.stack (s.cur c) = f :: fs) (hheld : s.held c = []) :
    Inv (s.setStack c (.code :: f :: fs)) := by
  obtain ⟨g, gs, htop, hneeds⟩ := h.top c
  rw [hstack] at htop
  obtain ⟨rfl, rfl⟩ := List.cons.inj htop
  rw [hheld] at hneeds
  have hidle := idle_of_needs hneeds
  have hnest := h.nested (s.cur c)
  rw [hstack] at hnest
  refine h.setStack ⟨trivial, hnest.push hidle trivial, ?_, trivial, fun k hk => ?_⟩ fun p hp => ?_
  · intro _ pc hcode
    cases hcode
  · rw [hstack]
    exact hk
  · rw [hp] at hstack
    exact matches_of_idle hidle rfl (h.at_top (running_of_cur hp) hstack).2

/-- **The return from a handler.** -/
theorem ret (h : Inv s) (hstack : s.stack (s.cur c) = .code :: f :: fs) (hheld : s.held c = []) :
    Inv (s.setStack c (f :: fs)) := by
  have hnest := h.nested (s.cur c)
  rw [hstack] at hnest
  have hidle : f.idle = true := hnest.1
  refine h.setStack ⟨?_, hnest.tail, fun _ pc hsched p hp => ?_, ?_, fun k hk => ?_⟩ fun p hp => ?_
  · rw [hheld]
    exact needs_of_idle hidle hnest.tail.fits
  · subst hsched
    cases pc with
    | loop => cases hp
    | _ => cases hidle
  · exact h.meant _ f (by rw [hstack]; exact List.mem_cons_of_mem _ List.mem_cons_self)
  · rw [hstack]
    exact List.mem_cons_of_mem _ (List.mem_cons_of_mem _ hk)
  · rw [hp] at hstack
    exact matches_of_idle rfl hidle (h.at_top (running_of_cur hp) hstack).2

/-! ## Code that is not followed -/

theorem code_matches (h : Inv s) (hstack : s.stack (s.cur c) = .code :: fs) :
    ∀ p, s.cur c = .inr p → Frame.code.Matches p (s.proc p) := fun p hp => by
  rw [hp] at hstack
  exact (h.at_top (running_of_cur hp) hstack).2

theorem code_next (h : Inv s) (hstack : s.stack (s.cur c) = .code :: fs) :
    Next s c held .code fs :=
  h.next_swap hstack trivial (fun _ => rfl) (fun _ hk => hk) trivial trivial
    fun _ hsched => by cases hsched

/-- A call. -/
theorem code_push (h : Inv s) (hstack : s.stack (s.cur c) = .code :: fs)
    (hneeds : f.Needs held (s.cur c)) (habove : f.Above .code) (hfits : f.Fits (s.cur c))
    (hmeant : f.MeantOk s.proc) (hsched : ∀ pc, f ≠ .sched pc) :
    Next s c held f (.code :: fs) := by
  have hnest := h.nested (s.cur c)
  rw [hstack] at hnest
  refine ⟨hneeds, hnest.push habove hfits, fun _ pc heq => absurd heq (hsched pc), hmeant,
    fun k hk => ?_⟩
  rw [hstack]
  exact hk

/-- **A call of `sleep`.** -/
theorem callSleep (h : Inv s) (hc : s.running c = some p)
    (hstack : s.stack (.inr p) = .code :: fs) (hown : s.owner l = some c) :
    Inv (s.callSleep c p l chain (.code :: fs)) := by
  have hcur := cur_of_running hc
  have hcode : s.stack (s.cur c) = .code :: fs := by rw [hcur, hstack]
  have hmatch := h.code_matches hcode p hcur
  set x : Proc n := { s.proc p with
    calls := (s.proc p).calls + 1
    last := some ⟨l, chain, .called⟩ } with hx
  have hall : ∀ q, Later (s.proc q) (update s.proc p x q) := Later.update (.of_call rfl)
  have hnext : Next s c (s.held c) (.sleep l chain .check) (.code :: fs) :=
    h.code_push hcode (by rw [hcur]; exact (h.lock c l).mpr hown) rfl (by rw [hcur]; trivial) trivial
      fun _ heq => by cases heq
  refine h.of_local rfl
    (Eq.refl (update s.stack (s.cur c) (.sleep l chain .check :: .code :: fs))) (fun _ _ => rfl) h.lock
    (h.nodup c) hnext.needs hnext.nested (fun q hq => Function.update_of_ne ?_ _ _) (fun q hq => ?_)
    hnext.chosen (fun g hg => Later.meantOk hall (h.meant_next hnext g hg)) hall (fun t q hq => ?_)
    (fun a ha => Later.settled hall (h.returned a ha)) h.unslept
  · rintro rfl
    exact hq hcur
  · obtain rfl := Sum.inr.inj (hcur.symm.trans hq)
    change Frame.Matches _ p (update s.proc p x p)
    rw [Function.update_self]
    exact ⟨hmatch.status, hmatch.chain, rfl⟩
  · have hq : (if q = p then false else s.seen t q) = true := hq
    by_cases hqp : q = p
    · rw [if_pos hqp] at hq
      cases hq
    · rw [if_neg hqp] at hq
      change GaveUp (update s.proc p x q)
      rw [Function.update_of_ne hqp]
      exact h.seen t q hq

/-- **Who holds the lock of a call of `sleep`, outside `sleep`, finds it given up.** -/
theorem gaveUp_of_owner (h : Inv s) (hstack : s.stack (s.cur c) = f :: fs)
    (hf : ∀ l chain pc, f ≠ .sleep l chain pc) {call : Call n} (hcall : (s.proc q).last = some call)
    (hown : s.owner call.lock = some c) : call.phase.gaveUp = true := by
  by_cases haway : ∀ c', s.running c' ≠ some q
  · have hoff := h.off q haway
    by_cases hsleep : (s.proc q).status = .sleep
    · obtain ⟨l, chain, pc, gs, -, -, hlast⟩ := hoff.asleep hsleep
      obtain rfl := Option.some.inj (hcall.symm.trans hlast)
      rfl
    · rw [(hoff.awake hsleep).2 call hcall]
      rfl
  · push Not at haway
    obtain ⟨c', hc'⟩ := haway
    obtain ⟨g, gs, hg, hneeds, hmatch⟩ := h.top_of_running hc'
    have hlatest := hmatch.latest
    rw [hcall] at hlatest
    -- a sleeper that still holds it runs on the CPU of whoever holds it
    have hmine : call.lock ∈ s.held c' → ∀ l chain pc, g ≠ .sleep l chain pc := by
      intro hmem l chain pc hsleep
      have hsame := (h.lock c' _).mp hmem
      rw [hown] at hsame
      obtain rfl := Option.some.inj hsame
      rw [cur_of_running hc', hg] at hstack
      exact hf l chain pc ((List.cons.inj hstack).1.symm.trans hsleep)
    have hwoken : call.phase = .woken → call.phase.gaveUp = true := fun hphase => by rw [hphase]; rfl
    cases g with
    | sleep l chain pc =>
      cases pc with
      | check =>
        obtain rfl := Option.some.inj hlatest
        exact absurd rfl (hmine hneeds l chain .check)
      | acquire =>
        obtain rfl := Option.some.inj hlatest
        exact absurd rfl (hmine hneeds.1 l chain .acquire)
      | release =>
        obtain rfl := Option.some.inj hlatest
        exact absurd rfl (hmine hneeds.1 l chain .release)
      | set =>
        obtain rfl := Option.some.inj hlatest
        by_cases hl : l = .proc q
        · subst hl
          exact absurd rfl (hmine hneeds _ chain .set)
        · change Phase.gaveUp (if l = Lock.proc q then Phase.called else Phase.gave) = true
          rw [if_neg hl]
          rfl
      | switch =>
        obtain rfl := Option.some.inj hlatest
        rfl
      | back | relock | ret => exact hwoken (hlatest call rfl)
    | _ => exact hwoken (hlatest call rfl)

/-- **What a call of `wake_up` is meant for**, when it begins. -/
theorem meant_of_call (h : Inv s) (hstack : s.stack (s.cur c) = .code :: fs) :
    ∀ a ∈ s.meant c chain, Meant s.proc chain (List.finRange n) a := by
  intro a ha
  obtain ⟨q, -, hq⟩ := List.mem_filterMap.mp ha
  obtain ⟨call, hcall, hif⟩ := Option.bind_eq_some_iff.mp hq
  obtain ⟨⟨hchain, hor⟩, hif⟩ := Option.ite_none_right_eq_some.mp hif
  obtain rfl := Option.some.inj hif
  refine ⟨le_rfl, fun _ => ⟨call, hcall, hchain, ?_, fun hout => absurd (List.mem_finRange q) hout⟩⟩
  rcases hor with hown | hseen
  · exact h.gaveUp_of_owner hstack (fun _ _ _ heq => by cases heq) hcall hown
  · obtain ⟨call', hcall', hgave⟩ := h.seen _ _ hseen
    obtain rfl := Option.some.inj (hcall.symm.trans hcall')
    exact hgave

/-- **A slot that is neither asleep nor ready** is filled or emptied by the holder of its lock. -/
theorem setSlot (h : Inv s) (hstack : s.stack (s.cur c) = .code :: fs)
    (hown : s.owner (.proc q) = some c) {status : Status} {gs : List (Frame n)}
    (hold : (s.proc q).status = .unused ∨ (s.proc q).status = .used ∨ (s.proc q).status = .zombie)
    (hnew : status = .unused ∨ status = .used ∨ status = .runable ∧ gs = [.entry])
    (hnest : Nested (.inr q) gs) (hmeant : ∀ f ∈ gs, f.MeantOk s.proc) :
    Inv { s.setProc q { s.proc q with status := status, chain := none } with
      stack := update s.stack (.inr q) gs } := by
  have hstatus : (s.proc q).status ≠ .running ∧ (s.proc q).status ≠ .sleep := by
    rcases hold with hst | hst | hst <;> rw [hst] <;> decide
  have haway := h.away_of_other hown hstack rfl hstatus.1
  have hwoken := ((h.off q haway).awake hstatus.2).2
  refine h.setOff hown haway (fun hc pc ks hks => ?_) ⟨?_, ?_, fun _ => ⟨rfl, hwoken⟩, ?_⟩
    (.of_last rfl rfl) rfl hnest hmeant
  · rw [cur_of_none hc, hks] at hstack
    cases (List.cons.inj hstack).1
  · rintro rfl
    rcases hnew with hst | hst | ⟨hst, -⟩ <;> cases hst
  · rintro rfl
    rcases hnew with hst | hst | ⟨hst, -⟩ <;> cases hst
  · rintro (rfl | rfl)
    · rcases hnew with hst | hst | ⟨hst, -⟩ <;> cases hst
    · obtain hst | hst | ⟨-, rfl⟩ := hnew
      · cases hst
      · cases hst
      · exact ⟨.entry, [], rfl, rfl, rfl⟩

/-- **A step of code that is not followed.** -/
theorem use (h : Inv s) (hstack : s.stack (s.cur c) = .code :: fs) {u : Use n}
    (hs : s.use c fs u = some s') : Inv s' := by
  have hcode := h.code_matches hstack
  have hprocess {p : Fin n} (hc : s.running c = some p) : s.stack (.inr p) = .code :: fs := by
    rw [← cur_of_running hc]
    exact hstack
  have hsame : ∀ q, update s.stack (.inr q) (s.stack (.inr q)) = s.stack := fun q =>
    Function.update_eq_self _ _
  cases u with
  | acquire l => exact h.acquire (h.code_next hstack) hcode hs
  | release l =>
    obtain rfl := Option.some.inj hs
    by_cases hown : s.owner l = some c
    · exact h.release ((h.lock c l).mpr hown) (h.code_next hstack) hcode
    · rw [State.release, if_neg hown]
      exact h.panic (by decide)
  | sleep l chain =>
    rw [State.use] at hs
    split at hs
    · next p hc =>
      obtain ⟨hown, hs⟩ := Option.ite_none_right_eq_some.mp hs
      obtain rfl := Option.some.inj hs
      exact h.callSleep hc (hprocess hc) hown
    · cases hs
  | wakeUp chain =>
    obtain rfl := Option.some.inj hs
    refine h.setStack (h.code_push hstack trivial rfl trivial (h.meant_of_call hstack)
      fun _ heq => by cases heq) fun p hp => ?_
    have hm := hcode p hp
    exact ⟨hm.status, hm.chain, hm.latest⟩
  | wakeUpParent q =>
    obtain ⟨hown, hs⟩ := Option.ite_none_right_eq_some.mp hs
    obtain rfl := Option.some.inj hs
    split
    · next hsleep => exact h.wake hown hstack rfl (fun _ heq => by cases heq) hsleep
    · exact h
  | yield =>
    obtain ⟨hrun, hs⟩ := Option.ite_none_right_eq_some.mp hs
    obtain rfl := Option.some.inj hs
    obtain ⟨p, hc⟩ := Option.isSome_iff_exists.mp hrun
    have hcur := cur_of_running hc
    refine h.setStack (h.code_push hstack (by rw [hcur]; trivial) rfl (by rw [hcur]; trivial) trivial
      fun _ heq => by cases heq) fun p hp => ?_
    have hm := hcode p hp
    exact ⟨hm.status, hm.chain, hm.latest⟩
  | exit =>
    rw [State.use] at hs
    split at hs
    · next p hc =>
      obtain ⟨hown, hs⟩ := Option.ite_none_right_eq_some.mp hs
      obtain rfl := Option.some.inj hs
      have hcur := cur_of_running hc
      have hm := hcode p hcur
      refine h.setSelf hcur ⟨?_, ?_, ?_, trivial, fun k hk => absurd hk List.not_mem_nil⟩
        ⟨rfl, rfl, hm.latest⟩ (.of_last rfl rfl) rfl
      · rw [hcur]
        exact (h.lock c _).mpr hown
      · rw [hcur]
        exact ⟨rfl, trivial⟩
      · intro _ pc heq
        cases heq
    · cases hs
  | alloc q =>
    obtain ⟨⟨hown, hunused⟩, hs⟩ := Option.ite_none_right_eq_some.mp hs
    obtain rfl := Option.some.inj hs
    have hset := h.setSlot hstack hown (.inl hunused) (.inr (.inl rfl)) (h.nested _) (h.meant _)
    rwa [hsame] at hset
  | start q =>
    obtain ⟨⟨hown, hused⟩, hs⟩ := Option.ite_none_right_eq_some.mp hs
    obtain rfl := Option.some.inj hs
    have hentry : Nested (.inr q) [(.entry : Frame n)] := ⟨rfl, trivial⟩
    have hset := h.setSlot hstack hown (.inr (.inl hused)) (.inr (.inr ⟨rfl, rfl⟩)) hentry
      fun f hf => by
        obtain rfl := List.mem_singleton.mp hf
        trivial
    have hnone : (s.proc q).chain = none := by
      have haway := h.away_of_other hown hstack rfl (by rw [hused]; decide)
      exact ((h.off q haway).awake (by rw [hused]; decide)).1
    rw [← hnone] at hset
    exact hset
  | free q =>
    obtain ⟨⟨hown, hst⟩, hs⟩ := Option.ite_none_right_eq_some.mp hs
    obtain rfl := Option.some.inj hs
    have hset := h.setSlot hstack hown (.inr hst) (.inl rfl) (h.nested _) (h.meant _)
    rwa [hsame] at hset
  | ret =>
    obtain ⟨⟨hheld, hne⟩, hs⟩ := Option.ite_none_right_eq_some.mp hs
    obtain rfl := Option.some.inj hs
    obtain ⟨f, fs, rfl⟩ := List.exists_cons_of_ne_nil hne
    exact h.ret hstack hheld

/-! ## Runs -/

/-- **A step of the frame at the top.** -/
theorem go (h : Inv s) (hstack : s.stack (s.cur c) = f :: fs) (hs : s.go c f fs = some s') :
    Inv s' := by
  cases hc : s.running c with
  | some p =>
    rw [State.go.eq_def, hc] at hs
    have hself := hstack
    rw [cur_of_running hc] at hself
    cases f with
    | code | sched => cases hs
    | sleep l chain pc => exact h.goSleep hc hself hs
    | wakeUp chain pc meant => exact h.goWakeUp hstack hs
    | yield pc => exact h.goYield hc hself hs
    | exit =>
      obtain rfl := Option.some.inj hs
      exact h.goExit hc hself
    | entry =>
      obtain rfl := Option.some.inj hs
      exact h.goEntry hc hself
  | none =>
    rw [State.go.eq_def, hc] at hs
    have hself := hstack
    rw [cur_of_none hc] at hself
    cases f with
    | wakeUp chain pc meant => exact h.goWakeUp hstack hs
    | sched pc => exact h.goSched hc hself hs
    | _ => cases hs

/-- **The scheduler takes a lock.** -/
theorem take (h : Inv s) {pc pc' : SchedPc n} (hstack : s.stack (s.cur c) = .sched pc :: fs)
    (hneeds : pc.Needs (s.held c) → pc'.Needs (l :: s.held c)) (hchosen : pc'.chosen = none)
    (hs : s.acquire c l (.sched pc' :: fs) = some s') : Inv s' := by
  obtain ⟨f, gs, htop, htopNeeds⟩ := h.top c
  rw [hstack] at htop
  obtain ⟨rfl, rfl⟩ := List.cons.inj htop
  cases hcur : s.cur c with
  | inl c' =>
    rw [hcur] at htopNeeds
    refine h.acquire (h.next_swap (f := .sched pc') hstack ?_ (fun _ => rfl)
      (fun k (hk : (Frame.sched pc).Above k) => hk.elim) (by rw [hcur]; trivial) trivial
      fun pc'' heq p hp => ?_) (fun p hp => ?_) hs
    · rw [hcur]
      exact hneeds htopNeeds
    · obtain rfl := Frame.sched.inj heq
      rw [hchosen] at hp
      cases hp
    · rw [hcur] at hp
      cases hp
  | inr p =>
    rw [hcur] at htopNeeds
    exact htopNeeds.elim

end Inv

/-- **Every step keeps the invariant.** -/
theorem step_inv (h : Inv s) {a : CpuId × Choice n} (hs : step s a = some s') : Inv s' := by
  obtain ⟨c, choice⟩ := a
  obtain ⟨f, fs, hstack, -⟩ := h.top c
  rw [step.eq_def] at hs
  obtain ⟨-, hs⟩ := Option.ite_none_left_eq_some.mp hs
  rw [hstack] at hs
  cases choice with
  | go => exact h.go hstack hs
  | enter =>
    obtain ⟨hheld, hs⟩ := Option.ite_none_right_eq_some.mp hs
    obtain rfl := Option.some.inj hs
    exact h.enter hstack hheld
  | use u =>
    cases f with
    | code => exact h.use hstack hs
    | _ => cases hs
  | group g =>
    cases f with
    | sched pc =>
      cases pc with
      | loop =>
        refine h.take hstack (fun hheld => ?_) rfl hs
        exact congrArg (Lock.other g :: ·) hheld
      | _ => cases hs
    | _ => cases hs
  | look p =>
    cases f with
    | sched pc =>
      cases pc with
      | group g =>
        refine h.take hstack (fun hheld => ?_) rfl hs
        exact congrArg (Lock.proc p :: ·) hheld
      | _ => cases hs
    | _ => cases hs

theorem init_inv : Inv (init n) := by
  have hnone {α : Type} {a : α} : (none : Option α) ≠ some a := (Option.some_ne_none a).symm
  refine ⟨fun c l => iff_of_false List.not_mem_nil hnone, fun c => List.nodup_nil,
    fun c c' p h => absurd h hnone, fun t => ?_, fun c => ⟨.sched .loop, [], rfl, rfl⟩,
    fun c p h => absurd h hnone, fun c p h => absurd h hnone, fun c _ pc fs hstack p hp => ?_,
    fun p _ => ?_, fun t f hf => ?_, fun t q h => absurd h Bool.false_ne_true,
    fun x hx => absurd hx List.not_mem_nil, fun c => hnone⟩
  · cases t with
    | inl c => exact ⟨rfl, trivial⟩
    | inr p =>
      change Nested _ (if p.val = 0 then [Frame.entry] else [])
      split
      · exact ⟨rfl, trivial⟩
      · trivial
  · obtain ⟨heq, -⟩ := List.cons.inj hstack
    obtain rfl := Frame.sched.inj heq
    cases hp
  · by_cases hp : p.val = 0
    · have hstatus : ((init n).proc p).status = .runable := if_pos hp
      refine ⟨?_, ?_, fun _ => ⟨rfl, fun call h => by cases h⟩,
        fun _ => ⟨.entry, [], if_pos hp, rfl, rfl⟩⟩
      · rw [hstatus]
        decide
      · rw [hstatus]
        intro h
        cases h
    · have hstatus : ((init n).proc p).status = .unused := if_neg hp
      refine ⟨?_, ?_, fun _ => ⟨rfl, fun call h => by cases h⟩, ?_⟩
      · rw [hstatus]
        decide
      · rw [hstatus]
        intro h
        cases h
      · rw [hstatus]
        rintro (h | h)
        · cases h
        · cases h
  · cases t with
    | inl c =>
      obtain rfl := List.mem_singleton.mp hf
      trivial
    | inr p =>
      have hf : f ∈ if p.val = 0 then [Frame.entry] else [] := hf
      split at hf
      · obtain rfl := List.mem_singleton.mp hf
        trivial
      · exact absurd hf List.not_mem_nil

theorem reachable_inv (h : Reachable s) : Inv s :=
  h.invariant init_inv fun _ _ _ hs _ hstep => step_inv hs hstep

/-! ## No lost wake-up -/

/-- **No wake-up is lost.** -/
structure NoLostWakeUp (s : State n) : Prop where
  /-- A call of `wake_up` has returned: no call of `sleep` that it was meant for is asleep. -/
  woken : ∀ q k, (q, k) ∈ s.returned → ¬((s.proc q).status = .sleep ∧ (s.proc q).calls = k)
  /-- A step of `wake_up` leaves the processes alone that sleep on another chain. -/
  others : ∀ c chain pc meant fs s', s.stack (s.cur c) = .wakeUp chain pc meant :: fs →
    step s (c, .go) = some s' → ∀ q, (s.proc q).status = .sleep → (s.proc q).chain ≠ chain →
      s'.proc q = s.proc q
  /-- `sleep` returns with the lock it was called with, not with the process lock, and with no
  chain. -/
  returns : ∀ c p l chain fs, s.running c = some p → s.stack (.inr p) = .sleep l chain .ret :: fs →
    s.owner l = some c ∧ (l ≠ .proc p → s.owner (.proc p) ≠ some c) ∧ (s.proc p).chain = none
  /-- The panic "sleep when sleeping" is never reached. -/
  unslept : ∀ c, s.panicked c ≠ some .sleepSleeping

/-- A process is asleep in a call of `sleep` that has not been woken. -/
theorem Inv.slept_of_sleep (h : Inv s) (hsleep : (s.proc q).status = .sleep) :
    ∃ call, (s.proc q).last = some call ∧ call.phase = .slept := by
  by_cases haway : ∀ c', s.running c' ≠ some q
  · obtain ⟨l, chain, pc, gs, -, -, hlast⟩ := (h.off q haway).asleep hsleep
    exact ⟨_, hlast, rfl⟩
  · push Not at haway
    obtain ⟨c', hc'⟩ := haway
    obtain ⟨g, gs, hg, hneeds, hmatch⟩ := h.top_of_running hc'
    have hstatus := hmatch.status
    rw [hsleep] at hstatus
    cases g with
    | sleep l chain pc =>
      cases pc with
      | switch => exact ⟨_, hmatch.latest, rfl⟩
      | _ => cases hstatus
    | yield pc => cases pc <;> cases hstatus
    | _ => cases hstatus

/-- A step of `wake_up` changes no process on another chain. -/
theorem goWakeUp_other {meant : List (Fin n × ℕ)} {pc : WakePc n}
    (hs : s.goWakeUp c chain meant fs pc = some s') (hchain : (s.proc q).chain ≠ chain) :
    s'.proc q = s.proc q := by
  have hacquire {l : Lock n} {gs : List (Frame n)} {s' : State n}
      (hs : s.acquire c l gs = some s') : s'.proc = s.proc := by
    unfold State.acquire at hs
    split at hs
    · obtain rfl := Option.some.inj hs
      rfl
    · split at hs
      · obtain rfl := Option.some.inj hs
        rfl
      · cases hs
  cases pc with
  | acquire todo =>
    cases todo with
    | nil =>
      obtain rfl := Option.some.inj hs
      rfl
    | cons r todo => rw [hacquire hs]
  | test r todo =>
    obtain rfl := Option.some.inj hs
    change (s.wakeIf r chain).proc q = s.proc q
    unfold State.wakeIf
    split
    · next hif =>
      refine Function.update_of_ne ?_ _ _
      rintro rfl
      exact hchain hif.2
    · rfl
  | release r todo =>
    obtain rfl := Option.some.inj hs
    unfold State.release
    split <;> rfl

/-- **No lost wake-up**, in every interleaving. -/
theorem noLostWakeUp_of_reachable (hr : Reachable s) : NoLostWakeUp s := by
  have h := reachable_inv hr
  refine ⟨fun q k hq hasleep => ?_, fun c chain pc meant fs s' hstack hs q _ hchain => ?_,
    fun c p l chain fs hc hstack => ?_, h.unslept⟩
  · obtain ⟨-, hwoken⟩ := h.returned _ hq
    obtain ⟨call, hlast, hphase⟩ := hwoken hasleep.2
    obtain ⟨call', hlast', hphase'⟩ := h.slept_of_sleep hasleep.1
    obtain rfl := Option.some.inj (hlast.symm.trans hlast')
    rw [hphase] at hphase'
    cases hphase'
  · rw [step.eq_def] at hs
    obtain ⟨-, hs⟩ := Option.ite_none_left_eq_some.mp hs
    rw [hstack] at hs
    have hs : s.goWakeUp c chain meant fs pc = some s' := hs
    exact goWakeUp_other hs hchain
  · obtain ⟨hneeds, hmatch⟩ := h.at_top hc hstack
    have hheld : s.held c = [l] := hneeds
    refine ⟨(h.lock c l).mp (by rw [hheld]; exact List.mem_cons_self), fun hl hown => ?_, hmatch.chain⟩
    rw [← h.lock, hheld, List.mem_singleton] at hown
    exact hl hown.symm

/-- Process 0 starts process 1 and calls `sleep`; process 1 takes the lock behind its back and calls
`wake_up` before process 0 is asleep, and process 0 is run again. -/
def wakeRun : List (CpuId × Choice 2) :=
  [(0, .group 1), (0, .look 0)] ++ List.replicate 4 (0, .go) ++
    [(0, .use (.acquire (.proc 1))), (0, .use (.alloc 1)), (0, .use (.start 1)),
      (0, .use (.release (.proc 1))), (0, .use (.acquire (.other 7))),
      (0, .use (.sleep (.other 7) (some 9)))] ++ List.replicate 3 (0, .go) ++
    [(1, .group 1), (1, .look 1)] ++ List.replicate 4 (1, .go) ++
    [(1, .use (.acquire (.other 7))), (1, .use (.wakeUp (some 9)))] ++ List.replicate 3 (0, .go) ++
    List.replicate 7 (1, .go) ++ [(1, .use (.release (.other 7))), (0, .group 1), (0, .look 0)] ++
    List.replicate 5 (0, .go)

/-- The theorem there: `wake_up` has returned, and `sleep` is about to. -/
theorem noLostWakeUp_of_reachable_wakeRun :
    ∃ s : State 2, Reachable s ∧ s.returned = [(0, 1)] ∧
      ¬((s.proc 0).status = .sleep ∧ (s.proc 0).calls = 1) ∧ s.owner (.other 7) = some 0 ∧
      (s.proc 0).chain = none := by
  have hrun : (Run.run step (init 2) wakeRun).map (fun s => (s.returned, s.running 0,
      s.stack (.inr 0))) =
      some ([(0, 1)], some 0, [.sleep (.other 7) (some 9) .ret, .code]) := by decide +kernel
  obtain ⟨s, hs, hlook⟩ := Option.map_eq_some_iff.mp hrun
  simp only [Prod.mk.injEq] at hlook
  obtain ⟨hreturned, hc, hstack⟩ := hlook
  have hreach : Reachable s := Run.reachable_of_run .refl hs
  obtain ⟨hwoken, -, hreturns, -⟩ := noLostWakeUp_of_reachable hreach
  obtain ⟨hlock, -, hnone⟩ := hreturns 0 0 (.other 7) (some 9) [.code] hc hstack
  exact ⟨s, hreach, hreturned, hwoken 0 1 (by rw [hreturned]; exact List.mem_cons_self), hlock, hnone⟩

end Sleep
