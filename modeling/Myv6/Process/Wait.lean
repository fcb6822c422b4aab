import Myv6.Process.Tree

/-!
# Process/Wait — no exit goes unheard

    exit    lock parent, lock self ▸ wake parent ▸ unlock parent ▸ ZOMBIE ▸ swtch, unlock self
    wait    lock self ▸ scan, one child's lock at a time ▸ SLEEP ▸ swtch, unlock self

A child announces itself when it wakes its parent under the parent's lock.  From then on the
parent is not asleep in `wait`, and the scan it is in, if any, still has the child ahead of it: to
pass the child it would have to see it alive under the child's own lock, which the child keeps until
it is a zombie.  The one exception is a child that a dying process hands over to `init`: `init` hears
of it at the end of the sweep, before its lock is free again.
-/

namespace Process

open Function (update)

/-- The scan of `handle_exit_child` has passed slot `x`. -/
def Code.passed (x : ProcId) : Code → Bool
  | .waitScan _ _ i => decide ((x : ℕ) < i)
  | .waitAcq _ i | .waitHeld _ i => decide (x < i)
  | _ => false

/-- `exit` is handing over its children, and has not woken `init` yet. -/
def Code.handsOver : Code → Bool
  | .reparent _ _ | .reparentAcq _ _ | .reparentHeld _ _ => true
  | _ => false

/-- The last stretch of `exit`: the parent has been woken. -/
def Code.announced : Code → Bool
  | .zombie _ | .dead => true
  | _ => false

/-- Acquiring a lock is not a step of any of these. -/
theorem Code.got_wait {s : State} {p : ProcId} {k : Code} {l : Lock} (hw : k.want p = some l) :
    (∀ x, (k.got s p).passed x = k.passed x) ∧ (k.handsOver → (k.got s p).handsOver) ∧
      (k.got s p).announced = k.announced := by
  revert hw
  fun_cases Code.want p k <;> intro hw <;> cases hw <;>
    simp [Code.got, Code.passed, Code.handsOver, Code.announced]

/-- **What a row of process `p` does to those who wait.** -/
structure Hears (s t : State) (p : ProcId) (k k' : Code) : Prop where
  sleep : ∀ u, t.status u = .sleep → s.status u = .sleep ∧ t.chain u = s.chain u
  passed : ∀ x, k'.passed x →
    k.passed x ∨ s.parent x ≠ some p ∨ k.Holds p (.proc x) ∧ s.status x ≠ .zombie
  announced : k'.announced → ∀ u, s.parent p = some u → (k.inElse → u = initProc) →
    k.Holds p (.proc u) ∧ u ≠ p ∧ t.status u ≠ .sleep
  handsOver : k.handsOver →
    k'.handsOver ∨ k.Holds p (.proc initProc) ∧ p ≠ initProc ∧ t.status initProc ≠ .sleep
  adopts : k.found ≠ none → k.exiting ≠ none → k'.handsOver

theorem Code.Goes.hears {s : State} {p p' : ProcId} {k k' : Code} {r : Row}
    (hd : k.Distinct p) (h : k.Goes s p r) (hnext : r.next = .code p' k') :
    Hears s r.post p k k' := by
  obtain ⟨e, h⟩ | ⟨sc, h⟩ := h <;> revert h
  · fun_cases Code.row s e p k <;> intro h <;> cases h
    all_goals cases hnext <;> constructor
    all_goals try simp only [Code.passed, Code.announced, Code.handsOver, Code.found, Code.exiting,
      Code.inElse, Code.Holds, Code.Distinct] at hd ⊢
    all_goals grind [slot_eq_some, slot_eq_none]
  · fun_cases Code.call s p k sc <;> intro h <;> cases h
    all_goals cases hnext <;> constructor
    all_goals try simp only [Code.passed, Code.announced, Code.handsOver, Code.found, Code.exiting]
    all_goals grind

/-- What a row that switches away does to those who wait: a parent only goes to sleep behind a
finished scan, or on a chain of its own. -/
theorem Code.Goes.rests {s : State} {p p' : ProcId} {k k' : Code} {r : Row} {r' : Resume}
    (h : k.Goes s p r) (hnext : r.next = .switch p' k' r') :
    k.handsOver = false ∧ (∀ x, k'.passed x = false) ∧ (k'.announced → k.announced) ∧
      (r.post.status p = .sleep → r.post.chain p = none →
        k.Holds p (.proc p) ∧ ∀ x, k.passed x) := by
  obtain ⟨e, h⟩ | ⟨sc, h⟩ := h <;> revert h
  · fun_cases Code.row s e p k <;> intro h <;> cases h
    all_goals cases hnext
    all_goals simp_all [Code.handsOver, Code.passed, Code.announced, Code.Holds]
    all_goals grind [slot_eq_none]
  · fun_cases Code.call s p k sc <;> intro h <;> cases h
    all_goals cases hnext

/-! ## Every announced exit is heard -/

/-- Slot `u` does not sleep in `wait`, and a scan it is in has slot `x` still ahead. -/
def State.Hearing (s : State) (u x : ProcId) : Prop :=
  ¬(s.status u = .sleep ∧ s.chain u = none) ∧ (s.kpc u).passed x = false

/-- **Every announced exit is heard**, or about to be heard by `init`. -/
def Heard (s : State) : Prop :=
  ∀ x u, s.parent x = some u → (s.kpc x).announced →
    s.Hearing u x ∨ u = initProc ∧ ∃ r, (s.kpc r).handsOver

/-- A scan of `wait` goes on under the lock of its process. -/
theorem Code.holds_of_passed {k : Code} {p x : ProcId} (h : k.passed x) :
    k.parked = false ∧ k.Holds p (.proc p) := by
  cases k <;> simp_all [Code.parked, Code.open, Code.passed, Code.Holds]
  omega

/-- A process that has announced itself keeps its lock until it is a zombie. -/
theorem Code.holds_of_announced {k : Code} {p : ProcId} (h : k.announced) (hd : k ≠ .dead) :
    k.parked = false ∧ k.Holds p (.proc p) := by
  cases k <;> simp_all [Code.parked, Code.open, Code.announced, Code.Holds]

/-- Children are handed over under the lock of `init`. -/
theorem Code.holds_of_handsOver {k : Code} {p : ProcId} (h : k.handsOver) :
    k.parked = false ∧ k.Holds p (.proc initProc) := by
  cases k <;> simp_all [Code.parked, Code.open, Code.handsOver, Code.Holds]

/-- A child that `exit` has found is one to hand over. -/
theorem Code.handsOver_of_found {k : Code} {x : ProcId} (h : k.found = some x)
    (hexit : k.exiting ≠ none) : k.handsOver := by
  cases k <;> simp_all [Code.found, Code.exiting, Code.handsOver]

/-- A process whose lock another one holds is not in a scan. -/
theorem Inv.not_passed_of_holds {s : State} {c : CpuId} {p u x : ProcId} (h : Inv s)
    (hpc : s.pc c = .exec p) (hhold : (s.kpc p).Holds p (.proc u)) (hne : u ≠ p) :
    (s.kpc u).passed x = false := by
  by_contra hu
  obtain ⟨hpark, hheld⟩ := Code.holds_of_passed (p := u) (by simpa using hu)
  exact hne (h.code_holder hpc hhold hpark hheld)

namespace Heard

variable {s t : State} {c : CpuId} {p : ProcId} {l : Lock}

theorem code {k' : Code} {op : Op} {post : State} (hinv : Inv s) (htree : Tree s) (h : Heard s)
    (hpc : s.pc c = .exec p) (hgo : (s.kpc p).Goes s p ⟨op, post, .code p k'⟩) :
    Heard { post with lock := op.drop post.lock, kpc := update post.kpc p k' } := by
  have hmove : ∀ x, TreeMove s post p (s.kpc p) k' x := hgo.tree rfl
  have hhears : Hears s post p (s.kpc p) k' := hgo.hears (hinv.distinct p) rfl
  have hrun : s.status p = .running := by
    have := hinv.cpu c
    simp_all [Pc.Ok]
  have hkpc : ∀ x, x ≠ p → update post.kpc p k' x = s.kpc x ∨
      update post.kpc p k' x = .user ∧ (s.kpc x = .user ∨ s.kpc x = .dead) :=
    fun x hx => htree.others hinv hgo hx
  have hahead' : ∀ u x, u ≠ p → (s.kpc u).passed x = false →
      (update post.kpc p k' u).passed x = false := by
    intro u x hu hux
    rcases hkpc u hu with hk | ⟨hk, -⟩ <;> rw [hk]
    · exact hux
    · rfl
  have hheld : ∀ u x, u ≠ p → (s.kpc p).Holds p (.proc u) →
      (update post.kpc p k' u).passed x = false :=
    fun u x hu hhold => hahead' u x hu (hinv.not_passed_of_holds hpc hhold hu)
  intro x u hx ha
  by_cases hxp : x = p
  · -- the process announces itself: it holds the lock of the parent it has woken
    subst hxp
    have hk' : k'.announced := by simpa using ha
    have hparent : s.parent x = some u := by
      have hno : k'.handsOver = false := by cases k' <;> simp_all [Code.announced, Code.handsOver]
      have := hinv.claim x x
      have := hhears.adopts
      cases hmove x <;> grind
    obtain ⟨hhold, hne, hawake⟩ := hhears.announced hk' u hparent fun helse =>
      Option.some.inj (hparent.symm.trans (htree.inElse x helse))
    exact .inl ⟨fun hsleep => hawake hsleep.1, hheld u x hne hhold⟩
  · have hkx : update post.kpc p k' x = s.kpc x := by
      rcases hkpc x hxp with hk | ⟨hk, -⟩
      · exact hk
      · simp [hk, Code.announced] at ha
    have hax : (s.kpc x).announced := by simpa only [hkx] using ha
    obtain hparent | ⟨rfl, hover⟩ : s.parent x = some u ∨ u = initProc ∧ k'.handsOver := by
      have := hinv.claim p x
      have := hinv.idle x
      have := hhears.adopts
      cases hmove x <;> grind [Code.announced]
    · obtain ⟨hawake, hahead⟩ | ⟨rfl, r, hr⟩ := h x u hparent hax
      · refine .inl ⟨fun hsleep => ?_, ?_⟩
        · obtain ⟨hs, hc⟩ := hhears.sleep u hsleep.1
          exact hawake ⟨hs, hc ▸ hsleep.2⟩
        · by_cases hup : u = p
          · subst hup
            by_contra hpass
            obtain hpass | hno | ⟨hhold, halive⟩ :=
              hhears.passed x (by simpa using hpass)
            · simp [hahead] at hpass
            · exact hno hparent
            · -- to pass the child the scan would have to hold its lock
              have hdead : s.kpc x ≠ .dead := fun hdead => halive ((htree.dead x).mpr hdead)
              obtain ⟨hpark, hheld'⟩ := Code.holds_of_announced (p := x) hax hdead
              exact hxp (hinv.code_holder hpc hhold hpark hheld')
          · exact hahead' u x hup hahead
      · by_cases hrp : r = p
        · subst hrp
          obtain hover | ⟨hhold, hne, hawake⟩ := hhears.handsOver hr
          · exact .inr ⟨rfl, r, by simpa using hover⟩
          · exact .inl ⟨fun hsleep => hawake hsleep.1, hheld initProc x hne.symm hhold⟩
        · refine .inr ⟨rfl, r, ?_⟩
          rcases hkpc r hrp with hk | ⟨-, hk⟩ <;> grind [Code.handsOver]
    · exact .inr ⟨rfl, p, by simpa using hover⟩

theorem takeCode (h : Heard s) (hw : (s.kpc p).want p = some l) :
    Heard { s with
      lock := update s.lock l (some c)
      kpc := update s.kpc p ((s.kpc p).got s p) } := by
  obtain ⟨hpassed, hover, hann⟩ := Code.got_wait (s := s) hw
  intro x u hx ha
  have hax : (s.kpc x).announced := by
    by_cases hxp : x = p
    · subst hxp
      simpa [hann] using ha
    · simpa [hxp] using ha
  obtain ⟨hawake, hahead⟩ | ⟨hu, r, hr⟩ := h x u hx hax
  · refine .inl ⟨hawake, ?_⟩
    by_cases hup : u = p
    · subst hup
      simpa [hpassed] using hahead
    · simpa [hup] using hahead
  · refine .inr ⟨hu, r, ?_⟩
    by_cases hrp : r = p
    · subst hrp
      simpa using hover hr
    · simpa [hrp] using hr

theorem switch {k' : Code} {r : Resume} {post : State} (hinv : Inv s) (h : Heard s)
    (hpc : s.pc c = .exec p)
    (hgo : (s.kpc p).Goes s p ⟨.keep, post, .switch p k' r⟩) :
    Heard { post with kpc := update post.kpc p k', pc := update post.pc c (.swtch p r) } := by
  obtain ⟨hparent, -, -, -, -, -, -, hchain, haway⟩ := hgo.away rfl
  obtain ⟨-, -, hkpc, -, hstatus⟩ := hgo.switch rfl
  obtain ⟨hnoover, hnopass, hann, hsleep⟩ := hgo.rests rfl
  dsimp only at *
  intro x u hx ha
  simp only [hparent] at hx
  have hax : (s.kpc x).announced := by
    by_cases hxp : x = p
    · subst hxp
      exact hann (by simpa using ha)
    · simpa [hxp, hkpc] using ha
  by_cases hup : u = p
  · subst hup
    -- a parent that goes to sleep in `wait` has passed all its children, so none is announced
    refine .inl ⟨fun ⟨hs, hc⟩ => ?_, by simpa using hnopass x⟩
    obtain ⟨hself, hall⟩ := hsleep hs hc
    obtain ⟨-, hahead⟩ | ⟨rfl, q, hq⟩ := h x u hx hax
    · simp [hall x] at hahead
    · -- nor is a sweep under way: it would hold the lock of `init`
      obtain ⟨hpark, hheld⟩ := Code.holds_of_handsOver (p := q) hq
      obtain rfl := hinv.code_holder hpc hself hpark hheld
      simp [hnoover] at hq
  · obtain ⟨hawake, hahead⟩ | ⟨rfl, q, hq⟩ := h x u hx hax
    · refine .inl ⟨?_, ?_⟩
      · simpa only [hstatus u hup, hchain u hup] using hawake
      · simpa [hup, hkpc] using hahead
    · have hqp : q ≠ p := by
        rintro rfl
        simp [hnoover] at hq
      exact .inr ⟨rfl, q, by simpa [hqp, hkpc] using hq⟩

/-- A step outside the code of the processes puts nobody to sleep. -/
theorem congr (h : Heard s) (hkpc : t.kpc = s.kpc) (hparent : t.parent = s.parent)
    (hsleep : ∀ u, t.status u = .sleep → s.status u = .sleep ∧ t.chain u = s.chain u) :
    Heard t := by
  intro x u hx ha
  rw [hparent] at hx
  rw [hkpc] at ha
  obtain ⟨hawake, hahead⟩ | ⟨hu, r, hr⟩ := h x u hx ha
  · refine .inl ⟨fun ⟨hs, hc⟩ => ?_, by rwa [hkpc]⟩
    obtain ⟨hs', hc'⟩ := hsleep u hs
    exact hawake ⟨hs', hc' ▸ hc⟩
  · exact .inr ⟨hu, r, by rwa [hkpc]⟩

/-- **Every step keeps it.** -/
theorem of_effect (hinv : Inv s) (htree : Tree s) (h : Heard s) (heff : Effect s c t) :
    Heard t := by
  cases heff with
  | fail _ => exact h
  | takeCode _ hw _ => exact h.takeCode hw
  | takeCpu _ _ _ => exact h
  | code hpc hgo _ => exact h.code hinv htree hpc hgo
  | switch hpc hgo => exact h.switch hinv hpc hgo
  | cpu hpc hmove _ =>
    refine h.congr ?_ ?_ fun u hu => ?_
    all_goals cases hmove
    all_goals first
      | rfl
      | exact ⟨hu, rfl⟩
      | grind

end Heard

/-- Every announced exit is heard, in every state of every run. -/
theorem Reach.heard {ok : State → Act → Prop} {s : State} (h : Run.Reach step ok boot s) :
    Heard s :=
  h.invariant_with (by simp [Heard, boot]) fun _ _ _ hs hi _ ht =>
    hi.of_effect (Reach.inv hs) (Reach.tree hs) (.of_step ht)

/-- The panic of `exit` that its own comment on the parent excludes. -/
theorem Code.Goes.reparent_panic {s : State} {p : ProcId} {k : Code} {r : Row} (h : k.Goes s p r)
    (hnext : r.next = .panic .reparentToOtherProc) :
    ∃ u, k.par = some u ∧ s.parent p ≠ some u ∧ s.parent p ≠ some initProc := by
  obtain ⟨e, h⟩ | ⟨sc, h⟩ := h <;> revert h
  · fun_cases Code.row s e p k <;> intro h <;> cases h
    all_goals cases hnext
    exact ⟨_, rfl, ‹_›, ‹_›⟩
  · fun_cases Code.call s p k sc <;> intro h <;> cases h
    all_goals cases hnext

/-- A parent only changes to `init`. -/
theorem reparent_panic_unreachable {ok : State → Act → Prop} {s : State}
    (h : Run.Reach step ok boot s) (c : CpuId) : s.panicked c ≠ some .reparentToOtherProc := by
  refine Run.Reach.invariant_with (P := fun s => ∀ c, s.panicked c ≠ some .reparentToOtherProc)
    (by simp [boot]) (fun s a t hs hi _ ht c hc => ?_) h c
  obtain hsame | ⟨rfl, e, hfail, rfl⟩ := (Effect.of_step ht).panicked c
  · exact hi c (hsame ▸ hc)
  · obtain rfl : e = .reparentToOtherProc := by simpa [State.fail] using hc
    cases hfail with
    | code hpc hgo =>
      obtain ⟨u, hu, hne, hne'⟩ := hgo.reparent_panic rfl
      exact ((Reach.tree hs).par _ u hu).elim hne hne'

/-- **No exit notification is lost.**  In no state of any run is a process asleep in `wait`
(`SLEEP`, chain `NULL`, lock free) while a process whose parent it is is a zombie with its lock
free, whether that zombie is a child it forked or, for `init`, one it was handed; and `exit` never
finds its parent to be anyone but the one it read or `init`. -/
theorem no_lost_exit {s : State} (h : Reachable s) :
    (∀ p x, s.status p = .sleep → s.chain p = none → s.lock (.proc p) = none →
      s.parent x = some p → s.status x = .zombie → s.lock (.proc x) ≠ none) ∧
      ∀ c, s.panicked c ≠ some .reparentToOtherProc := by
  have hinv := Reach.inv h
  have htree := Reach.tree h
  refine ⟨fun p x hs hc hl hx hz _ => ?_, reparent_panic_unreachable h⟩
  have hdead : s.kpc x = .dead := (htree.dead x).mp hz
  obtain ⟨hawake, -⟩ | ⟨rfl, r, hr⟩ := Reach.heard h x p hx (by simp [hdead, Code.announced])
  · exact hawake ⟨hs, hc⟩
  · obtain ⟨hpark, hheld⟩ := Code.holds_of_handsOver (p := r) hr
    obtain ⟨d, -, hd⟩ := hinv.exec_of_not_parked hpark
    exact hinv.not_holds_of_free hl (hd _ hheld)

/-- The child of a child becomes a zombie, `init` goes to sleep in `wait`, and the zombie is handed
over to it. -/
def handOverRun : List Act :=
  dispatch 0 0 ++ callFor 0 .fork 10 ++ dispatch 1 1 ++ callFor 1 .fork 12 ++ dispatch 2 2 ++
    callFor 2 (.exit 7) 76 ++ callFor 0 (.wait false) 70 ++ callFor 1 (.exit 0) 69

/-- The theorem after the sweep: the zombie is `init`'s, both locks are free, so `init` is awake. -/
theorem no_lost_exit_handOverRun :
    ∃ s, Reachable s ∧ s.parent 2 = some 0 ∧ s.status 2 = .zombie ∧ s.lock (.proc 0) = none ∧
      s.lock (.proc 2) = none ∧ ¬(s.status 0 = .sleep ∧ s.chain 0 = none) := by
  have hrun : (Run.run step boot handOverRun).map (fun s =>
      (s.parent 2, s.status 2, s.lock (.proc 0), s.lock (.proc 2))) =
      some (some 0, .zombie, none, none) := by decide +kernel
  obtain ⟨s, hs, hlook⟩ := Option.map_eq_some_iff.mp hrun
  simp only [Prod.mk.injEq] at hlook
  obtain ⟨hp, hz, hl, hl'⟩ := hlook
  have hreach : Reachable s := Run.reachable_of_run .refl hs
  refine ⟨s, hreach, hp, hz, hl, hl', fun ⟨hsleep, hchain⟩ => ?_⟩
  exact (no_lost_exit hreach).1 0 2 hsleep hchain hl hp hz hl'

end Process
