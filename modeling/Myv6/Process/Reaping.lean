import Myv6.Process.Reap
import Myv6.Process.Sched

/-!
# Process/Reaping — what `wait` returns

    child  ZOMBIE ─▸ free_process ─▸ pid, exit status      by the parent, once
    none   scan ─▸ scan ─▸ … ─▸ -1                         no lock to wait for, no sleep

`Process/Reap` has the history of every child.  Added here: `free_process` always finds its pid in
use, a call of `wait` that begins without a child ends with -1, and neither of the two ways out of
`wait` is held up by anyone.
-/

namespace Process

open Function (update)

/-- The slot holds a process that `fork` has finished, or `init`. -/
def State.InUse (s : State) (x : ProcId) : Prop := (s.status x).alive ∨ s.status x = .zombie

/-! ## Pids -/

/-- The slot has got a pid from `alloc_pid`. -/
def State.HasPid (s : State) (x : ProcId) : Prop :=
  s.InUse x ∨ ∃ p, (s.kpc p).claims = some x ∧ (s.kpc p).madeUp

/-- **Pids in use are marked and different.** -/
structure Pids (s : State) : Prop where
  marked : ∀ x, s.HasPid x → s.pidSet (s.pid x)
  one : ∀ x y, s.HasPid x → s.HasPid y → s.pid x = s.pid y → x = y

/-- **What a row of a process does to the pids.** -/
inductive PidMove (s t : State) (k k' : Code) : Prop
  | stay (hpid : t.pid = s.pid) (hset : t.pidSet = s.pidSet)
      (hmade : k'.madeUp → k.madeUp ∧ k'.claims = k.claims)
  | alloc (q : ProcId) (n : ℤ) (hclaim : k.claims = some q) (hclaim' : k'.claims = some q)
      (hfree : s.pidSet n = false) (hpid : ∀ x, t.pid x = if x = q then n else s.pid x)
      (hset : ∀ m, t.pidSet m = (decide (m = n) || s.pidSet m)) (hstatus : t.status q = .used)
  | free (q : ProcId) (hhas : k.madeUp ∧ k.claims = some q ∨ s.status q = .zombie)
      (hstatus : t.status q = .unused) (hclaims : k'.claims = none)
      (hpid : ∀ x, x ≠ q → t.pid x = s.pid x)
      (hset : ∀ m, t.pidSet m = (decide (m ≠ s.pid q) && s.pidSet m))

/-- `alloc_pid` finds a pid that nobody has. -/
theorem State.allocPid_free {s : State} {n : ℤ} (h : s.allocPid = some n) : s.pidSet n = false := by
  obtain ⟨i, -, hi⟩ := List.exists_of_findSome?_eq_some h
  split at hi
  · cases hi
  · obtain rfl := Option.some.inj hi
    simp_all

theorem State.freeProcess_pidSet (s : State) (q : ProcId) (m : ℤ) :
    (s.freeProcess q).pidSet m = (decide (m ≠ s.pid q) && s.pidSet m) := by
  by_cases hm : m = s.pid q <;> simp [State.freeProcess, hm]

theorem Code.Goes.pids {s : State} {p p' : ProcId} {k k' : Code} {r : Row}
    (h : k.Goes s p r) (hnext : r.next = .code p' k') : PidMove s r.post k k' := by
  obtain ⟨e, h⟩ | ⟨sc, h⟩ := h <;> revert h
  · fun_cases Code.row s e p k <;> intro h <;> cases h
    all_goals cases hnext
    all_goals first
      | exact .stay rfl rfl (by simp [Code.madeUp, Code.claims])
      | exact .alloc _ _ rfl rfl (State.allocPid_free ‹_›) (by simp [Function.update_apply])
          (by grind) (by simp)
      | exact .free _ (.inl ⟨rfl, rfl⟩) (by simp) rfl (by simp +contextual)
          (fun m => s.freeProcess_pidSet _ m)
      | exact .free _ (.inr ‹_ = Status.zombie›) (by simp) rfl (by simp +contextual)
          (fun m => s.freeProcess_pidSet _ m)
  · fun_cases Code.call s p k sc <;> intro h <;> cases h
    all_goals cases hnext
    all_goals exact .stay rfl rfl (by simp [Code.madeUp])

theorem Code.Goes.switch_pidSet {s : State} {p p' : ProcId} {k k' : Code} {r : Row} {r' : Resume}
    (h : k.Goes s p r) (hnext : r.next = .switch p' k' r') : r.post.pidSet = s.pidSet := by
  obtain ⟨e, h⟩ | ⟨sc, h⟩ := h <;> revert h
  · fun_cases Code.row s e p k <;> intro h <;> cases h
    all_goals first
      | rfl
      | cases hnext
  · fun_cases Code.call s p k sc <;> intro h <;> cases h
    all_goals cases hnext

namespace Pids

variable {s t : State} {c : CpuId} {p : ProcId} {l : Lock}

/-- A step that neither gives nor takes a pid. -/
theorem congr (h : Pids s) (hpid : t.pid = s.pid) (hset : t.pidSet = s.pidSet)
    (hhas : ∀ x, t.HasPid x → s.HasPid x) : Pids t := by
  constructor <;> simp only [hpid, hset]
  case marked => exact fun x hx => h.marked x (hhas x hx)
  case one => exact fun x y hx hy => h.one x y (hhas x hx) (hhas y hy)

theorem code {k' : Code} {op : Op} {post : State} (hinv : Inv s) (htree : Tree s) (h : Pids s)
    (hgo : (s.kpc p).Goes s p ⟨op, post, .code p k'⟩) :
    Pids { post with lock := op.drop post.lock, kpc := update post.kpc p k' } := by
  have hothers := fun x hx => htree.others hinv hgo (x := x) hx
  have hslot : ∀ q, SlotMove s post p (s.kpc p) k' q := hgo.slot (hinv.distinct p) rfl
  have hmove : PidMove s post (s.kpc p) k' := hgo.pids rfl
  have huse : ∀ x, post.InUse x → s.InUse x ∨ (s.kpc p).claims = some x ∧ (s.kpc p).madeUp := by
    intro x hx
    cases hslot x <;> grind [State.InUse, Status.alive]
  have hclaims : ∀ y x, y ≠ p → (update post.kpc p k' y).claims = some x →
      (update post.kpc p k' y).madeUp → (s.kpc y).claims = some x ∧ (s.kpc y).madeUp := by
    intro y x hy hx hm
    rcases hothers y hy with hk | ⟨hk, -⟩
    · exact ⟨hk ▸ hx, hk ▸ hm⟩
    · simp [hk, Code.claims] at hx
  have hhas : ∀ x, State.HasPid { post with
      lock := op.drop post.lock, kpc := update post.kpc p k' } x →
      s.HasPid x ∨ k'.claims = some x ∧ k'.madeUp := by
    rintro x (hx | ⟨y, hy, hm⟩)
    · obtain hx | ⟨hx, hm⟩ := huse x hx
      · exact .inl (.inl hx)
      · exact .inl (.inr ⟨p, hx, hm⟩)
    · by_cases hyp : y = p
      · subst hyp
        exact .inr ⟨by simpa using hy, by simpa using hm⟩
      · exact .inl (.inr ⟨y, hclaims y x hyp hy hm⟩)
  cases hmove with
  | stay hpid hset hmade =>
    refine h.congr hpid hset fun x hx => ?_
    obtain hx | ⟨hx, hm⟩ := hhas x hx
    · exact hx
    · exact .inr ⟨p, (hmade hm).2 ▸ hx, (hmade hm).1⟩
  | alloc q n hclaim hclaim' hfree hpid hset hstatus =>
    constructor <;> simp only [hpid, hset]
    case marked =>
      intro x hx
      have := hhas x hx
      have := h.marked x
      grind
    case one =>
      intro x y hx hy
      have := hhas x hx
      have := hhas y hy
      have := h.marked x
      have := h.marked y
      have := h.one x y
      grind
  | free q hhasq hstatus hclaims' hpid hset =>
    -- the freed slot is no longer anybody's claim, nor in use
    have hq : s.HasPid q := by
      obtain ⟨hm, hc⟩ | hz := hhasq
      · exact .inr ⟨p, hc, hm⟩
      · exact .inl (.inr hz)
    have hgone : ∀ x, State.HasPid { post with
        lock := op.drop post.lock, kpc := update post.kpc p k' } x → x ≠ q ∧ s.HasPid x := by
      intro x hx
      refine ⟨?_, ?_⟩
      · rintro rfl
        obtain hx | ⟨y, hy, hm⟩ := hx
        · simp [State.InUse, hstatus, Status.alive] at hx
        · by_cases hyp : y = p
          · subst hyp
            simp [hclaims'] at hy
          · have := (hclaims y x hyp hy hm).1
            have := hinv.claim y x
            have := hinv.alone y p x
            grind
      · obtain hx | ⟨hx, -⟩ := hhas x hx
        · exact hx
        · simp [hclaims'] at hx
    constructor
    case marked =>
      intro x hx
      have hx := hgone x hx
      have := h.marked x hx.2
      have := h.one x q hx.2 hq
      grind
    case one =>
      intro x y hx hy
      have hx := hgone x hx
      have hy := hgone y hy
      have := h.one x y hx.2 hy.2
      grind

/-- **Every step keeps it.** -/
theorem of_effect (hinv : Inv s) (htree : Tree s) (h : Pids s) (heff : Effect s c t) : Pids t := by
  cases heff with
  | fail _ | takeCpu _ _ _ => exact h.congr rfl rfl fun _ hx => hx
  | @takeCode p _ _ hw _ =>
    obtain ⟨hclaims, hmade⟩ := Code.got_claims (s := s) hw
    refine h.congr rfl rfl fun x hx => hx.imp_right ?_
    rintro ⟨y, hy, hm⟩
    by_cases hyp : y = p
    · subst hyp
      exact ⟨y, by simpa [hclaims] using hy, by simpa [hmade] using hm⟩
    · exact ⟨y, by simpa [hyp] using hy, by simpa [hyp] using hm⟩
  | code hpc hgo _ => exact h.code hinv htree hgo
  | @switch p _ _ _ hpc hgo =>
    obtain ⟨-, hpid, -⟩ := hgo.away rfl
    obtain ⟨hclaims, -, hkpc, -, hstatus⟩ := hgo.switch rfl
    have hrun : s.status p = .running := by
      have := hinv.cpu c
      simp_all [Pc.Ok]
    dsimp only at *
    refine h.congr hpid (hgo.switch_pidSet rfl) ?_
    rintro x (hx | ⟨y, hy, hm⟩)
    · by_cases hxp : x = p
      · exact .inl (.inl (by simp [hxp, hrun, Status.alive]))
      · exact .inl (by simpa [State.InUse, hstatus x hxp] using hx)
    · by_cases hyp : y = p
      · simp [hyp, hclaims] at hy
      · exact .inr ⟨y, by simpa [hyp, hkpc] using hy, by simpa [hyp, hkpc] using hm⟩
  | cpu hpc hmove _ =>
    have hok := hinv.cpu c
    rw [hpc] at hok
    refine h.congr ?_ ?_ fun x hx => ?_
    all_goals cases hmove
    all_goals first
      | rfl
      | exact hx
      | exact hx.imp_left fun hu => by grind [State.InUse, Pc.Ok, State.Calm, Status.alive]

end Pids

/-- Pids in use are marked and different in every state of every run. -/
theorem Reach.pids {ok : State → Act → Prop} {s : State} (h : Run.Reach step ok boot s) :
    Pids s := by
  refine h.invariant_with ?_ fun _ _ _ hs hi _ ht =>
    hi.of_effect (Reach.inv hs) (Reach.tree hs) (.of_step ht)
  have hboot : ∀ x, boot.HasPid x → x = initProc := by
    simp [State.HasPid, State.InUse, boot, Code.claims]
    grind [Status.alive]
  constructor
  case marked =>
    intro x hx
    simp [hboot x hx, boot]
  case one => exact fun x y hx hy _ => (hboot x hx).trans (hboot y hy).symm

/-! ## Calls without a child -/

/-- The `wait` call the code is in, from its own lock on. -/
def Code.waitCall : Code → Option WaitCall
  | .waitScan w _ _ | .waitAcq w _ | .waitHeld w _ | .waitErr w | .waitEnd w _ _ => some w
  | _ => none

/-- The first round of `wait`, with no child found so far. -/
def Code.childless : Code → Bool
  | .waitScan w noChild _ => w.first && noChild
  | .waitErr w => w.first
  | _ => false

/-- **A call of `wait` that began without a child has found none since.** -/
def Lonely (s : State) : Prop :=
  ∀ p w, (s.kpc p).waitCall = some w → w.lonely →
    (s.kpc p).childless ∧ ∀ x, s.parent x ≠ some p

theorem Code.got_waitCall {s : State} {p : ProcId} {k : Code} {l : Lock} {w : WaitCall}
    (hw : k.want p = some l) (hcall : (k.got s p).waitCall = some w) :
    k.waitCall = some w ∧ (k.childless → (k.got s p).childless) ∨
      (k.got s p).childless ∧ w.lonely = s.lonely p := by
  revert hw
  fun_cases Code.want p k <;> intro hw <;> cases hw <;>
    simp_all [Code.got, Code.waitCall, Code.childless]
  simp [← hcall]

/-- A row inside `wait` stays in the call, and without a child it finds none. -/
theorem Code.Goes.waits {s : State} {p p' : ProcId} {k k' : Code} {r : Row} {w : WaitCall}
    (h : k.Goes s p r) (hnext : r.next = .code p' k') (hcall : k'.waitCall = some w) :
    k.waitCall = some w ∧ k.claims = none ∧ k.exiting = none ∧
      (k.childless → (∀ x, s.parent x ≠ some p) → k'.childless) := by
  obtain ⟨e, h⟩ | ⟨sc, h⟩ := h <;> revert h
  · fun_cases Code.row s e p k <;> intro h <;> cases h
    all_goals cases hnext
    all_goals grind -linarith [Code.waitCall, Code.childless, Code.claims, Code.exiting]
  · fun_cases Code.call s p k sc <;> intro h <;> cases h
    all_goals cases hnext
    all_goals cases hcall

/-- A call goes to sleep only when it has seen a child. -/
theorem Code.Goes.waits_switch {s : State} {p p' : ProcId} {k k' : Code} {r : Row} {r' : Resume}
    {w : WaitCall} (h : k.Goes s p r) (hnext : r.next = .switch p' k' r')
    (hcall : k'.waitCall = some w) :
    ∃ w', k.waitCall = some w' ∧ w'.lonely = w.lonely ∧ k.childless = false := by
  obtain ⟨e, h⟩ | ⟨sc, h⟩ := h <;> revert h
  · fun_cases Code.row s e p k <;> intro h <;> cases h
    all_goals cases hnext
    all_goals grind [Code.waitCall, Code.childless]
  · fun_cases Code.call s p k sc <;> intro h <;> cases h
    all_goals cases hnext

/-- `wait` goes on under the lock of its process. -/
theorem Code.holds_of_childless {k : Code} {p : ProcId} (h : k.childless) :
    k.parked = false ∧ k.Holds p (.proc p) ∧ k.want p = none := by
  cases k <;> simp_all [Code.parked, Code.open, Code.childless, Code.Holds, Code.want]

namespace Lonely

variable {s t : State} {c : CpuId} {p : ProcId} {l : Lock}

theorem code {k' : Code} {op : Op} {post : State} (hinv : Inv s) (htree : Tree s) (h : Lonely s)
    (hpc : s.pc c = .exec p) (hgo : (s.kpc p).Goes s p ⟨op, post, .code p k'⟩) :
    Lonely { post with lock := op.drop post.lock, kpc := update post.kpc p k' } := by
  have hmove : ∀ x, TreeMove s post p (s.kpc p) k' x := hgo.tree rfl
  have hhears : Hears s post p (s.kpc p) k' := hgo.hears (hinv.distinct p) rfl
  intro y w hcall hlonely
  by_cases hy : y = p
  · subst hy
    simp only [Function.update_self] at hcall ⊢
    obtain ⟨hcall', hclaims, hexit, hgoes⟩ := hgo.waits rfl hcall
    obtain ⟨hfirst, hnone⟩ := h y w hcall' hlonely
    refine ⟨hgoes hfirst hnone, fun x => ?_⟩
    have := hnone x
    cases hmove x <;> grind
  · have hk : update post.kpc p k' y = s.kpc y := by
      rcases htree.others hinv hgo hy with hk | ⟨hk, -⟩
      · exact hk
      · simp [hk, Code.waitCall] at hcall
    simp only [hk] at hcall ⊢
    obtain ⟨hfirst, hnone⟩ := h y w hcall hlonely
    refine ⟨hfirst, fun x hx => ?_⟩
    cases hmove x with
    | adopt hfound hexit _ hp =>
      -- children come to `init` under its lock, which is the caller's
      obtain rfl : initProc = y := Option.some.inj (hp.symm.trans hx)
      have hover := Code.handsOver_of_found hfound hexit
      obtain ⟨hpark, hhold, -⟩ := Code.holds_of_childless (p := initProc) hfirst
      exact hy (hinv.code_holder hpc (Code.holds_of_handsOver hover).2 hpark hhold)
    | _ => grind

/-- **Every step keeps it.** -/
theorem of_effect (hinv : Inv s) (htree : Tree s) (h : Lonely s) (heff : Effect s c t) :
    Lonely t := by
  cases heff with
  | fail _ | takeCpu _ _ _ => exact h
  | @takeCode p _ _ hw _ =>
    intro y w hcall hlonely
    by_cases hy : y = p
    · subst hy
      simp only [Function.update_self] at hcall ⊢
      obtain ⟨hcall', hgot⟩ | ⟨hfirst, heq⟩ := Code.got_waitCall hw hcall
      · obtain ⟨hfirst, hnone⟩ := h y w hcall' hlonely
        exact ⟨hgot hfirst, hnone⟩
      · exact ⟨hfirst, by simpa [State.lonely, hlonely] using heq.symm⟩
    · simp only [Function.update_of_ne hy] at hcall ⊢
      exact h y w hcall hlonely
  | code hpc hgo _ => exact h.code hinv htree hpc hgo
  | @switch p _ _ _ hpc hgo =>
    obtain ⟨hparent, -⟩ := hgo.away rfl
    obtain ⟨-, -, hkpc, -, -⟩ := hgo.switch rfl
    dsimp only at hparent hkpc
    intro y w hcall hlonely
    by_cases hy : y = p
    · subst hy
      simp only [Function.update_self] at hcall
      obtain ⟨w', hcall', heq, hseen⟩ := hgo.waits_switch rfl hcall
      obtain ⟨hfirst, -⟩ := h y w' hcall' (by rw [heq, hlonely])
      simp [hfirst] at hseen
    · simp only [Function.update_of_ne hy, hparent, hkpc] at hcall ⊢
      exact h y w hcall hlonely
  | cpu hpc hmove _ => cases hmove <;> exact h

end Lonely

/-- A `wait` call that began without a child stays without one. -/
theorem Reach.lonely {ok : State → Act → Prop} {s : State} (h : Run.Reach step ok boot s) :
    Lonely s :=
  h.invariant_with (by simp [Lonely, boot, Code.waitCall]) fun _ _ _ hs hi _ ht =>
    hi.of_effect (Reach.inv hs) (Reach.tree hs) (.of_step ht)

/-! ## Nobody holds up the end of a call -/

/-- The last steps of a call that nothing can stop any more. -/
def Code.steady (k : Code) : Prop := k.childless ∨ k.returns ≠ none

theorem Code.holds_of_steady {k : Code} {p : ProcId} (h : k.steady) :
    k.parked = false ∧ k.want p = none := by
  cases k <;> simp_all [Code.steady, Code.returns, Code.parked, Code.open, Code.childless, Code.want]

theorem Code.Goes.not_panic {s : State} {p : ProcId} {k : Code} {r : Row} {e : Error}
    (h : k.Goes s p r) (hk : k.steady) : r.next ≠ .panic e := by
  obtain ⟨e, h⟩ | ⟨sc, h⟩ := h <;> revert h
  · fun_cases Code.row s e p k <;> intro h <;> cases h
    all_goals simp_all [Code.steady, Code.childless, Code.returns]
  · fun_cases Code.call s p k sc <;> intro h <;> cases h
    all_goals simp_all [Code.steady, Code.childless, Code.returns]

/-- What another CPU does leaves the code of a running process where it is. -/
theorem Effect.kpc_of_ne {s t : State} {c d : CpuId} {p : ProcId} (hinv : Inv s) (htree : Tree s)
    (heff : Effect s c t) (hdc : d ≠ c) (hpc : s.pc d = .exec p) : t.kpc p = s.kpc p := by
  have hne : ∀ q, s.pc c = .exec q → p ≠ q := by
    rintro q hq rfl
    exact hdc (hinv.one d c p (by simp [hpc, Pc.proc]) (by simp [hq, Pc.proc]))
  cases heff with
  | fail _ | takeCpu _ _ _ => rfl
  | takeCode hpc' _ _ => exact Function.update_of_ne (hne _ hpc') ..
  | @code q _ _ _ hpc' hgo _ =>
    have hrun := hinv.cpu d
    rw [hpc] at hrun
    have := htree.others hinv hgo (hne q hpc')
    have := htree.dead p
    grind [Pc.Ok]
  | @switch q _ _ _ hpc' hgo =>
    obtain ⟨-, -, hkpc, -⟩ := hgo.switch rfl
    exact (Function.update_of_ne (hne q hpc') ..).trans (congrFun hkpc p)
  | cpu _ hmove _ => cases hmove <;> rfl

/-- A CPU at the end of a call has not panicked. -/
def Steady (s : State) : Prop :=
  ∀ c p, s.pc c = .exec p → (s.kpc p).steady → s.panicked c = none

theorem panicked_of_step {s t : State} {a : Act} (h : step s a = some t) :
    s.panicked a.cpu = none := by
  unfold step at h
  split at h
  · cases h
  · simp_all

/-- The code of a process holds what it gives up. -/
theorem Inv.release {s : State} {c : CpuId} {p : ProcId} {l : Lock} {post : State} {n : Next}
    (hinv : Inv s) (hpc : s.pc c = .exec p) (hgo : (s.kpc p).Goes s p ⟨.release l, post, n⟩) :
    s.lock l = some c := by
  have hexact := hgo.exact (hinv.distinct p)
  rw [hinv.lock c l, hpc]
  cases n with
  | code p' k' => exact hexact.2.2.1
  | cpu k => exact hexact.elim
  | switch p' k' r => simp [Row.Exact] at hexact
  | panic e => simp [Row.Exact] at hexact

theorem Steady.of_step {s t : State} {a : Act} (hinv : Inv s) (htree : Tree s) (h : Steady s)
    (ht : step s a = some t) : Steady t := by
  intro c p hpc hsteady
  have heff := Effect.of_step ht
  obtain hsame | ⟨rfl, e, hfail, rfl⟩ := heff.panicked c
  · rw [hsame]
    by_cases hc : c = a.cpu
    · exact hc ▸ panicked_of_step ht
    · have hpc' : s.pc c = .exec p := by rw [← heff.pc_of_ne hc, hpc]
      exact h c p hpc' (heff.kpc_of_ne hinv htree hc hpc' ▸ hsteady)
  · replace hpc : s.pc a.cpu = .exec p := hpc
    have hwant := (Code.holds_of_steady (p := p) hsteady).2
    cases hfail with
    | held hw hl =>
      simp only [State.want, hpc] at hw
      exact nomatch hw.symm.trans hwant
    | unheld hpc' hgo hop hl =>
      subst hop
      exact absurd (hinv.release hpc' hgo) hl
    | cpuUnheld hmove hop hl =>
      rw [hpc] at hmove
      cases hmove <;> cases hop
    | code hpc' hgo =>
      obtain rfl : p = _ := Pc.exec.inj (hpc.symm.trans hpc')
      exact absurd rfl (hgo.not_panic hsteady)
    | stale hpc' _ => exact nomatch hpc.symm.trans hpc'

/-- Nobody panics at the end of a call. -/
theorem Reach.steady {ok : State → Act → Prop} {s : State} (h : Run.Reach step ok boot s) :
    Steady s :=
  h.invariant_with (by simp [Steady, boot]) fun _ _ _ hs hi _ ht =>
    hi.of_step (Reach.inv hs) (Reach.tree hs) ht

/-- A CPU in the code of a process, with no lock to wait for, takes the row of that code. -/
theorem step_exec {s : State} {c : CpuId} {p : ProcId} (hpc : s.pc c = .exec p)
    (hlive : s.panicked c = none) (hw : (s.kpc p).want p = none) (e : Env) :
    step s ⟨c, .run e⟩ = ((s.kpc p).row s e p).map (s.apply c) := by
  simp [step, hlive, State.want, hpc, hw, State.row]

/-- A row that goes on in the code of its process, as a whole. -/
theorem Inv.apply_code {s : State} {c : CpuId} {p : ProcId} {k : Code} {op : Op} {post : State}
    (hinv : Inv s) (hpc : s.pc c = .exec p) (hgo : (s.kpc p).Goes s p ⟨op, post, .code p k⟩) :
    s.apply c ⟨op, post, .code p k⟩ =
      { post with lock := op.drop post.lock, kpc := update post.kpc p k } := by
  cases op with
  | keep => rfl
  | release l => simp [State.apply, hinv.release hpc hgo, State.enter]

/-- How far a childless scan is from its end. -/
def Code.stepsLeft : Code → ℕ
  | .waitScan _ _ i => procNum - i + 2
  | .waitErr _ => 1
  | _ => 0

/-- **A call without a child comes nearer to its -1** with every step of its CPU. -/
theorem Code.childless_row {s : State} {p : ProcId} {k : Code} {w : WaitCall}
    (hk : k.childless) (hcall : k.waitCall = some w) (hnone : ∀ x, s.parent x ≠ some p) (e : Env) :
    ∃ op post k', k.row s e p = some ⟨op, post, .code p k'⟩ ∧
      (k'.waitCall = some w ∧ k'.stepsLeft < k.stepsLeft ∨
        post.log = .returned (s.stamp p) w none (-1) :: s.log ∧ k' = .user) := by
  cases k with
  | waitScan w' noChild i =>
    obtain rfl : w' = w := Option.some.inj hcall
    obtain ⟨-, rfl⟩ : w'.first ∧ noChild := by simpa [Code.childless] using hk
    cases hi : slot i with
    | none =>
      refine ⟨_, _, _, by simp only [Code.row, hi]; rfl, .inl ⟨rfl, ?_⟩⟩
      simp [Code.stepsLeft]
    | some j =>
      refine ⟨_, _, _, by simp only [Code.row, hi, hnone]; rfl, .inl ⟨rfl, ?_⟩⟩
      have := slot_eq_some.mp hi
      have := j.isLt
      simp [Code.stepsLeft]
      omega
  | waitErr w' =>
    obtain rfl : w' = w := Option.some.inj hcall
    have hfirst : w'.first := by simpa [Code.childless] using hk
    exact ⟨_, _, _, by simp only [Code.row, hfirst]; rfl, .inr ⟨rfl, rfl⟩⟩
  | _ => simp [Code.childless] at hk

/-! ## Who leaves the table -/

/-- **A process leaves the table only into the hands of the `wait` call that frees it.** -/
theorem Code.Goes.buries {s : State} {p p' : ProcId} {k k' : Code} {r : Row} {x : ProcId}
    (h : k.Goes s p r) (hnext : r.next = .code p' k') (hx : s.InUse x) (hclaim : k.claims ≠ some x) :
    r.post.InUse x ∧ r.post.stamp x = s.stamp x ∧ r.post.creator x = s.creator x ∧
        r.post.pid x = s.pid x ∨
      ∃ w, k = .waitHeld w x ∧ s.status x = .zombie ∧ k' = .waitEnd w (s.stamp x) (s.pid x) ∧
        r.post.log = .reaped (s.stamp x) (s.stamp p) (s.pid x)
          (if w.status then some (s.xstatus x) else none) :: s.log := by
  obtain ⟨e, h⟩ | ⟨sc, h⟩ := h <;> revert h
  · fun_cases Code.row s e p k <;> intro h <;> cases h
    all_goals cases hnext
    all_goals try simp only [State.InUse, Code.claims] at *
    all_goals first
      | exact .inl ⟨hx, rfl, rfl, rfl⟩
      | exact .inl ⟨by grind [Status.alive], rfl, rfl, rfl⟩
      | grind [Status.alive, State.freeProcess]
  · fun_cases Code.call s p k sc <;> intro h <;> cases h
    all_goals cases hnext
    all_goals exact .inl ⟨hx, rfl, rfl, rfl⟩

namespace Effect

variable {s t : State} {c : CpuId} {x : ProcId}

/-- A step that is no row of a process writes no history. -/
theorem log_eq (h : Effect s c t) :
    t.log = s.log ∨ ∃ p k' op post, s.pc c = .exec p ∧
      (s.kpc p).Goes s p ⟨op, post, .code p k'⟩ ∧
      t = { post with lock := op.drop post.lock, kpc := update post.kpc p k' } := by
  cases h with
  | fail _ | takeCode _ _ _ | takeCpu _ _ _ => exact .inl rfl
  | code hpc hgo _ => exact .inr ⟨_, _, _, _, hpc, hgo, rfl⟩
  | switch _ hgo => exact .inl (hgo.keepsHist rfl).1
  | cpu _ hmove _ => cases hmove <;> exact .inl rfl

/-- A process in use stays in use, the same one, unless a `wait` call frees it as a zombie. -/
theorem buries (hinv : Inv s) (h : Effect s c t) (hx : s.InUse x) :
    t.InUse x ∧ t.stamp x = s.stamp x ∧ t.creator x = s.creator x ∧ t.pid x = s.pid x ∨
      ∃ p w, s.pc c = .exec p ∧ s.kpc p = .waitHeld w x ∧ s.status x = .zombie ∧
        t.kpc p = .waitEnd w (s.stamp x) (s.pid x) ∧
        t.log = .reaped (s.stamp x) (s.stamp p) (s.pid x)
          (if w.status then some (s.xstatus x) else none) :: s.log := by
  cases h with
  | fail _ | takeCode _ _ _ | takeCpu _ _ _ => exact .inl ⟨hx, rfl, rfl, rfl⟩
  | @code p k' op post hpc hgo _ =>
    have hclaim : (s.kpc p).claims ≠ some x := by
      intro hclaim
      have hused := hinv.claim p x hclaim
      simp [State.InUse, hused, Status.alive] at hx
    obtain hkeep | ⟨w, hk, hz, hk', hlog⟩ := hgo.buries rfl hx hclaim
    · exact .inl hkeep
    · exact .inr ⟨p, w, hpc, hk, hz, by simp [hk'], hlog⟩
  | @switch p _ _ post hpc hgo =>
    obtain ⟨-, hpid, -⟩ := hgo.away rfl
    obtain ⟨-, hstamp, hcreator, -⟩ := hgo.keepsHist rfl
    obtain ⟨-, -, -, hoff, hstatus⟩ := hgo.switch rfl
    dsimp only at *
    refine .inl ⟨?_, congrFun hstamp x, congrFun hcreator x, congrFun hpid x⟩
    show (post.status x).alive ∨ post.status x = .zombie
    by_cases hxp : x = p
    · subst hxp
      revert hoff
      cases post.status x <;> simp [Status.off, Status.alive]
    · rwa [hstatus x hxp]
  | cpu hpc hmove _ =>
    have hok := hinv.cpu c
    rw [hpc] at hok
    refine .inl ?_
    cases hmove
    all_goals first
      | exact ⟨hx, rfl, rfl, rfl⟩
      | exact ⟨by grind [State.InUse, Pc.Ok, State.Calm, Status.alive], rfl, rfl, rfl⟩

end Effect

/-- **Every process that was forked is in the table or has been reaped.** -/
def Born (s : State) : Prop :=
  ∀ n m pid, .forked n m pid ∈ s.log →
    (∃ x, x ≠ initProc ∧ s.InUse x ∧ s.stamp x = n ∧ s.creator x = m ∧ s.pid x = pid) ∨
      ∃ m' out, .reaped n m' pid out ∈ s.log

/-- What `wait` returns without a child, and to a caller without one. -/
def Returned (s : State) : Prop :=
  ∀ m w child r, .returned m w child r ∈ s.log →
    (w.lonely → child = none) ∧ (child = none → r = -1)

namespace Effect

variable {s t : State} {c : CpuId}

theorem grows (h : Effect s c t) : ∀ e ∈ s.log, e ∈ t.log := by
  obtain hlog | ⟨p, k', op, post, -, hgo, rfl⟩ := h.log_eq
  · simp [hlog]
  · exact (hgo.hist rfl).grows

theorem born (hinv : Inv s) (htree : Tree s) (hist : Hist s) (hborn : Born s) (h : Effect s c t) :
    Born t := by
  have hgrows := h.grows
  intro n m pid hfork
  by_cases hold : .forked n m pid ∈ s.log
  · obtain ⟨x, hinit, hx, rfl, rfl, rfl⟩ | ⟨m', out, hr⟩ := hborn n m pid hold
    · obtain ⟨hx', hstamp, hcreator, hpid⟩ | ⟨p, w, -, -, -, -, hlog⟩ := h.buries hinv hx
      · exact .inl ⟨x, hinit, hx', hstamp, hcreator, hpid⟩
      · exact .inr ⟨_, _, by rw [hlog]; exact List.mem_cons_self⟩
    · exact .inr ⟨m', out, hgrows _ hr⟩
  · obtain hlog | ⟨p, k', op, post, hpc, hgo, rfl⟩ := h.log_eq
    · exact absurd (hlog ▸ hfork) hold
    · -- only the last row of `fork` records one
      cases hgo.hist rfl with
      | forked q hclaim hattach hlog hpid hstamp hcreator hclock hk' hready =>
        have hq : q ≠ initProc := by
          rintro rfl
          have hused := hinv.claim p initProc hclaim
          have hinit := htree.init
          simp [hused, Status.alive] at hinit
        have hcr := hist.stamps.attached p q hclaim hattach
        dsimp only at *
        rw [hlog, List.mem_cons] at hfork
        obtain ⟨rfl, rfl, rfl⟩ := Event.forked.inj (hfork.resolve_right hold)
        refine .inl ⟨q, hq, .inl ?_, ?_, ?_, ?_⟩
        · simp [hready, Status.alive]
        · rw [hstamp]
        · rw [hcreator, hcr]
        · rw [hpid]
      | _ => simp_all

theorem returned (hlonely : Lonely s) (hret : Returned s) (h : Effect s c t) : Returned t := by
  intro m w child r hmem
  by_cases hold : .returned m w child r ∈ s.log
  · exact hret m w child r hold
  · obtain hlog | ⟨p, k', op, post, -, hgo, rfl⟩ := h.log_eq
    · exact absurd (hlog ▸ hmem) hold
    · cases hgo.hist rfl with
      | failed w' hk hk' hlog => simp_all
      | returned w' n' pid hk hk' hlog =>
        -- a call that returns a child has not been childless
        have := hlonely p w' (by simp [hk, Code.waitCall])
        simp_all [Code.childless]
      | _ => simp_all

end Effect

theorem Reach.born {ok : State → Act → Prop} {s : State} (h : Run.Reach step ok boot s) : Born s :=
  h.invariant_with (by simp [Born, boot]) fun _ _ _ hs hi _ ht =>
    (Effect.of_step ht).born (Reach.inv hs) (Reach.tree hs) (Reach.hist hs) hi

theorem Reach.returned {ok : State → Act → Prop} {s : State} (h : Run.Reach step ok boot s) :
    Returned s :=
  h.invariant_with (by simp [Returned, boot]) fun _ _ _ hs hi _ ht =>
    (Effect.of_step ht).returned (Reach.lonely hs) hi

/-! ## The life of a child -/

/-- **What holds of forks, exits and waits**: the table on one side, the history on the other. -/
structure Reaping (s : State) : Prop where
  /-- A process in use has a parent in use: its creator, or `init` once the creator has exited. -/
  parent : ∀ x, x ≠ initProc → s.InUse x → ∃ u, s.parent x = some u ∧ (s.status u).alive ∧
    (s.creator x = s.stamp u ∨ u = initProc ∧ ∃ v, .exited (s.creator x) v ∈ s.log)
  /-- Every process that was forked is in the table, the same one, or has been reaped. -/
  forked : ∀ n m pid, .forked n m pid ∈ s.log →
    (∃ x, x ≠ initProc ∧ s.InUse x ∧ s.stamp x = n ∧ s.creator x = m ∧ s.pid x = pid) ∨
      ∃ m' out, .reaped n m' pid out ∈ s.log
  stamp : ∀ x y, s.InUse x → s.InUse y → s.stamp x = s.stamp y → x = y
  /-- `free_process` gets a zombie from a `wait` call of its parent, which goes on to return it, or
  a slot that `fork` has never attached to anyone. -/
  freed : ∀ a q t, s.frees a = some q → step s a = some t →
    (∃ p w, s.pc a.cpu = .exec p ∧ s.kpc p = .waitHeld w q ∧ s.parent q = some p ∧
      s.status q = .zombie ∧ t.kpc p = .waitEnd w (s.stamp q) (s.pid q) ∧
      t.log = .reaped (s.stamp q) (s.stamp p) (s.pid q)
        (if w.status then some (s.xstatus q) else none) :: s.log) ∨
      s.status q = .used ∧ s.parent q = none
  /-- Nothing else takes a process out of the table. -/
  kept : ∀ a t x, step s a = some t → s.InUse x → s.frees a ≠ some x →
    t.InUse x ∧ t.stamp x = s.stamp x ∧ t.pid x = s.pid x
  /-- Nobody is reaped twice. -/
  reapedOnce : (s.log.filterMap Event.reapedChild).Nodup
  /-- Who is reaped was forked with that pid, and exited with that value and no other. -/
  reaped : ∀ n m pid out, .reaped n m pid out ∈ s.log →
    (∃ u, .forked n u pid ∈ s.log) ∧
      ∃ v, .exited n v ∈ s.log ∧ (∀ v', .exited n v' ∈ s.log → v' = v) ∧
        ∀ b, out = some b → b = v.setWidth 32
  /-- The call that reaps returns the pid: it has, or the next step of its CPU does. -/
  handed : ∀ n m pid out, .reaped n m pid out ∈ s.log →
    (∃ w, .returned m w (some n) pid ∈ s.log) ∨
      ∃ c p w, s.pc c = .exec p ∧ s.stamp p = m ∧ s.kpc p = .waitEnd w n pid ∧
        ∀ e, (step s ⟨c, .run e⟩).map State.log = some (.returned m w (some n) pid :: s.log)
  /-- A call returns the child it has reaped, whose status it has delivered if it was to. -/
  returned : ∀ m w n pid, .returned m w (some n) pid ∈ s.log →
    ∃ out, .reaped n m pid out ∈ s.log ∧ (w.status → out ≠ none)
  /-- No child is returned twice. -/
  returnedOnce : (s.log.filterMap Event.returnedChild).Nodup
  /-- Without a child, `wait` has returned -1 … -/
  lonely : ∀ m w child r, .returned m w child r ∈ s.log → w.lonely → child = none ∧ r = -1
  /-- … or is on its way there: no other CPU moves it, and every step of its own comes nearer. -/
  lonelyReturns : ∀ p w, (s.kpc p).waitCall = some w → w.lonely → ∃ c, s.pc c = .exec p ∧
    (∀ a t, step s a = some t → a.cpu ≠ c → t.pc c = .exec p ∧ t.kpc p = s.kpc p) ∧
    ∀ e, ∃ t, step s ⟨c, .run e⟩ = some t ∧
      ((t.kpc p).waitCall = some w ∧ (t.kpc p).stepsLeft < (s.kpc p).stepsLeft ∨
        t.log = .returned (s.stamp p) w none (-1) :: s.log ∧ t.kpc p = .user)

section

variable {ok : State → Act → Prop} {s : State}

/-- What `free_process` is called on. -/
theorem Reach.freed (h : Run.Reach step ok boot s) {a : Act} {q : ProcId} {t : State}
    (hq : s.frees a = some q) (ht : step s a = some t) :
    (∃ p w, s.pc a.cpu = .exec p ∧ s.kpc p = .waitHeld w q ∧ s.parent q = some p ∧
      s.status q = .zombie ∧ t.kpc p = .waitEnd w (s.stamp q) (s.pid q) ∧
      t.log = .reaped (s.stamp q) (s.stamp p) (s.pid q)
        (if w.status then some (s.xstatus q) else none) :: s.log) ∨
      s.status q = .used ∧ s.parent q = none := by
  have hinv := Reach.inv h
  have htree := Reach.tree h
  have hlive := panicked_of_step ht
  obtain ⟨c, ch⟩ := a
  unfold State.frees at hq
  split at hq
  · next p e hpc hch =>
    obtain rfl : ch = .run e := hch
    replace hpc : s.pc c = .exec p := hpc
    split at hq
    · next w i hk =>
      obtain ⟨⟨hz, hok⟩, rfl⟩ := Option.ite_none_right_eq_some.mp hq |>.imp_right Option.some.inj
      have hpid := (Reach.pids h).marked i (.inl (.inr hz))
      have hparent := htree.found p i (by simp [hk, Code.found])
      have hrow : (s.kpc p).row s e p = some ⟨.release (.proc i), { s.freeProcess i with
          log := .reaped (s.stamp i) (s.stamp p) (s.pid i)
            (if w.status then some (s.xstatus i) else none) :: s.log },
          .code p (.waitEnd w (s.stamp i) (s.pid i))⟩ := by
        simp [hk, Code.row, hz, hok, hpid]
      rw [step_exec hpc hlive (by simp [hk, Code.want]) e, hrow, Option.map_some,
        hinv.apply_code hpc (.inl ⟨e, hrow⟩)] at ht
      obtain rfl := Option.some.inj ht
      exact .inl ⟨p, w, hpc, hk, hparent, hz, by simp, rfl⟩
    · next i hk =>
      obtain rfl := Option.some.inj hq
      exact .inr ⟨hinv.claim p i (by simp [hk, Code.claims]),
        htree.fresh p i (by simp [hk, Code.claims]) (by simp [hk, Code.attached])⟩
    · cases hq
  · cases hq

/-- A process leaves the table only through `free_process`. -/
theorem Reach.kept (h : Run.Reach step ok boot s) {a : Act} {x : ProcId} {t : State}
    (ht : step s a = some t) (hx : s.InUse x) (hfree : s.frees a ≠ some x) :
    t.InUse x ∧ t.stamp x = s.stamp x ∧ t.pid x = s.pid x := by
  obtain ⟨hx', hstamp, -, hpid⟩ | ⟨p, w, hpc, hk, hz, hk', hlog⟩ :=
    (Effect.of_step ht).buries (Reach.inv h) hx
  · exact ⟨hx', hstamp, hpid⟩
  · have hlive := panicked_of_step ht
    obtain ⟨c, ch⟩ := a
    dsimp only at hpc hlive
    have hwant : (s.kpc p).want p = none := by simp [hk, Code.want]
    cases ch with
    | run e =>
      -- the other branch of `handle_exit_child` frees nobody
      by_cases hok : (w.status && !e.ok) = false
      · simp [State.frees, hpc, hk, hz, hok] at hfree
      · have hrow : (s.kpc p).row s e p = some ⟨.release (.proc x), s, .code p (.waitErr w)⟩ := by
          simp_all [Code.row]
        rw [step_exec hpc hlive hwant e, hrow, Option.map_some,
          (Reach.inv h).apply_code hpc (.inl ⟨e, hrow⟩)] at ht
        obtain rfl := Option.some.inj ht
        simp at hk'
    | _ => simp [step, hlive, State.row, hpc, hk, Code.call, Code.open] at ht

/-- A call that has freed a child returns it with the next step of its CPU. -/
theorem Reach.hands (h : Run.Reach step ok boot s) {p : ProcId} {w : WaitCall} {n : ℕ} {pid : ℤ}
    (hk : s.kpc p = .waitEnd w n pid) :
    ∃ c, s.pc c = .exec p ∧ ∀ e, (step s ⟨c, .run e⟩).map State.log =
      some (.returned (s.stamp p) w (some n) pid :: s.log) := by
  have hinv := Reach.inv h
  obtain ⟨c, hpc, -⟩ := hinv.exec_of_not_parked (p := p) (by simp [hk, Code.parked, Code.open])
  have hlive := Reach.steady h c p hpc (by simp [hk, Code.steady, Code.returns])
  refine ⟨c, hpc, fun e => ?_⟩
  have hrow : (s.kpc p).row s e p = some ⟨.release (.proc p),
      { s with log := .returned (s.stamp p) w (some n) pid :: s.log }, .code p .user⟩ := by
    simp [hk, Code.row]
  rw [step_exec hpc hlive (by simp [hk, Code.want]) e, hrow, Option.map_some,
    hinv.apply_code hpc (.inl ⟨e, hrow⟩)]
  rfl

/-- A call without a child is not held up. -/
theorem Reach.lonelyReturns (h : Run.Reach step ok boot s) {p : ProcId} {w : WaitCall}
    (hcall : (s.kpc p).waitCall = some w) (hlonely : w.lonely) : ∃ c, s.pc c = .exec p ∧
      (∀ a t, step s a = some t → a.cpu ≠ c → t.pc c = .exec p ∧ t.kpc p = s.kpc p) ∧
      ∀ e, ∃ t, step s ⟨c, .run e⟩ = some t ∧
        ((t.kpc p).waitCall = some w ∧ (t.kpc p).stepsLeft < (s.kpc p).stepsLeft ∨
          t.log = .returned (s.stamp p) w none (-1) :: s.log ∧ t.kpc p = .user) := by
  have hinv := Reach.inv h
  have htree := Reach.tree h
  obtain ⟨hfirst, hnone⟩ := Reach.lonely h p w hcall hlonely
  obtain ⟨hpark, -, hwant⟩ := Code.holds_of_childless (p := p) hfirst
  obtain ⟨c, hpc, -⟩ := hinv.exec_of_not_parked hpark
  have hlive := Reach.steady h c p hpc (.inl hfirst)
  refine ⟨c, hpc, fun a t ht hne => ?_, fun e => ?_⟩
  · have heff := Effect.of_step ht
    exact ⟨by rw [heff.pc_of_ne hne.symm, hpc], heff.kpc_of_ne hinv htree hne.symm hpc⟩
  · obtain ⟨op, post, k', hrow, hnext⟩ := Code.childless_row hfirst hcall hnone e
    rw [step_exec hpc hlive hwant e, hrow, Option.map_some, hinv.apply_code hpc (.inl ⟨e, hrow⟩)]
    exact ⟨_, rfl, by simpa using hnext⟩

end

/-- **Every child is reaped at most once, as a zombie, by its parent, whose `wait` returns it.**  In
every state of every run of `fork`, `exit` and `wait`, with slots and pids used again and parents
exiting at the same time as their children, the table and the history are as `Reaping` says. -/
theorem reaping {s : State} (h : Reachable s) : Reaping s := by
  have htree := Reach.tree h
  have hist := Reach.hist h
  constructor
  case parent =>
    intro x hne hx
    obtain ⟨u, hu⟩ := Option.ne_none_iff_exists'.mp (htree.child x hne hx)
    exact ⟨u, hu, (htree.parent x u hu).1, hist.stamps.creator x u hu⟩
  case forked => exact Reach.born h
  case stamp => exact fun x y hx hy => hist.stamps.stamp_inj x y (htree.named hx) (htree.named hy)
  case freed => exact fun a q t => Reach.freed h
  case kept => exact fun a t x => Reach.kept h
  case reapedOnce => exact hist.reaps.reaped_once
  case reaped =>
    intro n m pid out hr
    obtain ⟨hfork, v, hv, hb⟩ := hist.reaps.reaped n m pid out hr
    exact ⟨hfork, v, hv, fun v' hv' => hist.exits.exited_once n v' v hv' hv, hb⟩
  case handed =>
    intro n m pid out hr
    refine (hist.reaps.handed n m pid out hr).imp_right ?_
    rintro ⟨p, w, rfl, hp⟩
    have hk : s.kpc p = .waitEnd w n pid := by
      revert hp
      cases s.kpc p <;> simp +contextual [Code.returns]
    obtain ⟨c, hpc, hstep⟩ := Reach.hands h hk
    exact ⟨c, p, w, hpc, rfl, hk, hstep⟩
  case returned => exact hist.reaps.returned
  case returnedOnce => exact hist.reaps.returned_once
  case lonely =>
    intro m w child r hr hlonely
    obtain ⟨hnone, hminus⟩ := Reach.returned h m w child r hr
    exact ⟨hnone hlonely, hminus (hnone hlonely)⟩
  case lonelyReturns => exact fun p w => Reach.lonelyReturns h

/-- A child of a child exits, then the child; `init` reaps both, and then has no child. -/
def twoChildrenRun : List Act :=
  dispatch 0 0 ++ callFor 0 .fork 10 ++ dispatch 1 1 ++ callFor 1 .fork 12 ++ dispatch 2 2 ++
    callFor 2 (.exit 7) 76 ++ callFor 1 (.exit 3) 78 ++ callFor 0 (.wait true) 6 ++
    callFor 0 (.wait true) 7 ++ callFor 0 (.wait true) 67

/-- The theorem at the end of that run: both children have been returned, the second one with the
value it passed to `exit`, and the last call has got -1. -/
theorem reaping_twoChildrenRun :
    ∃ s, Reachable s ∧ Reaping s ∧ s.log.filterMap Event.returnedChild = [2, 1] ∧
      .reaped 2 0 2 (some 7) ∈ s.log ∧ s.log.head? = some (.returned 0 ⟨true, true, true⟩ none (-1)) := by
  have hrun : (Run.run step boot twoChildrenRun).map (fun s =>
      (s.log.filterMap Event.returnedChild, decide (.reaped 2 0 2 (some 7) ∈ s.log), s.log.head?)) =
      some ([2, 1], true, some (.returned 0 ⟨true, true, true⟩ none (-1))) := by decide +kernel
  obtain ⟨s, hs, hlook⟩ := Option.map_eq_some_iff.mp hrun
  simp only [Prod.mk.injEq, decide_eq_true_eq] at hlook
  have hreach : Reachable s := Run.reachable_of_run .refl hs
  exact ⟨s, hreach, reaping hreach, hlook⟩

end Process
