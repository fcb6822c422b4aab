import Myv6.Process.Wait

/-!
# Process/Reap — every child is reaped once, by its parent

    forked n m pid ▸ exited n x ▸ reaped n m' pid x ▸ returned m' (some n) pid

The history of a run names every process that `fork` attaches by a stamp of its own, so that a slot
or a pid that is used again is not the same process.  `Hist` ties the history to the table: who is
in the table has not been reaped, who is a zombie has exited with what `xstatus` holds, and what a
`wait` call is about to return is the child it has freed.
-/

namespace Process

open Function (update)

/-! ## The history -/

/-- The child of a `reaped` record. -/
def Event.reapedChild : Event → Option ℕ
  | .reaped n _ _ _ => some n
  | _ => none

/-- The child of a `returned` record, if it is about one. -/
def Event.returnedChild : Event → Option ℕ
  | .returned _ _ child _ => child
  | _ => none

/-- What `wait` is about to return, and for whom. -/
def Code.returns : Code → Option (WaitCall × ℕ × ℤ)
  | .waitEnd w n pid => some (w, n, pid)
  | _ => none

/-- **What a row of process `p` adds to the history**, and what it does to the stamps. -/
inductive HistMove (s t : State) (p : ProcId) (k k' : Code) : Prop
  | quiet (hlog : t.log = s.log) (hstamp : t.stamp = s.stamp) (hcreator : t.creator = s.creator)
      (hclock : s.clock ≤ t.clock) (hret : k'.returns = none) (hret' : k.returns = none)
      (hexit : k'.exiting = k.exiting) (hattach : k'.attached → k.attached ∧ k'.claims = k.claims)
      (hready : k.attached → k'.attached)
  | attach (q : ProcId) (hclaim : k.claims = some q) (hattach : k.attached = false)
      (hclaim' : k'.claims = some q) (hattach' : k'.attached) (hstatus : t.status = s.status)
      (hpid : t.pid = s.pid) (hxstatus : t.xstatus = s.xstatus)
      (hparent : ∀ x, t.parent x = if x = q then some p else s.parent x)
      (hlog : t.log = s.log) (hstamp : ∀ x, t.stamp x = if x = q then s.clock else s.stamp x)
      (hcreator : ∀ x, t.creator x = if x = q then s.stamp p else s.creator x)
      (hclock : t.clock = s.clock + 1)
  | forked (q : ProcId) (hclaim : k.claims = some q) (hattach : k.attached)
      (hlog : t.log = .forked (s.stamp q) (s.stamp p) (s.pid q) :: s.log) (hpid : t.pid = s.pid)
      (hstamp : t.stamp = s.stamp) (hcreator : t.creator = s.creator) (hclock : t.clock = s.clock)
      (hk' : k'.claims = none ∧ k'.attached = false ∧ k'.exiting = none ∧ k'.returns = none)
      (hready : t.status q = .runable)
  | exited (x : BitVec 64) (hk : k = .user) (hk' : k' = .exitInit x)
      (hlog : t.log = .exited (s.stamp p) x :: s.log)
      (hstamp : t.stamp = s.stamp) (hcreator : t.creator = s.creator) (hclock : t.clock = s.clock)
  | reaped (w : WaitCall) (i : ProcId) (hk : k = .waitHeld w i) (hz : s.status i = .zombie)
      (hk' : k' = .waitEnd w (s.stamp i) (s.pid i)) (hparent : t.parent i = none)
      (hlog : t.log = .reaped (s.stamp i) (s.stamp p) (s.pid i)
        (if w.status then some (s.xstatus i) else none) :: s.log)
      (hstamp : t.stamp = s.stamp) (hcreator : t.creator = s.creator) (hclock : t.clock = s.clock)
  | failed (w : WaitCall) (hk : k = .waitErr w) (hk' : k' = .user)
      (hlog : t.log = .returned (s.stamp p) w none (-1) :: s.log)
      (hstamp : t.stamp = s.stamp) (hcreator : t.creator = s.creator) (hclock : t.clock = s.clock)
  | returned (w : WaitCall) (n : ℕ) (pid : ℤ) (hk : k = .waitEnd w n pid) (hk' : k' = .user)
      (hlog : t.log = .returned (s.stamp p) w (some n) pid :: s.log)
      (hstamp : t.stamp = s.stamp) (hcreator : t.creator = s.creator) (hclock : t.clock = s.clock)

theorem Code.Goes.hist {s : State} {p p' : ProcId} {k k' : Code} {r : Row}
    (h : k.Goes s p r) (hnext : r.next = .code p' k') : HistMove s r.post p k k' := by
  obtain ⟨e, h⟩ | ⟨sc, h⟩ := h <;> revert h
  · fun_cases Code.row s e p k <;> intro h <;> cases h
    all_goals cases hnext
    all_goals first
      | exact .quiet rfl rfl rfl le_rfl rfl rfl rfl (by simp [Code.attached])
          (by simp [Code.attached])
      | exact .quiet rfl rfl rfl (Nat.le_succ _) rfl rfl rfl (by simp [Code.attached])
          (by simp [Code.attached])
      | exact .attach _ rfl rfl rfl rfl rfl rfl rfl (by simp [Function.update_apply]) rfl
          (by simp [Function.update_apply]) (by simp [Function.update_apply]) rfl
      | exact .forked _ rfl rfl rfl rfl rfl rfl rfl ⟨rfl, rfl, rfl, rfl⟩ (by simp)
      | exact .reaped _ _ rfl ‹_› rfl (by simp) rfl rfl rfl rfl
      | exact .failed _ rfl rfl rfl rfl rfl rfl
      | exact .returned _ _ _ rfl rfl rfl rfl rfl rfl
  · fun_cases Code.call s p k sc <;> intro h <;> cases h
    all_goals cases hnext
    all_goals first
      | exact .quiet rfl rfl rfl le_rfl rfl rfl rfl (by simp [Code.attached])
          (by simp [Code.attached])
      | exact .exited _ rfl rfl rfl rfl rfl rfl

/-- The process in slot `x` has a stamp: it is `init`, or `fork` has attached it. -/
def State.Named (s : State) (x : ProcId) : Prop := s.parent x ≠ none ∨ x = initProc

/-- A process in use has a stamp. -/
theorem Tree.named {s : State} {p : ProcId} (h : Tree s)
    (hp : (s.status p).alive ∨ s.status p = .zombie) : s.Named p := by
  by_cases hinit : p = initProc
  · exact .inr hinit
  · exact .inl (h.child p hinit hp)

/-! ## Who created whom -/

/-- **Stamps are never given twice, and parents are creators.** -/
structure Stamps (s : State) : Prop where
  stamp_lt : ∀ x, s.Named x → s.stamp x < s.clock
  stamp_inj : ∀ x y, s.Named x → s.Named y → s.stamp x = s.stamp y → x = y
  /-- The parent is the creator, or `init` after the creator's exit. -/
  creator : ∀ x u, s.parent x = some u →
    s.creator x = s.stamp u ∨ u = initProc ∧ ∃ v, .exited (s.creator x) v ∈ s.log
  attached : ∀ p q, (s.kpc p).claims = some q → (s.kpc p).attached → s.creator q = s.stamp p
  forked : ∀ x, x ≠ initProc → (s.status x).alive ∨ s.status x = .zombie →
    .forked (s.stamp x) (s.creator x) (s.pid x) ∈ s.log

/-- A step that gives no stamp: children are kept, dropped or handed over to `init`. -/
theorem Stamps.frame {s t : State} (h : Stamps s) (hlog : ∀ e ∈ s.log, e ∈ t.log)
    (hstamp : t.stamp = s.stamp) (hcreator : t.creator = s.creator) (hclock : s.clock ≤ t.clock)
    (hparent : ∀ x u, t.parent x = some u → s.parent x = some u ∨
      u = initProc ∧ s.parent x ≠ none ∧ ∃ v, .exited (s.creator x) v ∈ t.log)
    (hattached : ∀ p q, (t.kpc p).claims = some q → (t.kpc p).attached →
      (s.kpc p).claims = some q ∧ (s.kpc p).attached)
    (hforked : ∀ x, x ≠ initProc → (t.status x).alive ∨ t.status x = .zombie →
      ((s.status x).alive ∨ s.status x = .zombie) ∧ t.pid x = s.pid x ∨
        .forked (s.stamp x) (s.creator x) (t.pid x) ∈ t.log) : Stamps t := by
  have hnamed : ∀ x, t.Named x → s.Named x := by
    rintro x (hx | hx)
    · obtain ⟨u, hu⟩ := Option.ne_none_iff_exists'.mp hx
      obtain hu | ⟨-, hu, -⟩ := hparent x u hu
      · exact .inl (by simp [hu])
      · exact .inl hu
    · exact .inr hx
  constructor <;> simp only [hstamp, hcreator]
  case stamp_lt => exact fun x hx => (h.stamp_lt x (hnamed x hx)).trans_le hclock
  case stamp_inj => exact fun x y hx hy => h.stamp_inj x y (hnamed x hx) (hnamed y hy)
  case creator =>
    intro x u hx
    obtain hu | ⟨hu, -, hv⟩ := hparent x u hx
    · obtain hc | ⟨hu, v, hv⟩ := h.creator x u hu
      · exact .inl hc
      · exact .inr ⟨hu, v, hlog _ hv⟩
    · exact .inr ⟨hu, hv⟩
  case attached =>
    intro p q hq ha
    obtain ⟨hq', ha'⟩ := hattached p q hq ha
    exact h.attached p q hq' ha'
  case forked =>
    intro x hne hx
    obtain ⟨hx', hpid⟩ | hf := hforked x hne hx
    · exact hpid ▸ hlog _ (h.forked x hne hx')
    · exact hf

/-! ## Who exited with what -/

/-- **A process exits once**, and its status holds what it exited with. -/
structure Exits (s : State) : Prop where
  exiting : ∀ p v, (s.kpc p).exiting = some v → .exited (s.stamp p) v ∈ s.log
  zombie : ∀ p, s.status p = .zombie →
    ∃ v, .exited (s.stamp p) v ∈ s.log ∧ s.xstatus p = v.setWidth 32
  exited_lt : ∀ n v, .exited n v ∈ s.log → n < s.clock
  exited_live : ∀ p v, s.Named p → .exited (s.stamp p) v ∈ s.log →
    (s.kpc p).exiting = some v ∨ s.status p = .zombie
  exited_once : ∀ n v v', .exited n v ∈ s.log → .exited n v' ∈ s.log → v = v'

/-- A step that records no exit. -/
theorem Exits.frame {s t : State} (h : Exits s)
    (hlog : ∀ n v, .exited n v ∈ t.log ↔ .exited n v ∈ s.log) (hstamp : t.stamp = s.stamp)
    (hclock : s.clock ≤ t.clock) (hnamed : ∀ x, t.Named x → s.Named x)
    (hexiting : ∀ p v, (t.kpc p).exiting = some v → (s.kpc p).exiting = some v)
    (hexiting' : ∀ p v, t.Named p → (s.kpc p).exiting = some v →
      (t.kpc p).exiting = some v ∨ t.status p = .zombie)
    (hzombie : ∀ p, t.status p = .zombie → s.status p = .zombie ∧ t.xstatus p = s.xstatus p ∨
      ∃ v, (s.kpc p).exiting = some v ∧ t.xstatus p = v.setWidth 32)
    (hzombie' : ∀ p, t.Named p → s.status p = .zombie → t.status p = .zombie) : Exits t := by
  constructor <;> simp only [hstamp, hlog]
  case exiting => exact fun p v hv => h.exiting p v (hexiting p v hv)
  case zombie =>
    intro p hp
    obtain ⟨hz, hx⟩ | ⟨v, hv, hx⟩ := hzombie p hp
    · rw [hx]
      exact h.zombie p hz
    · exact ⟨v, h.exiting p v hv, hx⟩
  case exited_lt => exact fun n v hv => (h.exited_lt n v hv).trans_le hclock
  case exited_live =>
    intro p v hp hv
    obtain hv | hz := h.exited_live p v (hnamed p hp) hv
    · exact hexiting' p v hp hv
    · exact .inr (hzombie' p hp hz)
  case exited_once => exact h.exited_once

/-! ## Who has been reaped -/

/-- **A child is reaped once and returned once.** -/
structure Reaps (s : State) : Prop where
  reaped_lt : ∀ n m pid out, .reaped n m pid out ∈ s.log →
    n < s.clock ∧ ∀ x, s.Named x → s.stamp x ≠ n
  reaped_once : (s.log.filterMap Event.reapedChild).Nodup
  /-- A reaped child had been forked with that pid and had exited with that value. -/
  reaped : ∀ n m pid out, .reaped n m pid out ∈ s.log →
    (∃ c, .forked n c pid ∈ s.log) ∧ ∃ v, .exited n v ∈ s.log ∧
      ∀ b, out = some b → b = v.setWidth 32
  /-- A `wait` call that has freed a child is about to return it, and nobody else is. -/
  pending : ∀ p w n pid, (s.kpc p).returns = some (w, n, pid) →
    (∃ out, .reaped n (s.stamp p) pid out ∈ s.log ∧ (w.status → out ≠ none)) ∧
      n ∉ s.log.filterMap Event.returnedChild
  pending_one : ∀ p q w w' n pid pid', (s.kpc p).returns = some (w, n, pid) →
    (s.kpc q).returns = some (w', n, pid') → p = q
  /-- Every reaped child has been returned by the call that freed it, or is about to be. -/
  handed : ∀ n m pid out, .reaped n m pid out ∈ s.log →
    (∃ w, .returned m w (some n) pid ∈ s.log) ∨
      ∃ p w, s.stamp p = m ∧ (s.kpc p).returns = some (w, n, pid)
  returned_once : (s.log.filterMap Event.returnedChild).Nodup
  returned : ∀ m w n pid, .returned m w (some n) pid ∈ s.log →
    ∃ out, .reaped n m pid out ∈ s.log ∧ (w.status → out ≠ none)

/-- A step that neither reaps nor returns a child. -/
theorem Reaps.frame {s t : State} (h : Reaps s) (hlog : ∀ e ∈ s.log, e ∈ t.log)
    (hreaped : ∀ n m pid out, .reaped n m pid out ∈ t.log → .reaped n m pid out ∈ s.log)
    (hreturned : ∀ m w n pid, .returned m w (some n) pid ∈ t.log →
      .returned m w (some n) pid ∈ s.log)
    (hreapedOf : t.log.filterMap Event.reapedChild = s.log.filterMap Event.reapedChild)
    (hreturnedOf : t.log.filterMap Event.returnedChild = s.log.filterMap Event.returnedChild)
    (hclock : s.clock ≤ t.clock)
    (hnamed : ∀ x, t.Named x → s.Named x ∧ t.stamp x = s.stamp x ∨ s.clock ≤ t.stamp x)
    (hreturns : ∀ p, (t.kpc p).returns = (s.kpc p).returns)
    (hstamp : ∀ p, (s.kpc p).returns ≠ none → t.stamp p = s.stamp p) : Reaps t := by
  constructor <;> try simp only [hreapedOf, hreturnedOf, hreturns]
  case reaped_lt =>
    intro n m pid out hr
    obtain ⟨hlt, hfar⟩ := h.reaped_lt n m pid out (hreaped _ _ _ _ hr)
    refine ⟨hlt.trans_le hclock, fun x hx => ?_⟩
    obtain ⟨hx', heq⟩ | hle := hnamed x hx
    · exact heq ▸ hfar x hx'
    · exact (hlt.trans_le hle).ne'
  case reaped_once => exact h.reaped_once
  case reaped =>
    intro n m pid out hr
    obtain ⟨⟨c, hc⟩, v, hv, hb⟩ := h.reaped n m pid out (hreaped _ _ _ _ hr)
    exact ⟨⟨c, hlog _ hc⟩, v, hlog _ hv, hb⟩
  case pending =>
    intro p w n pid hp
    obtain ⟨⟨out, hr, hout⟩, hnot⟩ := h.pending p w n pid hp
    refine ⟨⟨out, ?_, hout⟩, hnot⟩
    rw [hstamp p (by simp [hp])]
    exact hlog _ hr
  case pending_one => exact h.pending_one
  case handed =>
    intro n m pid out hr
    obtain ⟨w, hw⟩ | ⟨p, w, hm, hp⟩ := h.handed n m pid out (hreaped _ _ _ _ hr)
    · exact .inl ⟨w, hlog _ hw⟩
    · exact .inr ⟨p, w, by rw [hstamp p (by simp [hp]), hm], hp⟩
  case returned_once => exact h.returned_once
  case returned =>
    intro m w n pid hr
    obtain ⟨out, hr', hout⟩ := h.returned m w n pid (hreturned _ _ _ _ hr)
    exact ⟨out, hlog _ hr', hout⟩

/-- **The history and the table.** -/
structure Hist (s : State) : Prop where
  stamps : Stamps s
  exits : Exits s
  reaps : Reaps s

/-! ## Rows -/

theorem mem_reapedChild {log : List Event} {n : ℕ} :
    n ∈ log.filterMap Event.reapedChild ↔ ∃ m pid out, .reaped n m pid out ∈ log := by
  simp only [List.mem_filterMap]
  constructor
  · rintro ⟨e, he, hn⟩
    cases e <;> simp [Event.reapedChild] at hn
    subst hn
    exact ⟨_, _, _, he⟩
  · rintro ⟨m, pid, out, he⟩
    exact ⟨_, he, rfl⟩

theorem mem_returnedChild {log : List Event} {n : ℕ} :
    n ∈ log.filterMap Event.returnedChild ↔ ∃ m w pid, .returned m w (some n) pid ∈ log := by
  simp only [List.mem_filterMap]
  constructor
  · rintro ⟨e, he, hn⟩
    cases e <;> simp [Event.returnedChild] at hn
    subst hn
    exact ⟨_, _, _, he⟩
  · rintro ⟨m, w, pid, he⟩
    exact ⟨_, he, rfl⟩

/-- What a row of process `p` that attaches nobody does to the table, as the history sees it. -/
structure Keeps (s t : State) : Prop where
  named : ∀ x, t.Named x → s.Named x
  parent : ∀ x u, t.parent x = some u → s.parent x = some u ∨
    u = initProc ∧ s.parent x ≠ none ∧ ∃ v, .exited (s.creator x) v ∈ s.log
  zombie : ∀ x, t.status x = .zombie → s.status x = .zombie ∧ t.xstatus x = s.xstatus x
  zombie' : ∀ x, t.Named x → s.status x = .zombie → t.status x = .zombie

theorem Code.Goes.keeps {s : State} {p : ProcId} {k' : Code} {op : Op} {post : State}
    (hinv : Inv s) (htree : Tree s) (hstamps : Stamps s) (hexits : Exits s)
    (hgo : (s.kpc p).Goes s p ⟨op, post, .code p k'⟩)
    (hno : (s.kpc p).claims ≠ none → k'.attached → (s.kpc p).attached) : Keeps s post := by
  have hmove : ∀ x, TreeMove s post p (s.kpc p) k' x := hgo.tree rfl
  have hwalk : Walk s post p (s.kpc p) k' := hgo.walk rfl
  constructor
  case named =>
    intro x hx
    have := htree.found p x
    cases hmove x <;> grind [State.Named]
  case parent =>
    intro x u hx
    have hfound := htree.found p x
    cases hmove x with
    | adopt hfound' hexit _ hp =>
      -- the parent so far is in `exit`, so its exit is on record, and it is the creator
      obtain rfl : initProc = u := Option.some.inj (hp.symm.trans hx)
      obtain ⟨v, hv⟩ := Option.ne_none_iff_exists'.mp hexit
      have hpx := hfound hfound'
      obtain hc | ⟨hinit, -⟩ := hstamps.creator x p hpx
      · exact .inr ⟨rfl, by simp [hpx], v, hc ▸ hexits.exiting p v hv⟩
      · exact absurd hinit (htree.exiting p hexit)
    | _ => grind
  case zombie =>
    intro x hx
    have := hwalk.kept x
    have := hinv.claim p x
    cases hmove x <;> grind
  case zombie' =>
    intro x hx hz
    have := htree.init
    have := hinv.claim p x
    cases hmove x <;> grind [State.Named, Status.alive]


namespace HistMove

variable {s t : State} {p : ProcId} {k k' : Code}

/-- Nothing is ever struck from the history. -/
theorem grows (h : HistMove s t p k k') : ∀ e ∈ s.log, e ∈ t.log := by
  intro e he
  cases h <;> simp_all

theorem clock_le (h : HistMove s t p k k') : s.clock ≤ t.clock := by
  cases h <;> omega

/-- A row that attaches nobody leaves the stamps alone. -/
theorem plain (h : HistMove s t p k k') (hno : k'.attached → k.attached) :
    t.stamp = s.stamp ∧ t.creator = s.creator ∧ (k'.attached → k'.claims = k.claims) := by
  cases h <;> grind [Code.attached]

/-- A row that starts or ends no return of a child records neither. -/
theorem unreaped (h : HistMove s t p k k') (hret : k'.returns = k.returns) :
    (∀ n m pid out, .reaped n m pid out ∈ t.log → .reaped n m pid out ∈ s.log) ∧
      (∀ m w n pid, .returned m w (some n) pid ∈ t.log → .returned m w (some n) pid ∈ s.log) ∧
      t.log.filterMap Event.reapedChild = s.log.filterMap Event.reapedChild ∧
      t.log.filterMap Event.returnedChild = s.log.filterMap Event.returnedChild := by
  cases h with
  | reaped w i hk hz hk' => simp [hk, hk', Code.returns] at hret
  | returned w n pid hk hk' => simp [hk, hk', Code.returns] at hret
  | _ => simp_all [List.filterMap_cons, Event.reapedChild, Event.returnedChild]

end HistMove

theorem Code.exiting_eq_none_of_claims {k : Code} {q : ProcId} (h : k.claims = some q) :
    k.exiting = none := by
  cases k <;> simp_all [Code.claims, Code.exiting]

theorem Code.returns_eq_none_of_claims {k : Code} {q : ProcId} (h : k.claims = some q) :
    k.returns = none := by
  cases k <;> simp_all [Code.claims, Code.returns]

section Rows

variable {s : State} {c : CpuId} {p : ProcId} {k' : Code} {op : Op} {post : State}

theorem Stamps.code (hinv : Inv s) (htree : Tree s) (h : Stamps s) (hexits : Exits s)
    (hpc : s.pc c = .exec p) (hgo : (s.kpc p).Goes s p ⟨op, post, .code p k'⟩) :
    Stamps { post with lock := op.drop post.lock, kpc := update post.kpc p k' } := by
  have hothers := fun x hx => htree.others hinv hgo (x := x) hx
  have hmove : ∀ x, TreeMove s post p (s.kpc p) k' x := hgo.tree rfl
  have hwalk : Walk s post p (s.kpc p) k' := hgo.walk rfl
  have hhist : HistMove s post p (s.kpc p) k' := hgo.hist rfl
  have hrun : s.status p = .running := by
    have := hinv.cpu c
    simp_all [Pc.Ok]
  by_cases hno : k'.attached → (s.kpc p).attached
  · obtain ⟨hstamp, hcreator, hattach⟩ := hhist.plain hno
    have hkeep := hgo.keeps hinv htree h hexits fun _ => hno
    refine h.frame hhist.grows hstamp hcreator hhist.clock_le ?_ ?_ ?_
    · intro x u hx
      obtain hu | ⟨hu, hne, v, hv⟩ := hkeep.parent x u hx
      · exact .inl hu
      · exact .inr ⟨hu, hne, v, hhist.grows _ hv⟩
    · intro x q hq ha
      by_cases hx : x = p
      · subst hx
        simp only [Function.update_self] at hq ha
        exact ⟨by rw [← hattach ha, hq], hno ha⟩
      · rcases hothers x hx with hk | ⟨hk, -⟩ <;> simp_all [Code.claims]
    · intro x hne hx
      have hkept := hwalk.kept x
      have hclaim := hinv.claim p x
      have hcreator := h.attached p x
      cases hmove x with
      | ready hclaims hattached _ _ hnone =>
        cases hhist with
        | forked q hq _ hlog hpid =>
          obtain rfl : x = q := Option.some.inj (hclaims.symm.trans hq)
          exact .inr (by simp [hlog, hpid, hcreator hclaims hattached])
        | _ => grind [Code.claims]
      | _ => grind [Status.alive]
  · obtain ⟨ha', ha⟩ := Classical.not_imp.mp hno
    cases hhist with
    | attach q hclaim hattach hclaim' hattach' hstatus hpid hxstatus hparent hlog hstamp hcreator
        hclock =>
      have hused := hinv.claim p q hclaim
      have hnone := htree.fresh p q hclaim hattach
      have hidle := hinv.idle q (.inr hused)
      have hqp : q ≠ p := by
        rintro rfl
        simp [hrun] at hused
      constructor <;> simp only [hlog]
      case stamp_lt =>
        intro x hx
        have := h.stamp_lt x
        grind [State.Named]
      case stamp_inj =>
        intro x y hx hy
        have := h.stamp_inj x y
        have := h.stamp_lt x
        have := h.stamp_lt y
        grind [State.Named]
      case creator =>
        intro x u hx
        have := h.creator x u
        have := htree.parent x u
        grind [Status.alive]
      case attached =>
        intro x y hy ha
        have := h.attached x y
        have := hinv.alone x p q
        have := hothers x
        grind [Code.claims]
      case forked =>
        intro x hne hx
        have := h.forked x hne
        simp only [hstatus, hpid] at hx ⊢
        grind [Status.alive]
    | _ => grind [Code.attached]

theorem Exits.code (hinv : Inv s) (htree : Tree s) (hstamps : Stamps s) (h : Exits s)
    (hpc : s.pc c = .exec p) (hgo : (s.kpc p).Goes s p ⟨op, post, .code p k'⟩) :
    Exits { post with lock := op.drop post.lock, kpc := update post.kpc p k' } := by
  have hothers := fun x hx => htree.others hinv hgo (x := x) hx
  have hhist : HistMove s post p (s.kpc p) k' := hgo.hist rfl
  have hrun : s.status p = .running := by
    have := hinv.cpu c
    simp_all [Pc.Ok]
  by_cases hno : k'.attached → (s.kpc p).attached
  · obtain ⟨hstamp, -, -⟩ := hhist.plain hno
    have hkeep := hgo.keeps hinv htree hstamps h fun _ => hno
    by_cases hexit : k'.exiting = (s.kpc p).exiting
    · refine h.frame ?_ hstamp hhist.clock_le hkeep.named ?_ ?_ (fun x hx => .inl (hkeep.zombie x hx))
        hkeep.zombie'
      · cases hhist <;> simp_all [Code.exiting]
      · intro x v hx
        have := hothers x
        grind [Code.exiting]
      · intro x v _ hx
        have := hothers x
        grind [Code.exiting]
    · cases hhist with
      | exited v hk hk' hlog hstamp hcreator hclock =>
        have hnamed : s.Named p := htree.named (.inl (by simp [hrun, Status.alive]))
        have hnew : ∀ w, .exited (s.stamp p) w ∉ s.log := by
          intro w hw
          have := h.exited_live p w hnamed hw
          simp [hk, Code.exiting, hrun] at this
        have hlt := hstamps.stamp_lt p hnamed
        have hinj := fun x => hstamps.stamp_inj x p
        have hmem : ∀ n w, .exited n w ∈ post.log ↔ n = s.stamp p ∧ w = v ∨ .exited n w ∈ s.log := by
          simp [hlog]
        constructor <;> simp only [hstamp, hmem]
        case exiting =>
          intro x w hx
          have := h.exiting x w
          have := hothers x
          grind [Code.exiting]
        case zombie =>
          intro x hx
          obtain ⟨hz, hst⟩ := hkeep.zombie x hx
          obtain ⟨w, hw, hx'⟩ := h.zombie x hz
          exact ⟨w, .inr hw, hst ▸ hx'⟩
        case exited_lt =>
          intro n w hw
          have := h.exited_lt n w
          grind
        case exited_live =>
          intro x w hx hw
          have := h.exited_live x w (hkeep.named x hx)
          have := hkeep.zombie' x hx
          have := hothers x
          have := hinj x (hkeep.named x hx) hnamed
          grind [Code.exiting]
        case exited_once =>
          intro n w w' hw hw'
          have := h.exited_once n w w'
          grind
      | forked q hclaim =>
        have := @Code.exiting_eq_none_of_claims (s.kpc p) q
        grind
      | attach q hclaim => grind
      | _ => grind [Code.exiting]
  · obtain ⟨ha', ha⟩ := Classical.not_imp.mp hno
    cases hhist with
    | attach q hclaim hattach hclaim' hattach' hstatus hpid hxstatus hparent hlog hstamp hcreator
        hclock =>
      have hused := hinv.claim p q hclaim
      have hidle := hinv.idle q (.inr hused)
      have hk := @Code.exiting_eq_none_of_claims (s.kpc p) q hclaim
      have hk' := @Code.exiting_eq_none_of_claims k' q hclaim'
      constructor <;> simp only [hlog]
      case exiting =>
        intro x w hx
        have := h.exiting x w
        have := hothers x
        grind [Code.exiting]
      case zombie =>
        intro x hx
        have := h.zombie x
        simp only [hstatus, hxstatus] at hx ⊢
        grind
      case exited_lt =>
        intro n w hw
        have := h.exited_lt n w
        grind
      case exited_live =>
        intro x w hx hw
        have := h.exited_live x w
        have := h.exited_lt s.clock w
        have := hothers x
        simp only [hstatus]
        grind [State.Named, Code.exiting]
      case exited_once => exact h.exited_once
    | _ => grind [Code.attached]

/-- A `wait` call frees a child that nobody has reaped before. -/
theorem Reaps.reap {t : State} {w : WaitCall} {i : ProcId} {out : Option (BitVec 32)} (h : Reaps s)
    (hothers : ∀ x, x ≠ p → t.kpc x = s.kpc x ∨ t.kpc x = .user ∧ (s.kpc x = .user ∨ s.kpc x = .dead))
    (hnamed : ∀ x, t.Named x → s.Named x) (hk : s.kpc p = .waitHeld w i)
    (hk' : t.kpc p = .waitEnd w (s.stamp i) (s.pid i))
    (hlog : t.log = .reaped (s.stamp i) (s.stamp p) (s.pid i) out :: s.log)
    (hstamp : t.stamp = s.stamp) (hclock : t.clock = s.clock) (hlt : s.stamp i < s.clock)
    (hnew : ∀ m pid out, .reaped (s.stamp i) m pid out ∉ s.log)
    (hgone : ∀ x, t.Named x → s.stamp x ≠ s.stamp i)
    (hfork : ∃ c, .forked (s.stamp i) c (s.pid i) ∈ s.log)
    (hexit : ∃ v, .exited (s.stamp i) v ∈ s.log ∧ ∀ b, out = some b → b = v.setWidth 32)
    (hout : w.status → out ≠ none) : Reaps t := by
  have hreturns : ∀ x, x ≠ p → (t.kpc x).returns = (s.kpc x).returns := by
    intro x hx
    have := hothers x hx
    grind [Code.returns]
  have hself : (t.kpc p).returns = some (w, s.stamp i, s.pid i) := by rw [hk']; rfl
  have hself' : (s.kpc p).returns = none := by rw [hk]; rfl
  have hnew' : ∀ m w' pid, .returned m w' (some (s.stamp i)) pid ∉ s.log := by
    intro m w' pid hr
    obtain ⟨out, hr, -⟩ := h.returned _ _ _ _ hr
    exact hnew _ _ _ hr
  have hmem : ∀ n m pid o, .reaped n m pid o ∈ t.log ↔
      (n = s.stamp i ∧ m = s.stamp p ∧ pid = s.pid i ∧ o = out) ∨ .reaped n m pid o ∈ s.log := by
    simp [hlog]
  have hmem' : ∀ m w n pid, .returned m w n pid ∈ t.log ↔ .returned m w n pid ∈ s.log := by
    simp [hlog]
  have hgrow : ∀ e ∈ s.log, e ∈ t.log := by simp +contextual [hlog]
  constructor
  case reaped_lt =>
    intro n m pid o hr
    have := h.reaped_lt n m pid o
    simp only [hclock, hstamp]
    grind
  case reaped_once =>
    rw [hlog]
    refine List.nodup_cons.mpr ⟨?_, h.reaped_once⟩
    rw [mem_reapedChild]
    grind
  case reaped =>
    intro n m pid o hr
    have := h.reaped n m pid o
    grind
  case pending =>
    intro x w' n pid hx
    have := h.pending x w' n pid
    have := hreturns x
    simp only [mem_returnedChild, hmem', hstamp] at *
    grind
  case pending_one =>
    intro x y w₁ w₂ n pid₁ pid₂ hx hy
    have := h.pending_one x y w₁ w₂ n pid₁ pid₂
    have := h.pending x w₁ n pid₁
    have := h.pending y w₂ n pid₂
    have := hreturns x
    have := hreturns y
    grind
  case handed =>
    intro n m pid o hr
    have := h.handed n m pid o
    simp only [hmem', hstamp]
    grind
  case returned_once =>
    rw [hlog]
    exact h.returned_once
  case returned =>
    intro m w' n pid hr
    have := h.returned m w' n pid
    grind

/-- The call returns the child it has freed. -/
theorem Reaps.ret {t : State} {w : WaitCall} {n : ℕ} {pid : ℤ} (h : Reaps s)
    (hothers : ∀ x, x ≠ p → t.kpc x = s.kpc x ∨ t.kpc x = .user ∧ (s.kpc x = .user ∨ s.kpc x = .dead))
    (hnamed : ∀ x, t.Named x → s.Named x) (hk : s.kpc p = .waitEnd w n pid)
    (hk' : t.kpc p = .user)
    (hlog : t.log = .returned (s.stamp p) w (some n) pid :: s.log)
    (hstamp : t.stamp = s.stamp) (hclock : t.clock = s.clock) : Reaps t := by
  have hreturns : ∀ x, x ≠ p → (t.kpc x).returns = (s.kpc x).returns := by
    intro x hx
    have := hothers x hx
    grind [Code.returns]
  have hself : (t.kpc p).returns = none := by rw [hk']; rfl
  have hself' : (s.kpc p).returns = some (w, n, pid) := by rw [hk]; rfl
  obtain ⟨⟨out, hreap, hout⟩, hnot⟩ := h.pending p w n pid hself'
  have hmem : ∀ n m pid o, .reaped n m pid o ∈ t.log ↔ .reaped n m pid o ∈ s.log := by
    simp [hlog]
  have hgrow : ∀ e ∈ s.log, e ∈ t.log := by simp +contextual [hlog]
  constructor
  case reaped_lt =>
    intro n' m pid' o hr
    have := h.reaped_lt n' m pid' o
    simp only [hclock, hstamp]
    grind
  case reaped_once =>
    rw [hlog]
    exact h.reaped_once
  case reaped =>
    intro n' m pid' o hr
    have := h.reaped n' m pid' o
    grind
  case pending =>
    intro x w' n' pid' hx
    have := h.pending x w' n' pid'
    have := h.pending_one p x w w' n pid pid'
    have := hreturns x
    simp only [hlog, List.filterMap_cons, Event.returnedChild, List.mem_cons, hstamp] at *
    grind
  case pending_one =>
    intro x y w₁ w₂ n' pid₁ pid₂ hx hy
    have := h.pending_one x y w₁ w₂ n' pid₁ pid₂
    have := hreturns x
    have := hreturns y
    grind
  case handed =>
    intro n' m pid' o hr
    have := h.handed n' m pid' o
    simp only [hlog, hstamp]
    grind
  case returned_once =>
    rw [hlog]
    exact List.nodup_cons.mpr ⟨hnot, h.returned_once⟩
  case returned =>
    intro m w' n' pid' hr
    have := h.returned m w' n' pid'
    grind

theorem Reaps.code (hinv : Inv s) (htree : Tree s) (h : Hist s)
    (hpc : s.pc c = .exec p) (hgo : (s.kpc p).Goes s p ⟨op, post, .code p k'⟩) :
    Reaps { post with lock := op.drop post.lock, kpc := update post.kpc p k' } := by
  have hothers := fun x hx => htree.others hinv hgo (x := x) hx
  have hhist : HistMove s post p (s.kpc p) k' := hgo.hist rfl
  have hrun : s.status p = .running := by
    have := hinv.cpu c
    simp_all [Pc.Ok]
  have hreturns : k'.returns = (s.kpc p).returns →
      ∀ x, (update post.kpc p k' x).returns = (s.kpc x).returns := by
    intro hk x
    have := hothers x
    grind [Code.returns]
  by_cases hno : k'.attached → (s.kpc p).attached
  · obtain ⟨hstamp, -, -⟩ := hhist.plain hno
    have hkeep := hgo.keeps hinv htree h.stamps h.exits fun _ => hno
    by_cases hret : k'.returns = (s.kpc p).returns
    · obtain ⟨hreaped, hreturned, hof, hof'⟩ := hhist.unreaped hret
      exact h.reaps.frame hhist.grows hreaped hreturned hof hof' hhist.clock_le
        (fun x hx => .inl ⟨hkeep.named x hx, by simp only [hstamp]⟩) (hreturns hret)
        (fun x _ => by simp only [hstamp])
    · cases hhist with
      | reaped w i hk hz hk' hparent hlog hstamp hcreator hclock =>
        have hnamed : s.Named i := htree.named (.inr hz)
        have hinit : i ≠ initProc := by
          rintro rfl
          have := htree.init
          simp [hz, Status.alive] at this
        have hlt := h.stamps.stamp_lt i hnamed
        have hinj := fun x => h.stamps.stamp_inj x i
        have hnew : ∀ m pid out, .reaped (s.stamp i) m pid out ∉ s.log :=
          fun m pid out hr => (h.reaps.reaped_lt _ _ _ _ hr).2 i hnamed rfl
        obtain ⟨v, hv, hval⟩ := h.exits.zombie i hz
        have hfork := h.stamps.forked i hinit (.inr hz)
        have hgone : ∀ x, post.Named x → s.stamp x ≠ s.stamp i := by
          intro x hx heq
          obtain rfl := hinj x (hkeep.named x hx) hnamed heq
          exact hx.elim (· hparent) hinit
        refine Reaps.reap (t := { post with lock := op.drop post.lock, kpc := update post.kpc p k' })
          h.reaps hothers hkeep.named hk (by simpa using hk') hlog hstamp hclock hlt hnew hgone
          ⟨_, hfork⟩ ⟨v, hv, ?_⟩ ?_
        · rintro b hb
          grind
        · simp +contextual
      | returned w n pid hk hk' hlog hstamp hcreator hclock =>
        exact Reaps.ret (t := { post with lock := op.drop post.lock, kpc := update post.kpc p k' })
          h.reaps hothers hkeep.named hk (by simpa using hk') hlog hstamp hclock
      | forked q hclaim _ _ _ _ _ _ hk' =>
        exact absurd (hk'.2.2.2.trans (Code.returns_eq_none_of_claims hclaim).symm) hret
      | attach q hclaim hattach _ hattach' => grind
      | quiet _ _ _ _ hret' hret'' => exact absurd (hret'.trans hret''.symm) hret
      | exited _ hk hk' | failed _ hk hk' => exact absurd (by rw [hk, hk']; rfl) hret
  · obtain ⟨ha', ha⟩ := Classical.not_imp.mp hno
    cases hhist with
    | attach q hclaim hattach hclaim' hattach' hstatus hpid hxstatus hparent hlog hstamp hcreator
        hclock =>
      have hidle := hinv.idle q (.inr (hinv.claim p q hclaim))
      have hk := @Code.returns_eq_none_of_claims (s.kpc p) q hclaim
      have hk' := @Code.returns_eq_none_of_claims k' q hclaim'
      refine h.reaps.frame ?_ ?_ ?_ ?_ ?_ (by simp only [hclock]; omega) ?_
        (hreturns (hk'.trans hk.symm)) ?_
      all_goals simp only [hlog]
      · exact fun _ he => he
      · exact fun _ _ _ _ hr => hr
      · exact fun _ _ _ _ hr => hr
      · grind [State.Named]
      · grind [Code.returns]
    | _ => grind [Code.attached]

end Rows

/-- What a row that switches away does to the history: nothing, but a zombie keeps what it exited
with. -/
theorem Code.Goes.keepsHist {s : State} {p p' : ProcId} {k k' : Code} {r : Row} {r' : Resume}
    (h : k.Goes s p r) (hnext : r.next = .switch p' k' r') :
    r.post.log = s.log ∧ r.post.stamp = s.stamp ∧ r.post.creator = s.creator ∧
      r.post.clock = s.clock ∧ k.returns = none ∧ k'.returns = none ∧
      (∀ x, x ≠ p → r.post.xstatus x = s.xstatus x) ∧
      (r.post.status p = .sleep ∧ k.exiting = none ∧ r.post.xstatus p = s.xstatus p ∨
        ∃ v, k.exiting = some v ∧ r.post.status p = .zombie ∧
          r.post.xstatus p = v.setWidth 32) := by
  obtain ⟨e, h⟩ | ⟨sc, h⟩ := h <;> revert h
  · fun_cases Code.row s e p k <;> intro h <;> cases h
    all_goals cases hnext
    all_goals simp +contextual [Code.returns, Code.exiting]
  · fun_cases Code.call s p k sc <;> intro h <;> cases h
    all_goals cases hnext

theorem Code.got_returns {s : State} {p : ProcId} {k : Code} {l : Lock} (hw : k.want p = some l) :
    (k.got s p).returns = k.returns := by
  revert hw
  fun_cases Code.want p k <;> intro hw <;> cases hw <;> simp [Code.got, Code.returns]

namespace Hist

variable {s t : State} {c : CpuId} {p : ProcId} {l : Lock}

/-- A step that writes no history, frees nobody and makes nobody a zombie. -/
theorem still (h : Hist s) (hlog : t.log = s.log) (hstamp : t.stamp = s.stamp)
    (hcreator : t.creator = s.creator) (hclock : t.clock = s.clock) (hparent : t.parent = s.parent)
    (hpid : t.pid = s.pid) (hxstatus : t.xstatus = s.xstatus)
    (hstatus : ∀ x, t.status x = s.status x ∨ (s.status x).alive ∧ (t.status x).alive)
    (hkpc : ∀ p, (t.kpc p).claims = (s.kpc p).claims ∧ (t.kpc p).attached = (s.kpc p).attached ∧
      (t.kpc p).exiting = (s.kpc p).exiting ∧ (t.kpc p).returns = (s.kpc p).returns) : Hist t := by
  have hnamed : ∀ x, t.Named x → s.Named x := by simp [State.Named, hparent]
  have hzombie : ∀ x, t.status x = .zombie ↔ s.status x = .zombie := by
    intro x
    have := hstatus x
    grind [Status.alive]
  refine ⟨h.stamps.frame ?_ hstamp hcreator hclock.ge ?_ ?_ ?_,
    h.exits.frame ?_ hstamp hclock.ge hnamed ?_ ?_ ?_ ?_,
    h.reaps.frame ?_ ?_ ?_ ?_ ?_ hclock.ge ?_ ?_ ?_⟩
  all_goals try simp only [hlog, hparent, hpid, hxstatus, hstamp, hkpc, hzombie]
  all_goals grind

theorem takeCode (h : Hist s) (hw : (s.kpc p).want p = some l) :
    Hist { s with
      lock := update s.lock l (some c)
      kpc := update s.kpc p ((s.kpc p).got s p) } := by
  obtain ⟨hattach, -, -, -, -, hexit, -⟩ := Code.got_tree (s := s) hw
  obtain ⟨hclaims, -⟩ := Code.got_claims (s := s) hw
  have hreturns := Code.got_returns (s := s) hw
  refine h.still rfl rfl rfl rfl rfl rfl rfl (fun x => .inl rfl) fun x => ?_
  by_cases hx : x = p <;> simp [hx, hattach, hexit, hclaims, hreturns]

theorem switch {k' : Code} {r : Resume} {post : State} (hinv : Inv s) (h : Hist s)
    (hpc : s.pc c = .exec p) (hgo : (s.kpc p).Goes s p ⟨.keep, post, .switch p k' r⟩) :
    Hist { post with kpc := update post.kpc p k', pc := update post.pc c (.swtch p r) } := by
  obtain ⟨hparent, hpid, -, -, -, hexit, hattach, -, -⟩ := hgo.away rfl
  obtain ⟨hclaims, -, hkpc, -, hstatus⟩ := hgo.switch rfl
  obtain ⟨hlog, hstamp, hcreator, hclock, hret, hret', hxstatus, hzombie⟩ := hgo.keepsHist rfl
  have hrun : s.status p = .running := by
    have := hinv.cpu c
    simp_all [Pc.Ok]
  dsimp only at *
  refine ⟨h.stamps.frame ?_ hstamp hcreator hclock.ge ?_ ?_ ?_,
    h.exits.frame ?_ hstamp hclock.ge ?_ ?_ ?_ ?_ ?_,
    h.reaps.frame ?_ ?_ ?_ ?_ ?_ hclock.ge ?_ ?_ ?_⟩
  all_goals try simp only [State.Named, hlog, hparent, hpid, hstamp, hkpc]
  all_goals grind [Status.alive]

theorem code {k' : Code} {op : Op} {post : State} (hinv : Inv s) (htree : Tree s) (h : Hist s)
    (hpc : s.pc c = .exec p) (hgo : (s.kpc p).Goes s p ⟨op, post, .code p k'⟩) :
    Hist { post with lock := op.drop post.lock, kpc := update post.kpc p k' } :=
  ⟨h.stamps.code hinv htree h.exits hpc hgo, h.exits.code hinv htree h.stamps hpc hgo,
    .code hinv htree h hpc hgo⟩

/-- **Every step keeps it.** -/
theorem of_effect (hinv : Inv s) (htree : Tree s) (h : Hist s) (heff : Effect s c t) : Hist t := by
  cases heff with
  | fail _ | takeCpu _ _ _ =>
    exact h.still rfl rfl rfl rfl rfl rfl rfl (fun _ => .inl rfl) fun _ => ⟨rfl, rfl, rfl, rfl⟩
  | takeCode _ hw _ => exact h.takeCode hw
  | code hpc hgo _ => exact h.code hinv htree hpc hgo
  | switch hpc hgo => exact h.switch hinv hpc hgo
  | cpu hpc hmove _ =>
    have hok := hinv.cpu c
    rw [hpc] at hok
    refine h.still ?_ ?_ ?_ ?_ ?_ ?_ ?_ (fun x => ?_) fun x => ?_
    all_goals cases hmove
    all_goals first
      | rfl
      | exact .inl rfl
      | exact ⟨rfl, rfl, rfl, rfl⟩
      | grind [Pc.Ok, State.Calm, Status.alive]

theorem boot : Hist boot := by
  refine ⟨?_, ?_, ?_⟩ <;> constructor
  all_goals simp [Process.boot, State.Named, Code.claims, Code.exiting, Code.returns, Status.alive]
  all_goals grind

end Hist

/-- **The history is kept by every run.** -/
theorem Reach.hist {ok : State → Act → Prop} {s : State} (h : Run.Reach step ok boot s) : Hist s :=
  h.invariant_with .boot fun _ _ _ hs hi _ ht =>
    hi.of_effect (Reach.inv hs) (Reach.tree hs) (.of_step ht)

end Process
