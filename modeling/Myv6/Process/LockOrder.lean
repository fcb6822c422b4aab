import Mathlib.Tactic.Common
import Myv6.Lib.WaitFor
import Myv6.Process.Count
import Myv6.Process.Reaping

/-!
# Process/LockOrder — the order of the locks

    group ─▸ init, whoever count_proc_num has locked ─▸ the living, oldest first ─▸ the dying,
    last to die first

A parent is older than its child, and the parent that `exit` has read dies after the child that read
it, if at all.  That orders all locks but for `count_proc_num`, which has to know that nobody who
holds the lock of a parent is waiting for a child it has locked.  One place breaks this: an `exit`
whose parent has changed since it was read takes the lock of the old parent and then its own.
-/

namespace Process

open Function (update)

/-! ## Births and deaths in order -/

/-- `exit` is past the point where it reads its parent. -/
def Code.dying (k : Code) : Bool := k.par.isSome || k.inElse || k.announced

/-- The order of births and deaths. -/
structure Ages (s : State) : Prop where
  stamp_lt : ∀ x, s.stamp x < s.clock
  /-- A process is younger than its creator. -/
  creator_lt : ∀ x, s.parent x ≠ none → s.creator x < s.stamp x
  died_lt : ∀ x, (s.kpc x).dying → s.diedAt x < s.clock
  /-- The parent that `exit` has read has not died before the child. -/
  par : ∀ p u, (s.kpc p).par = some u → (s.kpc u).dying = false ∨ s.diedAt p < s.diedAt u

theorem Code.got_dying {s : State} {p : ProcId} {k : Code} {l : Lock} (hw : k.want p = some l) :
    (k.got s p).dying = k.dying := by
  revert hw
  fun_cases Code.want p k <;> intro hw <;> cases hw <;>
    simp [Code.got, Code.dying, Code.par, Code.inElse, Code.announced]

/-- Who is past that point has handed over its children. -/
theorem Code.swept_of_dying {k : Code} (h : k.dying) : k.swept = procNum := by
  cases k <;> simp_all [Code.dying, Code.par, Code.inElse, Code.announced, Code.swept]

/-- **What a row of process `p` does to its death.** -/
structure Dies (s t : State) (p : ProcId) (k k' : Code) : Prop where
  others : ∀ x, x ≠ p → t.diedAt x = s.diedAt x
  dying : k'.dying → k.dying ∧ t.diedAt p = s.diedAt p ∨
    k.dying = false ∧ t.diedAt p = s.clock ∧ s.clock < t.clock
  par : ∀ u, k'.par = some u → k.par = some u ∨ s.parent p = some u ∧ k.dying = false

theorem Code.Goes.dies {s : State} {p p' : ProcId} {k k' : Code} {r : Row}
    (h : k.Goes s p r) (hnext : r.next = .code p' k') : Dies s r.post p k k' := by
  obtain ⟨e, h⟩ | ⟨sc, h⟩ := h <;> revert h
  · fun_cases Code.row s e p k <;> intro h <;> cases h
    all_goals cases hnext <;> constructor
    all_goals try simp only [Code.dying, Code.par, Code.inElse, Code.announced]
    all_goals first
      | exact fun _ _ => rfl
      | exact fun _ => .inl ⟨rfl, rfl⟩
      | grind
  · fun_cases Code.call s p k sc <;> intro h <;> cases h
    all_goals cases hnext <;> constructor
    all_goals first
      | exact fun _ _ => rfl
      | (rintro _ ⟨⟩)
      | (rintro ⟨⟩)

/-- A switch leaves the dates alone, and who is dead had been dying. -/
theorem Code.Goes.switch_dying {s : State} {p p' : ProcId} {k k' : Code} {r : Row} {r' : Resume}
    (h : k.Goes s p r) (hnext : r.next = .switch p' k' r') :
    r.post.diedAt = s.diedAt ∧ (k'.dying → k.dying) := by
  obtain ⟨e, h⟩ | ⟨sc, h⟩ := h <;> revert h
  · fun_cases Code.row s e p k <;> intro h <;> cases h
    all_goals cases hnext
    all_goals exact ⟨rfl, by simp [Code.dying, Code.par, Code.inElse, Code.announced]⟩
  · fun_cases Code.call s p k sc <;> intro h <;> cases h
    all_goals cases hnext

namespace Ages

variable {s t : State} {c : CpuId} {p : ProcId} {l : Lock}

/-- A step that attaches nobody and lets nobody die. -/
theorem congr (h : Ages s) (hstamp : t.stamp = s.stamp) (hcreator : t.creator = s.creator)
    (hclock : t.clock = s.clock) (hparent : t.parent = s.parent) (hdied : t.diedAt = s.diedAt)
    (hkpc : ∀ x, ((t.kpc x).dying → (s.kpc x).dying) ∧
      ∀ u, (t.kpc x).par = some u → (s.kpc x).par = some u) : Ages t := by
  constructor <;> simp only [hstamp, hcreator, hclock, hparent, hdied]
  case stamp_lt => exact h.stamp_lt
  case creator_lt => exact h.creator_lt
  case died_lt => exact fun x hx => h.died_lt x ((hkpc x).1 hx)
  case par =>
    intro x u hx
    have := h.par x u ((hkpc x).2 u hx)
    have := (hkpc u).1
    grind

theorem code {k' : Code} {op : Op} {post : State} (hinv : Inv s) (htree : Tree s) (hstamps : Stamps s)
    (hexits : Exits s) (h : Ages s) (hpc : s.pc c = .exec p)
    (hgo : (s.kpc p).Goes s p ⟨op, post, .code p k'⟩) :
    Ages { post with lock := op.drop post.lock, kpc := update post.kpc p k' } := by
  have hothers := fun x hx => htree.others hinv hgo (x := x) hx
  have hhist : HistMove s post p (s.kpc p) k' := hgo.hist rfl
  have hdies : Dies s post p (s.kpc p) k' := hgo.dies rfl
  have hle := hhist.clock_le
  have hdying : ∀ x, x ≠ p → (update post.kpc p k' x).dying → (s.kpc x).dying := by
    intro x hx hd
    rcases hothers x hx with hk | ⟨hk, -⟩
    · rwa [hk] at hd
    · simp [hk, Code.dying, Code.par, Code.inElse, Code.announced] at hd
  have hpar : ∀ x u, x ≠ p → (update post.kpc p k' x).par = some u → (s.kpc x).par = some u := by
    intro x u hx hu
    rcases hothers x hx with hk | ⟨hk, -⟩
    · rwa [hk] at hu
    · simp [hk, Code.par] at hu
  have hborn : (∀ x, post.stamp x < post.clock) ∧
      ∀ x, post.parent x ≠ none → post.creator x < post.stamp x := by
    have hlt := h.stamp_lt
    by_cases hno : k'.attached → (s.kpc p).attached
    · obtain ⟨hstamp, hcreator, -⟩ := hhist.plain hno
      have hkeep := hgo.keeps hinv htree hstamps hexits fun _ => hno
      rw [hstamp, hcreator]
      refine ⟨fun x => (hlt x).trans_le hle, fun x hx => h.creator_lt x ?_⟩
      obtain ⟨u, hu⟩ := Option.ne_none_iff_exists'.mp hx
      obtain hu | ⟨-, hu, -⟩ := hkeep.parent x u hu
      · simp [hu]
      · exact hu
    · obtain ⟨ha', ha⟩ := Classical.not_imp.mp hno
      cases hhist with
      | attach q hclaim hattach hclaim' hattach' hstatus hpid hxstatus hparent hlog hstamp hcreator
          hclock =>
        refine ⟨fun x => ?_, fun x hx => ?_⟩
        · have := hlt x
          grind
        · have := h.creator_lt x
          have := hlt p
          grind
      | _ => grind [Code.attached]
  constructor
  case stamp_lt => exact hborn.1
  case creator_lt => exact hborn.2
  case died_lt =>
    intro x hx
    by_cases hxp : x = p
    · subst hxp
      simp only [Function.update_self] at hx
      have := h.died_lt x
      have := hdies.dying hx
      grind
    · have := h.died_lt x (hdying x hxp hx)
      simp only [hdies.others x hxp]
      omega
  case par =>
    intro x u hx
    have hdead := fun hu : u ≠ p => hdying u hu
    by_cases hxp : x = p
    · subst hxp
      simp only [Function.update_self] at hx
      have hself : k'.dying := by simp [Code.dying, hx]
      obtain hold | ⟨hparent, halive⟩ := hdies.par u hx
      · have := h.par x u hold
        have := hdies.others u
        have hk : (s.kpc x).dying := by simp [Code.dying, hold]
        have := hdies.dying hself
        have := h.died_lt x hk
        have := hdead
        grind
      · -- a parent has not handed over its children yet
        left
        have hswept := (htree.parent x u hparent).2
        have hnot : (s.kpc u).dying = false := by
          by_contra hd
          have := Code.swept_of_dying (by simpa using hd)
          have := x.isLt
          omega
        have hux : u ≠ x := by
          rintro rfl
          obtain hc | ⟨rfl, -⟩ := hstamps.creator u u hparent
          · exact (h.creator_lt u (by simp [hparent])).ne hc
          · simp [htree.root] at hparent
        exact Bool.eq_false_iff.mpr fun hd => by simp [hdying u hux hd] at hnot
    · have := h.par x u (hpar x u hxp hx)
      have := hdies.others x hxp
      have := hdies.others u
      have hk : (s.kpc x).dying := by simp [Code.dying, hpar x u hxp hx]
      have := h.died_lt x hk
      have := hdies.dying
      by_cases hup : u = p
      · grind
      · grind

/-- **Every step keeps it.** -/
theorem of_effect (hinv : Inv s) (htree : Tree s) (hist : Hist s) (h : Ages s)
    (heff : Effect s c t) : Ages t := by
  cases heff with
  | fail _ | takeCpu _ _ _ => exact h.congr rfl rfl rfl rfl rfl fun _ => ⟨id, fun _ => id⟩
  | @takeCode p _ _ hw _ =>
    obtain ⟨-, -, -, hpar, -⟩ := Code.got_tree (s := s) hw
    have hdying := Code.got_dying (s := s) hw
    refine h.congr rfl rfl rfl rfl rfl fun x => ?_
    by_cases hx : x = p
    · subst hx
      simp [hpar, hdying]
    · simp [hx]
  | code hpc hgo _ => exact h.code hinv htree hist.stamps hist.exits hpc hgo
  | @switch p _ _ _ hpc hgo =>
    obtain ⟨hparent, -, -, hpar, -⟩ := hgo.away rfl
    obtain ⟨-, hstamp, hcreator, hclock, -⟩ := hgo.keepsHist rfl
    obtain ⟨-, -, hkpc, -⟩ := hgo.switch rfl
    obtain ⟨hdied, hdying⟩ := hgo.switch_dying rfl
    dsimp only at *
    refine h.congr hstamp hcreator hclock hparent hdied fun x => ?_
    by_cases hx : x = p
    · subst hx
      simpa [hpar] using hdying
    · simp [hx, hkpc]
  | cpu _ hmove _ =>
    cases hmove <;> exact h.congr rfl rfl rfl rfl rfl fun _ => ⟨id, fun _ => id⟩

theorem boot : Ages boot := by
  constructor
  all_goals simp [Process.boot, Code.dying, Code.par, Code.inElse, Code.announced]

end Ages

/-- The order of births and deaths is kept by every run. -/
theorem Reach.ages {ok : State → Act → Prop} {s : State} (h : Run.Reach step ok boot s) : Ages s :=
  h.invariant_with .boot fun _ _ _ hs hi _ ht =>
    hi.of_effect (Reach.inv hs) (Reach.tree hs) (Reach.hist hs) (.of_step ht)

/-! ## Who has been counted -/

/-- `count_proc_num` has locked slot `x` and is still locking. -/
def State.Counted (s : State) (x : ProcId) : Prop := ∃ p, (s.kpc p).counted x

/-- A slot is counted in a walk. -/
theorem Code.walk_of_counted {k : Code} {x : ProcId} (h : k.counted x) :
    ∃ next stack locked, k.walk = some (next, stack, locked) ∧ (locked x ∨ next = none ∧ stack = []) := by
  cases k <;> simp_all [Code.counted, Code.walk]

/-- **The parent of a counted slot is counted too**, once it has one. -/
theorem Counts.parent {s : State} (htree : Tree s) (hstamps : Stamps s) (hages : Ages s)
    (hinv : Inv s) (h : Counts s) {p x u : ProcId} (hx : (s.kpc p).counted x)
    (hu : s.parent x = some u) : (s.kpc p).counted u := by
  obtain ⟨next, stack, locked, hwalk, hlocked⟩ := Code.walk_of_counted hx
  have hprog := h p next stack locked hwalk
  refine (Code.holds_of_walk (p := p) hwalk).2.1 ?_
  obtain hlocked | ⟨rfl, rfl⟩ := hlocked
  · exact hprog.seen_of_child hu hlocked
  · -- the recursion is over: it has locked everybody who has a child or is about to
    refine hprog.complete s.stamp ?_ ?_ ?_ u fun hleaf => hleaf.1 x hu
    · intro j v hv
      obtain hc | ⟨rfl, -⟩ := hstamps.creator j v hv
      · exact .inr (hc ▸ hages.creator_lt j (by simp [hv]))
      · exact .inl rfl
    · exact fun j v hv hleaf => hleaf.1 j hv
    · intro j hj
      by_cases hinit : j = initProc
      · exact .inl hinit
      · refine .inr (htree.child j hinit ?_)
        have hidle := hinv.idle j
        have hbusy : s.status j = .unused ∨ s.status j = .used → False := by
          intro hs
          refine hj ⟨fun y hy => ?_, by simp [hidle hs, Code.forking, Code.claims]⟩
          have := (htree.parent y j hy).1
          obtain hs | hs := hs <;> simp [hs, Status.alive] at this
        revert hbusy
        cases s.status j <;> simp [Status.alive]

/-- Whoever holds the lock of `init` without counting keeps everybody from counting. -/
theorem Counts.none_counted {s : State} (hinv : Inv s) (h : Counts s) {c : CpuId} {p : ProcId}
    (hpc : s.pc c = .exec p) (hheld : (s.kpc p).Holds p (.proc initProc))
    (hno : (s.kpc p).walk = none) (x : ProcId) : ¬s.Counted x := by
  rintro ⟨y, hy⟩
  obtain ⟨next, stack, locked, hwalk, -⟩ := Code.walk_of_counted hy
  obtain ⟨hpark, hlocked, hwheld⟩ := Code.holds_of_walk (p := y) (x := initProc) hwalk
  have hinit := hlocked (h y _ _ _ hwalk).seen_root
  obtain rfl := hinv.code_holder hpc hheld hpark (hwheld hinit)
  simp [hwalk] at hno

/-- A lock that a process outside `count_proc_num` holds is not counted. -/
theorem Inv.not_counted {s : State} (hinv : Inv s) {c : CpuId} {p x : ProcId}
    (hpc : s.pc c = .exec p) (hheld : (s.kpc p).Holds p (.proc x)) (hno : (s.kpc p).walk = none) :
    ¬s.Counted x := by
  rintro ⟨y, hy⟩
  obtain ⟨next, stack, locked, hwalk, -⟩ := Code.walk_of_counted hy
  obtain ⟨hpark, -, hwheld⟩ := Code.holds_of_walk (p := y) (x := x) hwalk
  obtain rfl := hinv.code_holder hpc hheld hpark (hwheld hy)
  simp [hwalk] at hno

/-! ## The one order that breaks -/

/-- The parent whose lock `exit` is about to acquire. -/
def Code.toPar : Code → Option ProcId
  | .exitPar _ par => some par
  | _ => none

/-- The parent whose lock `exit` has, on its way to its own. -/
def Code.hasPar : Code → Option ProcId
  | .exitParSelf _ par => some par
  | _ => none

/-- `exit` of process `x` has locked the parent it read, which is not its parent any more, and goes
on to its own lock. -/
def State.Stale (s : State) (x : ProcId) : Prop :=
  ∃ par, (s.kpc x).hasPar = some par ∧ s.parent x ≠ some par

/-- The slot `lock_all_process` is about to lock. -/
def Code.counts : Code → Option ProcId
  | .countAcq q _ _ => some q
  | .countRestAcq i _ => some i
  | _ => none

/-- **`count_proc_num` and an `exit` with an old parent keep apart**: `count_proc_num` does not lock a
process whose `exit` has locked an old parent, and `exit` does not lock an old parent while its
process is counted. -/
def Apart (s : State) (a : Act) : Prop :=
  match s.pc a.cpu with
  | .exec p =>
    (∀ x ∈ (s.kpc p).counts, ¬s.Stale x) ∧
      ∀ par ∈ (s.kpc p).toPar, s.parent p ≠ some par → ¬s.Counted p
  | _ => True

instance (s : State) (x : ProcId) : Decidable (s.Counted x) :=
  inferInstanceAs (Decidable (∃ p, (s.kpc p).counted x))

instance (s : State) (x : ProcId) : Decidable (s.Stale x) :=
  inferInstanceAs (Decidable (∃ par, (s.kpc x).hasPar = some par ∧ s.parent x ≠ some par))

instance (s : State) (a : Act) : Decidable (Apart s a) := by
  unfold Apart
  split <;> infer_instance

/-- No process is counted while its `exit` holds an old parent. -/
def Clear (s : State) : Prop := ∀ x, s.Stale x → ¬s.Counted x

theorem Code.got_counted {s : State} {p x : ProcId} {k : Code} {l : Lock} (hw : k.want p = some l)
    (h : (k.got s p).counted x) : k.counted x ∨ k.counts = some x ∨ x = initProc := by
  revert hw
  fun_cases Code.want p k <;> intro hw <;> cases hw <;>
    simp_all [Code.got, Code.counted, Code.counts, Function.update_apply]
  all_goals grind

theorem Code.got_hasPar {s : State} {p par : ProcId} {k : Code} {l : Lock}
    (hw : k.want p = some l) (h : (k.got s p).hasPar = some par) :
    k.toPar = some par ∧ ∀ x, (k.got s p).counted x = false := by
  revert hw
  fun_cases Code.want p k <;> intro hw <;> cases hw <;>
    simp_all [Code.got, Code.hasPar, Code.toPar, Code.counted]

/-- A row counts nobody new, and does not lead to the own lock of `exit`. -/
theorem Code.Goes.counted {s : State} {p p' : ProcId} {k k' : Code} {r : Row}
    (h : k.Goes s p r) (hnext : r.next = .code p' k') :
    (∀ x, k'.counted x → k.counted x) ∧ k'.hasPar = none := by
  obtain ⟨e, h⟩ | ⟨sc, h⟩ := h <;> revert h
  · fun_cases Code.row s e p k <;> intro h <;> cases h
    all_goals cases hnext
    all_goals refine ⟨?_, rfl⟩
    all_goals simp only [Code.counted]
    all_goals grind [slot_eq_some]
  · fun_cases Code.call s p k sc <;> intro h <;> cases h
    all_goals cases hnext
    all_goals refine ⟨fun x hx => ?_, rfl⟩
    all_goals cases hx

namespace Clear

variable {s t : State} {a : Act}

theorem of_step (hinv : Inv s) (htree : Tree s) (hcounts : Counts s) (h : Clear s)
    (hapart : Apart s a) (ht : step s a = some t) : Clear t := by
  cases Effect.of_step ht with
  | fail _ | takeCpu _ _ _ => exact h
  | @takeCode p l hpc hw hl =>
    simp only [Apart, hpc] at hapart
    obtain ⟨hcount, hexit⟩ := hapart
    rintro x ⟨par, hk, hne⟩ ⟨y, hy⟩
    by_cases hx : x = p
    · subst hx
      simp only [Function.update_self] at hk
      obtain ⟨hk', hno⟩ := Code.got_hasPar hw hk
      refine hexit par hk' hne ⟨y, ?_⟩
      by_cases hyx : y = x
      · subst hyx
        simp [hno] at hy
      · simpa [hyx] using hy
    · simp only [Function.update_of_ne hx] at hk
      have hstale : s.Stale x := ⟨par, hk, hne⟩
      by_cases hyp : y = p
      · subst hyp
        simp only [Function.update_self] at hy
        obtain hy | hy | rfl := Code.got_counted hw hy
        · exact h x hstale ⟨y, hy⟩
        · exact hcount x hy hstale
        · refine htree.exiting initProc ?_ rfl
          revert hk
          cases s.kpc initProc <;> simp [Code.hasPar, Code.exiting]
      · exact h x hstale ⟨y, by simpa [hyp] using hy⟩
  | @code p k' op post hpc hgo _ =>
    obtain ⟨hless, hnot⟩ := hgo.counted rfl
    have hothers := fun x hx => htree.others hinv hgo (x := x) hx
    have hmove : ∀ x, TreeMove s post p (s.kpc p) k' x := hgo.tree rfl
    rintro x ⟨par, hk, hne⟩ ⟨y, hy⟩
    have hcounted : s.Counted x := by
      refine ⟨y, ?_⟩
      by_cases hyp : y = p
      · subst hyp
        exact hless x (by simpa using hy)
      · rcases hothers y hyp with hk | ⟨hk, -⟩ <;> simp only [hk] at hy
        · exact hy
        · simp [Code.counted] at hy
    have hxp : x ≠ p := by
      rintro rfl
      simp [hnot] at hk
    have hkx : (s.kpc x).hasPar = some par := by
      rcases hothers x hxp with hk' | ⟨hk', -⟩ <;> simp only [hk'] at hk
      · exact hk
      · cases hk
    -- the parent of a counted process does not change
    refine h x ⟨par, hkx, fun hold => hne ?_⟩ hcounted
    have hidle := hinv.idle x
    have hclaim := hinv.claim p x
    have hdead := htree.dead x
    have hlive : s.kpc x ≠ .user ∧ s.kpc x ≠ .dead := by
      constructor <;> rintro hk' <;> simp [hk', Code.hasPar] at hkx
    cases hmove x with
    | adopt hfound hexit _ _ =>
      have hover := Code.handsOver_of_found hfound hexit
      refine absurd hcounted (hcounts.none_counted hinv hpc (Code.holds_of_handsOver hover).2 ?_ x)
      revert hover
      cases s.kpc p <;> simp [Code.handsOver, Code.walk]
    | _ => grind
  | @switch p k' _ post hpc hgo =>
    obtain ⟨hparent, -⟩ := hgo.away rfl
    obtain ⟨-, -, hkpc, -, -⟩ := hgo.switch rfl
    obtain ⟨hwalk, -⟩ := hgo.switch_walk rfl
    have hpar := (hgo.away rfl).2.2.2.1
    dsimp only at *
    rintro x ⟨par, hk, hne⟩ ⟨y, hy⟩
    have hxp : x ≠ p := by
      rintro rfl
      simp only [Function.update_self] at hk
      revert hpar hk
      cases k' <;> simp [Code.par, Code.hasPar]
    have hyp : y ≠ p := by
      rintro rfl
      simp only [Function.update_self] at hy
      obtain ⟨_, _, _, hw, -⟩ := Code.walk_of_counted hy
      simp [hwalk] at hw
    refine h x ⟨par, ?_, ?_⟩ ⟨y, ?_⟩
    · simpa [hxp, hkpc] using hk
    · simpa [hparent] using hne
    · simpa [hyp, hkpc] using hy
  | cpu _ hmove _ => cases hmove <;> exact h

end Clear

/-- In a run that keeps `count_proc_num` and such an `exit` apart, nobody is counted there. -/
theorem Reach.clear {s : State} (h : Run.Reach step Apart boot s) : Clear s :=
  h.invariant_with (by simp [Clear, State.Stale, boot, Code.hasPar]) fun _ _ _ hs hi ha ht =>
    hi.of_step (Reach.inv hs) (Reach.tree hs) (Reach.counts hs) ha ht

/-- No row of a process is a lock check. -/
theorem Code.Goes.not_held {s : State} {p : ProcId} {k : Code} {r : Row} (h : k.Goes s p r) :
    r.next ≠ .panic .acquiredHoldingLock := by
  obtain ⟨e, h⟩ | ⟨sc, h⟩ := h <;> revert h
  · fun_cases Code.row s e p k <;> intro h <;> cases h
    all_goals simp
  · fun_cases Code.call s p k sc <;> intro h <;> cases h
    all_goals simp

/-! ## The order -/

open Classical in
/-- **The order of the locks**: groups, then `init` and whoever is counted, then the living by age,
then the dying, those who died last first. -/
noncomputable def State.rank (s : State) : Lock → ℕ
  | .group _ => 0
  | .proc x =>
    if x = initProc ∨ s.Counted x then 1
    else if (s.kpc x).dying then 3 + s.clock + (s.clock - s.diedAt x)
    else 2 + s.stamp x

section Rank

variable {s : State} {x y : ProcId}

theorem State.rank_counted (h : x = initProc ∨ s.Counted x) : s.rank (.proc x) = 1 := by
  simp [State.rank, h]

theorem State.rank_dying (h : ¬(x = initProc ∨ s.Counted x)) (hd : (s.kpc x).dying) :
    s.rank (.proc x) = 3 + s.clock + (s.clock - s.diedAt x) := by
  simp only [State.rank, h, hd, if_true, if_false]

theorem State.rank_alive (h : ¬(x = initProc ∨ s.Counted x)) (hd : (s.kpc x).dying = false) :
    s.rank (.proc x) = 2 + s.stamp x := by
  simp [State.rank, h, hd]

/-- A lock that is not the walk's comes after all that are. -/
theorem State.one_lt_rank (h : ¬(x = initProc ∨ s.Counted x)) : 1 < s.rank (.proc x) := by
  cases hd : (s.kpc x).dying with
  | true => rw [State.rank_dying h hd]; omega
  | false => rw [State.rank_alive h hd]; omega

theorem State.rank_pos : 0 < s.rank (.proc x) := by
  by_cases h : x = initProc ∨ s.Counted x
  · simp [State.rank_counted h]
  · exact Nat.zero_lt_of_lt (State.one_lt_rank h)

/-- **A parent comes before its child**, as long as the parent is alive and the child not counted. -/
theorem State.rank_parent (htree : Tree s) (hstamps : Stamps s) (hages : Ages s)
    (hparent : s.parent x = some y) (hcount : ¬s.Counted x) :
    s.rank (.proc y) < s.rank (.proc x) := by
  have hinit : x ≠ initProc := by
    rintro rfl
    simp [htree.root] at hparent
  have hx : ¬(x = initProc ∨ s.Counted x) := by simp [hinit, hcount]
  by_cases hy : y = initProc ∨ s.Counted y
  · rw [State.rank_counted hy]
    exact State.one_lt_rank hx
  · have hdying : (s.kpc y).dying = false := by
      by_contra hd
      have hswept := (htree.parent x y hparent).2
      have := Code.swept_of_dying (by simpa using hd)
      have := x.isLt
      omega
    obtain hc | ⟨rfl, -⟩ := hstamps.creator x y hparent
    · have := hages.creator_lt x (by simp [hparent])
      have := hages.stamp_lt y
      rw [State.rank_alive hy hdying]
      cases hd : (s.kpc x).dying with
      | true => rw [State.rank_dying hx hd]; omega
      | false => rw [State.rank_alive hx hd]; omega
    · simp at hy

/-- **The parent that `exit` has read comes before the process**, unless the process is counted. -/
theorem State.rank_par (htree : Tree s) (hages : Ages s) (hpar : (s.kpc x).par = some y)
    (hcount : ¬s.Counted x) : s.rank (.proc y) < s.rank (.proc x) := by
  have hinit : x ≠ initProc := by
    refine htree.exiting x ?_
    revert hpar
    cases s.kpc x <;> simp [Code.par, Code.exiting]
  have hx : ¬(x = initProc ∨ s.Counted x) := by simp [hinit, hcount]
  by_cases hy : y = initProc ∨ s.Counted y
  · rw [State.rank_counted hy]
    exact State.one_lt_rank hx
  · have hdying : (s.kpc x).dying := by simp [Code.dying, hpar]
    have := hages.died_lt x hdying
    rw [State.rank_dying hx hdying]
    cases hd : (s.kpc y).dying with
    | true =>
      have := hages.died_lt y hd
      have hlater := (hages.par x y hpar).resolve_left (by simp [hd])
      rw [State.rank_dying hy hd]
      omega
    | false =>
      have := hages.stamp_lt y
      rw [State.rank_alive hy hd]
      omega

end Rank

/-- **A process waits for a lock that comes later than all it holds.** -/
theorem rank_lt_of_code {s : State} (hinv : Inv s) (htree : Tree s) (hist : Hist s) (hages : Ages s)
    (hcounts : Counts s) (hclear : Clear s) {c : CpuId} {p : ProcId} {l l' : Lock}
    (hpc : s.pc c = .exec p) (hheld : (s.kpc p).Holds p l) (hw : (s.kpc p).want p = some l') :
    s.rank l < s.rank l' := by
  have hfree := hcounts.none_counted hinv hpc
  have hmine := fun x => hinv.not_counted (x := x) hpc
  have hexit := htree.exiting p
  have hfound := htree.found p
  have hrank : ∀ x y, s.parent x = some y → ¬s.Counted x → s.rank (.proc y) < s.rank (.proc x) :=
    fun x y => State.rank_parent htree hist.stamps hages
  -- a counted child would have its parent counted with it
  have hchild : ∀ i, s.parent i = some p → (s.kpc p).Holds p (.proc p) → (s.kpc p).walk = none →
      ¬s.Counted i := by
    rintro i hi hself hno ⟨y, hy⟩
    exact hmine p hself hno ⟨y, hcounts.parent htree hist.stamps hages hinv hy hi⟩
  -- `count_proc_num` holds what is counted, and is not about to lock that
  have hwalk : ∀ x next stack locked, (s.kpc p).walk = some (next, stack, locked) → s.Counted x →
      (s.kpc p).counted x := by
    rintro x next stack locked hp ⟨y, hy⟩
    obtain ⟨next', stack', locked', hy', -⟩ := Code.walk_of_counted hy
    have hinit : ∀ z n st lk, (s.kpc z).walk = some (n, st, lk) →
        (s.kpc z).parked = false ∧ (s.kpc z).Holds z (.proc initProc) := by
      intro z n st lk hz
      obtain ⟨hpark, hlocked, hwheld⟩ := Code.holds_of_walk (p := z) (x := initProc) hz
      exact ⟨hpark, hwheld (hlocked (hcounts z _ _ _ hz).seen_root)⟩
    obtain ⟨hpark, hheld'⟩ := hinit y _ _ _ hy'
    obtain rfl := hinv.code_holder hpc (hinit p _ _ _ hp).2 hpark hheld'
    exact hy
  cases hk : s.kpc p <;>
    simp only [hk, Code.Holds, Code.want, reduceCtorEq, Option.some.injEq] at hheld hw <;> subst hw
  case sleepAcq lk ch =>
    obtain ⟨g, -, rfl⟩ := Option.map_eq_some_iff.mp hheld
    exact State.rank_pos
  case exitSelf x =>
    subst hheld
    have hne : p ≠ initProc := hexit (by simp [hk, Code.exiting])
    have hno := hfree (by simp [hk, Code.Holds]) (by simp [hk, Code.walk]) p
    rw [State.rank_counted (.inl rfl)]
    exact State.one_lt_rank (by simp [hne, hno])
  case exitElseSelf x =>
    subst hheld
    have hne : p ≠ initProc := hexit (by simp [hk, Code.exiting])
    have hno := hfree (by simp [hk, Code.Holds]) (by simp [hk, Code.walk]) p
    rw [State.rank_counted (.inl rfl)]
    exact State.one_lt_rank (by simp [hne, hno])
  case reparentAcq x i =>
    have hi := hfound i (by simp [hk, Code.found])
    have hno := hfree (by simp [hk, Code.Holds]) (by simp [hk, Code.walk]) i
    obtain rfl | rfl := hheld
    · have hne : i ≠ initProc := by
        rintro rfl
        simp [htree.root] at hi
      rw [State.rank_counted (.inl rfl)]
      exact State.one_lt_rank (by simp [hne, hno])
    · exact hrank i p hi hno
  case exitParSelf x par =>
    subst hheld
    have hpar : (s.kpc p).par = some par := by simp [hk, Code.par]
    refine State.rank_par htree hages hpar fun hcount => ?_
    by_cases hparent : s.parent p = some par
    · obtain ⟨y, hy⟩ := hcount
      refine hmine par (by simp [hk, Code.Holds]) (by simp [hk, Code.walk]) ⟨y, ?_⟩
      exact hcounts.parent htree hist.stamps hages hinv hy hparent
    · exact hclear p ⟨par, by simp [hk, Code.hasPar], hparent⟩ hcount
  case waitAcq w i =>
    subst hheld
    have hi := hfound i (by simp [hk, Code.found])
    exact hrank i p hi (hchild i hi (by simp [hk, Code.Holds]) (by simp [hk, Code.walk]))
  case countAcq q stack locked =>
    obtain ⟨j, rfl, hj⟩ := hheld
    have hprog := hcounts p (some q) stack locked (by simp [hk, Code.walk])
    have hq := (hprog.found q rfl).1
    have hne : q ≠ initProc := by
      rintro rfl
      simp [hprog.seen_root] at hq
    rw [State.rank_counted (.inr ⟨p, by simpa [hk, Code.counted] using hj⟩)]
    refine State.one_lt_rank (not_or.mpr ⟨hne, fun hcount => ?_⟩)
    have := hwalk q (some q) stack locked (by simp [hk, Code.walk]) hcount
    simp [hk, Code.counted, hq] at this
  case countRestAcq i locked =>
    obtain ⟨j, rfl, hj⟩ := hheld
    have hprog := hcounts p none [] locked (by simp [hk, Code.walk])
    have hi : locked i = false := by simpa [hk, Code.Distinct] using hinv.distinct p
    have hne : i ≠ initProc := by
      rintro rfl
      simp [hprog.seen_root] at hi
    rw [State.rank_counted (.inr ⟨p, by simpa [hk, Code.counted] using hj⟩)]
    refine State.one_lt_rank (not_or.mpr ⟨hne, fun hcount => ?_⟩)
    have := hwalk i none [] locked (by simp [hk, Code.walk]) hcount
    simp [hk, Code.counted, hi] at this

/-- **Whoever waits for a lock waits for one that comes later than all it holds.** -/
theorem rank_lt_of_want {s : State} (hinv : Inv s) (htree : Tree s) (hist : Hist s) (hages : Ages s)
    (hcounts : Counts s) (hclear : Clear s) {c : CpuId} {l l' : Lock}
    (hl : s.lock l = some c) (hw : s.want c = some l') : s.rank l < s.rank l' := by
  have hheld := (hinv.lock c l).mp hl
  unfold State.want at hw
  cases hpc : s.pc c <;> simp only [hpc, Pc.want, Pc.Holds, reduceCtorEq] at hheld hw
  case exec p => exact rank_lt_of_code hinv htree hist hages hcounts hclear hpc hheld hw
  case lookAcq g q =>
    obtain rfl := hheld
    obtain rfl := Option.some.inj hw
    exact State.rank_pos
  case wakeAcq ret ch i =>
    obtain rfl := Option.some.inj hw
    cases ret with
    | group g =>
      obtain rfl : l = .group g := hheld
      exact State.rank_pos
    | sched | exec _ => exact hheld.elim

/-- **The locks have an order, as long as `count_proc_num` and an `exit` with an old parent keep
apart.**  In every state of every run whose steps all do, the wait-for graph over the process and
group locks has no cycle, no CPU is about to acquire a lock it holds, and none has panicked over
one. -/
theorem lock_order {s : State} (h : Run.Reach step Apart boot s) :
    WaitFor.Acyclic (fun c l => s.lock l = some c) s.want ∧
      (∀ c l, s.want c = some l → s.lock l ≠ some c) ∧
      ∀ c, s.panicked c ≠ some .acquiredHoldingLock := by
  have hrank : ∀ {s : State}, Run.Reach step Apart boot s → ∀ {c : CpuId} {l l' : Lock},
      s.lock l = some c → s.want c = some l' → s.rank l < s.rank l' := fun h =>
    rank_lt_of_want (Reach.inv h) (Reach.tree h) (Reach.hist h) (Reach.ages h) (Reach.counts h)
      (Reach.clear h)
  refine ⟨WaitFor.acyclic_of_rank s.rank ?_, fun c l hw hl => (hrank h hl hw).false, ?_⟩
  · rintro l l' ⟨c, hl, hw⟩
    exact hrank h hl hw
  · refine h.invariant_with (P := fun s => ∀ c, s.panicked c ≠ some .acquiredHoldingLock)
      (by simp [boot]) fun s a t hs hi _ ht c hc => ?_
    obtain hsame | ⟨rfl, e, hfail, rfl⟩ := (Effect.of_step ht).panicked c
    · exact hi c (hsame ▸ hc)
    · obtain rfl : e = .acquiredHoldingLock := by simpa [State.fail] using hc
      cases hfail with
      | held hw hl => exact (hrank hs hl hw).false
      | code _ hgo => exact hgo.not_held rfl

/-- `init` forks a child, which forks one of its own. -/
def familyRun : List Act :=
  dispatch 0 0 ++ callFor 0 .fork 10 ++ dispatch 1 1 ++ callFor 1 .fork 12

/-- The theorem in the middle of `count_proc_num`, which has locked `init` and the child and is about
to lock the child's child. -/
theorem lock_order_familyRun :
    ∃ s, Run.Reach step Apart boot s ∧ s.want 0 = some (.proc 2) ∧ s.lock (.proc 1) = some 0 ∧
      WaitFor.Acyclic (fun c l => s.lock l = some c) s.want := by
  have hrun : (Run.run (Run.guard step fun s a => decide (Apart s a)) boot
      (familyRun ++ callFor 0 .count 7)).map (fun s => (s.want 0, s.lock (.proc 1))) =
      some (some (.proc 2), some 0) := by decide +kernel
  obtain ⟨s, hs, hlook⟩ := Option.map_eq_some_iff.mp hrun
  obtain ⟨hw, hl⟩ := Prod.mk.inj hlook
  have hreach : Run.Reach step Apart boot s :=
    Run.reach_of_guard (fun _ _ => of_decide_eq_true) .refl hs
  exact ⟨s, hreach, hw, hl, (lock_order hreach).1⟩

/-- Both children exit, the second with a parent it has read before the first one's `exit` handed it
over to `init`; the second locks its old parent, and `count_proc_num` locks the second. -/
def staleRun : List Act :=
  familyRun ++ dispatch 2 2 ++ callFor 2 (.exit 0) 70 ++ callFor 1 (.exit 0) 72 ++ goFor 1 6 ++
    callFor 0 (.wait false) 6 ++ goFor 2 1 ++ callFor 0 .count 135

/-- **The order breaks**: CPU 2 holds the lock of slot 1 and spins on that of slot 2, CPU 0, in
`count_proc_num`, holds that of slot 2 and spins on that of slot 1. -/
theorem not_lock_order :
    ¬∀ s, Reachable s → WaitFor.Acyclic (fun c l => s.lock l = some c) s.want := by
  intro hall
  have hrun : (Run.run step boot staleRun).map (fun s =>
      (s.lock (.proc 1), s.want 2, s.lock (.proc 2), s.want 0)) =
      some (some 2, some (.proc 2), some 0, some (.proc 1)) := by decide +kernel
  obtain ⟨s, hs, hlook⟩ := Option.map_eq_some_iff.mp hrun
  simp only [Prod.mk.injEq] at hlook
  obtain ⟨hl, hw, hl', hw'⟩ := hlook
  exact (hall s (Run.reachable_of_run .refl hs)).not_pair hl hw hl' hw'

end Process
