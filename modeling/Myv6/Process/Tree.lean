import Myv6.Process.Keep

/-!
# Process/Tree — who is whose parent

    fork      q.parent = p            p is in fork, q is claimed by it
    exit      q.parent = proc_set[0]  p is in its sweep, under the lock of q
    wait      q.parent = NULL         q is a zombie, under the lock of q

Nobody else writes `parent`, and each of the three writes a slot that is the business of process
`p` alone.  So the scans that read `parent` without a lock read something stable: what a process
sees as its child stays its child until it does something about it itself.
-/

namespace Process

open Function (update)

/-! ## What the code of a process says about its children -/

/-- The claimed slot has been attached to its parent. -/
def Code.attached : Code → Bool
  | .forkReadyAcq _ | .forkReady _ => true
  | _ => false

/-- How many slots `reparent_children` is done with. -/
def Code.swept : Code → ℕ
  | .reparent _ i => i
  | .reparentAcq _ i | .reparentHeld _ i => i
  | .exitRel _ _ | .exitGroupAcq _ _ _ | .exitGroup _ _ _ | .exitPar _ _ | .exitParSelf _ _
  | .exitBoth _ _ | .exitElseRel _ | .exitElseInit _ | .exitElseSelf _ | .exitElseBoth _
  | .zombie _ | .dead => procNum
  | _ => 0

/-- The slot a scan has found to be a child: `reparent_children`, `handle_exit_child`. -/
def Code.found : Code → Option ProcId
  | .reparentAcq _ i | .reparentHeld _ i | .waitAcq _ i | .waitHeld _ i => some i
  | _ => none

/-- The parent that `exit` has read. -/
def Code.par : Code → Option ProcId
  | .exitRel _ q | .exitGroupAcq _ q _ | .exitGroup _ q _ | .exitPar _ q | .exitParSelf _ q
  | .exitBoth _ q => some q
  | _ => none

/-- The branch of `exit` for a parent that has changed. -/
def Code.inElse : Code → Bool
  | .exitElseRel _ | .exitElseInit _ | .exitElseSelf _ | .exitElseBoth _ => true
  | _ => false

/-- The value `exit` was called with, until the process is a zombie. -/
def Code.exiting : Code → Option (BitVec 64)
  | .exitInit x | .exitSelf x | .reparent x _ | .reparentAcq x _ | .reparentHeld x _
  | .exitRel x _ | .exitGroupAcq x _ _ | .exitGroup x _ _ | .exitPar x _ | .exitParSelf x _
  | .exitBoth x _ | .exitElseRel x | .exitElseInit x | .exitElseSelf x | .exitElseBoth x
  | .zombie x => some x
  | _ => none

/-- The states of a process that can be a parent. -/
def Status.alive : Status → Bool
  | .runable | .running | .sleep => true
  | _ => false

/-- Acquiring a lock is not a step of any of these. -/
theorem Code.got_tree {s : State} {p : ProcId} {k : Code} {l : Lock} (hw : k.want p = some l) :
    (k.got s p).attached = k.attached ∧ (k.got s p).swept = k.swept ∧
      (k.got s p).found = k.found ∧ (k.got s p).par = k.par ∧ (k.got s p).inElse = k.inElse ∧
      (k.got s p).exiting = k.exiting ∧ ((k.got s p) = .dead ↔ k = .dead) := by
  revert hw
  fun_cases Code.want p k <;> intro hw <;> cases hw <;> simp [Code.got, Code.attached, Code.swept,
    Code.found, Code.par, Code.inElse, Code.exiting]

/-- **What the code of process `p`, going from `k` to `k'`, does to the place of slot `x` in the
tree.** -/
inductive TreeMove (s t : State) (p : ProcId) (k k' : Code) (x : ProcId) : Prop
  | stay (hs : t.status x = s.status x) (hp : t.parent x = s.parent x)
  | wake (hsleep : s.status x = .sleep) (hs : t.status x = .runable) (hp : t.parent x = s.parent x)
  | claim (hfree : s.status x = .unused) (hs : t.status x = .used) (hp : t.parent x = s.parent x)
      (hclaim : k'.claims = some x) (hattach : k'.attached = false)
  | setUp (hclaim : k.claims = some x) (hattach : k.attached = false) (hs : t.status x = .used)
      (hp : t.parent x = none) (hclaim' : k'.claims = some x) (hattach' : k'.attached = false)
  | attach (hclaim : k.claims = some x) (hattach : k.attached = false)
      (hs : t.status x = s.status x) (hp : t.parent x = some p) (hclaim' : k'.claims = some x)
      (hattach' : k'.attached)
  | undo (hclaim : k.claims = some x) (hattach : k.attached = false) (hs : t.status x = .unused)
      (hp : t.parent x = s.parent x) (hclaim' : k'.claims = none)
  | ready (hclaim : k.claims = some x) (hattach : k.attached) (hs : t.status x = .runable)
      (hp : t.parent x = s.parent x) (hclaim' : k'.claims = none)
  | free (hfree : k.claims = some x ∧ k.attached = false ∨ k.found = some x ∧ s.status x = .zombie)
      (hs : t.status x = .unused) (hp : t.parent x = none) (hclaim' : k'.claims = none)
  | adopt (hfound : k.found = some x) (hexit : k.exiting ≠ none) (hs : t.status x = s.status x)
      (hp : t.parent x = some initProc)

/-- A row of a process that goes on makes one of the moves at every slot. -/
theorem Code.Goes.tree {s : State} {p p' : ProcId} {k k' : Code} {r : Row}
    (h : k.Goes s p r) (hnext : r.next = .code p' k') (x : ProcId) :
    TreeMove s r.post p k k' x := by
  obtain ⟨e, h⟩ | ⟨sc, h⟩ := h <;> revert h
  · fun_cases Code.row s e p k <;> intro h <;> cases h
    all_goals
      grind -linarith [TreeMove, State.wakeUpParent, Code.claims, Code.attached, Code.found, Code.exiting]
  · fun_cases Code.call s p k sc <;> intro h <;> cases h
    all_goals grind -linarith [TreeMove]

/-- **How the code of process `p` gets from `k` to `k'`**: what it has found in the tree on the
way. -/
structure Walk (s t : State) (p : ProcId) (k k' : Code) : Prop where
  /-- The sweep of `exit` passes a slot once it is no child, or no longer one. -/
  swept : k'.swept ≤ k.swept ∨ procNum ≤ k.swept ∨
    k'.swept = k.swept + 1 ∧ (p ≠ initProc → ∀ j : ProcId, (j : ℕ) = k.swept → t.parent j ≠ some p)
  sweeps : 0 < k'.swept → k.exiting ≠ none
  found : ∀ i, k'.found = some i → s.parent i = some p ∧ t.parent = s.parent
  par : ∀ u, k'.par = some u → k.par = some u ∨ s.parent p = some u
  inElse : k'.inElse → k.inElse ∨ s.parent p = some initProc
  exiting : ∀ x, k'.exiting = some x → k.exiting = some x ∨ s.pid p ≠ 0 ∧ k = .user
  attached : k'.attached → k.attached ∧ k'.claims = k.claims ∨
    ∀ q, k'.claims = some q → t.parent q = some p
  fresh : k'.attached = false → ∀ q, k'.claims = some q → k.claims = some q ∧ k.attached = false ∨
    s.status q = .unused ∧ t.parent q = s.parent q
  dead : k' ≠ .dead
  /-- A chain is only ever cleared, and then or with the wake-up. -/
  chain : ∀ x, t.chain x = none ∨ t.chain x = s.chain x ∧ t.status x = s.status x ∨
    t.chain x = s.chain x ∧ (s.status x = .unused ∨ k.claims = some x)
  /-- Pid and exit status stay as they are, except in a claimed slot and in one just freed. -/
  kept : ∀ x, t.pid x = s.pid x ∧ t.xstatus x = s.xstatus x ∨ k.claims = some x ∨
    s.status x = .zombie ∧ t.status x = .unused

/-- What a row does to a slot. -/
theorem Code.row_kept {s : State} {e : Env} {p p' : ProcId} {k k' : Code} {r : Row}
    (h : k.row s e p = some r) (hnext : r.next = .code p' k') (x : ProcId) :
    (r.post.chain x = none ∨ r.post.chain x = s.chain x ∧ r.post.status x = s.status x ∨
      r.post.chain x = s.chain x ∧ (s.status x = .unused ∨ k.claims = some x)) ∧
    (r.post.pid x = s.pid x ∧ r.post.xstatus x = s.xstatus x ∨ k.claims = some x ∨
      s.status x = .zombie ∧ r.post.status x = .unused) := by
  revert h
  fun_cases Code.row s e p k <;> intro h <;> cases h
  all_goals cases hnext
  all_goals grind -linarith [Code.claims, State.wakeUpParent]

/-- What it does to a sweep. -/
theorem Code.row_swept {s : State} {e : Env} {p p' : ProcId} {k k' : Code} {r : Row}
    (h : k.row s e p = some r) (hnext : r.next = .code p' k') :
    (k'.swept ≤ k.swept ∨ procNum ≤ k.swept ∨ k'.swept = k.swept + 1 ∧
      (p ≠ initProc → ∀ j : ProcId, (j : ℕ) = k.swept → r.post.parent j ≠ some p)) ∧
    (0 < k'.swept → k.exiting ≠ none) := by
  revert h
  fun_cases Code.row s e p k <;> intro h <;> cases h
  all_goals cases hnext
  all_goals grind -linarith [Code.swept, Code.exiting, slot_eq_some, slot_eq_none]

/-- What it finds in the tree. -/
theorem Code.row_found {s : State} {e : Env} {p p' : ProcId} {k k' : Code} {r : Row}
    (h : k.row s e p = some r) (hnext : r.next = .code p' k') :
    (∀ i, k'.found = some i → s.parent i = some p ∧ r.post.parent = s.parent) ∧
    (∀ u, k'.par = some u → k.par = some u ∨ s.parent p = some u) ∧
    (k'.inElse → k.inElse ∨ s.parent p = some initProc) ∧
    (∀ x, k'.exiting = some x → k.exiting = some x ∨ s.pid p ≠ 0 ∧ k = .user) ∧ k' ≠ .dead := by
  revert h
  fun_cases Code.row s e p k <;> intro h <;> cases h
  all_goals cases hnext
  all_goals grind -linarith [Code.found, Code.par, Code.inElse, Code.exiting, slot_eq_some]

/-- What it does to the slot it has claimed. -/
theorem Code.row_attached {s : State} {e : Env} {p p' : ProcId} {k k' : Code} {r : Row}
    (h : k.row s e p = some r) (hnext : r.next = .code p' k') :
    (k'.attached → k.attached ∧ k'.claims = k.claims ∨
      ∀ q, k'.claims = some q → r.post.parent q = some p) ∧
    (k'.attached = false → ∀ q, k'.claims = some q → k.claims = some q ∧ k.attached = false ∨
      s.status q = .unused ∧ r.post.parent q = s.parent q) := by
  revert h
  fun_cases Code.row s e p k <;> intro h <;> cases h
  all_goals cases hnext
  all_goals grind -linarith [Code.attached, Code.claims]

/-- A row of the kernel code that goes on walks like that. -/
theorem Code.walk_row {s : State} {e : Env} {p p' : ProcId} {k k' : Code} {r : Row}
    (h : k.row s e p = some r) (hnext : r.next = .code p' k') : Walk s r.post p k k' := by
  obtain ⟨hswept, hsweeps⟩ := Code.row_swept h hnext
  obtain ⟨hfound, hpar, helse, hexiting, hdead⟩ := Code.row_found h hnext
  obtain ⟨hattached, hfresh⟩ := Code.row_attached h hnext
  exact ⟨hswept, hsweeps, hfound, hpar, helse, hexiting, hattached, hfresh, hdead,
    fun x => (Code.row_kept h hnext x).1, fun x => (Code.row_kept h hnext x).2⟩

/-- A call walks like that. -/
theorem Code.walk_call {s : State} {sc : Syscall} {p p' : ProcId} {k k' : Code} {r : Row}
    (h : k.call s p sc = some r) (hnext : r.next = .code p' k') : Walk s r.post p k k' := by
  revert h
  fun_cases Code.call s p k sc <;> intro h <;> cases h
  all_goals cases hnext <;> constructor
  all_goals try simp only [Code.swept, Code.found, Code.par, Code.inElse, Code.exiting,
    Code.attached, Code.claims]
  all_goals grind -linarith

/-- Every row of a process that goes on walks like that. -/
theorem Code.Goes.walk {s : State} {p p' : ProcId} {k k' : Code} {r : Row}
    (h : k.Goes s p r) (hnext : r.next = .code p' k') : Walk s r.post p k k' := by
  obtain ⟨e, h⟩ | ⟨sc, h⟩ := h
  · exact Code.walk_row h hnext
  · exact Code.walk_call h hnext

/-- What a row that switches away leaves behind: a sleeper, or a zombie that has swept its
children. -/
theorem Code.Goes.away {s : State} {p p' : ProcId} {k k' : Code} {r : Row} {r' : Resume}
    (h : k.Goes s p r) (hnext : r.next = .switch p' k' r') :
    r.post.parent = s.parent ∧ r.post.pid = s.pid ∧ k'.found = none ∧ k'.par = none ∧
      k'.inElse = false ∧ k'.exiting = none ∧ k'.attached = false ∧
      (∀ x, x ≠ p → r.post.chain x = s.chain x) ∧
      (r.post.status p = .sleep ∧ k'.swept = 0 ∧ k' ≠ .dead ∨
        r.post.status p = .zombie ∧ r.post.chain p = none ∧ k' = .dead ∧ k.swept = procNum ∧
          k.exiting ≠ none) := by
  obtain ⟨e, h⟩ | ⟨sc, h⟩ := h <;> revert h
  · fun_cases Code.row s e p k <;> intro h <;> cases h
    all_goals grind [Code.found, Code.par, Code.inElse, Code.exiting, Code.attached, Code.swept]
  · fun_cases Code.call s p k sc <;> intro h <;> cases h
    all_goals grind

/-- Only `exit` sweeps. -/
theorem Code.swept_eq_zero {k : Code} (h : k.exiting = none) (hd : k ≠ .dead) : k.swept = 0 := by
  cases k <;> simp_all [Code.exiting, Code.swept]

theorem Code.swept_eq_zero_of_claims {k : Code} {q : ProcId} (h : k.claims = some q) :
    k.swept = 0 := by
  cases k <;> simp_all [Code.claims, Code.swept]

theorem Code.found_eq_none_of_claims {k : Code} {q : ProcId} (h : k.claims = some q) :
    k.found = none := by
  cases k <;> simp_all [Code.claims, Code.found]

/-! ## The tree -/

/-- **The tree of processes**, with what the code of each process knows about it. -/
structure Tree (s : State) : Prop where
  unused : ∀ x, s.status x = .unused → s.parent x = none
  init : (s.status initProc).alive
  root : s.parent initProc = none
  initPid : s.pid initProc = 0
  /-- A parent is alive, and its `exit` has not swept the child yet. -/
  parent : ∀ x u, s.parent x = some u → (s.status u).alive ∧ (s.kpc u).swept ≤ x
  child : ∀ x, x ≠ initProc → (s.status x).alive ∨ s.status x = .zombie → s.parent x ≠ none
  fresh : ∀ p q, (s.kpc p).claims = some q → (s.kpc p).attached = false → s.parent q = none
  attached : ∀ p q, (s.kpc p).claims = some q → (s.kpc p).attached → s.parent q = some p
  found : ∀ p i, (s.kpc p).found = some i → s.parent i = some p
  par : ∀ p u, (s.kpc p).par = some u → s.parent p = some u ∨ s.parent p = some initProc
  inElse : ∀ p, (s.kpc p).inElse → s.parent p = some initProc
  exiting : ∀ p, (s.kpc p).exiting ≠ none → p ≠ initProc
  dead : ∀ p, s.status p = .zombie ↔ s.kpc p = .dead
  chain : ∀ p, s.chain p ≠ none → s.status p = .sleep

namespace Tree

variable {s t : State} {c : CpuId} {p q : ProcId} {l : Lock}

/-- `init` never sweeps. -/
theorem swept_init (h : Tree s) : (s.kpc initProc).swept = 0 := by
  refine Code.swept_eq_zero ?_ fun hdead => ?_
  · by_contra hne
    exact h.exiting initProc hne rfl
  · have hinit := h.init
    simp [(h.dead initProc).mpr hdead, Status.alive] at hinit

/-- The tree depends on the table and the code of the processes only. -/
theorem congr (h : Tree s) (hstatus : t.status = s.status) (hchain : t.chain = s.chain)
    (hparent : t.parent = s.parent) (hpid : t.pid = s.pid) (hkpc : t.kpc = s.kpc) : Tree t := by
  constructor <;> simp only [hstatus, hchain, hparent, hpid, hkpc]
  exacts [h.unused, h.init, h.root, h.initPid, h.parent, h.child, h.fresh, h.attached, h.found,
    h.par, h.inElse, h.exiting, h.dead, h.chain]

theorem takeCode (h : Tree s) (hw : (s.kpc p).want p = some l) :
    Tree { s with
      lock := update s.lock l (some c)
      kpc := update s.kpc p ((s.kpc p).got s p) } := by
  obtain ⟨hattach, hswept, hfound, hpar, helse, hexit, hdead⟩ := Code.got_tree (s := s) hw
  obtain ⟨hclaims, -⟩ := Code.got_claims (s := s) hw
  have hobs : ∀ {α : Type} (f : Code → α), f ((s.kpc p).got s p) = f (s.kpc p) →
      ∀ x, f (update s.kpc p ((s.kpc p).got s p) x) = f (s.kpc x) := by
    intro α f hf x
    by_cases hx : x = p <;> simp [hx, hf]
  constructor
  case parent => simpa only [hobs _ hswept] using h.parent
  case fresh => simpa only [hobs _ hclaims, hobs _ hattach] using h.fresh
  case attached => simpa only [hobs _ hclaims, hobs _ hattach] using h.attached
  case found => simpa only [hobs _ hfound] using h.found
  case par => simpa only [hobs _ hpar] using h.par
  case inElse => simpa only [hobs _ helse] using h.inElse
  case exiting => simpa only [hobs _ hexit] using h.exiting
  case dead => simpa only [hobs (· = Code.dead) (propext hdead)] using h.dead
  exacts [h.unused, h.init, h.root, h.initPid, h.child, h.chain]

theorem code {k' : Code} {op : Op} {post : State} (hinv : Inv s) (h : Tree s)
    (hpc : s.pc c = .exec p) (hgo : (s.kpc p).Goes s p ⟨op, post, .code p k'⟩) :
    Tree { post with lock := op.drop post.lock, kpc := update post.kpc p k' } := by
  have hslot : ∀ q, SlotMove s post p (s.kpc p) k' q := hgo.slot (hinv.distinct p) rfl
  have htree : ∀ x, TreeMove s post p (s.kpc p) k' x := hgo.tree rfl
  have hwalk : Walk s post p (s.kpc p) k' := hgo.walk rfl
  have hrun : s.status p = .running := by
    have := hinv.cpu c
    simp_all [Pc.Ok]
  have hclaim := hinv.claim p
  -- what the code of the other processes says is untouched, unless the slot has been freed
  have hkpc : ∀ x, x ≠ p → post.kpc x = s.kpc x ∨ post.kpc x = .user ∧ post.status x = .unused := by
    intro x hx
    cases hslot x <;> grind -linarith
  constructor
  case unused =>
    intro x hx
    have := h.unused x
    have := h.fresh p x
    have := h.found p x
    cases htree x <;> grind -linarith
  case init =>
    have := h.init
    cases htree initProc <;> grind -linarith [Status.alive]
  case root =>
    have := h.root
    have := h.init
    have := h.found p initProc
    cases htree initProc <;> grind -linarith [Status.alive]
  case initPid =>
    have := h.initPid
    have := h.init
    have := hwalk.kept initProc
    grind -linarith [Status.alive]
  case parent =>
    intro x u hx
    have hkids : s.parent x = some u → (s.status u).alive ∧ (s.kpc u).swept ≤ x := h.parent x u
    have halive : (s.status u).alive → (post.status u).alive := by
      intro hu
      cases htree u <;> grind -linarith [Status.alive]
    -- a parent that stays one has not swept the child in this step either
    have hswept : s.parent x = some u → post.parent x = some u →
        (update post.kpc p k' u).swept ≤ x := by
      intro hsx htx
      obtain ⟨-, hle⟩ := hkids hsx
      by_cases hu : u = p
      · subst hu
        have hsw := hwalk.swept
        have hne : 0 < k'.swept → u ≠ initProc := fun hpos => h.exiting u (hwalk.sweeps hpos)
        have hlt := x.isLt
        grind -linarith
      · rw [Function.update_of_ne hu]
        rcases hkpc u hu with hk | ⟨hk, -⟩ <;> rw [hk]
        · exact hle
        · exact Nat.zero_le _
    have hinit : (s.kpc p).exiting ≠ none → (update post.kpc p k' initProc).swept = 0 := by
      intro hexit
      have hne := (h.exiting p hexit).symm
      rw [Function.update_of_ne hne]
      rcases hkpc initProc hne with hk | ⟨hk, -⟩ <;> rw [hk]
      · exact h.swept_init
      · rfl
    have hnew := @Code.swept_eq_zero_of_claims k' x
    have := h.init
    cases htree x <;> grind -linarith [Status.alive]
  case child =>
    intro x hne hx
    have := h.child x hne
    have := h.found p x
    have := h.attached p x
    cases htree x <;> grind -linarith [Status.alive]
  case fresh =>
    intro x q hx ha
    have := h.fresh x q
    have := h.fresh p q
    have := h.unused q
    have := hinv.alone x p q
    have := hinv.claim x q
    have := hwalk.fresh
    have := h.found p q
    have := hkpc x
    cases htree q <;> grind -linarith [Code.claims]
  case attached =>
    intro x q hx ha
    have := h.attached x q
    have := h.attached p q
    have := hinv.alone x p q
    have := hinv.claim x q
    have := hwalk.attached
    have := h.found p q
    have := @Code.found_eq_none_of_claims (s.kpc p) q
    have := hkpc x
    cases htree q <;> grind -linarith [Code.claims]
  case found =>
    intro x i hx
    have := h.found x i
    have := h.found p i
    have := hwalk.found i
    have := h.fresh p i
    have := h.attached p i
    have := hkpc x
    cases htree i <;> grind -linarith [Code.found]
  case par =>
    intro x u hx
    have := h.par x u
    have := hwalk.par u
    have := hinv.idle x
    have := h.dead x
    have := hkpc x
    cases htree x <;> grind -linarith [Code.par]
  case inElse =>
    intro x hx
    have := h.inElse x
    have := hwalk.inElse
    have := hinv.idle x
    have := h.dead x
    have := hkpc x
    cases htree x <;> grind -linarith [Code.inElse]
  case exiting =>
    intro x hx
    have := h.exiting x
    have := h.initPid
    have := hkpc x
    by_cases hxp : x = p
    · subst hxp
      obtain ⟨v, hv⟩ := Option.ne_none_iff_exists'.mp hx
      have := hwalk.exiting v
      grind -linarith
    · grind -linarith [Code.exiting]
  case dead =>
    intro x
    have := h.dead x
    have := hwalk.dead
    cases hslot x <;> grind -linarith
  case chain =>
    intro x hx
    have := h.chain x
    have := hwalk.chain x
    grind -linarith

theorem switch {k' : Code} {r : Resume} {post : State} (hinv : Inv s) (h : Tree s)
    (hpc : s.pc c = .exec p) (hgo : (s.kpc p).Goes s p ⟨.keep, post, .switch p k' r⟩) :
    Tree { post with kpc := update post.kpc p k', pc := update post.pc c (.swtch p r) } := by
  obtain ⟨hparent, hpid, hfound, hpar, helse, hexit, hattach, hchain, haway⟩ := hgo.away rfl
  obtain ⟨hclaims, -, hkpc, -, hstatus⟩ := hgo.switch rfl
  have hrun : s.status p = .running := by
    have := hinv.cpu c
    simp_all [Pc.Ok]
  dsimp only at *
  simp only [hparent, hpid, hkpc]
  constructor
  case unused =>
    intro x hx
    have := h.unused x
    grind
  case init =>
    have := h.init
    have := h.exiting p
    grind [Status.alive]
  case parent =>
    intro x u hx
    have := h.parent x u hx
    have := x.isLt
    grind [Status.alive]
  case child =>
    intro x hne hx
    have := h.child x hne
    grind [Status.alive]
  case fresh => grind [h.fresh]
  case attached => grind [h.attached]
  case found => grind [h.found]
  case par => grind [h.par]
  case inElse => grind [h.inElse]
  case exiting => grind [h.exiting]
  case dead => grind [h.dead]
  case chain => grind [h.chain]
  exacts [h.root, h.initPid]

/-- The scheduler and `wake_up` only move a process between the states of one that is alive. -/
theorem restatus (h : Tree s) (hkpc : t.kpc = s.kpc) (hparent : t.parent = s.parent)
    (hpid : t.pid = s.pid)
    (hstatus : ∀ x, t.status x = s.status x ∨ (s.status x).alive ∧ (t.status x).alive)
    (hchain : ∀ x, t.chain x = none ∨
      t.chain x = s.chain x ∧ (t.status x = s.status x ∨ s.status x ≠ .sleep)) : Tree t := by
  constructor <;> try simp only [hkpc, hparent, hpid]
  case unused =>
    intro x hx
    have := hstatus x
    exact h.unused x (by grind [Status.alive])
  case init =>
    have := hstatus initProc
    have := h.init
    grind
  case parent =>
    intro x u hx
    have := h.parent x u hx
    have := hstatus u
    grind
  case child =>
    intro x hne hx
    have := hstatus x
    exact h.child x hne (by grind [Status.alive])
  case dead =>
    intro x
    rw [← h.dead x]
    have := hstatus x
    grind [Status.alive]
  case chain =>
    intro x hx
    have := h.chain x
    have := hchain x
    grind
  exacts [h.root, h.initPid, h.fresh, h.attached, h.found, h.par, h.inElse, h.exiting]

/-- The code of the other processes stays where it is, unless it is that of a slot just freed. -/
theorem others {k' : Code} {op : Op} {post : State} (hinv : Inv s) (h : Tree s)
    (hgo : (s.kpc p).Goes s p ⟨op, post, .code p k'⟩) {x : ProcId} (hx : x ≠ p) :
    update post.kpc p k' x = s.kpc x ∨
      update post.kpc p k' x = .user ∧ (s.kpc x = .user ∨ s.kpc x = .dead) := by
  have := h.dead x
  have := hinv.idle x
  have := hinv.claim p x
  have hslot : SlotMove s post p (s.kpc p) k' x := hgo.slot (hinv.distinct p) rfl x
  cases hslot <;> grind

/-- **Every step keeps the tree.** -/
theorem of_effect (hinv : Inv s) (h : Tree s) (heff : Effect s c t) : Tree t := by
  cases heff with
  | fail _ => exact h.congr rfl rfl rfl rfl rfl
  | takeCode _ hw _ => exact h.takeCode hw
  | takeCpu _ _ _ => exact h.congr rfl rfl rfl rfl rfl
  | code hpc hgo _ => exact h.code hinv hpc hgo
  | switch hpc hgo => exact h.switch hinv hpc hgo
  | cpu hpc hmove _ =>
    have hok := hinv.cpu c
    rw [hpc] at hok
    cases hmove with
    | start hr =>
      refine h.restatus rfl rfl rfl (fun x => ?_) fun x => ?_
      · grind [Pc.Ok, Status.alive]
      · grind [Pc.Ok]
    | yield p =>
      refine h.restatus rfl rfl rfl (fun x => ?_) fun x => ?_
      · grind [Pc.Ok, State.Calm, Status.alive]
      · grind [Pc.Ok, State.Calm]
    | wake ret ch i _ =>
      refine h.restatus rfl rfl rfl (fun x => ?_) fun x => ?_
      · grind [Status.alive]
      · grind
    | _ => exact h.congr rfl rfl rfl rfl rfl

theorem boot : Tree boot := by
  constructor
  all_goals simp [Process.boot, Code.claims, Code.attached, Code.found, Code.par, Code.inElse,
    Code.exiting, Status.alive]
  all_goals grind

end Tree

/-- **The tree of processes is kept by every run.** -/
theorem Reach.tree {ok : State → Act → Prop} {s : State} (h : Run.Reach step ok boot s) : Tree s :=
  h.invariant_with .boot fun _ _ _ hs hi _ ht => hi.of_effect (Reach.inv hs) (.of_step ht)

end Process
