import Myv6.Process.Keep

/-!
# Process/Kill — `kill` and its target

    slot i ──status == USED or pid != the one──▸ slot i + 1 ──▸ … ──▸ -1
      └─ else ──▸ killed = 1, 0

The scan looks at one slot at a time, while slots are claimed and freed beside it.  A slot in use
shows a pid that is not negative and an `UNUSED` one shows `-1` (`Shown`), so the test is right for
every pid but `-1`, which finds the first `UNUSED` slot.
-/

namespace Process

open Function (update)

variable {s t : State} {a : Act} {c : CpuId} {p q i : ProcId} {pid : ℤ}

/-! ## The pid a slot shows -/

/-- What `alloc_pid` returns is not negative. -/
theorem State.allocPid_nonneg {n : ℤ} (h : s.allocPid = some n) : 0 ≤ n := by
  obtain ⟨i, hi, hfound⟩ := List.exists_of_findSome?_eq_some h
  split at hfound
  · cases hfound
  · obtain rfl := Option.some.inj hfound
    simp only [List.pure_def, List.bind_eq_flatMap, List.mem_flatMap, List.mem_singleton] at hi
    obtain ⟨j, -, rfl⟩ := hi
    exact Int.natCast_nonneg j

/-- **What the code of a process, going from `k` to `k'`, does to the pid and the status of slot
`q`.** -/
inductive PidStep (s t : State) (k k' : Code) (q : ProcId) : Prop
  | stay (hs : t.status q = s.status q) (hpid : t.pid q = s.pid q)
      (hclaim : k'.claims = some q → k.claims = some q ∧ k'.madeUp = k.madeUp)
  | wake (hsleep : s.status q = .sleep) (hs : t.status q = .runable) (hpid : t.pid q = s.pid q)
      (hclaim : k'.claims = none)
  | claim (hfree : s.status q = .unused) (hs : t.status q = .used) (hpid : t.pid q = s.pid q)
      (hmade : k'.madeUp = false)
  | setUp (hclaim : k.claims = some q) (hs : t.status q = .used) (hpid : 0 ≤ t.pid q)
      (hmade : k'.madeUp = true)
  | undo (hclaim : k.claims = some q) (hmade : k.madeUp = false) (hs : t.status q = .unused)
      (hpid : t.pid q = s.pid q) (hclaim' : k'.claims = none)
  | free (hfree : k.claims = some q ∨ s.status q = .zombie) (hs : t.status q = .unused)
      (hpid : t.pid q = -1) (hclaim' : k'.claims = none)
  | ready (hclaim : k.claims = some q) (hmade : k.madeUp = true) (hs : t.status q = .runable)
      (hpid : t.pid q = s.pid q) (hclaim' : k'.claims = none)

/-- A row of a process that goes on makes one of the moves at every slot. -/
theorem Code.Goes.pidStep {p p' : ProcId} {k k' : Code} {r : Row} (h : k.Goes s p r)
    (hnext : r.next = .code p' k') (q : ProcId) : PidStep s r.post k k' q := by
  obtain ⟨e, h⟩ | ⟨sc, h⟩ := h <;> revert h
  · fun_cases Code.row s e p k <;> intro h <;> cases h
    all_goals
      grind -linarith [PidStep, State.wakeUpParent, Code.claims, Code.madeUp, State.allocPid_nonneg]
  · fun_cases Code.call s p k sc <;> intro h <;> cases h
    all_goals
      grind -linarith [PidStep, Code.claims, Code.madeUp]

/-- A row that switches away shows the same pids. -/
theorem Code.Goes.switch_pid {p p' : ProcId} {k k' : Code} {r : Row} {r' : Resume}
    (h : k.Goes s p r) (hnext : r.next = .switch p' k' r') : r.post.pid = s.pid := by
  obtain ⟨e, h⟩ | ⟨sc, h⟩ := h <;> revert h
  · fun_cases Code.row s e p k <;> intro h <;> cases h
    all_goals first
      | rfl
      | cases hnext
  · fun_cases Code.call s p k sc <;> intro h <;> cases h
    all_goals rfl

/-- **The pids a table shows**: `-1` in a slot that is `UNUSED` or just claimed, and a pid in one
that is set up or in use. -/
structure Shown (s : State) : Prop where
  unused : ∀ q, s.status q = .unused → s.pid q = -1
  fresh : ∀ p q, (s.kpc p).claims = some q → (s.kpc p).madeUp = false → s.pid q = -1
  made : ∀ p q, (s.kpc p).claims = some q → (s.kpc p).madeUp = true → 0 ≤ s.pid q
  live : ∀ q, s.status q ≠ .unused → s.status q ≠ .used → 0 ≤ s.pid q

/-- A step of the code of a process. -/
theorem Shown.code {k' : Code} {op : Op} {post : State} (hs : Shown s) (hi : Inv s)
    (hgo : (s.kpc p).Goes s p ⟨op, post, .code p k'⟩) (hpc : s.pc c = .exec p) :
    Shown { post with lock := op.drop post.lock, kpc := update post.kpc p k' } := by
  have hpid : ∀ q, PidStep s post (s.kpc p) k' q := hgo.pidStep rfl
  have hslot : ∀ q, SlotMove s post p (s.kpc p) k' q := hgo.slot (hi.distinct p) rfl
  have hkpc : ∀ x, post.kpc x = s.kpc x ∨ post.kpc x = .user := fun x => by
    cases hslot x <;> simp_all
  have hclaim := hi.claim
  have halone := hi.alone
  -- the other processes keep their claims, and the slots of those are not touched
  have hother : ∀ x q, x ≠ p → (update post.kpc p k' x).claims = some q →
      (s.kpc x).claims = some q ∧ (update post.kpc p k' x).madeUp = (s.kpc x).madeUp ∧
        post.pid q = s.pid q := by
    intro x q hx hq
    rw [Function.update_of_ne hx] at hq ⊢
    have hkx : post.kpc x = s.kpc x := (hkpc x).resolve_right fun huser => by
      rw [huser] at hq
      cases hq
    rw [hkx] at hq ⊢
    have hused := hclaim x q hq
    have hne : (s.kpc p).claims ≠ some q := fun hp => hx (halone x p q hq hp)
    refine ⟨hq, rfl, ?_⟩
    cases hpid q with
    | stay hs' hp' _ | wake _ hs' hp' _ | claim _ hs' hp' _ => exact hp'
    | setUp hclaim' _ _ _ | undo hclaim' _ _ _ _ | ready hclaim' _ _ _ _ =>
      exact absurd hclaim' hne
    | free hfree _ _ _ =>
      rcases hfree with hclaim' | hzombie
      · exact absurd hclaim' hne
      · rw [hused] at hzombie
        cases hzombie
  refine ⟨fun q hq => ?_, fun x q hx hm => ?_, fun x q hx hm => ?_, fun q hq hq' => ?_⟩
  · have hmove := hpid q
    have hunused := hs.unused q
    have hfresh := hs.fresh p q
    dsimp only at hq ⊢
    cases hmove <;> grind
  · by_cases hxp : x = p
    · subst hxp
      have hmove := hpid q
      have hunused := hs.unused q
      have hfresh := hs.fresh x q
      simp only [Function.update_self] at hx hm ⊢
      cases hmove <;> grind
    · obtain ⟨hx', hm', hp'⟩ := hother x q hxp hx
      exact hp'.trans (hs.fresh x q hx' (hm'.symm.trans hm))
  · by_cases hxp : x = p
    · subst hxp
      have hmove := hpid q
      have hmade := hs.made x q
      simp only [Function.update_self] at hx hm ⊢
      cases hmove <;> grind
    · obtain ⟨hx', hm', hp'⟩ := hother x q hxp hx
      exact hp' ▸ hs.made x q hx' (hm'.symm.trans hm)
  · have hmove := hpid q
    have hlive := hs.live q
    have hmade := hs.made p q
    dsimp only at hq hq' ⊢
    cases hmove <;> grind

/-- A step that shows the same pids, and changes the status of slots in use only. -/
theorem Shown.of_same (hs : Shown s) (hpid : t.pid = s.pid)
    (hclaim : ∀ x q, (t.kpc x).claims = some q →
      (s.kpc x).claims = some q ∧ (t.kpc x).madeUp = (s.kpc x).madeUp)
    (hstatus : ∀ q, t.status q = s.status q ∨
      s.status q ≠ .unused ∧ s.status q ≠ .used ∧ t.status q ≠ .unused) : Shown t := by
  refine ⟨fun q hq => ?_, fun x q hx hm => ?_, fun x q hx hm => ?_, fun q hq hq' => ?_⟩
  all_goals rw [hpid]
  · rcases hstatus q with heq | ⟨-, -, hne⟩
    · exact hs.unused q (heq.symm.trans hq)
    · exact absurd hq hne
  · obtain ⟨hx', hm'⟩ := hclaim x q hx
    exact hs.fresh x q hx' (hm'.symm.trans hm)
  · obtain ⟨hx', hm'⟩ := hclaim x q hx
    exact hs.made x q hx' (hm'.symm.trans hm)
  · rcases hstatus q with heq | ⟨hold, hold', -⟩
    · exact hs.live q (heq ▸ hq) (heq ▸ hq')
    · exact hs.live q hold hold'

/-- **A step keeps the pids shown.** -/
theorem Shown.of_effect (hs : Shown s) (hi : Inv s) (heff : Effect s c t) : Shown t := by
  have hsame : ∀ x q, (s.kpc x).claims = some q →
      (s.kpc x).claims = some q ∧ (s.kpc x).madeUp = (s.kpc x).madeUp := fun _ _ h => ⟨h, rfl⟩
  cases heff with
  | fail h => exact hs.of_same rfl hsame fun _ => .inl rfl
  | @takeCode p l hpc hw hl =>
    obtain ⟨hclaims, hmade⟩ := Code.got_claims (s := s) hw
    refine hs.of_same rfl (fun x q hx => ?_) fun _ => .inl rfl
    by_cases hxp : x = p
    · subst hxp
      simp only [Function.update_self] at hx ⊢
      exact ⟨hclaims ▸ hx, hmade⟩
    · simp only [Function.update_of_ne hxp] at hx ⊢
      exact ⟨hx, trivial⟩
  | takeCpu hpc hw hl => exact hs.of_same rfl hsame fun _ => .inl rfl
  | code hpc hgo hop => exact hs.code hi hgo hpc
  | @switch p k r post hpc hgo =>
    obtain ⟨hclaims, -, hkpc, hoff, hstatus⟩ := hgo.switch rfl
    have hok := hi.cpu c
    rw [hpc] at hok
    refine hs.of_same (hgo.switch_pid rfl) (fun x q hx => ?_) fun q => ?_
    · by_cases hxp : x = p
      · subst hxp
        simp only [Function.update_self, hclaims] at hx
        cases hx
      · simp only [Function.update_of_ne hxp] at hx ⊢
        rw [hkpc] at hx ⊢
        exact ⟨hx, rfl⟩
    · by_cases hqp : q = p
      · subst hqp
        refine .inr ⟨by rw [hok.1]; decide, by rw [hok.1]; decide, fun hunused => ?_⟩
        rw [hunused] at hoff
        cases hoff
      · exact .inl (hstatus q hqp)
  | @cpu k k' op post hpc hmove hop =>
    have hok := hi.cpu c
    rw [hpc] at hok
    cases hmove with
    | @start q r hr =>
      refine hs.of_same rfl hsame fun x => ?_
      by_cases hx : x = q
      · subst hx
        exact .inr ⟨by rw [hok.1]; decide, by rw [hok.1]; decide, by simp⟩
      · exact .inl (Function.update_of_ne hx _ _)
    | yield p =>
      refine hs.of_same rfl hsame fun x => ?_
      by_cases hx : x = p
      · subst hx
        exact .inr ⟨by rw [hok.1]; decide, by rw [hok.1]; decide, by simp⟩
      · exact .inl (Function.update_of_ne hx _ _)
    | wake ret ch j hk =>
      refine hs.of_same rfl hsame fun x => ?_
      change (s.wakeUpOn ch j).status x = _ ∨ _ ∧ _ ∧ (s.wakeUpOn ch j).status x ≠ _
      unfold State.wakeUpOn
      grind
    | _ => exact hs.of_same rfl hsame fun _ => .inl rfl

theorem Shown.boot : Shown boot := by
  refine ⟨fun q hq => ?_, nofun, nofun, fun q hq hq' => ?_⟩
  · by_cases h : q = initProc
    · simp [Process.boot, h] at hq
    · simp [Process.boot, h]
  · by_cases h : q = initProc
    · simp [Process.boot, h]
    · simp [Process.boot, h] at hq

/-! ## One look of `kill` -/

/-- CPU `a.cpu` is in `kill(pid)` of process `p`, under the lock of slot `i`, and goes on. -/
structure Examines (s : State) (a : Act) (p : ProcId) (pid : ℤ) (i : ProcId) : Prop where
  pc : s.pc a.cpu = .exec p
  code : s.kpc p = .killHeld pid i
  goes : ∃ e, a.choice = .run e
  runs : s.panicked a.cpu = none

/-- The slot is in use, with this pid. -/
def InUse (s : State) (i : ProcId) (pid : ℤ) : Prop :=
  (s.status i = .runable ∨ s.status i = .running ∨ s.status i = .sleep ∨ s.status i = .zombie) ∧
    s.pid i = pid

instance (s : State) (i : ProcId) (pid : ℤ) : Decidable (InUse s i pid) :=
  inferInstanceAs (Decidable (_ ∧ _))

/-- The slots a `kill` has looked at: whether one of them was in use with its pid. -/
abbrev Found := ProcId → Bool

/-- What a step adds to that. -/
def killNote (s : State) (a : Act) (_ : State) (h : Found) : Found :=
  match s.pc a.cpu, a.choice with
  | .exec p, .call (.kill _) => update h p false
  | .exec p, .run _ =>
    match s.kpc p with
    | .killHeld pid i => update h p (h p || decide (InUse s i pid))
    | _ => h
  | _, _ => h

/-- The system beside that. -/
abbrev killStep : State × Found → Act → Option (State × Found) := Run.watch step killNote

/-- The slot looked at is the one searched for. -/
def Matches (s : State) (pid : ℤ) (i : ProcId) : Prop := s.status i ≠ .used ∧ s.pid i = pid

instance (s : State) (pid : ℤ) (i : ProcId) : Decidable (Matches s pid i) :=
  inferInstanceAs (Decidable (_ ∧ _))

/-- Where `kill` goes on after it. -/
def killNext (s : State) (pid : ℤ) (i : ProcId) : Code :=
  if Matches s pid i then .user else
    match slot (i + 1) with
    | some j => .killAcq pid j
    | none => .user

theorem matches_iff : ¬(s.status i = .used ∨ s.pid i ≠ pid) ↔ Matches s pid i := by
  rw [Matches, not_or, not_not]

/-- **The look at one slot.** -/
theorem Examines.step_eq (hx : Examines s a p pid i) (hi : Inv s) : step s a = some { s with
    lock := update s.lock (.proc i) none
    killed := if Matches s pid i then update s.killed i true else s.killed
    kpc := update s.kpc p (killNext s pid i) } := by
  obtain ⟨hpc, hcode, ⟨e, hrun⟩, hok⟩ := hx
  have hlock : s.lock (.proc i) = some a.cpu := by
    rw [hi.lock, hpc]
    change (s.kpc p).Holds p _
    rw [hcode]
    rfl
  have hwant : s.want a.cpu = none := by
    simp only [State.want, hpc, hcode]
    rfl
  have hrow : s.row a.cpu (s.pc a.cpu) (.run e) = (Code.killHeld pid i).row s e p := by
    rw [hpc]
    change (s.kpc p).row s e p = _
    rw [hcode]
  have hstep : step s a = ((Code.killHeld pid i).row s e p).map (s.apply a.cpu) := by
    rw [step, if_neg (not_not.mpr hok), hwant, hrun]
    exact congrArg (Option.map _) hrow
  rw [hstep, Code.row]
  by_cases hmatch : Matches s pid i
  · rw [if_neg (matches_iff.mpr hmatch), if_pos hmatch, killNext, if_pos hmatch]
    simp only [Option.map_some, State.apply, hlock, if_true]
    rfl
  · rw [if_pos (not_not.mp (mt matches_iff.mp hmatch)), if_neg hmatch, killNext, if_neg hmatch]
    cases slot (i + 1) with
    | none =>
      simp only [Option.map_some, State.apply, hlock, if_true]
      rfl
    | some j =>
      simp only [Option.map_some, State.apply, hlock, if_true]
      rfl

/-- A slot in use matches; a slot that matches is in use, but for `-1` and an `UNUSED` one. -/
theorem InUse.matches (h : InUse s i pid) : Matches s pid i := by
  refine ⟨fun hused => ?_, h.2⟩
  have hlive := h.1
  rw [hused] at hlive
  simp at hlive

/-- In the loop of `kill`. -/
def Code.kills : Code → Bool
  | .killAcq _ _ | .killHeld _ _ => true
  | _ => false

/-- The code a row leaves process `x` at, if it moves it. -/
def Next.codeOf (x : ProcId) : Next → Option Code
  | .code p k | .switch p k _ => if p = x then some k else none
  | .cpu _ | .panic _ => none

/-- Inside the code of a process only the call leads into the loop. -/
theorem Code.row_kills {e : Env} {k : Code} {r : Row} (h : k.row s e p = some r) (x : ProcId) :
    (∀ k', r.next.codeOf x = some k' → k'.kills = true → x = p ∧ k.kills = true) ∧
      (r.post.kpc x = s.kpc x ∨ r.post.kpc x = .user) := by
  revert h
  fun_cases Code.row s e p k <;> intro h <;> cases h
  all_goals grind -linarith [Code.kills, Next.codeOf, State.freeProcess, State.wakeUpParent]

theorem Code.call_kills {sc : Syscall} {k : Code} {r : Row} (h : k.call s p sc = some r)
    (x : ProcId) :
    (∀ k', r.next.codeOf x = some k' → k'.kills = true → x = p ∧ ∃ pid, sc = .kill pid) ∧
      r.post.kpc x = s.kpc x := by
  revert h
  fun_cases Code.call s p k sc <;> intro h <;> cases h
  all_goals grind [Code.kills, Next.codeOf]

/-- The code of a process after a row. -/
theorem State.apply_kpc (s : State) (c : CpuId) (r : Row) (x : ProcId) :
    (s.apply c r).kpc x = s.kpc x ∨ (s.apply c r).kpc x = r.post.kpc x ∨
      r.next.codeOf x = some ((s.apply c r).kpc x) := by
  have henter : ∀ (post : State) (n : Next), (post.enter c n).kpc x = post.kpc x ∨
      n.codeOf x = some ((post.enter c n).kpc x) := by
    intro post n
    cases n with
    | code p k | switch p k r' =>
      by_cases hx : p = x
      · subst hx
        exact .inr (by simp [Next.codeOf, State.enter])
      · exact .inl (Function.update_of_ne (Ne.symm hx) _ _)
    | cpu k | panic e => exact .inl rfl
  unfold State.apply
  split
  · exact .inr (henter r.post r.next)
  · split
    · exact .inr (henter _ r.next)
    · exact .inl rfl

/-- A lock taken leads neither in nor out. -/
theorem Code.got_kills (k : Code) : (k.got s p).kills = k.kills := by
  fun_cases Code.got s p k <;> rfl

theorem State.take_kills (s : State) (c : CpuId) (l : Lock) (x : ProcId) :
    ((s.take c l).kpc x).kills = (s.kpc x).kills := by
  unfold State.take
  split
  · next p hpc =>
    by_cases hx : x = p
    · subst hx
      simp only [Function.update_self, Code.got_kills]
    · simp only [Function.update_of_ne hx]
  · rfl

/-- A row leads into the loop as its code does. -/
theorem State.row_kills {ch : Choice} {r : Row} (h : s.row c (s.pc c) ch = some r) (x : ProcId) :
    (∀ k', r.next.codeOf x = some k' → k'.kills = true → (s.kpc x).kills = true ∨
      s.pc c = .exec x ∧ ∃ pid, ch = .call (.kill pid)) ∧
      (r.post.kpc x = s.kpc x ∨ r.post.kpc x = .user) := by
  generalize hpc : s.pc c = k at h
  revert h
  fun_cases State.row s c k ch <;> intro h
  case case12 p e =>
    obtain ⟨hnext, hpost⟩ := Code.row_kills h x
    refine ⟨fun k' hk hkills => ?_, hpost⟩
    obtain ⟨rfl, hold⟩ := hnext k' hk hkills
    exact .inl hold
  case case13 p sc =>
    obtain ⟨hnext, hpost⟩ := Code.call_kills h x
    refine ⟨fun k' hk hkills => ?_, .inl hpost⟩
    obtain ⟨rfl, pid, rfl⟩ := hnext k' hk hkills
    exact .inr ⟨rfl, pid, rfl⟩
  all_goals cases h <;> refine ⟨fun k' hk => ?_, .inl rfl⟩ <;> cases hk

/-- **Only the call leads into the loop of `kill`.** -/
theorem kills_of_step (h : step s a = some t) (hk : (t.kpc p).kills = true) :
    (s.kpc p).kills = true ∨ s.pc a.cpu = .exec p ∧ ∃ pid, a.choice = .call (.kill pid) := by
  obtain ⟨c, ch⟩ := a
  have hrow : ∀ r, s.row c (s.pc c) ch = some r → t = s.apply c r → (s.kpc p).kills = true ∨
      s.pc c = .exec p ∧ ∃ pid, ch = .call (.kill pid) := by
    rintro r hr rfl
    obtain ⟨hnext, hpost⟩ := State.row_kills hr p
    rcases s.apply_kpc c r p with hsame | hafter | hcode
    · rw [hsame] at hk
      exact .inl hk
    · rw [hafter] at hk
      rcases hpost with hpost | hpost
      · rw [hpost] at hk
        exact .inl hk
      · rw [hpost] at hk
        cases hk
    · exact hnext _ hcode hk
  have hmap : (s.row c (s.pc c) ch).map (s.apply c) = some t → (s.kpc p).kills = true ∨
      s.pc c = .exec p ∧ ∃ pid, ch = .call (.kill pid) := fun hmap => by
    obtain ⟨r, hr, ht⟩ := Option.map_eq_some_iff.mp hmap
    exact hrow r hr ht.symm
  have hgo := h
  rw [step] at hgo
  split at hgo
  · cases hgo
  · cases ch with
    | run e =>
      cases hw : s.want c with
      | none =>
        simp only [hw] at hgo
        exact hmap hgo
      | some l =>
        simp only [hw, State.acquire] at hgo
        left
        split at hgo
        · obtain rfl := Option.some.inj hgo
          exact hk
        · split at hgo
          · obtain rfl := Option.some.inj hgo
            exact (s.take_kills c l p).symm.trans hk
          · cases hgo
    | call sc | timer | wake ch | group g | look q => exact hmap hgo

/-- A CPU that takes a step has not panicked. -/
theorem not_panicked_of_step (h : step s a = some t) : s.panicked a.cpu = none := by
  by_contra hne
  rw [step, if_pos hne] at h
  cases h

/-- **What a run keeps**: the slots a `kill` has passed were not its target. -/
structure Kills (x : State × Found) : Prop where
  inv : Inv x.1
  shown : Shown x.1
  found : ∀ p, (x.1.kpc p).kills = true → x.2 p = false

/-- A `kill` that goes on has not found its target. -/
theorem Examines.not_inUse (hx : Examines s a p pid i) (hi : Inv s) (h : step s a = some t)
    (hk : (t.kpc p).kills = true) : ¬InUse s i pid := by
  intro huse
  rw [hx.step_eq hi] at h
  obtain rfl := Option.some.inj h
  simp only [Function.update_self, killNext, if_pos huse.matches] at hk
  cases hk

theorem Kills.step {x y : State × Found} (hx : Kills x) (h : killStep x a = some y) :
    Kills y := by
  obtain ⟨s, f⟩ := x
  obtain ⟨t, f'⟩ := y
  obtain ⟨hs, hf⟩ := Run.watch_eq_some_iff.mp h
  obtain rfl : f' = killNote s a t f := hf
  refine ⟨hx.inv.of_effect (.of_step hs), hx.shown.of_effect hx.inv (.of_step hs),
    fun p hk => ?_⟩
  have hold := kills_of_step hs hk
  change killNote s a t f p = false
  generalize hg : killNote s a t f = g
  unfold killNote at hg
  split at hg
  · next p' pid hpc hch =>
    subst hg
    by_cases hp : p = p'
    · rw [hp, Function.update_self]
    · rw [Function.update_of_ne hp]
      refine hx.found p (hold.resolve_right fun hcall => hp ?_)
      exact Pc.exec.inj (hcall.1.symm.trans hpc)
  · next p' e hpc hch =>
    have hkills : (s.kpc p).kills = true := hold.resolve_right fun hcall => by
      obtain ⟨pid, hcall⟩ := hcall.2
      rw [hch] at hcall
      cases hcall
    split at hg
    · next pid i hcode =>
      subst hg
      by_cases hp : p = p'
      · subst hp
        have hlook : Examines s a p pid i := ⟨hpc, hcode, ⟨e, hch⟩, not_panicked_of_step hs⟩
        have hfound : f p = false := hx.found p hkills
        rw [Function.update_self, hfound, decide_eq_false (hlook.not_inUse hx.inv hs hk)]
        rfl
      · rw [Function.update_of_ne hp]
        exact hx.found p hkills
    · subst hg
      exact hx.found p hkills
  · next hnot hnot' =>
    subst hg
    refine hx.found p (hold.resolve_right fun hcall => ?_)
    obtain ⟨hpc, pid, hch⟩ := hcall
    exact hnot p pid hpc hch

theorem Kills.boot : Kills (boot, fun _ => false) := ⟨Inv.boot, Shown.boot, fun _ _ => rfl⟩

end Process
