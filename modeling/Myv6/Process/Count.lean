import Myv6.Lib.Walk
import Myv6.Process.Reap

/-!
# Process/Count — the walk of `count_proc_num`

    lock_all_process_aux     down the tree from `init`, locking on the way     `Walk.Progress`
    lock_rest_process        everybody else, in the order of the slots

`count_proc_num` reads the links of the tree without a lock, but it holds the lock of `init`, and
without that lock nobody hands over children, and nobody begins a `fork`: the loop of
`alloc_process` starts at slot 0.  So all that can happen to the tree is that a `fork` that was
already past slot 0 attaches its child, which then is a leaf.
-/

namespace Process

open Function (update)

/-- Where `lock_all_process` stands: the child it is about to lock, the loops it is in, and whom the
recursion has locked. -/
def Code.walk : Code → Option (Option ProcId × List (ProcId × ℕ) × (ProcId → Bool))
  | .countAcq q stack locked => some (some q, stack, locked)
  | .countScan stack locked => some (none, stack, locked)
  | .countRest _ locked | .countRestAcq _ locked => some (none, [], locked)
  | _ => none

/-- The process locks that `lock_all_process` has so far. -/
def Code.counted (x : ProcId) : Code → Bool
  | .countAcq _ _ locked | .countScan _ locked => locked x
  | .countRest i locked => locked x || decide ((x : ℕ) < i)
  | .countRestAcq i locked => locked x || decide (x < i)
  | _ => false

/-- A `fork` that needs the lock of slot 0 no more. -/
def Code.forking : Code → Bool
  | .allocAcq i => decide (i ≠ initProc)
  | .allocHeld _ => true
  | k => k.claims.isSome

/-- Slot `x` has no child and is not about to get one. -/
def State.Leaf (s : State) (x : ProcId) : Prop :=
  (∀ y, s.parent y ≠ some x) ∧ (s.kpc x).forking = false

/-- **Every walk of `count_proc_num` is in order.** -/
def Counts (s : State) : Prop :=
  ∀ p next stack locked, (s.kpc p).walk = some (next, stack, locked) →
    Walk.Progress Fin.val initProc s.parent s.Leaf next stack locked

/-- A walk holds the lock of `init` and those it has locked. -/
theorem Code.holds_of_walk {k : Code} {p x : ProcId} {next : Option ProcId}
    {stack : List (ProcId × ℕ)} {locked : ProcId → Bool} (h : k.walk = some (next, stack, locked)) :
    k.parked = false ∧ (locked x → k.counted x) ∧ (k.counted x → k.Holds p (.proc x)) := by
  cases k <;> simp_all [Code.walk, Code.parked, Code.open, Code.counted, Code.Holds]

/-- Acquiring: the walk begins, or visits what it has found. -/
theorem Code.got_walk {s : State} {p : ProcId} {k : Code} {l : Lock} (hw : k.want p = some l)
    {next : Option ProcId} {stack : List (ProcId × ℕ)} {locked : ProcId → Bool}
    (h : (k.got s p).walk = some (next, stack, locked)) :
    k.walk = some (next, stack, locked) ∨
      (next = none ∧ stack = [(initProc, 0)] ∧ locked = fun j => decide (j = initProc)) ∨
      ∃ q stack' locked', k.walk = some (some q, stack', locked') ∧ next = none ∧
        stack = (q, 0) :: stack' ∧ locked = update locked' q true := by
  revert hw
  fun_cases Code.want p k <;> intro hw <;> cases hw <;> simp_all [Code.got, Code.walk]

/-- Beginning a `fork` takes the lock of slot 0. -/
theorem Code.got_forking {s : State} {p : ProcId} {k : Code} {l : Lock} (hw : k.want p = some l)
    (h : (k.got s p).forking) : k.forking ∨ l = .proc initProc := by
  revert hw
  fun_cases Code.want p k <;> intro hw <;> cases hw <;>
    simp_all [Code.got, Code.forking, Code.claims]
  grind

/-- **A row of the walk** finds a child, goes past a slot, or ends a loop. -/
theorem Code.Goes.walks {s : State} {p p' : ProcId} {k k' : Code} {r : Row}
    (h : k.Goes s p r) (hnext : r.next = .code p' k') {next : Option ProcId}
    {stack : List (ProcId × ℕ)} {locked : ProcId → Bool}
    (hwalk : k'.walk = some (next, stack, locked)) :
    r.post.parent = s.parent ∧ r.post.kpc = s.kpc ∧ (k.walk = some (next, stack, locked) ∨
      (∃ q i, ∃ j : ProcId, ∃ stack', k.walk = some (none, (q, i) :: stack', locked) ∧ (j : ℕ) = i ∧
        s.parent j = some q ∧ next = some j ∧ stack = (q, i + 1) :: stack') ∨
      (∃ q i, ∃ j : ProcId, ∃ stack', k.walk = some (none, (q, i) :: stack', locked) ∧ (j : ℕ) = i ∧
        s.parent j ≠ some q ∧ next = none ∧ stack = (q, i + 1) :: stack') ∨
      ∃ q i, k.walk = some (none, (q, i) :: stack, locked) ∧ procNum ≤ i ∧ next = none) := by
  obtain ⟨e, h⟩ | ⟨sc, h⟩ := h <;> revert h
  · fun_cases Code.row s e p k <;> intro h <;> cases h
    all_goals cases hnext
    all_goals simp only [Code.walk, reduceCtorEq] at hwalk
    all_goals refine ⟨rfl, rfl, ?_⟩
    all_goals simp only [Code.walk]
    all_goals grind [slot_eq_some, slot_eq_none]
  · fun_cases Code.call s p k sc <;> intro h <;> cases h
    all_goals cases hnext
    all_goals simp [Code.walk] at hwalk

/-- No row begins a `fork` past slot 0. -/
theorem Code.Goes.forking {s : State} {p p' : ProcId} {k k' : Code} {r : Row}
    (h : k.Goes s p r) (hnext : r.next = .code p' k') (hfork : k'.forking) : k.forking := by
  obtain ⟨e, h⟩ | ⟨sc, h⟩ := h <;> revert h
  · fun_cases Code.row s e p k <;> intro h <;> cases h
    all_goals cases hnext
    all_goals simp_all [Code.forking, Code.claims]
  · fun_cases Code.call s p k sc <;> intro h <;> cases h
    all_goals cases hnext
    all_goals simp_all [Code.forking, Code.claims, initProc]

/-- Who switches away neither walks nor forks. -/
theorem Code.Goes.switch_walk {s : State} {p p' : ProcId} {k k' : Code} {r : Row} {r' : Resume}
    (h : k.Goes s p r) (hnext : r.next = .switch p' k' r') :
    k'.walk = none ∧ k'.forking = false := by
  obtain ⟨e, h⟩ | ⟨sc, h⟩ := h <;> revert h
  · fun_cases Code.row s e p k <;> intro h <;> cases h
    all_goals cases hnext
    all_goals exact ⟨rfl, rfl⟩
  · fun_cases Code.call s p k sc <;> intro h <;> cases h
    all_goals cases hnext

/-- What has found a child goes on under the lock of its process. -/
theorem Code.holds_of_found {k : Code} {p x : ProcId} (h : k.found = some x) :
    k.Holds p (.proc p) := by
  cases k <;> simp_all [Code.found, Code.Holds]

theorem Code.forking_of_claims {k : Code} {x : ProcId} (h : k.claims = some x) : k.forking := by
  cases k <;> simp_all [Code.claims, Code.forking]

/-! ## The walk goes on while the tree changes -/

namespace Counts

variable {s t : State} {c : CpuId} {p : ProcId} {l : Lock}

theorem takeCode (hinv : Inv s) (htree : Tree s) (h : Counts s) (hpc : s.pc c = .exec p)
    (hw : (s.kpc p).want p = some l) (hl : s.lock l = none) :
    Counts { s with
      lock := update s.lock l (some c)
      kpc := update s.kpc p ((s.kpc p).got s p) } := by
  intro y next stack locked hwalk
  -- a `fork` does not get the lock of slot 0 while a walk is under way
  have hleaf : ∀ x y' next' stack' locked', (s.kpc y').walk = some (next', stack', locked') →
      s.Leaf x → State.Leaf { s with
        lock := update s.lock l (some c)
        kpc := update s.kpc p ((s.kpc p).got s p) } x := by
    rintro x y' next' stack' locked' hwalk' ⟨hnone, hfork⟩
    refine ⟨hnone, ?_⟩
    by_cases hx : x = p
    · subst hx
      simp only [Function.update_self, Bool.eq_false_iff]
      intro hfork'
      obtain hfork' | rfl := Code.got_forking hw hfork'
      · simp [hfork] at hfork'
      · have hprog := h y' next' stack' locked' hwalk'
        obtain ⟨hpark, hlocked, hheld⟩ := Code.holds_of_walk (p := y') (x := initProc) hwalk'
        obtain ⟨d, -, hd⟩ := hinv.exec_of_not_parked hpark
        exact hinv.not_holds_of_free hl (hd _ (hheld (hlocked hprog.seen_root)))
    · simpa [hx] using hfork
  by_cases hy : y = p
  · subst hy
    simp only [Function.update_self] at hwalk
    obtain hsame | ⟨rfl, rfl, rfl⟩ | ⟨q, stack', locked', hold, rfl, rfl, rfl⟩ :=
      Code.got_walk hw hwalk
    · exact (h y _ _ _ hsame).change (fun _ _ => rfl) (fun _ _ => rfl)
        fun j u hj => .inl ⟨hj, hleaf j y _ _ _ hsame⟩
    · exact .start htree.root
    · exact ((h y _ _ _ hold).visit).change (fun _ _ => rfl) (fun _ _ => rfl)
        fun j u hj => .inl ⟨hj, hleaf j y _ _ _ hold⟩
  · simp only [Function.update_of_ne hy] at hwalk
    exact (h y _ _ _ hwalk).change (fun _ _ => rfl) (fun _ _ => rfl)
      fun j u hj => .inl ⟨hj, hleaf j y _ _ _ hwalk⟩

/-- **What a process does to the tree while another one walks it.** -/
theorem around {k' : Code} {op : Op} {post : State} (hinv : Inv s) (htree : Tree s)
    (hpc : s.pc c = .exec p) (hgo : (s.kpc p).Goes s p ⟨op, post, .code p k'⟩) {y : ProcId}
    (hy : y ≠ p) {next : Option ProcId} {stack : List (ProcId × ℕ)} {locked : ProcId → Bool}
    (hwalk : (s.kpc y).walk = some (next, stack, locked))
    (h : Walk.Progress Fin.val initProc s.parent s.Leaf next stack locked) :
    Walk.Progress Fin.val initProc post.parent
      (State.Leaf { post with lock := op.drop post.lock, kpc := update post.kpc p k' })
      next stack locked := by
  have hmove : ∀ x, TreeMove s post p (s.kpc p) k' x := hgo.tree rfl
  have hslot : ∀ x, SlotMove s post p (s.kpc p) k' x := hgo.slot (hinv.distinct p) rfl
  have hfork : k'.forking → (s.kpc p).forking := hgo.forking rfl
  have hothers := fun x hx => htree.others hinv hgo (x := x) hx
  have hrun : s.status p = .running := by
    have := hinv.cpu c
    simp_all [Pc.Ok]
  -- nobody else holds what the walk holds
  have hfar : ∀ x, locked x → ¬(s.kpc p).Holds p (.proc x) := by
    intro x hx hheld
    obtain ⟨hpark, hlocked, hwheld⟩ := Code.holds_of_walk (p := y) (x := x) hwalk
    exact hy (hinv.code_holder hpc hheld hpark (hwheld (hlocked hx)))
  have hstay : (s.kpc p).handsOver = false := by
    by_contra hover
    exact hfar initProc h.seen_root (Code.holds_of_handsOver (by simpa using hover)).2
  have hadopt : ∀ x, (s.kpc p).found = some x → (s.kpc p).exiting = none := by
    intro x hfound
    by_contra hexit
    simp [Code.handsOver_of_found hfound hexit] at hstay
  -- so a link the walk has gone along stays
  have hlink : ∀ x, locked x ∨ next = some x → post.parent x = s.parent x := by
    intro x hx
    have hlocked : locked x → x = initProc ∨ s.parent x ≠ none := by
      intro hx
      by_cases hinit : x = initProc
      · exact .inl hinit
      · obtain ⟨u, hu, -⟩ := h.seen_parent x hx hinit
        exact .inr (by simp [hu])
    have hfound : next = some x → ∃ u, s.parent x = some u ∧ locked u := by
      intro hx
      obtain ⟨-, u, i, rest, rfl, hu⟩ := h.found x hx
      exact ⟨u, hu, h.stack_seen u i List.mem_cons_self⟩
    have hself : ∀ x, (s.kpc p).found = some x → locked p = false := by
      intro x hx
      by_contra hp
      exact hfar p (by simpa using hp) (Code.holds_of_found hx)
    have := htree.fresh p x
    have := htree.found p x
    have := htree.init
    have := hinv.claim p x
    have := hadopt x
    have := hself x
    cases hmove x with
    | free hfree hs hp =>
      have := hfar x
      cases hslot x <;> grind [Status.alive]
    | _ => grind [Status.alive]
  refine h.change (fun x hx => hlink x (.inl hx)) (fun x hx => hlink x (.inr hx)) fun x u hx => ?_
  have hkids : ∀ z v, post.parent z = some v → s.parent z = some v ∨
      (s.kpc p).claims = some z ∧ s.parent z = none ∧ v = p := by
    intro z v hz
    have := hadopt z
    have := htree.fresh p z
    cases hmove z <;> grind
  obtain hold | ⟨hclaim, hnone, rfl⟩ := hkids x u hx
  · refine .inl ⟨hold, ?_⟩
    rintro ⟨hnone, hquiet⟩
    refine ⟨fun z hz => ?_, ?_⟩
    · obtain hz | ⟨hclaim, -, rfl⟩ := hkids z x hz
      · exact hnone z hz
      · simp [Code.forking_of_claims hclaim] at hquiet
    · by_cases hxp : x = p
      · subst hxp
        simp only [Function.update_self]
        exact Bool.eq_false_iff.mpr fun hf => by simp [hfork hf] at hquiet
      · rcases hothers x hxp with hk | ⟨hk, -⟩ <;> simp only [hk]
        · exact hquiet
        · rfl
  · -- the new child is a slot just made up: it has no child, and its code has not begun
    have hused := hinv.claim u x hclaim
    have hxp : x ≠ u := by
      rintro rfl
      simp [hrun] at hused
    refine .inr ⟨⟨fun z hz => ?_, ?_⟩, hnone⟩
    · obtain hz | ⟨-, -, rfl⟩ := hkids z x hz
      · have := (htree.parent z x hz).1
        simp [hused, Status.alive] at this
      · exact hxp rfl
    · have := hinv.idle x (.inr hused)
      rcases hothers x hxp with hk | ⟨hk, -⟩ <;> simp [hk, this, Code.forking, Code.claims]

theorem code {k' : Code} {op : Op} {post : State} (hinv : Inv s) (htree : Tree s) (h : Counts s)
    (hpc : s.pc c = .exec p) (hgo : (s.kpc p).Goes s p ⟨op, post, .code p k'⟩) :
    Counts { post with lock := op.drop post.lock, kpc := update post.kpc p k' } := by
  intro y next stack locked hwalk
  by_cases hy : y = p
  · subst hy
    simp only [Function.update_self] at hwalk
    obtain ⟨hparent, hkpc, hcases⟩ := hgo.walks rfl hwalk
    have hfork : k'.forking → (s.kpc y).forking := hgo.forking rfl
    dsimp only at hparent hkpc
    -- the walk makes one of its steps in a tree that stays as it is
    suffices hprog : Walk.Progress Fin.val initProc s.parent s.Leaf next stack locked by
      refine hprog.change (fun x _ => congrFun hparent x) (fun x _ => congrFun hparent x) ?_
      intro x u hx
      refine .inl ⟨by rwa [← hparent], fun ⟨hnone, hquiet⟩ => ⟨by simpa [hparent] using hnone, ?_⟩⟩
      by_cases hxy : x = y
      · subst hxy
        simp only [Function.update_self]
        exact Bool.eq_false_iff.mpr fun hf => by simp [hfork hf] at hquiet
      · simpa [hxy, hkpc] using hquiet
    obtain hsame | ⟨q, i, j, stack', hold, hi, hj, rfl, rfl⟩ |
      ⟨q, i, j, stack', hold, hi, hj, rfl, rfl⟩ | ⟨q, i, hold, hi, rfl⟩ := hcases
    · exact h y _ _ _ hsame
    · exact (h y _ _ _ hold).find Fin.val_injective hi hj
    · refine (h y _ _ _ hold).skip fun j' hj' => ?_
      obtain rfl : j' = j := Fin.ext (hj'.trans hi.symm)
      exact hj
    · exact (h y _ _ _ hold).finish fun j => j.isLt.trans_le hi
  · have hk : update post.kpc p k' y = s.kpc y := by
      rcases htree.others hinv hgo hy with hk | ⟨hk, -⟩
      · exact hk
      · simp [hk, Code.walk] at hwalk
    simp only [hk] at hwalk
    exact around hinv htree hpc hgo hy hwalk (h y _ _ _ hwalk)

/-- **Every step keeps it.** -/
theorem of_effect (hinv : Inv s) (htree : Tree s) (h : Counts s) (heff : Effect s c t) :
    Counts t := by
  cases heff with
  | fail _ | takeCpu _ _ _ => exact h
  | takeCode hpc hw hl => exact h.takeCode hinv htree hpc hw hl
  | code hpc hgo _ => exact h.code hinv htree hpc hgo
  | @switch p k _ post hpc hgo =>
    obtain ⟨hparent, -⟩ := hgo.away rfl
    obtain ⟨-, -, hkpc, -, -⟩ := hgo.switch rfl
    obtain ⟨hwalk', hfork⟩ := hgo.switch_walk rfl
    dsimp only at hparent hkpc
    intro y next stack locked hwalk
    by_cases hy : y = p
    · subst hy
      simp [hwalk'] at hwalk
    · simp only [Function.update_of_ne hy, hkpc] at hwalk
      refine (h y _ _ _ hwalk).change (fun x _ => congrFun hparent x)
        (fun x _ => congrFun hparent x) fun x u hx => ?_
      refine .inl ⟨by rwa [← hparent], fun ⟨hnone, hquiet⟩ => ⟨by simpa [hparent] using hnone, ?_⟩⟩
      by_cases hxp : x = p
      · simpa [hxp] using hfork
      · simpa [hxp, hkpc] using hquiet
  | cpu hpc hmove _ => cases hmove <;> exact h

end Counts

/-- Every walk of every run is in order. -/
theorem Reach.counts {ok : State → Act → Prop} {s : State} (h : Run.Reach step ok boot s) :
    Counts s :=
  h.invariant_with (by simp [Counts, boot, Code.walk]) fun _ _ _ hs hi _ ht =>
    hi.of_effect (Reach.inv hs) (Reach.tree hs) (.of_step ht)

end Process
