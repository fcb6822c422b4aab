import Mathlib.Tactic.Common
import Myv6.Lib.Tally
import Myv6.RwLock.Step

/-!
# RwLock/Inv — nobody is stranded

    read side    read_count  threads from `got` to `rel`        asleep ⇒ a writer is there or waits
    write side   write_active: one thread from `got` to `rel`   asleep ⇒ somebody holds the lock

Mutual exclusion is in the counts.  A sleeper is about to be woken as soon as what it waits for is
over: whoever ends it walks over the slots with `rw->lock` in hand, and until the walk has passed the
slot the sleeper is still ahead of it.
-/

namespace RwLock

open Function (update)

namespace Pc

/-- The thread has `rw->lock` here. -/
def locks : Pc → Bool
  | .enter | .test _ | .sleepAcq _ | .sleepRel _ | .got _ | .rel _ | .wake _ _ | .relEnd => true
  | _ => false

/-- The thread has a side, from the grant until it gives it back. -/
def has (side : Side) : Pc → Bool
  | .got side' | .holding side' | .relAcq side' | .rel side' => side = side'
  | _ => false

/-- The thread is inside `acquire_rw_r_write_lock`, past its first `rw->lock`, and not granted. -/
def waits : Pc → Bool
  | .enter => false
  | .test side | .sleepAcq side | .sleepRel side | .sleepSet side | .asleep side | .relock side =>
    side = .write
  | _ => false

/-- The thread sleeps on a chain, or is on its way there. -/
def sleeps (side : Side) : Pc → Bool
  | .sleepAcq side' | .sleepRel side' | .sleepSet side' | .asleep side' => side = side'
  | _ => false

end Pc

namespace State

variable {n : ℕ}

/-- The threads that have a side. -/
def holders (s : State n) (side : Side) : ℕ := Tally.count fun t => (s.pc t).has side

/-- The writers that wait for their grant. -/
def waiters (s : State n) : ℕ := Tally.count fun t => (s.pc t).waits

/-- What a side sleeps for. -/
def Blocked (s : State n) : Side → Prop
  | .read => s.writeActive ∨ 0 < s.writeWaitCount
  | .write => 0 < s.readCount ∨ s.writeActive

/-- A `wake_up` on the chain is under way and has slot `t` still ahead. -/
def Coming (s : State n) (side : Side) (t : Fin n) : Prop :=
  ∃ u i, s.pc u = .wake side i ∧ i ≤ (t : ℕ)

end State

attribute [local simp] Pc.locks Pc.has Pc.waits Pc.sleeps State.Blocked State.setPc

/-- **The invariant of the lock.** -/
structure Inv {n : ℕ} (s : State n) : Prop where
  lock : ∀ t, s.lock = some t ↔ (s.pc t).locks
  readers : s.readCount = s.holders .read
  writers : (if s.writeActive then (1 : ℤ) else 0) = s.holders .write
  waiters : s.writeWaitCount = s.waiters
  exclusive : s.writeActive → s.readCount = 0
  stranded : ∀ t side, (s.pc t).sleeps side → s.Blocked side ∨ s.Coming side t
  alive : ∀ t, s.panicked t = false

namespace Inv

variable {n : ℕ} {s : State n} {t u : Fin n}

/-- `rw->lock` has one holder. -/
theorem one (h : Inv s) (ht : (s.pc t).locks) (hu : (s.pc u).locks) : t = u :=
  Option.some.inj (((h.lock t).mpr ht).symm.trans ((h.lock u).mpr hu))

/-- One thread moves; the counts move with it. -/
theorem holders_setPc (s : State n) (t : Fin n) (k : Pc) (side : Side) :
    ((s.setPc t k).holders side : ℤ) =
      s.holders side + ((if k.has side then 1 else 0) - (if (s.pc t).has side then 1 else 0)) :=
  Tally.count_update (Pc.has side) s.pc t k

theorem waiters_setPc (s : State n) (t : Fin n) (k : Pc) :
    ((s.setPc t k).waiters : ℤ) =
      s.waiters + ((if k.waits then 1 else 0) - (if (s.pc t).waits then 1 else 0)) :=
  Tally.count_update Pc.waits s.pc t k

end Inv

/-- **A step of one thread** to `k'`, with what it does to the lock and to the counts. -/
structure Move {n : ℕ} (s s' : State n) (t : Fin n) (k' : Pc) : Prop where
  pc : s'.pc = update s.pc t k'
  panicked : s'.panicked = s.panicked
  /-- The lock is kept, taken when it is free, or given back. -/
  lock : s'.lock = s.lock ∧ k'.locks = (s.pc t).locks ∨
    s.lock = none ∧ s'.lock = some t ∧ k'.locks ∨ s'.lock = none ∧ (s.pc t).locks ∧ k'.locks = false
  readers : s'.readCount - s.readCount =
    (if k'.has .read then 1 else 0) - (if (s.pc t).has .read then 1 else 0)
  writers : (if s'.writeActive then (1 : ℤ) else 0) - (if s.writeActive then 1 else 0) =
    (if k'.has .write then 1 else 0) - (if (s.pc t).has .write then 1 else 0)
  waiters : s'.writeWaitCount - s.writeWaitCount =
    (if k'.waits then 1 else 0) - (if (s.pc t).waits then 1 else 0)
  exclusive : (s.writeActive → s.readCount = 0) → s'.writeActive → s'.readCount = 0
  /-- A thread goes to sleep only when it is blocked. -/
  sleeps : ∀ side, k'.sleeps side → (s.pc t).sleeps side ∨ s'.Blocked side
  /-- Whoever unblocks a side begins to wake it up, unless nobody of that side is waiting. -/
  wakes : ∀ side, s.Blocked side → s'.Blocked side ∨ k' = .wake side 0 ∨
    side = .write ∧ s.writeWaitCount ≤ 0
  /-- A `wake_up` goes on until nobody is left. -/
  passes : ∀ side i, s.pc t = .wake side i → ∀ x : Fin n, i ≤ (x : ℕ) → (s.pc x).sleeps side →
    ∃ j ≤ (x : ℕ), k' = .wake side j

variable {n : ℕ} {s s' : State n} {t u : Fin n} {k' : Pc}

/-- **A move keeps the invariant.** -/
theorem Inv.move (h : Inv s) (hm : Move s s' t k') : Inv s' := by
  have hpc : ∀ x, s'.pc x = if x = t then k' else s.pc x := by
    simp [hm.pc, Function.update_apply]
  have hholders : ∀ side, (s'.holders side : ℤ) =
      s.holders side + ((if k'.has side then 1 else 0) - (if (s.pc t).has side then 1 else 0)) := by
    intro side
    have heq : s'.holders side = (s.setPc t k').holders side := by
      simp only [State.holders, State.setPc, hm.pc]
      rfl
    rw [heq, holders_setPc]
  have hwaiters : (s'.waiters : ℤ) =
      s.waiters + ((if k'.waits then 1 else 0) - (if (s.pc t).waits then 1 else 0)) := by
    have heq : s'.waiters = (s.setPc t k').waiters := by
      simp only [State.waiters, State.setPc, hm.pc]
      rfl
    rw [heq, waiters_setPc]
  constructor
  case lock =>
    intro x
    have hx := h.lock x
    have ht := h.lock t
    rw [hpc x]
    obtain ⟨hl, hk⟩ | ⟨hfree, hl, hk⟩ | ⟨hl, hk, hk'⟩ := hm.lock <;> grind
  case readers =>
    have := h.readers
    have := hm.readers
    rw [hholders]
    omega
  case writers =>
    have := h.writers
    have := hm.writers
    rw [hholders]
    omega
  case waiters =>
    have := h.waiters
    have := hm.waiters
    rw [hwaiters]
    omega
  case exclusive => exact hm.exclusive h.exclusive
  case stranded =>
    intro x side hx
    have hcoming : (s.pc x).sleeps side → s.Coming side x → s'.Coming side x := by
      rintro hold ⟨u, i, hu, hi⟩
      by_cases hut : u = t
      · subst hut
        obtain ⟨j, hj, hk'⟩ := hm.passes side i hu x hi hold
        exact ⟨u, j, by simp [hpc, hk'], hj⟩
      · exact ⟨u, i, by simpa [hpc, hut] using hu, hi⟩
    have hkeep : (s.pc x).sleeps side → s'.Blocked side ∨ s'.Coming side x := by
      intro hold
      obtain hb | hc := h.stranded x side hold
      · obtain hb | rfl | ⟨rfl, hle⟩ := hm.wakes side hb
        · exact .inl hb
        · exact .inr ⟨t, 0, by simp [hpc], Nat.zero_le _⟩
        · -- a writer that sleeps is counted
          have hpos : 0 < s.waiters := by
            refine Tally.count_pos_of (i := x) ?_
            revert hold
            cases s.pc x <;> simp [eq_comm]
          have := h.waiters
          omega
      · exact .inr (hcoming hold hc)
    by_cases hxt : x = t
    · subst hxt
      rw [hpc, if_pos rfl] at hx
      exact (hm.sleeps side hx).elim hkeep .inl
    · rw [hpc, if_neg hxt] at hx
      exact hkeep hx
  case alive => simpa [hm.panicked] using h.alive

/-- Who has the read side is counted. -/
theorem Inv.readCount_pos (h : Inv s) (ht : (s.pc t).has .read) : 0 < s.readCount := by
  have hpos : 0 < s.holders .read := Tally.count_pos_of (i := t) ht
  rw [h.readers]
  exact_mod_cast hpos

/-- Who has the write side is the writer. -/
theorem Inv.active_of_has (h : Inv s) (ht : (s.pc t).has .write) : s.writeActive := by
  have hpos : 0 < s.holders .write := Tally.count_pos_of (i := t) ht
  have := h.writers
  by_contra hno
  simp only [hno, if_false] at this
  omega

/-- A sleeper that is woken, for whatever reason. -/
theorem Inv.woken (h : Inv s) {side : Side} (hu : s.pc u = .asleep side) :
    Inv (s.setPc u (.relock side)) := by
  refine h.move (t := u) ⟨rfl, rfl, ?_, ?_, ?_, ?_, ?_, ?_, ?_, ?_⟩
  all_goals simp +contextual [hu]
  grind [State.Blocked]

/-- **A slot of `wake_up` keeps the invariant**: its thread is woken, and was not just falling
asleep. -/
theorem Inv.wakeSlot (h : Inv s) {chain : Side} {i : ℕ} (hi : (u : ℕ) = i)
    (ht : s.pc t = .wake chain i) (hstep : s.wakeSlot t u chain i = some s') : Inv s' := by
  have hpass : ∀ {r : State n}, Inv r → r.pc t = .wake chain i → (r.pc u).sleeps chain = false →
      Inv (r.setPc t (.wake chain (i + 1))) := by
    intro r hr hrt hru
    refine hr.move (t := t) ⟨rfl, rfl, ?_, ?_, ?_, ?_, ?_, ?_, ?_, ?_⟩
    case refine_8 =>
      intro side i' hi' x hx hxs
      obtain ⟨rfl, rfl⟩ := Pc.wake.inj (hrt.symm.trans hi')
      have hxu : x ≠ u := by
        rintro rfl
        rw [hru] at hxs
        cases hxs
      have : (x : ℕ) ≠ u := fun heq => hxu (Fin.ext heq)
      exact ⟨i + 1, by omega, rfl⟩
    all_goals simp +contextual [hrt]
    grind [State.Blocked]
  have hut : (s.pc u).locks → u = t := fun hu => h.one hu (by simp [ht])
  unfold State.wakeSlot at hstep
  split at hstep
  · cases hstep
  · cases hstep
  · next k hk hk' =>
    obtain rfl := Option.some.inj hstep
    split
    · next hasleep =>
      have hne : t ≠ u := by
        rintro rfl
        simp [ht] at hasleep
      refine hpass (h.woken hasleep) (by simp [hne, ht]) ?_
      simp
    · next hawake =>
      refine hpass h ht ?_
      cases hpc : s.pc u <;> simp_all
      grind

/-- **What the next step of a thread is**: a move, or a slot of `wake_up`. -/
theorem Inv.go_cases (h : Inv s) (hstep : s.go t = some s') :
    (∃ k', Move s s' t k') ∨
      ∃ chain i, ∃ hi : i < n, s.pc t = .wake chain i ∧ s.wakeSlot t ⟨i, hi⟩ chain i = some s' := by
  have hread := h.readCount_pos (t := t)
  have hwrite := h.active_of_has (t := t)
  have hexcl := h.exclusive
  have hcount : 0 ≤ s.readCount := by simp [h.readers]
  -- neither release finds the side it gives back not held
  have hreading : s.pc t = .rel .read → ¬(s.writeActive ∨ s.readCount = 0) := by
    intro hpc
    have := hread (by simp [hpc])
    have := hexcl
    grind -linarith
  have hwriting : s.pc t = .rel .write → ¬(s.writeActive = false ∨ s.readCount > 0) := by
    intro hpc
    have := hwrite (by simp [hpc])
    have := hexcl
    grind -linarith
  unfold State.go at hstep
  split at hstep
  case h_14 hpc =>
    split at hstep
    · exact .inr ⟨_, _, ‹_›, hpc, hstep⟩
    · cases hstep
      refine .inl ⟨_, ⟨rfl, rfl, ?_, ?_, ?_, ?_, ?_, ?_, ?_, ?_⟩⟩ <;>
        simp [hpc] <;> grind -linarith
  case h_12 hpc =>
    rw [if_neg (hreading hpc)] at hstep
    left
    split at hstep <;> cases hstep <;> refine ⟨_, ⟨rfl, rfl, ?_, ?_, ?_, ?_, ?_, ?_, ?_, ?_⟩⟩ <;>
      simp_all <;> grind -linarith
  case h_13 hpc =>
    rw [if_neg (hwriting hpc)] at hstep
    left
    split at hstep <;> cases hstep <;> refine ⟨_, ⟨rfl, rfl, ?_, ?_, ?_, ?_, ?_, ?_, ?_, ?_⟩⟩ <;>
      simp_all <;> grind -linarith
  all_goals left
  all_goals try unfold State.acquire at hstep
  all_goals try split at hstep
  all_goals cases hstep
  all_goals refine ⟨_, ⟨rfl, rfl, ?_, ?_, ?_, ?_, ?_, ?_, ?_, ?_⟩⟩
  all_goals simp_all [State.release]
  all_goals grind -linarith

/-- **Every step keeps the invariant.** -/
theorem Inv.of_step {a : Act n} (h : Inv s) (hstep : step s a = some s') : Inv s' := by
  cases a with
  | acquire t side =>
    obtain ⟨hpc, heq⟩ := Option.ite_none_right_eq_some.mp hstep
    obtain rfl := Option.some.inj heq
    refine h.move (t := t) ⟨rfl, rfl, ?_, ?_, ?_, ?_, ?_, ?_, ?_, ?_⟩
    all_goals simp +contextual [hpc]
    grind [State.Blocked]
  | release t =>
    simp only [step] at hstep
    split at hstep
    · next side hpc =>
      obtain rfl := Option.some.inj hstep
      refine h.move (t := t) ⟨rfl, rfl, ?_, ?_, ?_, ?_, ?_, ?_, ?_, ?_⟩
      all_goals simp +contextual [hpc]
      grind [State.Blocked]
    · cases hstep
  | go t =>
    simp only [step, h.alive t] at hstep
    obtain ⟨k', hm⟩ | ⟨chain, i, hi, hpc, hslot⟩ := h.go_cases hstep
    · exact h.move hm
    · exact h.wakeSlot rfl hpc hslot
  | wake t =>
    simp only [step] at hstep
    split at hstep
    · next side hpc =>
      obtain rfl := Option.some.inj hstep
      exact h.woken hpc
    · cases hstep

theorem Inv.init : Inv (init n) := by
  constructor
  all_goals simp [RwLock.init, State.holders, State.waiters, Tally.count]

/-- The invariant holds in every state of every run. -/
theorem reachable_inv (h : Reachable s) : Inv s :=
  h.invariant .init fun _ _ _ hi _ ht => hi.of_step ht

/-- A `wake_up` is under way only while `rw->lock` is held. -/
theorem Inv.blocked (h : Inv s) (hfree : s.lock = none) {side : Side} (ht : s.pc t = .asleep side) :
    s.Blocked side := by
  refine (h.stranded t side (by simp [ht])).resolve_right ?_
  rintro ⟨u, i, hu, -⟩
  have := (h.lock u).mpr (by simp [hu])
  simp [hfree] at this

/-- **The lock excludes, counts and strands nobody.**  In every state of every run of any number of
threads: a writer excludes readers; `read_count` is the number of threads that have the read side,
and at most one thread has the write side, which is there exactly while `write_active` is set;
`write_wait_count` is the number of writers past their first `rw->lock` that have not been granted;
while `rw->lock` is free, a writer is asleep only while somebody has the lock, and a reader only
while a writer has it or waits; and no release panics. -/
theorem excludes_and_strands_nobody {n : ℕ} {s : State n} (h : Reachable s) :
    (s.writeActive → s.readCount = 0) ∧ s.readCount = s.holders .read ∧ s.holders .write ≤ 1 ∧
      (s.writeActive ↔ s.holders .write = 1) ∧ s.writeWaitCount = s.waiters ∧
      (s.lock = none →
        (∀ t, s.pc t = .asleep .write → 0 < s.readCount ∨ s.writeActive) ∧
        ∀ t, s.pc t = .asleep .read → s.writeActive ∨ 0 < s.writeWaitCount) ∧
      ∀ t, s.panicked t = false := by
  have hinv := reachable_inv h
  have hwriters := hinv.writers
  refine ⟨hinv.exclusive, hinv.readers, ?_, ?_, hinv.waiters, fun hfree => ?_, hinv.alive⟩
  · split at hwriters <;> omega
  · split at hwriters <;> simp_all <;> omega
  · exact ⟨fun t ht => hinv.blocked hfree ht, fun t ht => hinv.blocked hfree ht⟩

/-- Thread 0 reads, thread 1 asks for the write side and sleeps, thread 2 asks for the read side and
sleeps behind it. -/
def queueRun : List (Act 3) :=
  [.acquire 0 .read] ++ List.replicate 3 (.go 0) ++ [.acquire 1 .write] ++
    List.replicate 6 (.go 1) ++ [.acquire 2 .read] ++ List.replicate 5 (.go 2)

/-- The theorem there: both sleepers have somebody to wait for. -/
theorem excludes_and_strands_nobody_queueRun :
    ∃ s : State 3, Reachable s ∧ s.pc 1 = .asleep .write ∧ s.pc 2 = .asleep .read ∧
      s.lock = none ∧ s.readCount = s.holders .read ∧ (0 < s.readCount ∨ s.writeActive) := by
  have hrun : (Run.run step (init 3) queueRun).map (fun s => (s.pc 1, s.pc 2, s.lock)) =
      some (.asleep .write, .asleep .read, none) := by decide +kernel
  obtain ⟨s, hs, hlook⟩ := Option.map_eq_some_iff.mp hrun
  simp only [Prod.mk.injEq] at hlook
  obtain ⟨hw, hr, hfree⟩ := hlook
  have hreach : Reachable s := Run.reachable_of_run .refl hs
  obtain ⟨-, hcount, -, -, -, hstrand, -⟩ := excludes_and_strands_nobody hreach
  exact ⟨s, hreach, hw, hr, hfree, hcount, (hstrand hfree).1 1 hw⟩

end RwLock
