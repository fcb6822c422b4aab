import Myv6.Lib.Run
import Myv6.Process.State
import Mathlib.Data.Fintype.EquivFin
import Mathlib.Data.Fintype.Pi

/-!
# Process/Pids — `pid_set` against the process table

    claim ▸ test ▸ init ─alloc_pid─▸ given ─pid=─▸ copy ▸ ready        fork
                    └─▸ undo                        └─▸ free            its failures
    reap ▸ free ─free_pid─▸ freed ─pid=-1─▸ UNUSED                      wait

`Process/Step` takes `alloc_pid` together with the assignment of the pid, and `free_process` as one
step.  Here `pid_set` moves on its own, under `pid_lock`, while a claimed slot has no pid yet and a
slot that is being freed still shows its old one.  A thread is a call of `fork`, `wait` or `kill`;
threads interleave at every lock operation, and slots that run, sleep or die change their status on
their own.
-/

namespace Pids

open Function (update)
open Process (Status ProcId procNum slot)

abbrev ThreadId := ℕ

/-- Where a thread stands. -/
inductive Pc
  | out
  /-- The loop of `alloc_process`, before and under the lock of the slot. -/
  | claim (i : ProcId) | test (i : ProcId)
  /-- `init_user_process` up to `alloc_pid`, and with the pid that returned. -/
  | init (q : ProcId) | given (q : ProcId) (pid : ℤ)
  /-- `alloc_process` gives the slot back. -/
  | undoAcq (q : ProcId) | undo (q : ProcId)
  /-- `fork` after `alloc_process`. -/
  | copy (q : ProcId) | readyAcq (q : ProcId) | ready (q : ProcId)
  /-- `fork` could not copy the memory: before the lock of the slot. -/
  | freeAcq (q : ProcId)
  /-- `free_process`, before and after its `free_pid`. -/
  | free (q : ProcId) | freed (q : ProcId)
  /-- `handle_exit_child` at a slot. -/
  | reapAcq (q : ProcId) | reap (q : ProcId)
  /-- The loop of `kill`. -/
  | killAcq (pid : ℤ) (i : ProcId) | kill (pid : ℤ) (i : ProcId)
  /-- The panic of `free_pid`. -/
  | panic
  deriving DecidableEq, Repr

/-- The process table as far as pids go. -/
structure State where
  status : ProcId → Status
  pid : ProcId → ℤ
  killed : ProcId → Bool
  pidSet : ℤ → Bool
  lock : ProcId → Option ThreadId
  pc : ThreadId → Pc

namespace State

/-- The scan of `alloc_pid`. -/
def allocPid (s : State) : Option ℤ :=
  (List.range procNum).findSome? fun i : ℕ => if s.pidSet i then none else some (i : ℤ)

def setPc (s : State) (t : ThreadId) (k : Pc) : State := { s with pc := update s.pc t k }

/-- `acquire_spin_lock`, once the lock is free. -/
def acquire (s : State) (t : ThreadId) (q : ProcId) (k : Pc) : Option State :=
  if s.lock q = none then
    some { s with lock := update s.lock q (some t), pc := update s.pc t k }
  else none

/-- `release_spin_lock`. -/
def release (s : State) (t : ThreadId) (q : ProcId) (k : Pc) : State :=
  { s with lock := update s.lock q none, pc := update s.pc t k }

/-- The next step of a thread; `ok` tells whether the allocation or copy in it succeeds. -/
def run (s : State) (t : ThreadId) (ok : Bool) : Option State :=
  match s.pc t with
  | .out | .panic => none
  -- `alloc_process`
  | .claim i => s.acquire t i (.test i)
  | .test i =>
    some (if s.status i = .unused then
      { s with status := update s.status i .used }.release t i (.init i)
    else match slot (i + 1) with
      | some j => s.release t i (.claim j)
      | none => s.release t i .out)
  | .init q =>
    match s.allocPid, ok with
    | some n, true => some ({ s with pidSet := update s.pidSet n true }.setPc t (.given q n))
    | _, _ => some (s.setPc t (.undoAcq q))
  | .given q n =>
    some ({ s with
      pid := update s.pid q n
      status := update s.status q .used
      killed := update s.killed q false }.setPc t (.copy q))
  | .undoAcq q => s.acquire t q (.undo q)
  | .undo q => some ({ s with status := update s.status q .unused }.release t q .out)
  -- `fork`
  | .copy q => some (s.setPc t (if ok then .readyAcq q else .freeAcq q))
  | .readyAcq q => s.acquire t q (.ready q)
  | .ready q => some ({ s with status := update s.status q .runable }.release t q .out)
  | .freeAcq q => s.acquire t q (.free q)
  -- `free_process`
  | .free q =>
    some (if s.pidSet (s.pid q) then
      { s with pidSet := update s.pidSet (s.pid q) false }.setPc t (.freed q)
    else s.setPc t .panic)
  | .freed q =>
    some ({ s with
      pid := update s.pid q (-1)
      status := update s.status q .unused
      killed := update s.killed q false }.release t q .out)
  -- `handle_exit_child`
  | .reapAcq q => s.acquire t q (.reap q)
  | .reap q =>
    some (if s.status q = .zombie ∧ ok then s.setPc t (.free q) else s.release t q .out)
  -- `kill`
  | .killAcq pid i => s.acquire t i (.kill pid i)
  | .kill pid i =>
    some (if s.status i = .used ∨ s.pid i ≠ pid then
      match slot (i + 1) with
      | some j => s.release t i (.killAcq pid j)
      | none => s.release t i .out
    else { s with killed := update s.killed i true }.release t i .out)

end State

/-- The states of a process that is in use. -/
def live : Status → Bool
  | .runable | .running | .sleep | .zombie => true
  | .unused | .used => false

/-- What can happen next. -/
inductive Act
  /-- Thread `t` calls `fork`; at boot `setup_init_proc` does the same. -/
  | fork (t : ThreadId)
  /-- Thread `t` looks at slot `q` in `wait`. -/
  | wait (t : ThreadId) (q : ProcId)
  /-- Thread `t` calls `kill(pid)`. -/
  | kill (t : ThreadId) (pid : ℤ)
  /-- Thread `t` goes on. -/
  | run (t : ThreadId) (ok : Bool)
  /-- A process that is in use, and not dead, changes its status under its lock. -/
  | change (q : ProcId) (st : Status)
  deriving DecidableEq, Repr

/-- **One step.** -/
def step (s : State) : Act → Option State
  | .fork t => if s.pc t = .out then some (s.setPc t (.claim 0)) else none
  | .wait t q => if s.pc t = .out then some (s.setPc t (.reapAcq q)) else none
  | .kill t pid => if s.pc t = .out then some (s.setPc t (.killAcq pid 0)) else none
  | .run t ok => s.run t ok
  | .change q st =>
    if s.lock q = none ∧ live (s.status q) ∧ s.status q ≠ .zombie ∧ live st then
      some { s with status := update s.status q st }
    else none

/-- The state after `process_init`. -/
def processInit : State where
  status := fun _ => .unused
  pid := fun _ => -1
  killed := fun _ => false
  pidSet := fun _ => false
  lock := fun _ => none
  pc := fun _ => .out

/-! ## Who has been given which pid -/

/-- The pid each slot has been given and has not given back. -/
abbrev Given := ProcId → Option ℤ

/-- `alloc_pid` gives a pid to the slot it is called for, `free_pid` takes it back. -/
def note (s : State) (a : Act) (_ : State) (h : Given) : Given :=
  match a with
  | .run t ok =>
    match s.pc t with
    | .init q => if ok then update h q s.allocPid else h
    | .free q => if s.pidSet (s.pid q) then update h q none else h
    | _ => h
  | _ => h

/-- The system beside that record. -/
abbrev pidStep : State × Given → Act → Option (State × Given) := Run.watch step note

/-- The slot is being freed: `free_pid` has been called and the slot is not `UNUSED` yet. -/
def BeingFreed (s : State) (q : ProcId) : Prop := ∃ t, s.pc t = .freed q

/-- **The books agree**: no pid is shown twice, `pid_set` holds the pids given and not given back,
one slot for each, `free_pid` does not panic, and `alloc_pid` finds a pid for a claimed slot. -/
structure Agree (x : State × Given) : Prop where
  distinct : ∀ q q', q ≠ q' → x.1.status q ≠ .unused → x.1.status q' ≠ .unused →
    ¬BeingFreed x.1 q → ¬BeingFreed x.1 q' → x.1.pid q = x.1.pid q' → x.1.pid q < 0
  pidSet : ∀ n, x.1.pidSet n = true ↔ ∃! q, x.2 q = some n
  noPanic : ∀ t, x.1.pc t ≠ .panic
  found : ∀ t q, x.1.pc t = .init q → x.1.allocPid ≠ none

variable {s s' : State} {h h' : Given} {t u : ThreadId} {q q' : ProcId} {n : ℤ} {k l : Pc}
  {a : Act} {x y : State × Given} {b : ℤ → Bool} {lock' : ProcId → Option ThreadId} {fine : Bool}

/-! ## The pids given -/

/-- `pid_set` holds the pids given, one slot for each. -/
structure Books (b : ℤ → Bool) (h : Given) : Prop where
  set : ∀ n, b n = true ↔ ∃ q, h q = some n
  one : ∀ q q' n, h q = some n → h q' = some n → q = q'
  range : ∀ q n, h q = some n → ∃ i < procNum, n = (i : ℕ)

/-- What `alloc_pid` returns. -/
theorem allocPid_spec (hn : s.allocPid = some n) :
    s.pidSet n = false ∧ ∃ i < procNum, n = (i : ℕ) := by
  obtain ⟨i, hi, hfound⟩ := List.exists_of_findSome?_eq_some hn
  split at hfound
  · cases hfound
  · next hset =>
    obtain rfl := Option.some.inj hfound
    exact ⟨Bool.eq_false_iff.mpr hset, i, List.mem_range.mp hi, rfl⟩

/-- **`alloc_pid` finds a pid while one slot has none**: there are as many pids as slots. -/
theorem Books.found (hb : Books s.pidSet h) (hq : h q = none) : s.allocPid ≠ none := by
  intro hnone
  have hall : ∀ i : ProcId, s.pidSet i = true := by
    intro i
    have hi := List.findSome?_eq_none_iff.mp hnone i (List.mem_range.mpr i.isLt)
    split at hi
    · assumption
    · cases hi
  choose holder hholder using fun i : ProcId => (hb.set i).mp (hall i)
  have hinj : Function.Injective holder := by
    intro i j heq
    have hi := hholder i
    rw [heq, hholder j] at hi
    exact Fin.ext (Int.ofNat_inj.mp (Option.some.inj hi)).symm
  obtain ⟨i, hi⟩ := Finite.surjective_of_injective hinj q
  rw [← hi, hholder i] at hq
  cases hq

/-- A pid is given to a slot that has none. -/
theorem Books.give (hb : Books s.pidSet h) (hq : h q = none) (hn : s.allocPid = some n) :
    Books (update s.pidSet n true) (update h q (some n)) := by
  obtain ⟨hfree, hrange⟩ := allocPid_spec hn
  have hnobody : ∀ q', h q' ≠ some n := fun q' hq' => by
    rw [(hb.set n).mpr ⟨q', hq'⟩] at hfree
    cases hfree
  refine ⟨fun m => ?_, fun p p' m hp hp' => ?_, fun p m hp => ?_⟩
  · by_cases hm : m = n
    · subst hm
      simp only [Function.update_self, true_iff]
      exact ⟨q, Function.update_self ..⟩
    · rw [Function.update_of_ne hm, hb.set]
      refine exists_congr fun p => ?_
      by_cases hp : p = q
      · subst hp
        simp [hq, Ne.symm hm]
      · rw [Function.update_of_ne hp]
  · by_cases hpq : p = q <;> by_cases hpq' : p' = q
    · rw [hpq, hpq']
    · rw [hpq, Function.update_self] at hp
      obtain rfl := Option.some.inj hp
      rw [Function.update_of_ne hpq'] at hp'
      exact absurd hp' (hnobody p')
    · rw [hpq', Function.update_self] at hp'
      obtain rfl := Option.some.inj hp'
      rw [Function.update_of_ne hpq] at hp
      exact absurd hp (hnobody p)
    · rw [Function.update_of_ne hpq] at hp
      rw [Function.update_of_ne hpq'] at hp'
      exact hb.one p p' m hp hp'
  · by_cases hpq : p = q
    · rw [hpq, Function.update_self] at hp
      obtain rfl := Option.some.inj hp
      exact hrange
    · rw [Function.update_of_ne hpq] at hp
      exact hb.range p m hp

/-- A pid is taken back. -/
theorem Books.takeBack (hb : Books b h) (hq : h q = some n) :
    Books (update b n false) (update h q none) := by
  refine ⟨fun m => ?_, fun p p' m hp hp' => ?_, fun p m hp => ?_⟩
  · by_cases hm : m = n
    · subst hm
      simp only [Function.update_self, Bool.false_eq_true, false_iff, not_exists]
      intro p hp
      by_cases hpq : p = q
      · rw [hpq, Function.update_self] at hp
        cases hp
      · rw [Function.update_of_ne hpq] at hp
        exact hpq (hb.one p q m hp hq)
    · rw [Function.update_of_ne hm, hb.set]
      refine exists_congr fun p => ?_
      by_cases hp : p = q
      · subst hp
        simp [hq, Ne.symm hm]
      · rw [Function.update_of_ne hp]
  · by_cases hpq : p = q
    · rw [hpq, Function.update_self] at hp
      cases hp
    · by_cases hpq' : p' = q
      · rw [hpq', Function.update_self] at hp'
        cases hp'
      · rw [Function.update_of_ne hpq] at hp
        rw [Function.update_of_ne hpq'] at hp'
        exact hb.one p p' m hp hp'
  · by_cases hpq : p = q
    · rw [hpq, Function.update_self] at hp
      cases hp
    · rw [Function.update_of_ne hpq] at hp
      exact hb.range p m hp

/-! ## Who is at which slot -/

/-- The slot whose pid the thread sees to. -/
def Pc.slot : Pc → Option ProcId
  | .init q | .given q _ | .undoAcq q | .undo q | .copy q | .readyAcq q | .ready q | .freeAcq q
  | .free q | .freed q => some q
  | _ => none

/-- The slot whose lock the thread holds. -/
def Pc.holds : Pc → Option ProcId
  | .test q | .undo q | .ready q | .free q | .freed q | .reap q | .kill _ q => some q
  | _ => none

/-- What a thread knows of its slot. -/
def Pc.Ok (s : State) (h : Given) : Pc → Prop
  | .init q | .undoAcq q | .undo q => s.status q = .used ∧ s.pid q = -1 ∧ h q = none
  | .given q n => s.status q = .used ∧ s.pid q = -1 ∧ h q = some n
  | .copy q | .readyAcq q | .ready q | .freeAcq q => s.status q = .used ∧ h q = some (s.pid q)
  | .free q => s.status q ≠ .unused ∧ h q = some (s.pid q)
  | .freed q => s.status q ≠ .unused ∧ h q = none
  | .panic => False
  | _ => True

/-- A slot no thread sees to is `UNUSED` and has no pid, or in use and has the one it shows. -/
def Spare (s : State) (h : Given) (q : ProcId) : Prop :=
  s.status q = .unused ∧ s.pid q = -1 ∧ h q = none ∨
    live (s.status q) = true ∧ h q = some (s.pid q)

/-- **What a run keeps.** -/
structure Inv (x : State × Given) : Prop where
  owner : ∀ t q, (x.1.pc t).holds = some q ↔ x.1.lock q = some t
  alone : ∀ t u q, (x.1.pc t).slot = some q → (x.1.pc u).slot = some q → t = u
  ok : ∀ t, (x.1.pc t).Ok x.1 x.2
  spare : ∀ q, (∀ t, (x.1.pc t).slot ≠ some q) → Spare x.1 x.2 q
  books : Books x.1.pidSet x.2

/-- What a thread knows stays true while its slot stays as it is. -/
theorem Pc.Ok.congr (hk : k.Ok s h) (hslot : ∀ q, k.slot = some q →
    s'.status q = s.status q ∧ s'.pid q = s.pid q ∧ h' q = h q) : k.Ok s' h' := by
  cases k
  case init q | given q m | undoAcq q | undo q | copy q | readyAcq q | ready q | freeAcq q
    | free q | freed q =>
    obtain ⟨hstatus, hpid, hgiven⟩ := hslot q rfl
    simp only [Pc.Ok] at hk ⊢
    rw [hstatus, hgiven]
    first | exact hk | (rw [hpid]; exact hk)
  all_goals exact hk

theorem Spare.congr (hq : Spare s h q) (hstatus : s'.status q = s.status q)
    (hpid : s'.pid q = s.pid q) (hgiven : h' q = h q) : Spare s' h' q := by
  rw [Spare, hstatus, hpid, hgiven]
  exact hq

/-- A slot a thread sees to is not `UNUSED`. -/
theorem Pc.Ok.used (hk : k.Ok s h) (hq : k.slot = some q) : s.status q ≠ .unused := by
  cases k with
  | free q' | freed q' =>
    obtain rfl := Option.some.inj hq
    exact hk.1
  | init q' | given q' m | undoAcq q' | undo q' | copy q' | readyAcq q' | ready q' | freeAcq q' =>
    obtain rfl := Option.some.inj hq
    rw [hk.1]
    decide
  | _ => cases hq

/-- Nor is it in use, but under its lock. -/
theorem Pc.Ok.not_live (hk : k.Ok s h) (hq : k.slot = some q) (hholds : k.holds ≠ some q) :
    live (s.status q) = false := by
  cases k with
  | free q' | freed q' =>
    obtain rfl := Option.some.inj hq
    exact absurd rfl hholds
  | init q' | given q' m | undoAcq q' | undo q' | copy q' | readyAcq q' | ready q' | freeAcq q' =>
    obtain rfl := Option.some.inj hq
    rw [hk.1]
    rfl
  | _ => cases hq

/-! ## One thread goes on -/

/-- **What happens to the locks** when thread `t` goes on to `l`. -/
inductive Hands (s : State) (t : ThreadId) (l : Pc) : (ProcId → Option ThreadId) → Prop
  | keep (hk : l.holds = (s.pc t).holds) : Hands s t l s.lock
  | take (q : ProcId) (hfree : s.lock q = none) (hout : (s.pc t).holds = none)
      (hk : l.holds = some q) : Hands s t l (update s.lock q (some t))
  | drop (q : ProcId) (hin : (s.pc t).holds = some q) (hk : l.holds = none) :
      Hands s t l (update s.lock q none)

/-- A lock is held by the thread whose code holds it. -/
theorem Hands.owner (hhands : Hands s t l lock')
    (hown : ∀ t q, (s.pc t).holds = some q ↔ s.lock q = some t) (u : ThreadId) (q' : ProcId) :
    (update s.pc t l u).holds = some q' ↔ lock' q' = some u := by
  cases hhands with
  | keep hk =>
    by_cases hu : u = t
    · subst hu
      rw [Function.update_self, hk, hown]
    · rw [Function.update_of_ne hu, hown]
  | take q hfree hout hk =>
    by_cases hu : u = t
    · subst hu
      rw [Function.update_self, hk]
      by_cases hq : q' = q
      · subst hq
        simp
      · rw [Function.update_of_ne hq, ← hown, hout]
        simp [Ne.symm hq]
    · rw [Function.update_of_ne hu, hown]
      by_cases hq : q' = q
      · subst hq
        rw [Function.update_self, hfree]
        simp [Ne.symm hu]
      · rw [Function.update_of_ne hq]
  | drop q hin hk =>
    by_cases hu : u = t
    · subst hu
      rw [Function.update_self, hk]
      by_cases hq : q' = q
      · subst hq
        simp
      · rw [Function.update_of_ne hq, ← hown, hin]
        simp [Ne.symm hq]
    · rw [Function.update_of_ne hu, hown]
      by_cases hq : q' = q
      · subst hq
        rw [Function.update_self, (hown t q').mp hin]
        simp [Ne.symm hu]
      · rw [Function.update_of_ne hq]

/-- **A step at slot `q`**, that no other thread sees to. -/
theorem Inv.goes (hx : Inv (s, h)) (hhands : Hands s t l s'.lock)
    (hpc : s'.pc = update s.pc t l)
    (hother : ∀ q', q' ≠ q → s'.status q' = s.status q' ∧ s'.pid q' = s.pid q' ∧ h' q' = h q')
    (hslot : (s.pc t).slot = none ∨ (s.pc t).slot = some q)
    (hslot' : l.slot = none ∨ l.slot = some q) (hfree : ∀ u, u ≠ t → (s.pc u).slot ≠ some q)
    (hok : l.Ok s' h') (hspare : l.slot = none → Spare s' h' q)
    (hbooks : Books s'.pidSet h') : Inv (s', h') := by
  have hhere : s'.pc t = l := by rw [hpc, Function.update_self]
  have hthere : ∀ u, u ≠ t → s'.pc u = s.pc u := fun u hu => by
    rw [hpc, Function.update_of_ne hu]
  have hmine : ∀ u q', u ≠ t → (s'.pc u).slot = some q' → q' ≠ q := by
    rintro u q' hu hq' rfl
    rw [hthere u hu] at hq'
    exact hfree u hu hq'
  have halone : ∀ u q', u ≠ t → l.slot = some q' → (s'.pc u).slot ≠ some q' := by
    rintro u q' hu hk hq'
    rcases hslot' with hnone | hsome
    · rw [hnone] at hk
      cases hk
    · obtain rfl := Option.some.inj (hsome.symm.trans hk)
      exact hmine u q hu hq' rfl
  refine ⟨fun u q' => ?_, fun u v q' hu hv => ?_, fun u => ?_, fun q' hq' => ?_, hbooks⟩
  · change (s'.pc u).holds = _ ↔ _
    rw [hpc]
    exact hhands.owner hx.owner u q'
  · change (s'.pc u).slot = _ at hu
    change (s'.pc v).slot = _ at hv
    by_cases hut : u = t <;> by_cases hvt : v = t
    · rw [hut, hvt]
    · rw [hut, hhere] at hu
      exact absurd hv (halone v q' hvt hu)
    · rw [hvt, hhere] at hv
      exact absurd hu (halone u q' hut hv)
    · rw [hthere u hut] at hu
      rw [hthere v hvt] at hv
      exact hx.alone u v q' hu hv
  · change (s'.pc u).Ok s' h'
    by_cases hu : u = t
    · rw [hu, hhere]
      exact hok
    · have hold := hx.ok u
      rw [hthere u hu]
      refine hold.congr fun q' hq' => hother q' (hmine u q' hu ?_)
      rw [hthere u hu]
      exact hq'
  · change ∀ u, (s'.pc u).slot ≠ _ at hq'
    change Spare s' h' q'
    by_cases hqq : q' = q
    · subst hqq
      refine hspare ((hslot').resolve_right fun hsome => hq' t ?_)
      rw [hhere, hsome]
    · have hold : ∀ u, (s.pc u).slot ≠ some q' := by
        intro u hu
        by_cases hut : u = t
        · subst hut
          rcases hslot with hnone | hsome
          · rw [hnone] at hu
            cases hu
          · exact hqq (Option.some.inj (hu.symm.trans hsome))
        · exact hq' u (by rw [hthere u hut]; exact hu)
      obtain ⟨hstatus, hpid, hgiven⟩ := hother q' hqq
      exact Spare.congr (hx.spare q' hold) hstatus hpid hgiven

/-- A step at no slot. -/
theorem Inv.quiet (hx : Inv (s, h)) (hhands : Hands s t l s'.lock)
    (hpc : s'.pc = update s.pc t l) (hstatus : s'.status = s.status) (hpid : s'.pid = s.pid)
    (hset : s'.pidSet = s.pidSet) (hslot : (s.pc t).slot = none) (hslot' : l.slot = none)
    (hok : l.Ok s' h) : Inv (s', h) := by
  have hhere : s'.pc t = l := by rw [hpc, Function.update_self]
  have hsame : ∀ u, (s'.pc u).slot = (s.pc u).slot := by
    intro u
    by_cases hu : u = t
    · rw [hu, hhere, hslot, hslot']
    · rw [hpc, Function.update_of_ne hu]
  refine ⟨fun u q => ?_, fun u v q hu hv => ?_, fun u => ?_, fun q hq => ?_, ?_⟩
  · change (s'.pc u).holds = _ ↔ _
    rw [hpc]
    exact hhands.owner hx.owner u q
  · exact hx.alone u v q ((hsame u).symm.trans hu) ((hsame v).symm.trans hv)
  · change (s'.pc u).Ok s' h
    by_cases hu : u = t
    · rw [hu, hhere]
      exact hok
    · rw [hpc, Function.update_of_ne hu]
      exact (hx.ok u).congr fun q _ => ⟨congrFun hstatus q, congrFun hpid q, rfl⟩
  · exact (hx.spare q fun u hu => hq u ((hsame u).trans hu)).congr (congrFun hstatus q)
      (congrFun hpid q) rfl
  · change Books s'.pidSet h
    rw [hset]
    exact hx.books

/-- The other threads see to other slots. -/
theorem Inv.others (hx : Inv (s, h)) (hslot : (s.pc t).slot = some q) (u : ThreadId)
    (hu : u ≠ t) : (s.pc u).slot ≠ some q :=
  fun hu' => hu (hx.alone u t q hu' hslot)

/-- A step from one point to the next at the same slot. -/
theorem Inv.within (hx : Inv (s, h)) (hhands : Hands s t l lock')
    (hslot : (s.pc t).slot = some q) (hslot' : l.slot = some q)
    (hok : (s.pc t).Ok s h → l.Ok s h) :
    Inv ({ s with lock := lock', pc := update s.pc t l }, h) := by
  refine hx.goes hhands rfl (fun _ _ => ⟨rfl, rfl, rfl⟩) (.inr hslot) (.inr hslot')
    (hx.others hslot) ?_ (fun hnone => ?_) hx.books
  · exact (hok (hx.ok t)).congr fun _ _ => ⟨rfl, rfl, rfl⟩
  · rw [hslot'] at hnone
    cases hnone

/-- The fresh pid of a slot, and the pid of a slot in use. -/
theorem Inv.unused_spare (hx : Inv (s, h)) (hq : s.status q = .unused) :
    (∀ u, (s.pc u).slot ≠ some q) ∧ s.pid q = -1 ∧ h q = none := by
  have hnobody : ∀ u, (s.pc u).slot ≠ some q := fun u hu => (hx.ok u).used hu hq
  rcases hx.spare q hnobody with ⟨-, hspare⟩ | ⟨hlive, -⟩
  · exact ⟨hnobody, hspare⟩
  · change live (s.status q) = true at hlive
    rw [hq] at hlive
    cases hlive

/-- **`alloc_process` claims a slot.** -/
theorem Inv.claimSlot (hx : Inv (s, h)) (hpc : s.pc t = .test q) (hq : s.status q = .unused) :
    Inv ({ s with status := update s.status q .used }.release t q (.init q), h) := by
  obtain ⟨hnobody, hpid, hgiven⟩ := hx.unused_spare hq
  refine hx.goes (q := q) (l := .init q) (.drop q (by rw [hpc]; rfl) rfl) rfl
    (fun q' hq' => ⟨Function.update_of_ne hq' _ _, rfl, rfl⟩) (.inl (by rw [hpc]; rfl)) (.inr rfl)
    (fun u _ => hnobody u) ⟨Function.update_self .., hpid, hgiven⟩ nofun hx.books

/-- **`alloc_pid` gives the slot a pid.** -/
theorem Inv.give (hx : Inv (s, h)) (hpc : s.pc t = .init q) (hn : s.allocPid = some n) :
    Inv ({ s with pidSet := update s.pidSet n true }.setPc t (.given q n),
      update h q (some n)) := by
  have hok := hx.ok t
  rw [hpc] at hok
  obtain ⟨hstatus, hpid, hgiven⟩ := hok
  have hslot : (s.pc t).slot = some q := by rw [hpc]; rfl
  exact hx.goes (q := q) (l := .given q n) (.keep (by rw [hpc]; rfl)) rfl
    (fun q' hq' => ⟨rfl, rfl, Function.update_of_ne hq' _ _⟩) (.inr hslot) (.inr rfl)
    (hx.others hslot) ⟨hstatus, hpid, Function.update_self ..⟩ nofun (hx.books.give hgiven hn)

/-- The pid is stored in the slot. -/
theorem Inv.store (hx : Inv (s, h)) (hpc : s.pc t = .given q n) :
    Inv ({ s with
      pid := update s.pid q n
      status := update s.status q .used
      killed := update s.killed q false }.setPc t (.copy q), h) := by
  have hok := hx.ok t
  rw [hpc] at hok
  have hslot : (s.pc t).slot = some q := by rw [hpc]; rfl
  refine hx.goes (q := q) (l := .copy q) (.keep (by rw [hpc]; rfl)) rfl
    (fun q' hq' => ⟨Function.update_of_ne hq' _ _, Function.update_of_ne hq' _ _, rfl⟩)
    (.inr hslot) (.inr rfl) (hx.others hslot) ⟨Function.update_self .., ?_⟩ nofun hx.books
  change h q = some (update s.pid q n q)
  rw [Function.update_self]
  exact hok.2.2

/-- A claimed slot without a pid is given back. -/
theorem Inv.giveBack (hx : Inv (s, h)) (hpc : s.pc t = .undo q) :
    Inv ({ s with status := update s.status q .unused }.release t q .out, h) := by
  have hok := hx.ok t
  rw [hpc] at hok
  have hslot : (s.pc t).slot = some q := by rw [hpc]; rfl
  exact hx.goes (q := q) (l := .out) (.drop q (by rw [hpc]; rfl) rfl) rfl
    (fun q' hq' => ⟨Function.update_of_ne hq' _ _, rfl, rfl⟩) (.inr hslot) (.inl rfl)
    (hx.others hslot) trivial (fun _ => .inl ⟨Function.update_self .., hok.2⟩) hx.books

/-- The child of `fork` is ready to run. -/
theorem Inv.start (hx : Inv (s, h)) (hpc : s.pc t = .ready q) :
    Inv ({ s with status := update s.status q .runable }.release t q .out, h) := by
  have hok := hx.ok t
  rw [hpc] at hok
  have hslot : (s.pc t).slot = some q := by rw [hpc]; rfl
  refine hx.goes (q := q) (l := .out) (.drop q (by rw [hpc]; rfl) rfl) rfl
    (fun q' hq' => ⟨Function.update_of_ne hq' _ _, rfl, rfl⟩) (.inr hslot) (.inl rfl)
    (hx.others hslot) trivial (fun _ => .inr ⟨?_, hok.2⟩) hx.books
  change live (update s.status q .runable q) = true
  rw [Function.update_self]
  rfl

/-- **`free_pid` takes the pid of the slot back**, and finds it in use. -/
theorem Inv.takeBack (hx : Inv (s, h)) (hpc : s.pc t = .free q) : s.pidSet (s.pid q) = true ∧
    Inv ({ s with pidSet := update s.pidSet (s.pid q) false }.setPc t (.freed q),
      update h q none) := by
  have hok := hx.ok t
  rw [hpc] at hok
  have hslot : (s.pc t).slot = some q := by rw [hpc]; rfl
  refine ⟨(hx.books.set _).mpr ⟨q, hok.2⟩, ?_⟩
  exact hx.goes (q := q) (l := .freed q) (.keep (by rw [hpc]; rfl)) rfl
    (fun q' hq' => ⟨rfl, rfl, Function.update_of_ne hq' _ _⟩) (.inr hslot) (.inr rfl)
    (hx.others hslot) ⟨hok.1, Function.update_self ..⟩ nofun (hx.books.takeBack hok.2)

/-- The end of `free_process`. -/
theorem Inv.clear (hx : Inv (s, h)) (hpc : s.pc t = .freed q) :
    Inv ({ s with
      pid := update s.pid q (-1)
      status := update s.status q .unused
      killed := update s.killed q false }.release t q .out, h) := by
  have hok := hx.ok t
  rw [hpc] at hok
  have hslot : (s.pc t).slot = some q := by rw [hpc]; rfl
  exact hx.goes (q := q) (l := .out) (.drop q (by rw [hpc]; rfl) rfl) rfl
    (fun q' hq' => ⟨Function.update_of_ne hq' _ _, Function.update_of_ne hq' _ _, rfl⟩)
    (.inr hslot) (.inl rfl) (hx.others hslot) trivial
    (fun _ => .inl ⟨Function.update_self .., Function.update_self .., hok.2⟩) hx.books

/-- Under the lock of a slot in use nobody sees to it. -/
theorem Inv.live_spare (hx : Inv (s, h)) (hlive : live (s.status q) = true)
    (hheld : ∀ u, (s.pc u).slot = some q → (s.pc u).holds ≠ some q) :
    (∀ u, (s.pc u).slot ≠ some q) ∧ h q = some (s.pid q) := by
  have hnobody : ∀ u, (s.pc u).slot ≠ some q := fun u hu => by
    have hnot := (hx.ok u).not_live hu (hheld u hu)
    change live (s.status q) = false at hnot
    rw [hlive] at hnot
    cases hnot
  rcases hx.spare q hnobody with ⟨hunused, -⟩ | ⟨-, hgiven⟩
  · change s.status q = .unused at hunused
    rw [hunused] at hlive
    cases hlive
  · exact ⟨hnobody, hgiven⟩

/-- **`wait` begins to free a dead child.** -/
theorem Inv.reapZombie (hx : Inv (s, h)) (hpc : s.pc t = .reap q) (hq : s.status q = .zombie) :
    Inv (s.setPc t (.free q), h) := by
  have hlock : s.lock q = some t := (hx.owner t q).mp (by rw [hpc]; rfl)
  obtain ⟨hnobody, hgiven⟩ := hx.live_spare (q := q) (by rw [hq]; rfl) fun u hu hholds => by
    obtain rfl := Option.some.inj (hlock.symm.trans ((hx.owner u q).mp hholds))
    rw [hpc] at hu
    cases hu
  refine hx.goes (q := q) (l := .free q) (.keep (by rw [hpc]; rfl)) rfl
    (fun _ _ => ⟨rfl, rfl, rfl⟩) (.inl (by rw [hpc]; rfl)) (.inr rfl) (fun u _ => hnobody u)
    ⟨?_, hgiven⟩ nofun hx.books
  change s.status q ≠ .unused
  rw [hq]
  decide

/-- A process in use changes its status. -/
theorem Inv.change {st : Status} (hx : Inv (s, h)) (hlock : s.lock q = none)
    (hlive : live (s.status q) = true) (hst : live st = true) :
    Inv ({ s with status := update s.status q st }, h) := by
  obtain ⟨hnobody, hgiven⟩ := hx.live_spare hlive fun u _ hholds => by
    rw [(hx.owner u q).mp hholds] at hlock
    cases hlock
  refine ⟨hx.owner, hx.alone, fun u => ?_, fun q' hq' => ?_, hx.books⟩
  · refine (hx.ok u).congr fun q' hq' => ⟨Function.update_of_ne ?_ _ _, rfl, rfl⟩
    rintro rfl
    exact hnobody u hq'
  · by_cases hqq : q' = q
    · subst hqq
      exact .inr ⟨(congrArg live (Function.update_self ..)).trans hst, hgiven⟩
    · exact (hx.spare q' hq').congr (Function.update_of_ne hqq _ _) rfl rfl

/-- A thread takes a lock on the way, at no slot. -/
theorem Inv.acquire (hx : Inv (s, h)) (hstep : s.acquire t q l = some s')
    (hout : (s.pc t).holds = none) (hk : l.holds = some q) (hslot : (s.pc t).slot = none)
    (hslot' : l.slot = none) (hok : l.Ok s' h) : Inv (s', h) := by
  obtain ⟨hfree, hstep⟩ := Option.ite_none_right_eq_some.mp hstep
  obtain rfl := Option.some.inj hstep
  exact hx.quiet (.take q hfree hout hk) rfl rfl rfl rfl hslot hslot' hok

/-- A thread takes the lock of the slot it sees to. -/
theorem Inv.acquireWithin (hx : Inv (s, h)) (hstep : s.acquire t q l = some s')
    (hout : (s.pc t).holds = none) (hk : l.holds = some q) (hslot : (s.pc t).slot = some q)
    (hslot' : l.slot = some q) (hok : (s.pc t).Ok s h → l.Ok s h) : Inv (s', h) := by
  obtain ⟨hfree, hstep⟩ := Option.ite_none_right_eq_some.mp hstep
  obtain rfl := Option.some.inj hstep
  exact hx.within (.take q hfree hout hk) hslot hslot' hok

/-- **A thread goes on.** -/
theorem Inv.run (hx : Inv (s, h)) (hstep : s.run t fine = some s') :
    Inv (s', note s (.run t fine) s' h) := by
  simp only [State.run] at hstep
  simp only [note]
  cases hpc : s.pc t with rw [hpc] at hstep
  | out | panic => cases hstep
  | claim i | reapAcq i | killAcq pid i =>
    exact hx.acquire hstep (by rw [hpc]; rfl) rfl (by rw [hpc]; rfl) rfl trivial
  | undoAcq q | readyAcq q =>
    exact hx.acquireWithin hstep (by rw [hpc]; rfl) rfl (by rw [hpc]; rfl) rfl
      fun hok => by rw [hpc] at hok; exact hok
  | freeAcq q =>
    refine hx.acquireWithin hstep (by rw [hpc]; rfl) rfl (by rw [hpc]; rfl) rfl fun hok => ?_
    rw [hpc] at hok
    exact ⟨by rw [hok.1]; decide, hok.2⟩
  | test i =>
    obtain rfl := Option.some.inj hstep
    by_cases hi : s.status i = .unused
    · rw [if_pos hi]
      exact hx.claimSlot hpc hi
    · rw [if_neg hi]
      split
      · exact hx.quiet (l := .claim _) (.drop i (by rw [hpc]; rfl) rfl) rfl rfl rfl rfl
          (by rw [hpc]; rfl) rfl trivial
      · exact hx.quiet (l := .out) (.drop i (by rw [hpc]; rfl) rfl) rfl rfl rfl rfl
          (by rw [hpc]; rfl) rfl trivial
  | init q =>
    have hundo : Inv (s.setPc t (.undoAcq q), h) :=
      hx.within (l := .undoAcq q) (.keep (by rw [hpc]; rfl)) (by rw [hpc]; rfl) rfl
        fun hok => by rw [hpc] at hok; exact hok
    dsimp only at hstep ⊢
    cases fine with
    | false =>
      have hs' : s.setPc t (.undoAcq q) = s' := by
        cases hn : s.allocPid <;> rw [hn] at hstep <;> exact Option.some.inj hstep
      rw [← hs']
      exact hundo
    | true =>
      have hok := hx.ok t
      rw [hpc] at hok
      -- the slot has no pid yet, so there is one left
      obtain ⟨n, hn⟩ := Option.ne_none_iff_exists'.mp (hx.books.found hok.2.2)
      rw [hn] at hstep ⊢
      obtain rfl := Option.some.inj hstep
      exact hx.give hpc hn
  | given q n =>
    obtain rfl := Option.some.inj hstep
    exact hx.store hpc
  | undo q =>
    obtain rfl := Option.some.inj hstep
    exact hx.giveBack hpc
  | copy q =>
    obtain rfl := Option.some.inj hstep
    cases fine
    · exact hx.within (l := .freeAcq q) (.keep (by rw [hpc]; rfl)) (by rw [hpc]; rfl) rfl
        fun hok => by rw [hpc] at hok; exact hok
    · exact hx.within (l := .readyAcq q) (.keep (by rw [hpc]; rfl)) (by rw [hpc]; rfl) rfl
        fun hok => by rw [hpc] at hok; exact hok
  | ready q =>
    obtain rfl := Option.some.inj hstep
    exact hx.start hpc
  | free q =>
    obtain rfl := Option.some.inj hstep
    obtain ⟨hset, htaken⟩ := hx.takeBack hpc
    dsimp only
    rw [if_pos hset, if_pos hset]
    exact htaken
  | freed q =>
    obtain rfl := Option.some.inj hstep
    exact hx.clear hpc
  | reap q =>
    obtain rfl := Option.some.inj hstep
    by_cases hq : s.status q = .zombie ∧ fine = true
    · rw [if_pos hq]
      exact hx.reapZombie hpc hq.1
    · rw [if_neg hq]
      exact hx.quiet (l := .out) (.drop q (by rw [hpc]; rfl) rfl) rfl rfl rfl rfl
        (by rw [hpc]; rfl) rfl trivial
  | kill pid i =>
    obtain rfl := Option.some.inj hstep
    split
    · split
      · exact hx.quiet (l := .killAcq pid _) (.drop i (by rw [hpc]; rfl) rfl) rfl rfl rfl rfl
          (by rw [hpc]; rfl) rfl trivial
      · exact hx.quiet (l := .out) (.drop i (by rw [hpc]; rfl) rfl) rfl rfl rfl rfl
          (by rw [hpc]; rfl) rfl trivial
    · exact hx.quiet (l := .out) (.drop i (by rw [hpc]; rfl) rfl) rfl rfl rfl rfl
        (by rw [hpc]; rfl) rfl trivial

/-- A call begins. -/
theorem Inv.call (hx : Inv (s, h)) (hout : s.pc t = .out) (hholds : l.holds = none)
    (hslot : l.slot = none) (hok : l.Ok (s.setPc t l) h) : Inv (s.setPc t l, h) :=
  hx.quiet (.keep (by rw [hout]; exact hholds)) rfl rfl rfl rfl (by rw [hout]; rfl) hslot hok

/-- **A step keeps it.** -/
theorem Inv.step (hx : Inv x) (hstep : pidStep x a = some y) : Inv y := by
  obtain ⟨s, h⟩ := x
  obtain ⟨s', h'⟩ := y
  obtain ⟨hs, hh⟩ := Run.watch_eq_some_iff.mp hstep
  obtain rfl : h' = note s a s' h := hh
  cases a with
  | fork t | wait t q | kill t pid =>
    obtain ⟨hout, hs⟩ := Option.ite_none_right_eq_some.mp hs
    obtain rfl := Option.some.inj hs
    exact hx.call hout rfl rfl trivial
  | run t ok => exact hx.run hs
  | change q st =>
    obtain ⟨⟨hlock, hlive, -, hst⟩, hs⟩ := Option.ite_none_right_eq_some.mp hs
    obtain rfl := Option.some.inj hs
    exact hx.change hlock hlive hst

theorem Inv.processInit : Inv (processInit, fun _ => none) :=
  ⟨fun _ _ => ⟨nofun, nofun⟩, nofun, fun _ => trivial, fun _ _ => .inl ⟨rfl, rfl, rfl⟩,
    ⟨fun _ => ⟨nofun, nofun⟩, nofun, nofun⟩⟩

/-- A slot that is not `UNUSED` nor being freed shows the pid it was given, or none. -/
theorem Inv.shown (hx : Inv (s, h)) (hq : s.status q ≠ .unused) (hfreed : ¬BeingFreed s q) :
    s.pid q = -1 ∨ h q = some (s.pid q) := by
  by_cases hslot : ∃ t, (s.pc t).slot = some q
  · obtain ⟨t, ht⟩ := hslot
    have hok := hx.ok t
    change (s.pc t).Ok s h at hok
    cases hpc : s.pc t with rw [hpc] at ht hok
    | init q' | given q' n | undoAcq q' | undo q' =>
      obtain rfl := Option.some.inj ht
      exact .inl hok.2.1
    | copy q' | readyAcq q' | ready q' | freeAcq q' | free q' =>
      obtain rfl := Option.some.inj ht
      exact .inr hok.2
    | freed q' =>
      obtain rfl := Option.some.inj ht
      exact absurd ⟨t, hpc⟩ hfreed
    | _ => cases ht
  · rcases hx.spare q (not_exists.mp hslot) with ⟨hunused, -⟩ | ⟨-, hgiven⟩
    · exact absurd hunused hq
    · exact .inr hgiven

/-- **What is kept makes the books agree.** -/
theorem Inv.agree (hx : Inv x) : Agree x := by
  obtain ⟨s, h⟩ := x
  refine ⟨fun q q' hne hq hq' hf hf' heq => ?_, fun n => ?_, fun t ht => ?_, fun t q ht => ?_⟩
  · rcases hx.shown hq hf with hnone | hgiven
    · change s.pid q < 0
      omega
    · rcases hx.shown hq' hf' with hnone | hgiven'
      · change s.pid q = s.pid q' at heq
        change s.pid q < 0
        omega
      · change s.pid q = s.pid q' at heq
        rw [heq] at hgiven
        exact absurd (hx.books.one q q' _ hgiven hgiven') hne
  · rw [hx.books.set]
    constructor
    · rintro ⟨q, hq⟩
      exact ⟨q, hq, fun q' hq' => hx.books.one q' q n hq' hq⟩
    · rintro ⟨q, hq, -⟩
      exact ⟨q, hq⟩
  · have hok := hx.ok t
    rw [ht] at hok
    exact hok
  · have hok := hx.ok t
    rw [ht] at hok
    exact hx.books.found hok.2.2

/-- **`pid_set` and the process table agree in every state**, whatever `fork`, `wait` and `kill` do
on any number of CPUs. -/
theorem pids_agree (x : State × Given)
    (hx : Run.Reachable pidStep (processInit, fun _ => none) x) : Agree x :=
  (Run.Reach.invariant (P := Inv) .processInit (fun _ _ _ hs _ hstep => hs.step hstep) hx).agree

/-- Thread 0 makes the process of slot 0, which dies; thread 1 begins to free it, and a `fork` of
thread 2, that has claimed slot 1 before, is given its pid. -/
def reuseRun : List Act :=
  [.fork 0, .run 0 true, .run 0 true, .run 0 true, .run 0 true, .run 0 true, .run 0 true,
    .run 0 true, .fork 2, .run 2 true, .run 2 true, .run 2 true, .run 2 true,
    .change 0 .running, .change 0 .zombie, .wait 1 0, .run 1 true, .run 1 true, .run 1 true,
    .run 2 true, .run 2 true]

/-- The theorem there: two slots show pid 0, one of them being freed. -/
theorem pids_agree_reuseRun :
    ∃ x, Run.Reachable pidStep (processInit, fun _ => none) x ∧ x.1.pc 1 = .freed 0 ∧
      x.1.pid 0 = 0 ∧ x.1.pid 1 = 0 ∧ Agree x := by
  have hrun : (Run.run pidStep (processInit, fun _ => none) reuseRun).map (fun x =>
      (x.1.pc 1, x.1.pid 0, x.1.pid 1)) = some (.freed 0, 0, 0) := by decide +kernel
  obtain ⟨x, hx, hlook⟩ := Option.map_eq_some_iff.mp hrun
  simp only [Prod.mk.injEq] at hlook
  have hreach := Run.reachable_of_run .refl hx
  exact ⟨x, hreach, hlook.1, hlook.2.1, hlook.2.2, pids_agree x hreach⟩

end Pids
