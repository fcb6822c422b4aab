import Myv6.Process.Effect

/-!
# Process/Inv — one process, one CPU, one lock

    start ─▸ back · exec ─▸ swtch ─▸ after          running            off, context stored
      │         status running, context out of date      │ the lock goes with the process

The process lock is taken by the scheduler, handed to the process across `swtch`, and handed back
the same way, so at any moment it belongs to the CPU whose position says so.  `Inv` states this
together with what the positions of the CPUs say about `status` and the saved context.
-/

namespace Process

open Function (update)

/-! ## What a CPU holds and what it executes -/

def Ret.Holds (l : Lock) : Ret → Prop
  | .group g => l = .group g
  | _ => False

/-- The CPU holds lock `l` here. -/
def Pc.Holds (s : State) (l : Lock) : Pc → Prop
  | .group g | .lookAcq g _ => l = .group g
  | .lookHeld g q => l = .group g ∨ l = .proc q
  | .start q | .back q | .yieldHeld q | .swtch q _ | .after q => l = .proc q
  | .exec p => (s.kpc p).Holds p l
  | .wakeAcq ret _ _ => ret.Holds l
  | .wakeHeld ret _ i => ret.Holds l ∨ l = .proc i
  | _ => False

def Ret.proc : Ret → Option ProcId
  | .exec p => some p
  | _ => none

/-- The process whose kernel stack the CPU is on, or has just left. -/
def Pc.proc : Pc → Option ProcId
  | .back p | .exec p | .yieldAcq p | .yieldHeld p | .swtch p _ | .after p => some p
  | .wakeAcq ret _ _ | .wakeHeld ret _ _ => ret.proc
  | _ => none

/-- The CPU is in the middle of a process that is not in a critical section of its own. -/
def State.Calm (s : State) (p : ProcId) : Prop :=
  s.status p = .running ∧ s.context p = none ∧ (s.kpc p).open

/-- The slot the position of a CPU speaks about. -/
def Pc.about : Pc → Option ProcId
  | .start q => some q
  | k => k.proc

/-- The process of a CPU is the slot it is about. -/
theorem Pc.about_of_proc {k : Pc} {p : ProcId} (h : k.proc = some p) : k.about = some p := by
  cases k <;> simp_all [Pc.about, Pc.proc]

/-- What the position of a CPU says about the process it is about. -/
def Pc.Ok (s : State) : Pc → Prop
  | .start q => s.status q = .runable ∧ s.context q ≠ none
  | .exec p => s.status p = .running ∧ s.context p = none
  | .back p | .yieldAcq p | .yieldHeld p => s.Calm p
  | .wakeAcq ret _ _ | .wakeHeld ret _ _ => ∀ p, ret.proc = some p → s.Calm p
  | .swtch p r => (s.status p).off ∧ s.context p = none ∧ Fits p (s.kpc p) r
  | .after p => (s.status p).off ∧ s.context p ≠ none
  | _ => True

/-- The locks a CPU holds change with the code of its own process only. -/
theorem Pc.holds_congr {s t : State} {k : Pc} (h : ∀ p, k.proc = some p → t.kpc p = s.kpc p)
    (l : Lock) : k.Holds t l ↔ k.Holds s l := by
  cases k <;> simp_all [Pc.Holds, Pc.proc]

/-- What a position says about its slot changes with that slot only. -/
theorem Pc.Ok.congr {s t : State} {k : Pc} (hok : k.Ok s)
    (h : ∀ q, k.about = some q →
      (t.status q = s.status q ∨ s.status q = .sleep ∧ t.status q = .runable) ∧
        t.context q = s.context q ∧ t.kpc q = s.kpc q) : k.Ok t := by
  cases k <;> grind [Pc.Ok, Pc.about, Pc.proc, State.Calm, Status.off]

/-- **The scheduling invariant.** -/
structure Inv (s : State) : Prop where
  /-- A lock belongs to the CPU whose position holds it. -/
  lock : ∀ c l, s.lock l = some c ↔ (s.pc c).Holds s l
  myProc : ∀ c, s.myProc c = (s.pc c).proc
  /-- No process is on two CPUs. -/
  one : ∀ c d p, (s.pc c).proc = some p → (s.pc d).proc = some p → c = d
  cpu : ∀ c, (s.pc c).Ok s
  distinct : ∀ p, (s.kpc p).Distinct p
  /-- A process off the CPU has its context stored, unless a CPU is just about to store it. -/
  saved : ∀ p, (s.status p).off → s.context p = none → ∃ c r, s.pc c = .swtch p r
  fits : ∀ p r, s.context p = some r → Fits p (s.kpc p) r
  /-- Nothing is left of the kernel code of a slot that is not in use. -/
  idle : ∀ p, s.status p = .unused ∨ s.status p = .used → s.kpc p = .user
  claim : ∀ p q, (s.kpc p).claims = some q → s.status q = .used
  madeUp : ∀ p q, (s.kpc p).claims = some q → (s.kpc p).madeUp → s.context q ≠ none
  alone : ∀ p p' q, (s.kpc p).claims = some q → (s.kpc p').claims = some q → p = p'
  /-- Code that is not parked is being executed. -/
  placed : ∀ p, (s.kpc p).parked ∨ ∃ c, s.pc c = .exec p

namespace Inv

variable {s t : State} {c d : CpuId} {p q : ProcId} {l : Lock}

/-! ## Consequences -/

/-- A lock has one holder. -/
theorem holder (h : Inv s) (hc : (s.pc c).Holds s l) (hd : (s.pc d).Holds s l) : c = d :=
  Option.some.inj (((h.lock c l).mpr hc).symm.trans ((h.lock d l).mpr hd))

theorem not_holds_of_free (h : Inv s) (hl : s.lock l = none) : ¬(s.pc c).Holds s l := by
  rw [← h.lock c l, hl]
  exact nofun

/-- The slot a CPU is about is running, or off with its lock held by that CPU. -/
theorem status_of_about (h : Inv s) (hq : (s.pc c).about = some q) :
    s.status q = .running ∨ (s.status q).off ∧ (s.pc c).Holds s (.proc q) := by
  have hok := h.cpu c
  generalize s.pc c = k at *
  cases k <;> grind [Pc.proc, Pc.about, Pc.Ok, State.Calm, Pc.Holds, Status.off]

/-- **A slot is the business of one CPU at most**: one that has its process, or one that is about
to dispatch it. -/
theorem about_one (h : Inv s) (hc : (s.pc c).about = some p) (hd : (s.pc d).about = some p) :
    c = d := by
  have hhold := h.holder (c := c) (d := d) (l := .proc p)
  have hone := h.one c d p
  have hsc := h.status_of_about hc
  have hsd := h.status_of_about hd
  have hok := h.cpu c
  have hok' := h.cpu d
  generalize s.pc c = k at *
  generalize s.pc d = k' at *
  cases k <;> cases k' <;> grind [Pc.about, Pc.proc, Pc.Ok]

/-- A process that runs is nobody else's. -/
theorem others (h : Inv s) (hpc : s.pc c = .exec p) (hdc : d ≠ c) : (s.pc d).about ≠ some p :=
  fun hd => hdc (h.about_one hd (by simp [hpc, Pc.about, Pc.proc]))

/-- The code of a process that is not parked runs, with the locks it holds. -/
theorem exec_of_not_parked (h : Inv s) (hp : (s.kpc p).parked = false) :
    ∃ c, s.pc c = .exec p ∧ ∀ l, (s.kpc p).Holds p l → (s.pc c).Holds s l := by
  obtain hpark | ⟨c, hc⟩ := h.placed p
  · simp [hp] at hpark
  · exact ⟨c, hc, fun l hl => by rwa [hc]⟩

/-- Two processes whose code holds the same lock are the same. -/
theorem code_holder (h : Inv s) (hpc : s.pc c = .exec p) (hl : (s.kpc p).Holds p l)
    (hq : (s.kpc q).parked = false) (hl' : (s.kpc q).Holds q l) : q = p := by
  obtain ⟨d, hd, hheld⟩ := h.exec_of_not_parked hq
  obtain rfl := h.holder (c := c) (by rwa [hpc]) (hheld l hl')
  rw [hpc] at hd
  exact (Pc.exec.inj hd).symm

end Inv

end Process
