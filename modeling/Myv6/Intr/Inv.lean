import Mathlib.Tactic.Common
import Myv6.Intr.Step

/-!
# Intr/Inv — the saved flag follows the process

    running, ready      introff_n = depth, origin_ie = base while depth > 0
    off, resuming       depth = 1, the local origin_ie = base

Only the top frame of a thread can be inside a pair: an interrupt needs SIE, and SIE is off inside a
pair.  So `introff_n` of a CPU is the depth of the top frame of the thread it executes, and what
`origin_ie` has to say belongs to that frame, except between `swtch` and the line after it.
-/

namespace Intr

open Function (update)

/-- Every frame under the top one was interrupted outside all pairs, with SIE set. -/
def Thread.Quiet (t : Thread) : Prop :=
  ∀ f ∈ t.below, f.depth = 0 ∧ (f.read = none ∨ f.read = some true)

/-- The depth that the locks of `run_process` give. -/
def SchedPc.Fits (depth : ℕ) (below : List Frame) : SchedPc → Prop
  | .loop => True
  | .group => 1 ≤ depth ∧ below = []
  | .look => depth = 2 ∧ below = []
  | .start | .back => depth = 1 ∧ below = []

/-- What a CPU knows about the thread it executes. -/
structure CpuOk (s : State) (c : CpuId) : Prop where
  depth : s.introffN c = (s.top c).depth
  off : 0 < (s.top c).depth → s.sie c = false
  origin : s.ready c → 0 < (s.top c).depth → s.originIe c = (s.top c).base
  read : ∀ b, (s.top c).read = some b → s.sie c = b

/-- **The invariant of interrupts and switches.** -/
structure Inv (s : State) : Prop where
  cpu : ∀ c, CpuOk s c
  schedQuiet : ∀ c, (s.sched c).Quiet
  procQuiet : ∀ p, (s.proc p).Quiet
  /-- A process is where it runs. -/
  placed : ∀ c p, s.running c = some p ↔ s.place p = .on c ∨ ∃ b, s.place p = .resume c b
  resume : ∀ p c b, s.place p = .resume c b →
    (s.proc p).top.depth = 1 ∧ (s.proc p).top.base = b ∧ (s.proc p).top.read = none
  off : ∀ p saved, s.place p = .off saved → (s.proc p).top.depth = 1 ∧
    (s.proc p).top.read = none ∧ (s.proc p).top.base = saved.getD false
  entry : ∀ p, s.entry p → (s.proc p).top.base = false ∧ 0 < (s.proc p).top.depth ∧
    (s.proc p).below = []
  away : ∀ c p, s.running c = some p → s.schedPc c = .back ∧ (s.sched c).top.read = none ∧
    (s.sched c).top.base = false
  fits : ∀ c, (s.schedPc c).Fits (s.sched c).top.depth (s.sched c).below
  pops : ∀ c, s.panicked c ≠ some .popIntr ∧ s.panicked c ≠ some .popWithoutPush

/-- A step of CPU `c` that leaves everybody where they are: its thread becomes `x`. -/
structure Local (s t : State) (c : CpuId) (x : Thread) : Prop where
  ready : s.ready c
  running : t.running = s.running
  place : t.place = s.place
  proc : ∀ p, t.proc p = if s.running c = some p then x else s.proc p
  sched : ∀ d, t.sched d = if d = c ∧ s.running c = none then x else s.sched d
  sie : ∀ d, d ≠ c → t.sie d = s.sie d
  introffN : ∀ d, d ≠ c → t.introffN d = s.introffN d
  originIe : ∀ d, d ≠ c → t.originIe d = s.originIe d
  schedPc : ∀ d, d ≠ c ∨ s.running c ≠ none → t.schedPc d = s.schedPc d
  panicked : t.panicked = s.panicked
  entry : ∀ p, t.entry p → s.entry p ∧ (s.running c = some p → x.top.base = false ∧
    0 < x.top.depth ∧ x.below = [])
  depth : t.introffN c = x.top.depth
  off : 0 < x.top.depth → t.sie c = false
  origin : 0 < x.top.depth → t.originIe c = x.top.base
  read : ∀ b, x.top.read = some b → t.sie c = b
  quiet : x.Quiet
  fits : s.running c = none → (t.schedPc c).Fits x.top.depth x.below

namespace Inv

variable {s t : State} {c d : CpuId} {p : ProcId} {x : Thread}

/-- A process runs on one CPU. -/
theorem one (h : Inv s) (hc : s.running c = some p) (hd : s.running d = some p) : c = d := by
  have hc := (h.placed c p).mp hc
  have hd := (h.placed d p).mp hd
  grind

/-- **A local step keeps the invariant.** -/
theorem of_local (h : Inv s) (hl : Local s t c x) : Inv t := by
  have hthread : ∀ d, t.thread d = if d = c then x else s.thread d := by
    intro d
    unfold State.thread
    rw [hl.running]
    have hone := @one s c d
    have := hl.proc
    have := hl.sched
    cases hd : s.running d with
    | none => grind
    | some q => grind
  have hready : ∀ d, t.ready d = s.ready d := by
    intro d
    simp only [State.ready, hl.running, hl.place]
  have hplace : ∀ p, s.running c = some p → s.place p = .on c := by
    intro p hp
    have := hl.ready
    simpa [State.ready, hp] using this
  constructor
  case cpu =>
    intro d
    have hd := h.cpu d
    by_cases hdc : d = c
    · subst hdc
      refine ⟨?_, ?_, fun _ => ?_, ?_⟩ <;> simp only [State.top, hthread, if_true]
      exacts [hl.depth, hl.off, hl.origin, hl.read]
    · refine ⟨?_, ?_, ?_, ?_⟩ <;>
        simp only [State.top, hthread, hdc, if_false, hl.sie d hdc, hl.introffN d hdc,
          hl.originIe d hdc, hready]
      exacts [hd.depth, hd.off, hd.origin, hd.read]
  case schedQuiet =>
    intro d
    rw [hl.sched d]
    split
    · exact hl.quiet
    · exact h.schedQuiet d
  case procQuiet =>
    intro p
    rw [hl.proc p]
    split
    · exact hl.quiet
    · exact h.procQuiet p
  case placed => simpa only [hl.running, hl.place] using h.placed
  case resume =>
    intro p d b hp
    rw [hl.place] at hp
    have hne : s.running c ≠ some p := fun hc => by simp [hplace p hc] at hp
    rw [hl.proc p, if_neg hne]
    exact h.resume p d b hp
  case off =>
    intro p saved hp
    rw [hl.place] at hp
    have hne : s.running c ≠ some p := fun hc => by simp [hplace p hc] at hp
    rw [hl.proc p, if_neg hne]
    exact h.off p saved hp
  case entry =>
    intro p hp
    obtain ⟨hold, hnew⟩ := hl.entry p hp
    rw [hl.proc p]
    split
    · exact hnew ‹_›
    · exact h.entry p hold
  case away =>
    intro d p hp
    rw [hl.running] at hp
    have hd := h.away d p hp
    rw [hl.schedPc d (by grind), hl.sched d, if_neg (by grind)]
    exact hd
  case fits =>
    intro d
    rw [hl.sched d]
    split
    · next hd => exact hd.1 ▸ hl.fits hd.2
    · next hd =>
      rw [hl.schedPc d (by grind)]
      exact h.fits d
  case pops => simpa only [hl.panicked] using h.pops

end Inv

/-! ## The steps of one thread -/

namespace State

variable (s : State) (c d : CpuId) (p : ProcId) (x : Thread)

@[simp] theorem setThread_proc :
    (s.setThread c x).proc p = if s.running c = some p then x else s.proc p := by
  unfold setThread
  split <;> next h => simp [h, Function.update_apply, eq_comm]

@[simp] theorem setThread_sched :
    (s.setThread c x).sched d = if d = c ∧ s.running c = none then x else s.sched d := by
  unfold setThread
  split <;> simp_all [Function.update_apply]

@[simp] theorem setThread_running : (s.setThread c x).running = s.running := by
  unfold setThread
  split <;> rfl

@[simp] theorem setThread_place : (s.setThread c x).place = s.place := by
  unfold setThread
  split <;> rfl

@[simp] theorem setThread_sie : (s.setThread c x).sie = s.sie := by
  unfold setThread
  split <;> rfl

@[simp] theorem setThread_introffN : (s.setThread c x).introffN = s.introffN := by
  unfold setThread
  split <;> rfl

@[simp] theorem setThread_originIe : (s.setThread c x).originIe = s.originIe := by
  unfold setThread
  split <;> rfl

@[simp] theorem setThread_schedPc : (s.setThread c x).schedPc = s.schedPc := by
  unfold setThread
  split <;> rfl

@[simp] theorem setThread_panicked : (s.setThread c x).panicked = s.panicked := by
  unfold setThread
  split <;> rfl

@[simp] theorem setThread_entry : (s.setThread c x).entry = s.entry := by
  unfold setThread
  split <;> rfl

theorem pushIntroff_schedPc (b : Bool) : (s.pushIntroff c b).schedPc = s.schedPc := by
  simp [pushIntroff, setTop]

theorem popIntroff_schedPc : (s.popIntroff c).schedPc = s.schedPc := by
  unfold popIntroff
  split
  · rfl
  split
  · rfl
  · simp [setTop]

theorem with_schedPc {k : CpuId → SchedPc} (h : s.schedPc = k) : { s with schedPc := k } = s := by
  subst h
  rfl

end State

namespace Inv

variable {s t : State} {c : CpuId} {p : ProcId}

/-- The scheduler stands where its thread says. -/
theorem fits_running (h : Inv s) (hc : s.running c = none) :
    (s.schedPc c).Fits (s.top c).depth (s.thread c).below := by
  have := h.fits c
  simpa [State.top, State.thread, hc] using this

theorem quiet (h : Inv s) (c : CpuId) : (s.thread c).Quiet := by
  unfold State.thread
  split
  · exact h.procQuiet _
  · exact h.schedQuiet c

theorem entry_running (h : Inv s) (hc : s.running c = some p) (hp : s.entry p) :
    (s.top c).base = false ∧ 0 < (s.top c).depth ∧ (s.thread c).below = [] := by
  have := h.entry p hp
  simpa [State.top, State.thread, hc] using this

/-- A thread in the middle of `push_introff` is not just behind a `swtch`. -/
theorem ready_of_read (h : Inv s) {b : Bool} (hb : (s.top c).read = some b) : s.ready c := by
  unfold State.ready
  cases hc : s.running c with
  | none => rfl
  | some p =>
    obtain hon | ⟨b', hres⟩ := (h.placed c p).mp hc
    · simp [hon]
    · have := (h.resume p c b' hres).2.2
      simp [State.top, State.thread, hc, this] at hb

/-- `push_introff` reads SIE. -/
theorem read (h : Inv s) (hready : s.ready c) :
    Inv (s.setTop c { s.top c with read := some (s.sie c) }) := by
  have hcpu := h.cpu c
  refine h.of_local (c := c)
    (x := { s.thread c with top := { s.top c with read := some (s.sie c) } }) ?_
  unfold State.setTop
  constructor
  case ready => exact hready
  case entry => exact fun p hp => ⟨by simpa using hp, fun hc => h.entry_running hc (by simpa using hp)⟩
  case off => simpa using hcpu.off
  case origin => simpa using hcpu.origin hready
  case quiet => exact h.quiet c
  case fits => simpa using h.fits_running
  all_goals simp [hcpu.depth]

/-- **`push_introff` turns interrupts off**; in `run_process` the position may change with it. -/
theorem push (h : Inv s) {b : Bool} (hb : (s.top c).read = some b) {k : CpuId → SchedPc}
    (hpcs : ∀ d, d ≠ c ∨ s.running c ≠ none → k d = s.schedPc d)
    (hfits : s.running c = none → (k c).Fits ((s.top c).depth + 1) (s.thread c).below) :
    Inv { s.pushIntroff c b with schedPc := k } := by
  have hcpu := h.cpu c
  have hready := h.ready_of_read hb
  have hsie : s.sie c = b := hcpu.read b hb
  have horigin := hcpu.origin hready
  have hdepth := hcpu.depth
  refine h.of_local (c := c) (x := { s.thread c with top :=
      { depth := (s.top c).depth + 1
        base := if (s.top c).depth = 0 then s.sie c else (s.top c).base
        read := none } }) ?_
  unfold State.pushIntroff State.setTop
  constructor
  case ready => exact hready
  case schedPc => exact hpcs
  case entry =>
    intro p hp
    refine ⟨by simpa using hp, fun hc => ?_⟩
    have := h.entry_running hc (by simpa using hp)
    grind
  case originIe => grind [State.setThread_originIe]
  case origin => grind
  case quiet => exact h.quiet c
  case fits => exact hfits
  all_goals simp +contextual [hdepth]

/-- **`pop_introff`**, inside a pair: no check fails, and the outermost one sets SIE as it was. -/
theorem pop (h : Inv s) (hready : s.ready c) (hread : (s.top c).read = none)
    (hpos : 0 < (s.top c).depth) {k : CpuId → SchedPc}
    (hpcs : ∀ d, d ≠ c ∨ s.running c ≠ none → k d = s.schedPc d)
    (hfits : s.running c = none → (k c).Fits ((s.top c).depth - 1) (s.thread c).below) :
    Inv { s.popIntroff c with schedPc := k } ∧ (s.popIntroff c).panicked = s.panicked ∧
      ((s.top c).depth = 1 → (s.popIntroff c).sie c = (s.top c).base) := by
  have hcpu := h.cpu c
  have hsie := hcpu.off hpos
  have horigin := hcpu.origin hready hpos
  have hdepth := hcpu.depth
  have hle : ¬s.introffN c ≤ 0 := by omega
  simp only [State.popIntroff, hsie, Bool.false_eq_true, if_false, hle, State.setTop]
  refine ⟨?_, by simp, fun hone => ?_⟩
  · refine h.of_local (c := c) (x := { s.thread c with top :=
        { s.top c with depth := (s.top c).depth - 1 } }) ?_
    constructor
    case ready => exact hready
    case schedPc => exact hpcs
    case sie => grind [State.setThread_sie]
    case entry =>
      intro p hp
      have hold : s.entry p := by
        cases hrun : s.running c <;> simp only [hrun] at hp <;> grind [State.setThread_entry]
      refine ⟨hold, fun hc => ?_⟩
      have := h.entry_running hc hold
      simp only [hc] at hp
      grind
    case depth => grind
    case off => grind [State.setThread_sie]
    case origin => simpa using fun _ => horigin
    case read => simp [hread]
    case quiet => exact h.quiet c
    case fits => exact hfits
    all_goals simp +contextual
  · have hzero : s.introffN c - 1 = 0 := by omega
    cases hbase : (s.top c).base <;> simp [hzero, horigin, hbase, hsie]

/-- An interrupt. -/
theorem trap (h : Inv s) (hready : s.ready c) (hsie : s.sie c) :
    Inv { s.setThread c ⟨⟨0, false, none⟩, s.top c :: (s.thread c).below⟩ with
      sie := update s.sie c false } := by
  have hcpu := h.cpu c
  have hzero : (s.top c).depth = 0 := by
    by_contra hne
    simp [hcpu.off (Nat.pos_of_ne_zero hne)] at hsie
  refine h.of_local (c := c) (x := ⟨⟨0, false, none⟩, s.top c :: (s.thread c).below⟩) ?_
  constructor
  case ready => exact hready
  case entry =>
    intro p hp
    refine ⟨by simpa using hp, fun hc => ?_⟩
    have := (h.entry_running hc (by simpa using hp)).2.1
    omega
  case depth => simpa [hzero] using hcpu.depth
  case quiet =>
    intro f hf
    obtain rfl | hf := List.mem_cons.mp hf
    · refine ⟨hzero, ?_⟩
      cases hr : (s.top c).read with
      | none => exact .inl rfl
      | some b => simp [← hcpu.read b hr, hsie]
    · exact h.quiet c f hf
  case fits =>
    intro hc
    have := h.fits_running hc
    cases hk : s.schedPc c <;> simp_all [SchedPc.Fits]
  all_goals simp +contextual

/-- The return from an interrupt. -/
theorem trapRet (h : Inv s) {f : Frame} {below : List Frame} (hbelow : (s.thread c).below = f :: below)
    (hready : s.ready c) (hzero : (s.top c).depth = 0) :
    Inv { s.setThread c ⟨f, below⟩ with sie := update s.sie c true } := by
  have hcpu := h.cpu c
  have hquiet := h.quiet c
  obtain ⟨hf, hread⟩ := hquiet f (by simp [hbelow])
  refine h.of_local (c := c) (x := ⟨f, below⟩) ?_
  constructor
  case ready => exact hready
  case entry =>
    intro p hp
    refine ⟨by simpa using hp, fun hc => ?_⟩
    have := (h.entry_running hc (by simpa using hp)).2.2
    simp [hbelow] at this
  case depth => simpa [hzero, hf] using hcpu.depth
  case off => simp [hf]
  case origin => simp [hf]
  case read =>
    intro b hb
    obtain hr | hr := hread <;> simp_all
  case quiet => exact fun g hg => hquiet g (by simp [hbelow, hg])
  case fits =>
    intro hc
    have := h.fits_running hc
    cases hk : s.schedPc c <;> simp_all [SchedPc.Fits]
  all_goals simp +contextual

/-- SIE is set or cleared outside all pairs. -/
theorem setSie (h : Inv s) (hready : s.ready c) (hzero : (s.top c).depth = 0)
    (hread : (s.top c).read = none) (b : Bool) : Inv { s with sie := update s.sie c b } := by
  have hcpu := h.cpu c
  refine h.of_local (c := c) (x := s.thread c) ?_
  constructor
  case ready => exact hready
  case proc =>
    intro p
    split <;> simp_all [State.thread]
  case sched =>
    intro d
    split <;> simp_all [State.thread]
  case entry => exact fun p hp => ⟨hp, fun hc => h.entry_running hc hp⟩
  case depth => exact hcpu.depth
  case off =>
    intro hpos
    exact absurd hpos (by simp only [State.top] at hzero; omega)
  case origin =>
    intro hpos
    exact absurd hpos (by simp only [State.top] at hzero; omega)
  case read =>
    intro b' hb
    simp only [State.top] at hread
    simp [hread] at hb
  case quiet => exact h.quiet c
  case fits => exact h.fits_running
  all_goals simp +contextual

/-- A failed check changes nothing else. -/
theorem fail (h : Inv s) {e : Error} (he : e ≠ .popIntr ∧ e ≠ .popWithoutPush) :
    Inv (s.fail c e) := by
  refine ⟨fun d => ?_, h.schedQuiet, h.procQuiet, h.placed, h.resume, h.off, h.entry, h.away,
    h.fits, fun d => ?_⟩
  · exact ⟨(h.cpu d).depth, (h.cpu d).off, (h.cpu d).origin, (h.cpu d).read⟩
  · have := h.pops d
    by_cases hd : d = c
    · subst hd
      simpa [State.fail] using he
    · simpa [State.fail, hd] using this

/-- **`switch_to_scheduler`** takes the flag off the CPU and goes on in `run_process`. -/
theorem switch (h : Inv s) (hp : s.running c = some p) (hready : s.ready c)
    (hread : (s.top c).read = none) : Inv (s.switchToScheduler c p) := by
  have hcpu := h.cpu c
  have htop : s.top c = (s.proc p).top := by simp [State.top, State.thread, hp]
  have hon : s.place p = .on c := by simpa [State.ready, hp] using hready
  obtain ⟨hback, hsread, hsbase⟩ := h.away c p hp
  have hsched : (s.sched c).top.depth = 1 ∧ (s.sched c).below = [] := by
    simpa [hback, SchedPc.Fits] using h.fits c
  unfold State.switchToScheduler
  split
  · exact h.fail ⟨nofun, nofun⟩
  split
  · exact h.fail ⟨nofun, nofun⟩
  · next hsie hone =>
    replace hone : s.introffN c = 1 := by simpa using hone
    have hdepth : (s.top c).depth = 1 := by
      have := hcpu.depth
      omega
    have horigin := hcpu.origin hready (by omega)
    constructor
    case cpu =>
      intro d
      by_cases hd : d = c
      · subst hd
        refine ⟨?_, ?_, ?_, ?_⟩ <;> simp_all [State.top, State.thread, State.ready]
      · have hcd := h.cpu d
        have hother : ∀ q, s.running d = some q → q ≠ p := by
          rintro q hq rfl
          exact hd (h.one hq hp)
        refine ⟨?_, ?_, ?_, ?_⟩
        · simpa [State.top, State.thread, hd] using hcd.depth
        · simpa [State.top, State.thread, hd] using hcd.off
        · have := hcd.origin
          cases hq : s.running d with
          | none => simpa [State.top, State.thread, State.ready, hd, hq] using this
          | some q => simpa [State.top, State.thread, State.ready, hd, hq, hother q hq] using this
        · simpa [State.top, State.thread, hd] using hcd.read
    case placed =>
      intro d q
      have := h.placed d q
      have := h.one (c := c) (d := d) (p := p) hp
      grind
    case resume =>
      intro q d b hq
      have := h.resume q d b
      grind
    case off =>
      intro q saved hq
      have := h.off q saved
      grind
    case away =>
      intro d q hq
      have := h.away d q
      grind
    exacts [h.schedQuiet, h.procQuiet, h.entry, h.fits, h.pops]

/-- **The line after `swtch`** puts the flag onto the CPU the process is on now. -/
theorem restore (h : Inv s) {d : CpuId} {b : Bool} (hp : s.running c = some p)
    (hplace : s.place p = .resume d b) :
    Inv { s with originIe := update s.originIe c b, place := update s.place p (.on c) } := by
  obtain rfl : d = c := by
    have := (h.placed c p).mp hp
    have := h.placed d p
    grind
  obtain ⟨hdepth, hbase, hread⟩ := h.resume p d b hplace
  constructor
  case cpu =>
    intro e
    have hce := h.cpu e
    by_cases he : e = d
    · subst he
      have htop : s.top e = (s.proc p).top := by simp [State.top, State.thread, hp]
      refine ⟨hce.depth, hce.off, fun _ _ => ?_, hce.read⟩
      simp [State.top, State.thread, hp, hbase]
    · have hother : ∀ q, s.running e = some q → q ≠ p := by
        rintro q hq rfl
        exact he (h.one hq hp)
      refine ⟨hce.depth, hce.off, ?_, hce.read⟩
      have := hce.origin
      cases hq : s.running e with
      | none => simpa [State.top, State.thread, State.ready, he, hq] using this
      | some q => simpa [State.top, State.thread, State.ready, he, hq, hother q hq] using this
  case placed =>
    intro e q
    have := h.placed e q
    have := h.placed d q
    grind
  case resume =>
    intro q e b' hq
    have := h.resume q e b'
    grind
  case off =>
    intro q saved hq
    have := h.off q saved
    grind
  exacts [h.schedQuiet, h.procQuiet, h.entry, h.away, h.fits, h.pops]

/-- **`swtch` in `run_process`.** -/
theorem dispatch (h : Inv s) {saved : Option Bool} (hc : s.running c = none)
    (hpc : s.schedPc c = .start) (hread : (s.top c).read = none) (hplace : s.place p = .off saved) :
    Inv (s.dispatch c p saved) ∧ s.introffN c = 1 := by
  have hcpu := h.cpu c
  have htop : s.top c = (s.sched c).top := by simp [State.top, State.thread, hc]
  obtain ⟨hdepth, hbelow⟩ : (s.sched c).top.depth = 1 ∧ (s.sched c).below = [] := by
    simpa [hpc, SchedPc.Fits] using h.fits c
  obtain ⟨hpdepth, hpread, hpbase⟩ := h.off p saved hplace
  have hnot : ∀ d, s.running d ≠ some p := by
    intro d hd
    have := (h.placed d p).mp hd
    grind
  have hn : s.introffN c = 1 := by
    rw [hcpu.depth, htop, hdepth]
    rfl
  have hsie : s.sie c = false := hcpu.off (by rw [htop, hdepth]; omega)
  refine ⟨?_, hn⟩
  unfold State.dispatch
  constructor
  case cpu =>
    intro d
    have hcd := h.cpu d
    by_cases hd : d = c
    · subst hd
      cases saved <;>
        refine ⟨?_, ?_, ?_, ?_⟩ <;> simp_all [State.top, State.thread, State.ready]
    · refine ⟨?_, ?_, ?_, ?_⟩
      · simpa [State.top, State.thread, hd] using hcd.depth
      · simpa [State.top, State.thread, hd] using hcd.off
      · have := hcd.origin
        cases hq : s.running d with
        | none => simpa [State.top, State.thread, State.ready, hd, hq] using this
        | some q =>
          have hqp : q ≠ p := by
            rintro rfl
            exact hnot d hq
          simpa [State.top, State.thread, State.ready, hd, hq, hqp] using this
      · simpa [State.top, State.thread, hd] using hcd.read
  case schedQuiet =>
    intro d
    have := h.schedQuiet d
    by_cases hd : d = c
    · subst hd
      simpa [Thread.Quiet] using this
    · simpa [hd] using this
  case placed =>
    intro d q
    have := h.placed d q
    have := hnot d
    cases saved <;> grind
  case resume =>
    intro q d b hq
    have := h.resume q d b
    cases saved <;> grind
  case off =>
    intro q saved' hq
    have := h.off q saved'
    cases saved <;> grind
  case away =>
    intro d q hq
    have := h.away d q
    by_cases hd : d = c
    · subst hd
      simpa [← htop] using hread
    · simp_all
  case fits =>
    intro d
    have := h.fits d
    by_cases hd : d = c
    · subst hd
      simp [SchedPc.Fits, hdepth, hbelow]
    · simpa [hd] using this
  exacts [h.procQuiet, h.entry, h.pops]

/-- `alloc_process` makes up a process as if it had left through `swtch`. -/
theorem create (h : Inv s) (hfree : s.place p = .free) :
    Inv { s with
      place := update s.place p (.off none)
      proc := update s.proc p ⟨⟨1, false, none⟩, []⟩
      entry := update s.entry p true } := by
  have hnot : ∀ c, s.running c ≠ some p := by
    intro c hc
    have := (h.placed c p).mp hc
    grind
  constructor
  case cpu =>
    intro c
    have hcpu := h.cpu c
    cases hq : s.running c with
    | none =>
      refine ⟨?_, ?_, ?_, ?_⟩
      · simpa [State.top, State.thread, hq] using hcpu.depth
      · simpa [State.top, State.thread, hq] using hcpu.off
      · simpa [State.top, State.thread, State.ready, hq] using hcpu.origin
      · simpa [State.top, State.thread, hq] using hcpu.read
    | some q =>
      have hqp : q ≠ p := by
        rintro rfl
        exact hnot c hq
      refine ⟨?_, ?_, ?_, ?_⟩
      · simpa [State.top, State.thread, hq, hqp] using hcpu.depth
      · simpa [State.top, State.thread, hq, hqp] using hcpu.off
      · simpa [State.top, State.thread, State.ready, hq, hqp] using hcpu.origin
      · simpa [State.top, State.thread, hq, hqp] using hcpu.read
  case procQuiet =>
    intro q
    have := h.procQuiet q
    by_cases hq : q = p
    · simp [hq, Thread.Quiet]
    · simpa [hq] using this
  case placed =>
    intro c q
    have := h.placed c q
    have := hnot c
    grind
  case resume =>
    intro q c b hq
    have := h.resume q c b
    grind
  case off =>
    intro q saved hq
    have := h.off q saved
    grind
  case entry =>
    intro q hq
    have := h.entry q
    grind
  exacts [h.schedQuiet, h.away, h.fits, h.pops]

/-- A process off the CPUs is freed. -/
theorem free (h : Inv s) {saved : Option Bool} (hoff : s.place p = .off saved) :
    Inv { s with place := update s.place p .free } := by
  have hnot : ∀ c, s.running c ≠ some p := by
    intro c hc
    have := (h.placed c p).mp hc
    grind
  constructor
  case cpu =>
    intro c
    have hcpu := h.cpu c
    refine ⟨hcpu.depth, hcpu.off, ?_, hcpu.read⟩
    have := hcpu.origin
    cases hq : s.running c with
    | none => simpa [State.top, State.thread, State.ready, hq] using this
    | some q =>
      have hqp : q ≠ p := by
        rintro rfl
        exact hnot c hq
      simpa [State.top, State.thread, State.ready, hq, hqp] using this
  case placed =>
    intro c q
    have := h.placed c q
    have := hnot c
    grind
  case resume =>
    intro q c b hq
    have := h.resume q c b
    grind
  case off =>
    intro q saved' hq
    have := h.off q saved'
    grind
  exacts [h.schedQuiet, h.procQuiet, h.entry, h.away, h.fits, h.pops]

/-- Where an acquire of `run_process` leads fits the depth after it. -/
theorem fits_lock {k k' : SchedPc} {depth : ℕ} (h : State.lockPc k depth = some k') :
    k'.Fits (depth + 1) [] := by
  revert h
  fun_cases State.lockPc k depth <;> intro h <;> cases h <;> simp [SchedPc.Fits]

theorem fits_unlock {k k' : SchedPc} {depth : ℕ} (h : State.unlockPc k depth = some k') :
    0 < depth ∧ k'.Fits (depth - 1) [] := by
  revert h
  fun_cases State.unlockPc k depth <;> intro h <;> cases h <;> simp [SchedPc.Fits]

/-- An inner pair of the scheduler leaves it where it stands. -/
theorem fits_inner (h : Inv s) {pop : Bool} (hinner : s.inner c pop) :
    (pop → 0 < (s.top c).depth) ∧ (s.running c = none →
      (s.schedPc c).Fits (if pop then (s.top c).depth - 1 else (s.top c).depth + 1)
        (s.thread c).below) := by
  have hfits := h.fits_running (c := c)
  unfold State.inner at hinner
  split at hinner <;> cases pop <;> simp_all [SchedPc.Fits]
  omega

/-- **Every step of a CPU keeps the invariant.** -/
theorem of_cpu (h : Inv s) {ch : Choice} (hstep : step s (.cpu c ch) = some t) : Inv t := by
  simp only [step, ne_eq, ite_not] at hstep
  split at hstep
  case isFalse => cases hstep
  cases ch with
  | read =>
    obtain ⟨⟨hready, -⟩, heq⟩ := Option.ite_none_right_eq_some.mp hstep
    obtain rfl := Option.some.inj heq
    exact h.read hready
  | push lock =>
    dsimp only at hstep
    split at hstep
    · cases hstep
    · next b hb =>
      split at hstep
      · obtain ⟨⟨hrun, hbelow⟩, heq⟩ := Option.ite_none_right_eq_some.mp hstep
        obtain ⟨k, hk, rfl⟩ := Option.map_eq_some_iff.mp heq
        have hb' : (s.thread c).below = [] := by simpa [State.thread, hrun] using hbelow
        rw [State.setPc, State.pushIntroff_schedPc]
        refine h.push hb (k := update s.schedPc c k) ?_ fun _ => ?_
        · simp +contextual [hrun]
        · simpa [hb'] using fits_lock hk
      · obtain ⟨hinner, heq⟩ := Option.ite_none_right_eq_some.mp hstep
        obtain rfl := Option.some.inj heq
        rw [← State.with_schedPc _ (s.pushIntroff_schedPc c b)]
        exact h.push hb (fun _ _ => rfl) (h.fits_inner hinner).2
  | pop lock =>
    obtain ⟨⟨hready, hread⟩, hstep⟩ := Option.ite_none_right_eq_some.mp hstep
    split at hstep
    · obtain ⟨⟨hrun, hbelow⟩, heq⟩ := Option.ite_none_right_eq_some.mp hstep
      obtain ⟨k, hk, rfl⟩ := Option.map_eq_some_iff.mp heq
      have hb' : (s.thread c).below = [] := by simpa [State.thread, hrun] using hbelow
      obtain ⟨hpos, hfits⟩ := fits_unlock hk
      rw [State.setPc, State.popIntroff_schedPc]
      refine (h.pop hready hread hpos (k := update s.schedPc c k) ?_ fun _ => ?_).1
      · simp +contextual [hrun]
      · simpa [hb'] using hfits
    · obtain ⟨hinner, heq⟩ := Option.ite_none_right_eq_some.mp hstep
      obtain rfl := Option.some.inj heq
      obtain ⟨hpos, hfits⟩ := h.fits_inner hinner
      rw [← State.with_schedPc _ (s.popIntroff_schedPc c)]
      exact (h.pop hready hread (hpos rfl) (fun _ _ => rfl) hfits).1
  | found =>
    obtain ⟨⟨hrun, hlook, hread⟩, heq⟩ := Option.ite_none_right_eq_some.mp hstep
    obtain rfl := Option.some.inj heq
    have hfits := h.fits_running hrun
    simp only [hlook, SchedPc.Fits] at hfits
    rw [State.setPc, State.popIntroff_schedPc]
    refine (h.pop (by simp [State.ready, hrun]) hread (by omega)
      (k := update s.schedPc c .start) ?_ fun _ => ?_).1
    · simp +contextual [hrun]
    · simp [SchedPc.Fits, hfits.1, hfits.2]
  | trap =>
    obtain ⟨⟨hready, hsie⟩, heq⟩ := Option.ite_none_right_eq_some.mp hstep
    obtain rfl := Option.some.inj heq
    exact h.trap hready hsie
  | trapRet =>
    dsimp only at hstep
    split at hstep
    · cases hstep
    · next f below hbelow =>
      obtain ⟨⟨hready, hzero, -⟩, heq⟩ := Option.ite_none_right_eq_some.mp hstep
      obtain rfl := Option.some.inj heq
      exact h.trapRet hbelow hready hzero
  | setSie b =>
    obtain ⟨⟨hready, -, hzero, hread⟩, heq⟩ := Option.ite_none_right_eq_some.mp hstep
    obtain rfl := Option.some.inj heq
    exact h.setSie hready hzero hread b
  | switch =>
    dsimp only at hstep
    split at hstep
    · next p hp =>
      obtain ⟨⟨hready, hread⟩, heq⟩ := Option.ite_none_right_eq_some.mp hstep
      obtain rfl := Option.some.inj heq
      exact h.switch hp hready hread
    · cases hstep
  | restore =>
    dsimp only at hstep
    split at hstep
    · next p hp =>
      split at hstep
      · next d b hplace =>
        obtain rfl := Option.some.inj hstep
        exact h.restore hp hplace
      · cases hstep
    · cases hstep
  | dispatch p =>
    obtain ⟨⟨hrun, hpc, hread⟩, hstep⟩ := Option.ite_none_right_eq_some.mp hstep
    split at hstep
    · next saved hplace =>
      obtain rfl := Option.some.inj hstep
      exact (h.dispatch hrun hpc hread hplace).1
    · cases hstep

theorem of_step (h : Inv s) {a : Act} (hstep : step s a = some t) : Inv t := by
  cases a with
  | cpu c ch => exact h.of_cpu hstep
  | create p =>
    obtain ⟨hfree, heq⟩ := Option.ite_none_right_eq_some.mp hstep
    obtain rfl := Option.some.inj heq
    exact h.create hfree
  | free p =>
    simp only [step] at hstep
    split at hstep
    · next saved hoff =>
      obtain rfl := Option.some.inj hstep
      exact h.free hoff
    · cases hstep

theorem boot : Inv boot := by
  constructor
  case cpu => exact fun c => ⟨rfl, nofun, nofun, nofun⟩
  all_goals simp [Intr.boot, Thread.Quiet, SchedPc.Fits]

end Inv

/-- The invariant holds in every state of every run. -/
theorem reachable_inv {s : State} (h : Reachable s) : Inv s :=
  h.invariant .boot fun _ _ _ hi _ ht => hi.of_step ht

end Intr
