import Myv6.Intr.Inv

/-!
# Intr/Discipline — SIE comes back with the process, on whichever CPU it is by then

    push, SIE = b         swtch          swtch           restore         pop
    on c ──────────────▸ off CPUs ──────────────▸ on d ──────────▸ on d ──────▸ SIE of d = b

`base` is the history of a frame: SIE at its outermost push, kept until its outermost pop.
-/

namespace Intr

open Function (update)

/-- The code on the CPU is inside a pair. -/
def State.InPair (s : State) (c : CpuId) : Prop :=
  ∃ f ∈ (s.thread c).top :: (s.thread c).below, 0 < f.depth

/-- **The discipline**, in one state and in every step from it. -/
structure Disciplined (s : State) : Prop where
  inside : ∀ c, 1 ≤ s.introffN c ↔ s.InPair c
  off : ∀ c, s.InPair c → s.sie c = false
  /-- Both sides of the `swtch` of `switch_to_scheduler`. -/
  leave : ∀ c t, step s (.cpu c .switch) = some t → t.panicked c = none →
    t.running c = none ∧ s.introffN c = 1 ∧ t.introffN c = 1
  /-- Both sides of the `swtch` of `run_process`. -/
  enter : ∀ c p t, step s (.cpu c (.dispatch p)) = some t →
    t.running c = some p ∧ s.introffN c = 1 ∧ t.introffN c = 1
  /-- The outermost push of a process records SIE … -/
  outermost : ∀ c p lock t, step s (.cpu c (.push lock)) = some t → s.running c = some p →
    (s.proc p).top.depth = 0 → (t.proc p).top.base = s.sie c
  /-- … no step of anybody changes the record inside the pair … -/
  kept : ∀ a p t, step s a = some t → s.place p ≠ .free → 0 < (s.proc p).top.depth →
    (t.proc p).top.base = (s.proc p).top.base
  /-- … and the outermost pop sets SIE to it. -/
  restored : ∀ c p lock t, step s (.cpu c (.pop lock)) = some t → s.running c = some p →
    (s.proc p).top.depth = 1 → t.sie c = (s.proc p).top.base
  /-- The first release of a new process. -/
  first : ∀ c p lock t, step s (.cpu c (.pop lock)) = some t → s.running c = some p → s.entry p →
    (s.proc p).top.depth = 1 → t.sie c = false
  pops : ∀ c, s.panicked c ≠ some .popIntr ∧ s.panicked c ≠ some .popWithoutPush

variable {s t : State} {c : CpuId} {p : ProcId} {lock : Bool}

namespace Inv

/-- Only the top frame can be inside a pair. -/
theorem inPair_iff (h : Inv s) : s.InPair c ↔ 0 < (s.top c).depth := by
  constructor
  · rintro ⟨f, hf, hpos⟩
    obtain rfl | hf := List.mem_cons.mp hf
    · exact hpos
    · have := (h.quiet c f hf).1
      omega
  · exact fun hpos => ⟨_, List.mem_cons_self, hpos⟩

/-- A release by a process is `pop_introff` inside a pair of its own. -/
theorem pop_running (h : Inv s) (hp : s.running c = some p)
    (hstep : step s (.cpu c (.pop lock)) = some t) :
    t = s.popIntroff c ∧ ((s.top c).depth = 1 → t.sie c = (s.top c).base) := by
  obtain ⟨-, hstep⟩ := Option.ite_none_left_eq_some.mp hstep
  obtain ⟨⟨hready, hread⟩, hstep⟩ := Option.ite_none_right_eq_some.mp hstep
  split at hstep
  · simp [hp] at hstep
  · obtain ⟨hinner, heq⟩ := Option.ite_none_right_eq_some.mp hstep
    obtain rfl := Option.some.inj heq
    obtain ⟨hpos, hfits⟩ := h.fits_inner hinner
    exact ⟨rfl, (h.pop hready hread (hpos rfl) (fun _ _ => rfl) hfits).2.2⟩

/-- A push by a process. -/
theorem push_running (hp : s.running c = some p) (hstep : step s (.cpu c (.push lock)) = some t) :
    ∃ b, t = s.pushIntroff c b := by
  obtain ⟨-, hstep⟩ := Option.ite_none_left_eq_some.mp hstep
  split at hstep
  · cases hstep
  · next b _ =>
    split at hstep
    · simp [hp] at hstep
    · obtain ⟨-, heq⟩ := Option.ite_none_right_eq_some.mp hstep
      exact ⟨b, (Option.some.inj heq).symm⟩

end Inv

namespace State

/-- What a push and a pop leave of the history of a process inside a pair. -/
theorem pushIntroff_base (b : Bool) (hpos : 0 < (s.proc p).top.depth) :
    ((s.pushIntroff c b).proc p).top.base = (s.proc p).top.base := by
  simp only [pushIntroff, setTop, setThread_proc]
  split
  · next hp =>
    have htop : s.top c = (s.proc p).top := by simp [top, thread, hp]
    simp [htop, Nat.pos_iff_ne_zero.mp hpos]
  · rfl

theorem popIntroff_base : ((s.popIntroff c).proc p).top.base = (s.proc p).top.base := by
  unfold popIntroff
  split
  · rfl
  split
  · rfl
  · simp only [setTop, setThread_proc]
    split
    · next hp => simp [top, thread, hp]
    · rfl

end State

/-- **Inside a pair the history of a process stays.** -/
theorem Inv.base_kept (h : Inv s) {a : Act} (hstep : step s a = some t) (hplace : s.place p ≠ .free)
    (hpos : 0 < (s.proc p).top.depth) : (t.proc p).top.base = (s.proc p).top.base := by
  cases a with
  | create q =>
    obtain ⟨hfree, heq⟩ := Option.ite_none_right_eq_some.mp hstep
    obtain rfl := Option.some.inj heq
    have hne : p ≠ q := by
      rintro rfl
      exact hplace hfree
    simp [hne]
  | free q =>
    simp only [step] at hstep
    split at hstep
    · obtain rfl := Option.some.inj hstep
      rfl
    · cases hstep
  | cpu c ch =>
    obtain ⟨-, hstep⟩ := Option.ite_none_left_eq_some.mp hstep
    have htop : s.running c = some p → s.top c = (s.proc p).top := by
      intro hp
      simp [State.top, State.thread, hp]
    cases ch with
    | read =>
      obtain ⟨-, heq⟩ := Option.ite_none_right_eq_some.mp hstep
      obtain rfl := Option.some.inj heq
      simp only [State.setTop, State.setThread_proc]
      split
      · next hp => simp [htop hp]
      · rfl
    | push lock =>
      dsimp only at hstep
      split at hstep
      · cases hstep
      · next b _ =>
        split at hstep
        · obtain ⟨-, heq⟩ := Option.ite_none_right_eq_some.mp hstep
          obtain ⟨k, -, rfl⟩ := Option.map_eq_some_iff.mp heq
          exact State.pushIntroff_base b hpos
        · obtain ⟨-, heq⟩ := Option.ite_none_right_eq_some.mp hstep
          obtain rfl := Option.some.inj heq
          exact State.pushIntroff_base b hpos
    | pop lock =>
      obtain ⟨-, hstep⟩ := Option.ite_none_right_eq_some.mp hstep
      split at hstep
      · obtain ⟨-, heq⟩ := Option.ite_none_right_eq_some.mp hstep
        obtain ⟨k, -, rfl⟩ := Option.map_eq_some_iff.mp heq
        exact State.popIntroff_base
      · obtain ⟨-, heq⟩ := Option.ite_none_right_eq_some.mp hstep
        obtain rfl := Option.some.inj heq
        exact State.popIntroff_base
    | found =>
      obtain ⟨-, heq⟩ := Option.ite_none_right_eq_some.mp hstep
      obtain rfl := Option.some.inj heq
      exact State.popIntroff_base
    | trap =>
      obtain ⟨⟨-, hsie⟩, heq⟩ := Option.ite_none_right_eq_some.mp hstep
      obtain rfl := Option.some.inj heq
      simp only [State.setThread_proc]
      split
      · next hp =>
        have := (h.cpu c).off (by rwa [htop hp])
        simp [this] at hsie
      · rfl
    | trapRet =>
      dsimp only at hstep
      split at hstep
      · cases hstep
      · obtain ⟨⟨-, hzero, -⟩, heq⟩ := Option.ite_none_right_eq_some.mp hstep
        obtain rfl := Option.some.inj heq
        simp only [State.setThread_proc]
        split
        · next hp =>
          rw [htop hp] at hzero
          omega
        · rfl
    | setSie b =>
      obtain ⟨-, heq⟩ := Option.ite_none_right_eq_some.mp hstep
      obtain rfl := Option.some.inj heq
      rfl
    | switch =>
      dsimp only at hstep
      split at hstep
      · obtain ⟨-, heq⟩ := Option.ite_none_right_eq_some.mp hstep
        obtain rfl := Option.some.inj heq
        unfold State.switchToScheduler
        split_ifs <;> rfl
      · cases hstep
    | restore =>
      dsimp only at hstep
      split at hstep
      · split at hstep
        · obtain rfl := Option.some.inj hstep
          rfl
        · cases hstep
      · cases hstep
    | dispatch q =>
      obtain ⟨-, hstep⟩ := Option.ite_none_right_eq_some.mp hstep
      split at hstep
      · obtain rfl := Option.some.inj hstep
        rfl
      · cases hstep

/-- **The interrupt state is disciplined in every reachable state**: `introff_n` is positive exactly
inside a pair, and SIE is off there; both sides of every `swtch` see `introff_n = 1`; the outermost
pop of a process sets SIE as its outermost push found it, on whichever CPU; the first release of a
new process leaves SIE off; and no `pop_introff` panics. -/
theorem disciplined (hs : Reachable s) : Disciplined s := by
  have h := reachable_inv hs
  constructor
  case inside =>
    intro c
    rw [h.inPair_iff, (h.cpu c).depth]
    omega
  case off => exact fun c hc => (h.cpu c).off (h.inPair_iff.mp hc)
  case leave =>
    intro c t hstep halive
    obtain ⟨-, hstep⟩ := Option.ite_none_left_eq_some.mp hstep
    split at hstep
    · obtain ⟨-, heq⟩ := Option.ite_none_right_eq_some.mp hstep
      obtain rfl := Option.some.inj heq
      revert halive
      unfold State.switchToScheduler
      split_ifs <;> simp_all [State.fail]
    · cases hstep
  case enter =>
    intro c p t hstep
    obtain ⟨-, hstep⟩ := Option.ite_none_left_eq_some.mp hstep
    obtain ⟨⟨hrun, hpc, hread⟩, hstep⟩ := Option.ite_none_right_eq_some.mp hstep
    split at hstep
    · next saved hplace =>
      obtain rfl := Option.some.inj hstep
      have hn := (h.dispatch hrun hpc hread hplace).2
      exact ⟨by simp [State.dispatch], hn, hn⟩
    · cases hstep
  case outermost =>
    intro c p lock t hstep hp hzero
    obtain ⟨b, rfl⟩ := Inv.push_running hp hstep
    simp [State.pushIntroff, State.setTop, State.top, State.thread, hp, hzero]
  case kept => exact fun a p t hstep hplace hpos => h.base_kept hstep hplace hpos
  case restored =>
    intro c p lock t hstep hp hone
    have htop : s.top c = (s.proc p).top := by simp [State.top, State.thread, hp]
    rw [← htop] at hone ⊢
    exact (h.pop_running hp hstep).2 hone
  case first =>
    intro c p lock t hstep hp hentry hone
    have htop : s.top c = (s.proc p).top := by simp [State.top, State.thread, hp]
    rw [(h.pop_running hp hstep).2 (by rwa [htop]), htop, (h.entry p hentry).1]
  case pops => exact h.pops

/-- A process starts on CPU 0, sets SIE, enters a pair and leaves the CPU; it goes on on CPU 1. -/
def migrationRun : List Act :=
  [.create 5] ++ goTo 0 ++ [.cpu 0 (.pop false), .cpu 0 (.setSie true), .cpu 0 .read,
    .cpu 0 (.push false), .cpu 0 .switch] ++ goTo 1 ++ [.cpu 1 .restore]
where
  goTo (c : CpuId) : List Act :=
    [.cpu c .read, .cpu c (.push true), .cpu c .read, .cpu c (.push true), .cpu c .found,
      .cpu c (.dispatch 5)]

/-- The discipline there: SIE of CPU 1 is off until the pop of the process sets it. -/
theorem disciplined_migrationRun :
    ∃ s t, Reachable s ∧ s.running 1 = some 5 ∧ s.sie 1 = false ∧
      step s (.cpu 1 (.pop false)) = some t ∧ t.sie 1 = true := by
  have hrun : (Run.run step boot migrationRun).map (fun s => (s.running 1, s.sie 1,
      (s.proc 5).top, (step s (.cpu 1 (.pop false))).isSome)) =
      some (some 5, false, ⟨1, true, none⟩, true) := by decide +kernel
  obtain ⟨s, hs, hlook⟩ := Option.map_eq_some_iff.mp hrun
  simp only [Prod.mk.injEq] at hlook
  obtain ⟨hp, hsie, htop, hsome⟩ := hlook
  have hreach : Reachable s := Run.reachable_of_run .refl hs
  obtain ⟨t, ht⟩ := Option.isSome_iff_exists.mp hsome
  refine ⟨s, t, hreach, hp, hsie, ht, ?_⟩
  rw [(disciplined hreach).restored 1 5 false t ht hp (by rw [htop]), htop]

end Intr
