import Myv6.Lib.Run
import Mathlib.Data.Nat.Basic
import Myv6.Lib.Index

/-!
# Process/Ticks — `proc_sys_sleep`

    entry ──start_ticks = tick_count──▸ test ──enough──▸ 0
                                        │  ▲ └─killed──▸ -1
                                        ▼  │ tick, or any other wake-up
                                       asleep

`tick_count` has 64 bits, `start_ticks` the low 32 of them.  A call that starts below `2^32`
measures what it should (`ticksLeft_iff`); a later one sees a difference of at least `2^32` and
returns at once (`not_ticksLeft`).
-/

namespace Ticks

/-- Where the sleeping process stands. -/
inductive Pc
  /-- `proc_sys_sleep` holds `tick_lock` and has not read `tick_count`. -/
  | entry
  /-- In `sleep(&tick_lock, &tick_count)`. -/
  | asleep
  /-- Woken, about to take `tick_lock` and test again. -/
  | woken
  /-- Returned, with the value. -/
  | returned (ret : BitVec 64)
  deriving DecidableEq, Repr

/-- The clock and one call of `proc_sys_sleep`. -/
structure State where
  /-- `tick_count` -/
  tickCount : BitVec 64
  /-- `uint start_ticks` -/
  startTicks : BitVec 32
  /-- `int sleep_ticks` -/
  sleepTicks : BitVec 32
  /-- `killed` of the process. -/
  killed : Bool
  pc : Pc
  deriving DecidableEq, Repr

/-- A step of the call, or of what goes on around it. -/
inductive Act
  /-- CPU 0 takes a clock interrupt: `tick_count++` and a wake-up, under `tick_lock`. -/
  | tick
  /-- Any other wake-up of the process. -/
  | wakeUp
  /-- `kill` of the process. -/
  | kill
  /-- The process runs to where it lets `tick_lock` go. -/
  | proc
  deriving DecidableEq, Repr

variable {t : BitVec 64} {n : BitVec 32} {s : State} {a : Act} {x y : State × ℕ}

/-- `tick_count - start_ticks < sleep_ticks`: `start_ticks` is zero extended, `sleep_ticks` sign
extended, and the comparison is unsigned. -/
def State.ticksLeft (s : State) : Bool :=
  (s.tickCount - s.startTicks.setWidth 64).ult (s.sleepTicks.signExtend 64)

/-- One test of the loop, and what follows it. -/
def State.testLoop (s : State) : State :=
  if s.ticksLeft then
    if s.killed then { s with pc := .returned (-1) } else { s with pc := .asleep }
  else { s with pc := .returned 0 }

/-- The test lets a call through. -/
theorem State.testLoop_of_not (h : s.ticksLeft = false) :
    s.testLoop = { s with pc := .returned 0 } := by
  rw [testLoop, if_neg (by rw [h]; decide)]

/-- One step. -/
def step (s : State) : Act → Option State
  | .tick =>
    match s.pc with
    | .entry => none
    | .asleep => some { s with tickCount := s.tickCount + 1, pc := .woken }
    | _ => some { s with tickCount := s.tickCount + 1 }
  | .wakeUp => if s.pc = .asleep then some { s with pc := .woken } else none
  | .kill => some { s with killed := true }
  | .proc =>
    match s.pc with
    | .entry => some { s with startTicks := s.tickCount.setWidth 32 }.testLoop
    | .woken => some s.testLoop
    | _ => none

/-- A call `proc_sys_sleep(n)` that starts when `tick_count` is `t`. -/
def call (t : BitVec 64) (n : BitVec 32) : State := ⟨t, 0, n, false, .entry⟩

/-- The ticks since the call started. -/
def elapsed (_ : State) (a : Act) (_ : State) (k : ℕ) : ℕ := if a = .tick then k + 1 else k

/-- The system beside that number. -/
abbrev sleepStep : State × ℕ → Act → Option (State × ℕ) := Run.watch step elapsed

/-- **A call lasts as long as asked**: it has returned 0 only after `sleep_ticks` ticks, and before
that it has not returned at all, unless the process is killed. -/
def Lasts (x : State × ℕ) : Prop :=
  ∀ ret, x.1.pc = .returned ret →
    (ret = 0 → x.1.sleepTicks.toInt ≤ x.2) ∧ (x.1.killed = false → x.1.sleepTicks.toInt ≤ x.2)

/-! ## The difference -/

/-- A non-negative `int`, as an unsigned 64-bit value. -/
theorem toNat_signExtend (hn : 0 ≤ n.toInt) : (n.signExtend 64).toNat = n.toInt.toNat := by
  have hmsb : n.msb = false := by
    rw [BitVec.msb_eq_toInt]
    exact decide_eq_false (by omega)
  rw [BitVec.signExtend_eq_setWidth_of_msb_false hmsb, BitVec.toNat_setWidth,
    BitVec.toInt_eq_toNat_of_msb hmsb]
  have hlt := n.isLt
  omega

/-- **Below `2^32` the loop compares the ticks since the start.** -/
theorem ticksLeft_iff {k : ℕ} (hn : 0 ≤ n.toInt) (ht : t.toNat < 2 ^ 32)
    (hcount : s.tickCount = t + BitVec.ofNat 64 k) (hstart : s.startTicks = t.setWidth 32)
    (hsleep : s.sleepTicks = n) : s.ticksLeft = true ↔ k % 2 ^ 64 < n.toInt.toNat := by
  have hwide : (t.setWidth 32).setWidth 64 = t := by
    apply BitVec.eq_of_toNat_eq
    simp only [BitVec.toNat_setWidth]
    omega
  rw [State.ticksLeft, hcount, hstart, hsleep, hwide, BitVec.ult, toNat_signExtend hn,
    decide_eq_true_iff, BitVec.add_comm t, BitVec.add_sub_cancel, BitVec.toNat_ofNat]

/-- **From `2^32` on the difference is too large already**, at the very start. -/
theorem not_ticksLeft (hn : 0 ≤ n.toInt) (ht : 2 ^ 32 ≤ t.toNat) (hcount : s.tickCount = t)
    (hstart : s.startTicks = t.setWidth 32) (hsleep : s.sleepTicks = n) :
    s.ticksLeft = false := by
  have hlow : ((t.setWidth 32).setWidth 64).toNat = t.toNat % 2 ^ 32 := by
    simp only [BitVec.toNat_setWidth]
    omega
  have hsub : (t - (t.setWidth 32).setWidth 64).toNat = t.toNat - t.toNat % 2 ^ 32 := by
    rw [BitVec.toNat_sub_of_le (by rw [BitVec.le_def, hlow]; omega), hlow]
  have hint : n.toInt < 2 ^ 31 := BitVec.toInt_lt
  rw [State.ticksLeft, hcount, hstart, hsleep, BitVec.ult, hsub, toNat_signExtend hn]
  exact decide_eq_false (by omega)

/-! ## Runs -/

/-- **What a run keeps**: the clock has advanced by the ticks counted, the call measures from its
start, and if it has returned it did so in time. -/
structure Measured (t : BitVec 64) (n : BitVec 32) (x : State × ℕ) : Prop where
  count : x.1.tickCount = t + BitVec.ofNat 64 x.2
  start : x.1.pc ≠ .entry → x.1.startTicks = t.setWidth 32
  first : x.1.pc = .entry → x.2 = 0
  sleep : x.1.sleepTicks = n
  lasts : Lasts x

/-- The test keeps it. -/
theorem Measured.testLoop {k : ℕ} (hn : 0 ≤ n.toInt) (hok : t.toNat < 2 ^ 32 ∨ n = 0)
    (hcount : s.tickCount = t + BitVec.ofNat 64 k) (hstart : s.startTicks = t.setWidth 32)
    (hsleep : s.sleepTicks = n) : Measured t n (s.testLoop, k) := by
  have henough : s.ticksLeft = false → s.sleepTicks.toInt ≤ k := by
    intro hleft
    rcases hok with ht | rfl
    · have hk := mt (ticksLeft_iff hn ht hcount hstart hsleep).mpr (by rw [hleft]; decide)
      have hmod := Nat.mod_le k (2 ^ 64)
      rw [hsleep]
      omega
    · rw [hsleep]
      exact Int.natCast_nonneg _
  unfold State.testLoop
  split
  · split
    · next hkilled =>
      refine ⟨hcount, fun _ => hstart, nofun, hsleep, fun ret hret => ?_⟩
      obtain rfl : (-1 : BitVec 64) = ret := Pc.returned.inj hret
      exact ⟨fun h => absurd h (by decide), fun h => by rw [hkilled] at h; cases h⟩
    · exact ⟨hcount, fun _ => hstart, nofun, hsleep, nofun⟩
  · next hleft =>
    have hlast := henough (Bool.eq_false_iff.mpr hleft)
    exact ⟨hcount, fun _ => hstart, nofun, hsleep, fun ret _ => ⟨fun _ => hlast, fun _ => hlast⟩⟩

/-- A step keeps it. -/
theorem Measured.step (hn : 0 ≤ n.toInt) (hok : t.toNat < 2 ^ 32 ∨ n = 0) (hx : Measured t n x)
    (hstep : sleepStep x a = some y) : Measured t n y := by
  obtain ⟨s, k⟩ := x
  obtain ⟨s', k'⟩ := y
  obtain ⟨hs, hk⟩ := Run.watch_eq_some_iff.mp hstep
  obtain ⟨hcount, hstart, hfirst, hsleep, hlasts⟩ := hx
  have hnext : s.tickCount + 1 = t + BitVec.ofNat 64 (k + 1) := by
    rw [BitVec.ofNat_add, ← BitVec.add_assoc, ← hcount]
    rfl
  cases a with
  | tick =>
    obtain rfl : k' = k + 1 := hk
    simp only [Ticks.step] at hs
    split at hs
    · cases hs
    · next hpc =>
      obtain rfl := Option.some.inj hs
      exact ⟨hnext, fun _ => hstart (by rw [hpc]; nofun), nofun, hsleep, nofun⟩
    · next hentry _ =>
      obtain rfl := Option.some.inj hs
      refine ⟨hnext, hstart, fun h => absurd h hentry, hsleep, fun ret hret => ?_⟩
      obtain ⟨hzero, halive⟩ := hlasts ret hret
      have hgrow : ∀ {m : ℤ}, m ≤ k → m ≤ (k + 1 : ℕ) := fun h => by omega
      exact ⟨fun h => hgrow (hzero h), fun h => hgrow (halive h)⟩
  | wakeUp =>
    obtain rfl : k' = k := hk
    obtain ⟨hpc, hs⟩ := Option.ite_none_right_eq_some.mp hs
    obtain rfl := Option.some.inj hs
    exact ⟨hcount, fun _ => hstart (by rw [hpc]; nofun), nofun, hsleep, nofun⟩
  | kill =>
    obtain rfl : k' = k := hk
    obtain rfl := Option.some.inj hs
    exact ⟨hcount, hstart, hfirst, hsleep, fun ret hret => ⟨(hlasts ret hret).1, nofun⟩⟩
  | proc =>
    obtain rfl : k' = k := hk
    simp only [Ticks.step] at hs
    split at hs
    · next hpc =>
      obtain rfl := Option.some.inj hs
      refine .testLoop hn hok hcount ?_ hsleep
      have hzero := hfirst hpc
      have htick : s.tickCount = t := by
        rw [hcount, hzero]
        exact BitVec.add_zero t
      exact congrArg (BitVec.setWidth 32) htick
    · next hpc =>
      obtain rfl := Option.some.inj hs
      exact .testLoop hn hok hcount (hstart (by rw [hpc]; nofun)) hsleep
    · cases hs

/-- **`proc_sys_sleep` lasts as long as asked in every run** exactly when `tick_count` is below
`2^32` at its start, or nothing is asked. -/
theorem sleep_lasts_iff (t : BitVec 64) (n : BitVec 32) (hn : 0 ≤ n.toInt) :
    (∀ x, Run.Reachable sleepStep (call t n, 0) x → Lasts x) ↔ t.toNat < 2 ^ 32 ∨ n = 0 := by
  constructor
  · intro hall
    by_contra hbad
    obtain ⟨ht, hne⟩ := not_or.mp hbad
    have hleft := not_ticksLeft (s := { call t n with startTicks := t.setWidth 32 }) hn
      (not_lt.mp ht) rfl rfl rfl
    have hstep : sleepStep (call t n, 0) .proc =
        some (⟨t, t.setWidth 32, n, false, .returned 0⟩, 0) :=
      congrArg (fun s => some (s, 0)) (State.testLoop_of_not hleft)
    have hzero := ((hall _ (Run.Reach.refl.next hstep)) 0 rfl).1 rfl
    exact hne (BitVec.eq_of_toInt_eq (Int.le_antisymm hzero hn))
  · intro hok x hx
    refine (Run.Reach.invariant (P := Measured t n) ?_
      (fun _ _ _ hs _ hstep => hs.step hn hok hstep) hx).lasts
    exact ⟨(BitVec.add_zero t).symm, fun h => absurd rfl h, fun _ => rfl, rfl, nofun⟩

/-- The theorem for three ticks from an early start, which last in every run. -/
theorem sleep_lasts_iff_early : (5 : BitVec 64).toNat < 2 ^ 32 ∧
    ∀ x, Run.Reachable sleepStep (call 5 3, 0) x → Lasts x :=
  ⟨by decide, (sleep_lasts_iff 5 3 (by decide)).mpr (.inl (by decide))⟩

/-- **A sleep that begins at tick `2^32`** returns at once. -/
theorem not_sleep_lasts :
    ¬∀ (t : BitVec 64) (n : BitVec 32), 0 ≤ n.toInt →
      ∀ x, Run.Reachable sleepStep (call t n, 0) x → Lasts x := by
  intro hall
  have hstep : sleepStep (call (2 ^ 32) 1, 0) .proc =
      some (⟨2 ^ 32, 0, 1, false, .returned 0⟩, 0) := by decide
  have hzero := (hall (2 ^ 32) 1 (by decide) _ (Run.Reach.refl.next hstep) 0 rfl).1 rfl
  exact absurd hzero (by decide)

end Ticks
