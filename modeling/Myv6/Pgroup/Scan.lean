import Myv6.Pgroup.Keep
import Myv6.Lib.Tally

/-!
# Pgroup/Scan — the scan of `alloc_pgroup` finds a free slot

    slots   0   1   2 | 3   4   5   6   7
                      i ─── free slots from here on  ≥  scanners that have come this far

Slots behind a scanner can be freed while slots ahead of it are taken, so counting all free slots
is not enough: `Scan` counts them from every position on.  From position `0` there are at least as
many as CPUs in no group, and a scanner passes a slot only if the slot is not among those counted.
-/

namespace Pgroup

open State

variable {s t : State} {g : GroupId} {c d : CpuId} {p q : ProcId}

/-- The CPU scans, and has come to slot `i` or beyond. -/
def Pc.scansFrom (i : ℕ) : Pc → Bool
  | .allocScan _ j => decide (i ≤ j)
  | _ => false

/-- The free slots from `i` on. -/
def freeFrom (s : State) (i : ℕ) : ℕ :=
  Tally.count fun g : GroupId => i ≤ g ∧ (s.group g).id = none

/-- The scanners that have come to slot `i` or beyond. -/
def scanFrom (s : State) (i : ℕ) : ℕ := Tally.count fun c => (s.pc c).scansFrom i = true

/-- **From every slot on there are free slots for the scanners that have come this far.** -/
def Scan (s : State) : Prop := ∀ i, scanFrom s i ≤ freeFrom s i

/-! ## Position `0` -/

/-- A CPU in no group leaves a slot free. -/
theorem Roster.outside_le_free (hr : Roster s) :
    Tally.count (fun c => s.cpuGroup c = none) ≤ freeFrom s 0 := by
  have hused : (Finset.univ.filter fun g : GroupId => ¬(s.group g).id = none).card
      ≤ (Finset.univ.filter fun c : CpuId => ¬s.cpuGroup c = none).card := by
    -- every slot in use is some CPU's
    refine (Finset.card_le_card fun g hg => ?_).trans
      (Finset.card_image_le (f := fun c => (s.cpuGroup c).getD defaultPgroupId))
    simp only [Finset.mem_filter, Finset.mem_univ, true_and, hr.id_eq_none_iff, not_forall,
      not_not] at hg
    obtain ⟨c, hc⟩ := hg
    exact Finset.mem_image.mpr ⟨c, by simp [hc], by simp [hc]⟩
  have hcpu := Finset.card_filter_add_card_filter_not
    (s := (Finset.univ : Finset CpuId)) (fun c => s.cpuGroup c = none)
  have hslot := Finset.card_filter_add_card_filter_not
    (s := (Finset.univ : Finset GroupId)) (fun g => (s.group g).id = none)
  rw [Finset.card_univ, Fintype.card_fin] at hcpu hslot
  have hsame : maxProcGroupNum = maxCpuNum := rfl
  simp only [Tally.count, freeFrom, Nat.zero_le, true_and]
  omega

/-- A scanner is in no group. -/
theorem Inv.scan_zero (hi : Inv s) : scanFrom s 0 ≤ freeFrom s 0 := by
  refine (Tally.count_le_of_imp fun c hc => ?_).trans hi.roster.outside_le_free
  have hok := hi.here c
  cases hk : s.pc c <;> rw [hk] at hc hok <;> simp only [Pc.scansFrom, Bool.false_eq_true] at hc
  exact hok.2.2.1

/-! ## Steps -/

/-- Fewer scanners and more free slots. -/
theorem Scan.of_mono (hs : Scan s)
    (hpc : ∀ d i, (t.pc d).scansFrom i = true → (s.pc d).scansFrom i = true)
    (hid : ∀ g, (s.group g).id = none → (t.group g).id = none) : Scan t := fun i =>
  calc scanFrom t i ≤ scanFrom s i := Tally.count_le_of_imp fun d hd => hpc d i hd
    _ ≤ freeFrom s i := hs i
    _ ≤ freeFrom t i := Tally.count_le_of_imp fun g hg => ⟨hg.1, hid g hg.2⟩

/-- A scanner that has just begun has come to slot `0` only. -/
theorem Scan.of_begin (hs : Scan s) (hi : Inv t) (ht : t.pc c = .allocScan p 0)
    (hpc : ∀ d ≠ c, t.pc d = s.pc d) (hid : ∀ g, (s.group g).id = none → (t.group g).id = none) :
    Scan t := by
  intro i
  rcases Nat.eq_zero_or_pos i with rfl | hpos
  · exact hi.scan_zero
  · calc scanFrom t i ≤ scanFrom s i := Tally.count_le_of_imp fun d hd => by
          by_cases hdc : d = c
          · rw [hdc, ht] at hd
            simp only [Pc.scansFrom, decide_eq_true_eq] at hd
            omega
          · rwa [hpc d hdc] at hd
      _ ≤ freeFrom s i := hs i
      _ ≤ freeFrom t i := Tally.count_le_of_imp fun g hg => ⟨hg.1, hid g hg.2⟩

/-- A scanner takes the slot it has come to. -/
theorem Scan.of_take (hs : Scan s) (hpc : s.pc c = .allocScan p g) (hfree : (s.group g).id = none)
    (ht : ∀ i, (t.pc c).scansFrom i = false) (hother : ∀ d ≠ c, t.pc d = s.pc d)
    (hid : ∀ j ≠ g, (s.group j).id = none → (t.group j).id = none) : Scan t := by
  intro i
  have hscan : ∀ d, (t.pc d).scansFrom i = true → (s.pc d).scansFrom i = true := fun d hd => by
    by_cases hdc : d = c
    · rw [hdc, ht] at hd
      cases hd
    · rwa [hother d hdc] at hd
  by_cases hig : i ≤ g
  · -- the slot is lost to those up to it, and so is the scanner
    have hless : scanFrom t i + 1 ≤ scanFrom s i :=
      Tally.count_succ_le (i := c) (by simpa [hpc, Pc.scansFrom] using hig) (by simp [ht]) hscan
    have hmore : freeFrom s i ≤ freeFrom t i + 1 :=
      Tally.count_le_succ (i := g) fun j hj h => ⟨h.1, hid j hj h.2⟩
    have := hs i
    omega
  · refine (Tally.count_le_of_imp hscan).trans ((hs i).trans (Tally.count_le_of_imp fun j h => ?_))
    have hjg : j ≠ g := by
      rintro rfl
      exact hig h.1
    exact ⟨h.1, hid j hjg h.2⟩

/-- A scanner passes a slot in use, which is not among those counted. -/
theorem Scan.of_pass (hs : Scan s) (hpc : s.pc c = .allocScan p g) (hused : (s.group g).id ≠ none) :
    Scan (s.setPc c (.allocScan p (g + 1))) := by
  intro i
  have hother : ∀ d ≠ c, (s.setPc c (.allocScan p (g + 1))).pc d = s.pc d := fun d hd => by
    simp [hd]
  have hself : (s.setPc c (.allocScan p (g + 1))).pc c = .allocScan p (g + 1) := by simp
  by_cases hig : i = g + 1
  · calc scanFrom (s.setPc c (.allocScan p (g + 1))) i ≤ scanFrom s g :=
          Tally.count_le_of_imp fun d hd => by
            by_cases hdc : d = c
            · simp [hdc, hpc, Pc.scansFrom]
            · rw [hother d hdc] at hd
              cases hk : s.pc d <;> rw [hk] at hd <;>
                simp only [Pc.scansFrom, Bool.false_eq_true, decide_eq_true_eq] at hd ⊢
              omega
      _ ≤ freeFrom s g := hs g
      _ ≤ freeFrom s i := Tally.count_le_of_imp fun j hj => by
          have hjg : j ≠ g := by
            rintro rfl
            exact hused hj.2
          have := Fin.val_ne_of_ne hjg
          exact ⟨by omega, hj.2⟩
  · refine (Tally.count_le_of_imp fun d hd => ?_).trans (hs i)
    by_cases hdc : d = c
    · rw [hdc, hself] at hd
      rw [hdc, hpc]
      simp only [Pc.scansFrom, decide_eq_true_eq] at hd ⊢
      omega
    · rwa [hother d hdc] at hd

/-- A CPU that goes anywhere else scans only if it did. -/
theorem setPc_scans {u : State} {k : Pc} (hpc : u.pc = s.pc) (hk : ∀ i, k.scansFrom i = false) :
    ∀ d i, ((u.setPc c k).pc d).scansFrom i = true → (s.pc d).scansFrom i = true := by
  intro d i h
  by_cases hd : d = c
  · subst hd
    simp only [setPc, Function.update_self, hk, Bool.false_eq_true] at h
  · rw [← hpc]
    simpa [hd] using h

theorem Goto.not_scan {k k' : Pc} (h : Goto k k') (i : ℕ) : k'.scansFrom i = false := by
  cases h <;> rfl

theorem Pc.afterDefault_not_scan {k k' : Pc} (h : k.afterDefault = some k') (i : ℕ) :
    k'.scansFrom i = false := by
  cases k <;> cases h <;> rfl

theorem Pc.afterCount_not_scan {k k' : Pc} (h : k.afterCount = some k') (i : ℕ) :
    k'.scansFrom i = false := by
  cases k <;> cases h <;> rfl

/-! The moves that leave every free slot free. -/

@[simp] theorem id_cpuOut (i : GroupId) : ((s.cpuOut g c).group i).id = (s.group i).id := by
  by_cases hi : i = g <;> simp [State.cpuOut, hi]

@[simp] theorem id_cpuIn (i : GroupId) : ((s.cpuIn g c).group i).id = (s.group i).id := by
  by_cases hi : i = g <;> simp [State.cpuIn, hi]

@[simp] theorem id_procOut (i : GroupId) : ((s.procOut g p).group i).id = (s.group i).id := by
  by_cases hi : i = g <;> simp [State.procOut, hi]

@[simp] theorem id_procIn (i : GroupId) : ((s.procIn g p).group i).id = (s.group i).id := by
  by_cases hi : i = g <;> simp [State.procIn, hi]

@[simp] theorem id_occupied (b : Bool) (i : GroupId) :
    ((s.occupied g b).group i).id = (s.group i).id := by
  by_cases hi : i = g <;> simp [State.occupied, hi]

@[simp] theorem id_procMoveToTail (i : GroupId) :
    ((s.procMoveToTail g p).group i).id = (s.group i).id := by
  by_cases hi : i = g <;> simp [State.procMoveToTail, hi]

theorem id_freed {i : GroupId} (h : (s.group i).id = none) : ((s.freed g).group i).id = none := by
  by_cases hi : i = g <;> simp [State.freed, hi, h]

theorem Scan.of_effect (hs : Scan s) (hi : Inv s) {a : Act} (h : Effect s a t) : Scan t := by
  have hit := hi.of_effect h
  cases h with
  | idle => exact hs
  | allocNext c p g hpc hid => exact hs.of_pass hpc hid
  | allocTake c p g hpc hid =>
    refine hs.of_take hpc hid (fun i => by simp [Pc.scansFrom])
      (fun d hd => by simp [State.cpuIn, State.claimed, hd]) fun j hj h => ?_
    simpa [State.cpuIn, State.claimed, hj] using h
  | createLeave c p g _ _ _ _ _ _ _ =>
    exact hs.of_begin hit (c := c) (p := p) (by simp)
      (fun d hd => by simp [State.cpuOut, State.procOut, hd]) fun j h => by simpa using h
  | createLast c p g _ _ _ _ _ _ _ _ =>
    exact hs.of_begin hit (c := c) (p := p) (by simp)
      (fun d hd => by simp [State.freed, State.cpuOut, State.procOut, hd])
      fun j h => id_freed (by simpa using h)
  | createGo c p _ _ =>
    exact hs.of_begin hit (c := c) (p := p) (by simp) (fun d hd => by simp [hd]) fun j h => h
  | goto c k hgo _ _ => exact hs.of_mono (setPc_scans rfl hgo.not_scan) fun _ h => h
  | enterDefault c k hk _ =>
    exact hs.of_mono (setPc_scans rfl (Pc.afterDefault_not_scan hk)) fun _ h => by simpa using h
  | count c k hk _ =>
    exact hs.of_mono (setPc_scans (u := { s with freeCpus := s.freeCpus + 1 }) rfl
      (Pc.afterCount_not_scan hk)) fun _ h => h
  | take c _ _ =>
    exact hs.of_mono (setPc_scans (u := { s with
      umBox := s.umBox.get.2, taken := s.taken ++ [(c, s.umBox.get.1)] }) rfl fun _ => rfl)
      fun _ h => h
  | switchOut c p st ch _ =>
    exact hs.of_mono (setPc_scans (u := (s.setChain p ch).setStatus p st) rfl fun _ => rfl)
      fun _ h => h
  | incSleep c p g _ =>
    exact hs.of_mono (setPc_scans
      (u := ((s.setLock g none).setChain p (some (.request p))).setStatus p .sleep) rfl
      fun _ => rfl) fun _ h => h
  | negative | refused | tooMany | boxFull | noSlot =>
    exact hs.of_mono (setPc_scans rfl fun _ => rfl) fun _ h => h
  | leaveLast | decLast =>
    exact hs.of_mono (setPc_scans rfl fun _ => rfl) fun _ h => id_freed (by simpa using h)
  | acquireWake => exact hs.of_mono (setPc_scans rfl fun _ => rfl) fun _ h => h
  | forkFail | wake | reap => exact hs.of_mono (fun _ _ h => h) fun _ h => h
  | createKeep | occupy | ask | askNone | reserve | sendFlex | forkAlloc | forkRunable
  | forkInsert => exact hs.of_mono (fun _ _ h => h) fun _ h => by simpa using h
  | _ => exact hs.of_mono (setPc_scans rfl fun _ => rfl) fun _ h => by simpa using h

theorem Scan.boot : Scan boot := by
  intro i
  have hzero : scanFrom Pgroup.boot i = 0 := Tally.count_eq_zero_iff.mpr fun c => by
    by_cases hc : c = 0 <;> simp [Pgroup.boot, hc, Pc.scansFrom]
  omega

theorem Reachable.scan (h : Reachable s) : Scan s :=
  h.invariant_with Scan.boot fun _ _ _ hr hs _ ht =>
    have hi := Reachable.inv hr
    hs.of_effect hi (hi.effect ht)

/-- A scanner has not run past the last slot. -/
theorem Scan.position_lt (hs : Scan s) {i : ℕ} (hpc : s.pc c = .allocScan p i) :
    i < maxProcGroupNum := by
  by_contra hge
  have hfree : freeFrom s i = 0 := Tally.count_eq_zero_iff.mpr fun g hg => by
    have := g.isLt
    omega
  have hscan : 0 < scanFrom s i := Tally.count_pos_of (i := c) (by simp [hpc, Pc.scansFrom])
  have := hs i
  omega

/-- **The scan of `alloc_pgroup` always finds a free slot**: a CPU in it stands before a slot that
exists, at or beyond which one is free, and no CPU is ever stopped for lack of groups. -/
theorem alloc_pgroup_finds_slot (h : Reachable s) :
    (∀ c p i, s.pc c = .allocScan p i →
      i < maxProcGroupNum ∧ ∃ g : GroupId, i ≤ g ∧ (s.group g).id = none) ∧
    ∀ c, s.pc c ≠ .panic .runOutOfGroups := by
  refine ⟨fun c p i hpc => ⟨h.scan.position_lt hpc, ?_⟩, ?_⟩
  · by_contra hno
    have hfree : freeFrom s i = 0 := Tally.count_eq_zero_iff.mpr fun g hg => hno ⟨g, hg⟩
    have hscan : 0 < scanFrom s i := Tally.count_pos_of (i := c) (by simp [hpc, Pc.scansFrom])
    have := h.scan i
    omega
  · refine h.invariant_with (P := fun s => ∀ c, s.pc c ≠ .panic .runOutOfGroups) (fun c => ?_)
      fun s _ t hr hno _ hs c hc => ?_
    · by_cases hc : c = 0 <;> simp [Pgroup.boot, hc]
    · cases ((Reachable.inv hr).effect hs).stops hc with
      | before _ h => exact hno c h
      | noSlot p i hpc hge =>
        have := (Reachable.scan hr).position_lt hpc
        omega
      | refused g _ h => cases h

/-- Two CPUs with a process each leave the default group and scan side by side. -/
def scanRun : List Act :=
  [.cpu 1, .cpu 1, .cpu 2, .cpu 2,
    .cpu 0, .cpu 0, .cpu 0, .call 0 (.fork 1), .cpu 0, .cpu 0, .call 0 (.fork 2), .cpu 0, .cpu 0,
    .cpu 1, .cpu 1, .cpu 1, .cpu 2, .cpu 2, .cpu 2,
    .call 1 .createPgroup, .cpu 1, .call 2 .createPgroup, .cpu 2, .cpu 2, .cpu 1]

theorem alloc_pgroup_finds_slot_scanRun :
    ∃ s, Run.run step boot scanRun = some s ∧ s.pc 1 = .allocScan 2 1 ∧ s.pc 2 = .allocScan 1 1 ∧
      ∃ g : GroupId, 1 ≤ (g : ℕ) ∧ (s.group g).id = none := by
  have hsome : ((Run.run step boot scanRun).map fun s => (s.pc 1, s.pc 2))
      = some (.allocScan 2 1, .allocScan 1 1) := by rfl
  obtain ⟨s, hs, heq⟩ := Option.map_eq_some_iff.mp hsome
  obtain ⟨h₁, h₂⟩ := Prod.mk.inj heq
  exact ⟨s, hs, h₁, h₂,
    ((alloc_pgroup_finds_slot (Run.reachable_of_run .refl hs)).1 1 2 1 h₁).2⟩

end Pgroup
