import Myv6.Process.Inv

/-!
# Process/Keep — every step keeps the scheduling invariant

    fail · takeCode · takeCpu · code · switch · goto · wakeUpOn · start · after · yield · store

One lemma per kind of effect, then the run.
-/

namespace Process

open Function (update)

/-- A position of another CPU is still there after CPU `c` has moved. -/
theorem exists_pc_update {f : CpuId → Pc} {c : CpuId} {k k' : Pc} (h : ∃ d, f d = k)
    (hc : f c ≠ k) : ∃ d, update f c k' d = k := by
  obtain ⟨d, rfl⟩ := h
  have hdc : d ≠ c := fun hdc => hc (hdc ▸ rfl)
  exact ⟨d, Function.update_of_ne hdc _ _⟩

namespace Inv

variable {s t : State} {c d : CpuId} {p q : ProcId} {l : Lock}

/-- The locks after CPU `c` has taken one. -/
theorem lock_take (h : Inv s) (hl : s.lock l = none) (hlock : t.lock = update s.lock l (some c))
    (hself : ∀ l', (t.pc c).Holds t l' ↔ (s.pc c).Holds s l' ∨ l' = l)
    (hother : ∀ d, d ≠ c → ∀ l', (t.pc d).Holds t l' ↔ (s.pc d).Holds s l') (d : CpuId) (l' : Lock) :
    t.lock l' = some d ↔ (t.pc d).Holds t l' := by
  have hno := h.lock d l
  by_cases hdc : d = c
  · subst hdc
    rw [hlock, hself, ← h.lock]
    grind
  · rw [hlock, hother d hdc, ← h.lock]
    grind

/-- The locks after CPU `c` has given one up, or none. -/
theorem lock_drop (h : Inv s) (op : Op) (hop : ∀ l, op = .release l → s.lock l = some c)
    (hlock : t.lock = op.drop s.lock)
    (hself : ∀ l', (t.pc c).Holds t l' ↔ (s.pc c).Holds s l' ∧ op ≠ .release l')
    (hother : ∀ d, d ≠ c → ∀ l', (t.pc d).Holds t l' ↔ (s.pc d).Holds s l') (d : CpuId) (l' : Lock) :
    t.lock l' = some d ↔ (t.pc d).Holds t l' := by
  by_cases hdc : d = c
  · subst hdc
    rw [hlock, hself, ← h.lock]
    grind
  · rw [hlock, hother d hdc, ← h.lock]
    grind

/-! ## The effects -/

/-- A panic changes nothing else. -/
theorem fail {e : Error} (h : Inv s) : Inv (s.fail c e) where
  lock := h.lock
  myProc := h.myProc
  one := h.one
  cpu := h.cpu
  distinct := h.distinct
  saved := h.saved
  fits := h.fits
  idle := h.idle
  claim := h.claim
  madeUp := h.madeUp
  alone := h.alone
  placed := h.placed

theorem takeCode (h : Inv s) (hpc : s.pc c = .exec p) (hw : (s.kpc p).want p = some l)
    (hl : s.lock l = none) :
    Inv { s with
      lock := update s.lock l (some c)
      kpc := update s.kpc p ((s.kpc p).got s p) } := by
  have hfree : ¬(s.kpc p).Holds p l := by
    simpa [hpc, Pc.Holds] using h.not_holds_of_free hl (c := c)
  obtain ⟨hd, hholds⟩ := Code.got_exact (s := s) (h.distinct p) hw hfree
  obtain ⟨hclaims, hmade⟩ := Code.got_claims (s := s) hw
  obtain ⟨hrun, hctx⟩ : s.status p = .running ∧ s.context p = none := by
    simpa [hpc, Pc.Ok] using h.cpu c
  have hkpc : ∀ x, x ≠ p → update s.kpc p ((s.kpc p).got s p) x = s.kpc x :=
    fun x hx => Function.update_of_ne hx _ _
  have hclaims' : ∀ x, (update s.kpc p ((s.kpc p).got s p) x).claims = (s.kpc x).claims := by
    grind
  have hmade' : ∀ x, (update s.kpc p ((s.kpc p).got s p) x).madeUp = (s.kpc x).madeUp := by
    grind
  constructor
  case lock =>
    refine h.lock_take (c := c) hl rfl ?_ fun d hdc => Pc.holds_congr fun x hx => hkpc x ?_
    · simpa [hpc, Pc.Holds] using hholds
    · rintro rfl
      exact h.others hpc hdc (Pc.about_of_proc hx)
  case myProc => exact h.myProc
  case one => exact h.one
  case cpu =>
    intro d
    by_cases hdc : d = c
    · simp [hdc, hpc, Pc.Ok, hrun, hctx]
    · refine (h.cpu d).congr fun x hx => ⟨.inl rfl, rfl, hkpc x ?_⟩
      rintro rfl
      exact h.others hpc hdc hx
  case distinct => grind [h.distinct]
  case saved => exact h.saved
  case fits => grind [h.fits]
  case idle => grind [h.idle]
  case claim => simpa only [hclaims'] using h.claim
  case madeUp => simpa only [hclaims', hmade'] using h.madeUp
  case alone => simpa only [hclaims'] using h.alone
  case placed => grind [h.placed]

theorem takeCpu {k : Pc} (h : Inv s) (hpc : s.pc c = k) (hw : k.want = some l)
    (hl : s.lock l = none) :
    Inv { s with
      lock := update s.lock l (some c)
      pc := update s.pc c k.got } := by
  have hpc' : ∀ d, d ≠ c → update s.pc c k.got d = s.pc d := fun d hd => Function.update_of_ne hd _ _
  have hself : update s.pc c k.got c = k.got := Function.update_self _ _ _
  have hproc : k.got.proc = k.proc := by cases k <;> rfl
  have hproc' : ∀ d, (update s.pc c k.got d).proc = (s.pc d).proc := by grind
  have hexec : ∀ x, k ≠ .exec x := by rintro x rfl; cases hw
  have hswtch : ∀ x r, k ≠ .swtch x r := by rintro x r rfl; cases hw
  constructor
  case lock =>
    refine h.lock_take (c := c) hl rfl ?_ fun d hdc l' => ?_
    · intro l'
      simp only [hself, hpc]
      cases k <;> cases hw <;> simp [Pc.got, Pc.Holds]
    · simp only [hpc' d hdc]
      rfl
  case myProc => simpa only [hproc'] using h.myProc
  case one => simpa only [hproc'] using h.one
  case cpu =>
    intro d
    by_cases hdc : d = c
    · subst hdc
      have hok := h.cpu d
      simp only [hself]
      rw [hpc] at hok
      cases k <;> cases hw <;> exact hok
    · simp only [hpc' d hdc]
      exact h.cpu d
  case distinct => exact h.distinct
  case saved => grind [h.saved]
  case fits => exact h.fits
  case idle => exact h.idle
  case claim => exact h.claim
  case madeUp => exact h.madeUp
  case alone => exact h.alone
  case placed => grind [h.placed]

/-- What the code of a process does leaves the slots of the other CPUs alone, up to a wake-up. -/
theorem frame_of_about {k' : Code} {post : State} (h : Inv s) (hpc : s.pc c = .exec p)
    (hmove : SlotMove s post p (s.kpc p) k' q) (hdc : d ≠ c) (hq : (s.pc d).about = some q) :
    (post.status q = s.status q ∨ s.status q = .sleep ∧ post.status q = .runable) ∧
      post.context q = s.context q ∧ post.kpc q = s.kpc q := by
  have hstatus := h.status_of_about hq
  have hclaim := h.claim p q
  have hholder := h.holder (c := c) (d := d) (l := .proc q)
  cases hmove <;> grind [Pc.Holds, Status.off]

theorem code {k' : Code} {op : Op} {post : State} (h : Inv s) (hpc : s.pc c = .exec p)
    (hgo : (s.kpc p).Goes s p ⟨op, post, .code p k'⟩)
    (hop : ∀ l, op = .release l → s.lock l = some c) :
    Inv { post with lock := op.drop post.lock, kpc := update post.kpc p k' } := by
  obtain ⟨hpcs, hlocks, hmy, -⟩ := hgo.frame
  have hexact := hgo.exact (h.distinct p)
  have hslot : ∀ q, SlotMove s post p (s.kpc p) k' q := hgo.slot (h.distinct p) rfl
  have hclaims := hgo.claims rfl
  obtain ⟨hrun, hctx⟩ : s.status p = .running ∧ s.context p = none := by
    simpa [hpc, Pc.Ok] using h.cpu c
  -- the process itself stays where it is: no move applies to a running slot
  have hself : post.status p = .running ∧ post.context p = none := by
    have := h.claim p p
    cases hslot p <;> grind -linarith
  have hkpc : ∀ x q, (update post.kpc p k' x).claims = some q →
      x = p ∧ k'.claims = some q ∨ x ≠ p ∧ (s.kpc x).claims = some q ∧ post.kpc x = s.kpc x := by
    intro x q hx
    cases hslot x <;> grind -linarith [Code.claims]
  dsimp only at hpcs hlocks hmy
  constructor
  case lock =>
    refine h.lock_drop (c := c) op hop (by rw [← hlocks]) (fun l' => ?_) fun d hdc l' => ?_
    · simp only [hpcs, hpc, Pc.Holds, Function.update_self]
      obtain ⟨-, -, hholds⟩ := hexact
      cases op with
      | keep => simpa using hholds l'
      | release l => simpa [eq_comm] using hholds.2 l'
    · simp only [hpcs]
      refine Pc.holds_congr (fun x hx => ?_) l'
      have hx' := Pc.about_of_proc hx
      have hne : x ≠ p := by
        rintro rfl
        exact h.others hpc hdc hx'
      simp only [Function.update_of_ne hne]
      exact (h.frame_of_about hpc (hslot x) hdc hx').2.2
  case myProc => simpa only [hpcs, hmy] using h.myProc
  case one => simpa only [hpcs] using h.one
  case cpu =>
    intro d
    by_cases hdc : d = c
    · subst hdc
      simpa only [hpcs, hpc, Pc.Ok] using hself
    · simp only [hpcs]
      refine (h.cpu d).congr fun x hx => ?_
      have hne : x ≠ p := by
        rintro rfl
        exact h.others hpc hdc hx
      simp only [Function.update_of_ne hne]
      exact h.frame_of_about hpc (hslot x) hdc hx
  case distinct =>
    intro x
    have := h.distinct x
    have := hexact.2.1
    cases hslot x <;> grind -linarith [Code.Distinct]
  case saved =>
    intro x hoff hnone
    have := h.saved x
    have := h.madeUp p x
    simp only [hpcs]
    cases hslot x <;> grind -linarith [Status.off]
  case fits =>
    intro x r hx
    have := h.fits x r
    have := h.idle x
    have := h.claim p x
    cases hslot x <;> grind -linarith [Fits, Code.open]
  case idle =>
    intro x hx
    have := h.idle x
    have := h.claim p x
    cases hslot x <;> grind -linarith
  case claim =>
    intro x q hx
    have := hkpc x q hx
    have := h.claim x q
    have := h.claim p q
    have := h.alone p x q
    cases hslot q <;> grind -linarith
  case madeUp =>
    intro x q hx hm
    have := hkpc x q hx
    have := h.claim x q
    have := h.claim p q
    have := h.madeUp x q
    have := h.madeUp p q
    have := h.alone p x q
    cases hslot q <;> grind -linarith
  case alone =>
    intro x y q hx hy
    have := hkpc x q hx
    have := hkpc y q hy
    grind -linarith [h.claim, h.alone]
  case placed =>
    intro x
    have := h.placed x
    simp only [hpcs]
    cases hslot x <;> grind -linarith [Code.parked, Code.open]

theorem switch {k' : Code} {r : Resume} {post : State} (h : Inv s) (hpc : s.pc c = .exec p)
    (hgo : (s.kpc p).Goes s p ⟨.keep, post, .switch p k' r⟩) :
    Inv { post with kpc := update post.kpc p k', pc := update post.pc c (.swtch p r) } := by
  obtain ⟨hpcs, hlocks, hmy, -⟩ := hgo.frame
  obtain ⟨-, hd, hpark, hfits, -, hholds⟩ := hgo.exact (h.distinct p)
  obtain ⟨hclaims, hctx, hkpc, hoff, hstatus⟩ := hgo.switch rfl
  obtain ⟨hrun, hnone⟩ : s.status p = .running ∧ s.context p = none := by
    simpa [hpc, Pc.Ok] using h.cpu c
  dsimp only at hpcs hlocks hmy hctx hkpc hoff hstatus
  have hproc : ∀ d, (update s.pc c (.swtch p r) d).proc = (s.pc d).proc := by
    intro d
    by_cases hdc : d = c <;> simp [hdc, hpc, Pc.proc]
  have hfar : ∀ d x, d ≠ c → (s.pc d).about = some x → x ≠ p := by
    rintro d x hdc hx rfl
    exact h.others hpc hdc hx
  simp only [hpcs, hkpc, hctx, hlocks, hmy]
  constructor
  case lock =>
    refine h.lock_drop (c := c) .keep (by simp) rfl (fun l => ?_) fun d hdc l => ?_
    · simpa [hpc, Pc.Holds] using (hholds l).symm
    · simp only [Function.update_of_ne hdc]
      refine Pc.holds_congr (fun x hx => ?_) l
      simp [hfar d x hdc (Pc.about_of_proc hx)]
  case myProc => simpa only [hproc] using h.myProc
  case one => simpa only [hproc] using h.one
  case cpu =>
    intro d
    by_cases hdc : d = c
    · subst hdc
      simpa [Pc.Ok] using ⟨hoff, hnone, hfits⟩
    · simp only [Function.update_of_ne hdc]
      refine (h.cpu d).congr fun x hx => ?_
      have hne := hfar d x hdc hx
      exact ⟨.inl (hstatus x hne), rfl, by simp [hne]⟩
  case distinct => grind [h.distinct]
  case saved => 
    intro x hx hn
    by_cases hxp : x = p
    · exact ⟨c, r, by simp [hxp]⟩
    · have := h.saved x
      grind
  case fits => grind [h.fits]
  case idle => grind [h.idle, Status.off]
  case claim => grind [h.claim]
  case madeUp => grind [h.madeUp]
  case alone => grind [h.alone]
  case placed => grind [h.placed]

/-- A CPU moves between positions that are about the same process. -/
theorem goto {k k' : Pc} {op : Op} (h : Inv s) (hpc : s.pc c = k)
    (hop : ∀ l, op = .release l → s.lock l = some c)
    (hholds : ∀ l, k'.Holds s l ↔ k.Holds s l ∧ op ≠ .release l) (hproc : k'.proc = k.proc)
    (hok : k'.Ok s) (hswtch : ∀ p r, k ≠ .swtch p r)
    (hexec : ∀ p, k = .exec p → (s.kpc p).parked) :
    Inv { s with lock := op.drop s.lock, pc := update s.pc c k' } := by
  have hproc' : ∀ d, (update s.pc c k' d).proc = (s.pc d).proc := by grind
  constructor
  case lock =>
    refine h.lock_drop (c := c) op hop rfl (fun l => ?_) fun d hdc l => ?_
    · simp only [Function.update_self, hpc]
      exact hholds l
    · simp only [Function.update_of_ne hdc]
      rfl
  case myProc => simpa only [hproc'] using h.myProc
  case one => simpa only [hproc'] using h.one
  case cpu =>
    intro d
    by_cases hdc : d = c
    · subst hdc
      simp only [Function.update_self]
      exact hok
    · simp only [Function.update_of_ne hdc]
      exact h.cpu d
  case distinct => exact h.distinct
  case saved => grind [h.saved]
  case fits => exact h.fits
  case idle => exact h.idle
  case claim => exact h.claim
  case madeUp => exact h.madeUp
  case alone => exact h.alone
  case placed => grind [h.placed]

/-- Waking a sleeper leaves it off the CPU. -/
theorem wakeUpOn {ch : ℕ} {i : ProcId} (h : Inv s) : Inv (s.wakeUpOn ch i) := by
  have hstatus : ∀ x, (s.wakeUpOn ch i).status x = s.status x ∨
      s.status x = .sleep ∧ (s.wakeUpOn ch i).status x = .runable := by grind
  exact {
    lock := h.lock
    myProc := h.myProc
    one := h.one
    cpu := fun c => (h.cpu c).congr fun x _ => ⟨hstatus x, rfl, rfl⟩
    distinct := h.distinct
    saved := fun x hx => h.saved x (by cases hstatus x <;> grind [Status.off])
    fits := h.fits
    idle := fun x hx => h.idle x (by cases hstatus x <;> grind)
    claim := fun x q hx => by
      have := h.claim x q hx
      cases hstatus q <;> grind
    madeUp := h.madeUp
    alone := h.alone
    placed := h.placed }

theorem start {r : Resume} (h : Inv s) (hpc : s.pc c = .start q) (hr : s.context q = some r) :
    Inv { s with
      myProc := update s.myProc c (some q)
      status := update s.status q .running
      context := update s.context q none
      pc := update s.pc c (r.pc q) } := by
  have hq : s.status q = .runable := by
    have := h.cpu c
    simp_all [Pc.Ok]
  have hfits := h.fits q r hr
  have hfar : ∀ d x, d ≠ c → (s.pc d).about = some x → x ≠ q := by
    rintro d x hdc hx rfl
    exact hdc (h.about_one hx (by simp [hpc, Pc.about]))
  have hproc : (r.pc q).proc = some q := by cases r <;> rfl
  constructor
  case lock =>
    refine h.lock_drop (c := c) .keep (by simp) rfl (fun l => ?_) fun d hdc l => ?_
    · cases r with
      | unlock => simp [hpc, Pc.Holds, Resume.pc]
      | hold => simpa [hpc, Pc.Holds, Resume.pc] using hfits l
    · simp only [Function.update_of_ne hdc]
      rfl
  case myProc => grind [h.myProc]
  case one =>
    intro d e x hd he
    have := h.one d e x
    have := fun hdc => hfar d x hdc
    have := fun hdc => hfar e x hdc
    have := @Pc.about_of_proc (s.pc d) x
    have := @Pc.about_of_proc (s.pc e) x
    grind
  case cpu =>
    intro d
    by_cases hdc : d = c
    · subst hdc
      cases r with
      | unlock => simpa [Resume.pc, Pc.Ok, State.Calm, Fits] using hfits
      | hold => simp [Resume.pc, Pc.Ok]
    · simp only [Function.update_of_ne hdc]
      refine (h.cpu d).congr fun x hx => ?_
      simp [hfar d x hdc hx]
  case distinct => exact h.distinct
  case saved =>
    intro x hx hn
    have hne : x ≠ q := by
      rintro rfl
      simp [Status.off] at hx
    obtain ⟨d, r', hd⟩ := h.saved x (by simpa [hne] using hx) (by simpa [hne] using hn)
    obtain ⟨d', hd'⟩ : ∃ d', update s.pc c (r.pc q) d' = .swtch x r' :=
      exists_pc_update ⟨d, hd⟩ (by simp [hpc])
    exact ⟨d', r', hd'⟩
  case fits => grind [h.fits]
  case idle => grind [h.idle]
  case claim => grind [h.claim]
  case madeUp => grind [h.madeUp, h.claim]
  case alone => exact h.alone
  case placed => exact fun x => (h.placed x).imp_right (exists_pc_update · (by simp [hpc]))

theorem after (h : Inv s) (hpc : s.pc c = .after p) (hl : s.lock (.proc p) = some c) :
    Inv { s with
      myProc := update s.myProc c none
      lock := update s.lock (.proc p) none
      pc := update s.pc c .sched } := by
  constructor
  case lock =>
    refine h.lock_drop (c := c) (.release (.proc p)) (by grind) rfl (fun l => ?_)
      fun d hdc l => ?_
    · simp [hpc, Pc.Holds, eq_comm]
    · simp only [Function.update_of_ne hdc]
      rfl
  case myProc => grind [h.myProc, Pc.proc]
  case one => grind [h.one, Pc.proc]
  case cpu =>
    intro d
    by_cases hdc : d = c
    · simp [hdc, Pc.Ok]
    · simp only [Function.update_of_ne hdc]
      exact h.cpu d
  case distinct => exact h.distinct
  case saved =>
    intro x hx hn
    obtain ⟨d, r, hd⟩ := h.saved x hx hn
    obtain ⟨d', hd'⟩ : ∃ d', update s.pc c .sched d' = .swtch x r :=
      exists_pc_update ⟨d, hd⟩ (by simp [hpc])
    exact ⟨d', r, hd'⟩
  case fits => exact h.fits
  case idle => exact h.idle
  case claim => exact h.claim
  case madeUp => exact h.madeUp
  case alone => exact h.alone
  case placed => exact fun x => (h.placed x).imp_right (exists_pc_update · (by simp [hpc]))

theorem yield (h : Inv s) (hpc : s.pc c = .yieldHeld p) :
    Inv { s with
      status := update s.status p .runable
      pc := update s.pc c (.swtch p .unlock) } := by
  obtain ⟨hrun, hctx, hopen⟩ : s.Calm p := by simpa [hpc, Pc.Ok] using h.cpu c
  have hfar : ∀ d x, d ≠ c → (s.pc d).about = some x → x ≠ p := by
    rintro d x hdc hx rfl
    exact hdc (h.about_one hx (by simp [hpc, Pc.about, Pc.proc]))
  have hproc : ∀ d, (update s.pc c (.swtch p .unlock) d).proc = (s.pc d).proc := by
    intro d
    by_cases hdc : d = c <;> simp [hdc, hpc, Pc.proc]
  constructor
  case lock =>
    refine h.lock_drop (c := c) .keep (by simp) rfl (fun l => ?_) fun d hdc l => ?_
    · simp [hpc, Pc.Holds]
    · simp only [Function.update_of_ne hdc]
      rfl
  case myProc => simpa only [hproc] using h.myProc
  case one => simpa only [hproc] using h.one
  case cpu =>
    intro d
    by_cases hdc : d = c
    · subst hdc
      simpa [Pc.Ok, Status.off, Fits] using ⟨hctx, hopen⟩
    · simp only [Function.update_of_ne hdc]
      refine (h.cpu d).congr fun x hx => ?_
      simp [hfar d x hdc hx]
  case distinct => exact h.distinct
  case saved =>
    intro x hx hn
    by_cases hxp : x = p
    · exact ⟨c, .unlock, by simp [hxp]⟩
    · have := h.saved x
      grind
  case fits => exact h.fits
  case idle => grind [h.idle]
  case claim => grind [h.claim]
  case madeUp => exact h.madeUp
  case alone => exact h.alone
  case placed => grind [h.placed]

theorem store {r : Resume} (h : Inv s) (hpc : s.pc c = .swtch p r) :
    Inv { s with
      context := update s.context p (some r)
      pc := update s.pc c (.after p) } := by
  obtain ⟨hoff, hctx, hfits⟩ : (s.status p).off ∧ s.context p = none ∧ Fits p (s.kpc p) r := by
    simpa [hpc, Pc.Ok] using h.cpu c
  have hfar : ∀ d x, d ≠ c → (s.pc d).about = some x → x ≠ p := by
    rintro d x hdc hx rfl
    exact hdc (h.about_one hx (by simp [hpc, Pc.about, Pc.proc]))
  have hproc : ∀ d, (update s.pc c (.after p) d).proc = (s.pc d).proc := by
    intro d
    by_cases hdc : d = c <;> simp [hdc, hpc, Pc.proc]
  constructor
  case lock =>
    refine h.lock_drop (c := c) .keep (by simp) rfl (fun l => ?_) fun d hdc l => ?_
    · simp [hpc, Pc.Holds]
    · simp only [Function.update_of_ne hdc]
      rfl
  case myProc => simpa only [hproc] using h.myProc
  case one => simpa only [hproc] using h.one
  case cpu =>
    intro d
    by_cases hdc : d = c
    · subst hdc
      simpa [Pc.Ok] using hoff
    · simp only [Function.update_of_ne hdc]
      refine (h.cpu d).congr fun x hx => ?_
      simp [hfar d x hdc hx]
  case distinct => exact h.distinct
  case saved => grind [h.saved]
  case fits => grind [h.fits]
  case idle => exact h.idle
  case claim => exact h.claim
  case madeUp => grind [h.madeUp]
  case alone => exact h.alone
  case placed => grind [h.placed]

/-- **Every step keeps the invariant.** -/
theorem of_effect {t : State} (h : Inv s) (heff : Effect s c t) : Inv t := by
  cases heff with
  | fail _ => exact h.fail
  | takeCode hpc hw hl => exact h.takeCode hpc hw hl
  | takeCpu hpc hw hl => exact h.takeCpu hpc hw hl
  | code hpc hgo hop => exact h.code hpc hgo hop
  | switch hpc hgo => exact h.switch hpc hgo
  | cpu hpc hmove hop =>
    have hok := h.cpu c
    rw [hpc] at hok
    cases hmove with
    | start hr => exact h.start hpc hr
    | after p => exact h.after hpc (hop _ rfl)
    | yield p => exact h.yield hpc
    | store p r => exact h.store hpc
    | wake ret ch i hk =>
      have h' : Inv (s.wakeUpOn ch i) := h.wakeUpOn
      have hok' := h'.cpu c
      rw [show (s.wakeUpOn ch i).pc c = .wakeHeld ret ch i from hpc] at hok'
      obtain rfl | ⟨j, rfl⟩ := hk
      · cases ret with
        | exec p =>
          obtain ⟨hrun, hctx, hopen⟩ := hok' p rfl
          exact h'.goto hpc hop (by grind [Pc.Holds, Ret.Holds, Ret.pc, Code.not_holds_of_open]) rfl
            ⟨hrun, hctx⟩ (by simp) (by simp)
        | sched | group g =>
          exact h'.goto hpc hop (by grind [Pc.Holds, Ret.Holds, Ret.pc]) rfl trivial (by simp)
            (by simp)
      · exact h'.goto hpc hop (by cases ret <;> grind [Pc.Holds, Ret.Holds]) rfl hok' (by simp)
          (by simp)
    | found g hq =>
      refine h.goto hpc hop (by grind [Pc.Holds]) rfl ⟨hq, fun hnone => ?_⟩ (by simp) (by simp)
      -- a process that is still on its way out is in the hands of another CPU, with its lock
      obtain ⟨d, r, hd⟩ := h.saved _ (by simp [hq, Status.off]) hnone
      have hcd : c = d :=
        h.holder (l := .proc _) (by rw [hpc]; exact .inr rfl) (by rw [hd]; exact rfl)
      simp [← hcd, hpc] at hd
    | timer hopen =>
      exact h.goto hpc hop (by simp [Pc.Holds, Code.not_holds_of_open hopen]) rfl
        ⟨hok.1, hok.2, hopen⟩ (by simp) (by rintro _ ⟨⟩; exact Code.parked_of_open hopen)
    | wakeExec ch hopen =>
      refine h.goto hpc hop (by simp [Pc.Holds, Code.not_holds_of_open hopen, Ret.Holds]) rfl
        ?_ (by simp) (by rintro _ ⟨⟩; exact Code.parked_of_open hopen)
      rintro _ ⟨⟩
      exact ⟨hok.1, hok.2, hopen⟩
    | group g | wakeSched ch | leave g | wakeGroup g ch | look g q | pass g hq =>
      exact h.goto hpc hop (by grind [Pc.Holds, Ret.Holds]) rfl (by simp [Pc.Ok, Ret.proc])
        (by simp) (by simp)
    | back p =>
      refine h.goto hpc hop ?_ rfl ⟨hok.1, hok.2.1⟩ (by simp) (by simp)
      simp [Pc.Holds, Code.not_holds_of_open hok.2.2, eq_comm]

/-- **The state after `setup_init_proc` satisfies the invariant.** -/
theorem boot : Inv boot := by
  constructor
  all_goals simp [Process.boot, Pc.Holds, Pc.proc, Pc.Ok, Code.Distinct, Code.claims, Code.parked, Code.open, Status.off, Fits]
  all_goals grind

end Inv

/-- **The scheduling invariant holds in every state a run reaches**, whatever its steps. -/
theorem Reach.inv {ok : State → Act → Prop} {s : State} (h : Run.Reach step ok boot s) : Inv s :=
  h.invariant .boot fun _ _ _ hs _ ht => hs.of_effect (.of_step ht)

end Process
