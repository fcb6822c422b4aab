import Myv6.Pmem.State

/-!
# Pmem/Alloc — building a process takes six pages, or none

    page table   trap frame   stack   two more tables   kernel stack
        1            1          1            2               1

`alloc_process` makes a process of six pages and a pid.  When one of them cannot be had, everything
taken goes back to the free list.
-/

namespace Pmem

open Function (update)
open Hoare Own Vm
open Process (ProcId GroupId Status)

variable {m m' : Mem} {l l' : List Word} {r va pa attr p q : Word} {R : Word → ℕ} {v w : ℕ}
  {S : Finset ℕ} {E : Panic → Prop} {s s' : Sys} {i : ProcId}

/-! ## The pages above the heap -/

/-- What `map_page` at a page number that the table does not own leaves. -/
def Topped (S : Finset ℕ) (m : Mem) (l : List Word) (r va pa attr : Word) (R : Word → ℕ) (err : Bool)
    (m' : Mem) : Prop :=
  ∃ l', Holds S m' l' r R ∧ Moves m m' l l' (space S m r) (space S m' r) ∧
    (∀ w, w ≠ vpn va → pages m' r w = pages m r w) ∧
    match err with
    | true => (maxVpn ≤ vpn va ∨ avail m.deny l.length < need m r (vpn va)) ∧
        pages m' r = pages m r
    | false => pages m' r (vpn va) = some (makePte pa (attr ||| pteV)) ∧
        (∀ w, need m' r w = min (need m r w) (apart (vpn va) w)) ∧
        avail m.deny l.length = avail m'.deny l'.length + need m r (vpn va)

theorem mapPage_top (h : Holds S m l r R) (hva : vpn va ∉ S) :
    wp (mapPage r va pa attr) (Topped S m l r va pa attr R)
      (fun e => e = .mapMapped ∧ pages m r (vpn va) ≠ none) m := by
  refine wp_post (mapPage_spec h.free h.tables_once) ?_
  rintro (_ | _) m' hpost
  · obtain ⟨-, -, l', hmoves, hpages, hneed, havail⟩ := hpost
    have hshift : Moves m m' l l' (space S m r) (space S m' r) := by
      refine (hmoves.beside (held (pages m r) S)).congr (fun _ => rfl) fun q => ?_
      unfold space
      rw [hpages, held_update_of_notMem hva]
    refine ⟨l', h.of_moves hshift, hshift, fun w hw => ?_, ?_, hneed, havail⟩
    · rw [hpages, Function.update_of_ne hw]
    · rw [hpages, Function.update_self]
  · obtain ⟨hwhy, l', hmoves, hpages⟩ := hpost
    have hshift : Moves m m' l l' (space S m r) (space S m' r) := by
      refine (hmoves.beside (held (pages m r) S)).congr (fun _ => rfl) fun q => ?_
      unfold space
      rw [hpages]
    exact ⟨l', h.of_moves hshift, hshift, fun w _ => by rw [hpages], hwhy, hpages⟩

/-- The page number of the trampoline, the last one. -/
def topVpn : ℕ := 67108863

/-- Pages in the same bottom table need nothing more. -/
theorem apart_top : apart topVpn 67108862 = 0 ∧ apart topVpn 67108861 = 0 ∧
    ∀ w, apart 67108862 w = apart topVpn w ∧ apart 67108861 w = apart topVpn w := by
  refine ⟨by decide, by decide, fun w => ?_⟩
  have h1 : index 67108862 1 = index topVpn 1 := by decide
  have h2 : index 67108862 2 = index topVpn 2 := by decide
  have h3 : index 67108861 1 = index topVpn 1 := by decide
  have h4 : index 67108861 2 = index topVpn 2 := by decide
  simp only [apart, Radix.apart, maxLevel, layout, Nat.zero_add, h1, h2, h3, h4, and_self]

/-- What the three mappings leave. -/
def TopMapped (m : Mem) (l : List Word) (r : Word) (R : Word → ℕ) (err : Bool) (m' : Mem) : Prop :=
  ∃ l', Holds userPages m' l' r R ∧ Moves m m' l l' (space userPages m r) (space userPages m' r) ∧
    (∀ w ∈ userPages, pages m' r w = pages m r w) ∧
    match err with
    | true => avail m.deny l.length < need m r topVpn
    | false => (∀ w, need m' r w = min (need m r w) (apart topVpn w)) ∧
        avail m.deny l.length = avail m'.deny l'.length + need m r topVpn

/-- **The trampoline, the trap frame and the stack** share their tables: when the first can be mapped
so can the others. -/
theorem mapTop_spec {tf us : Word} (h : Holds userPages m l r R) :
    wp (mapTop r tf us) (TopMapped m l r R) (fun e => e = .mapMapped ∧
      ∃ w, 67108861 ≤ w ∧ w ≤ topVpn ∧ pages m r w ≠ none) m := by
  have hout : ∀ w, 67108861 ≤ w → w ∉ userPages := by
    intro w hw hmem
    rw [mem_userPages_iff] at hmem
    omega
  have htop : (67108862 : ℕ) < topVpn := by decide
  obtain ⟨hapart₂, hapart₁, hapart⟩ := apart_top
  unfold mapTop
  rw [wp_bind, wp_inspect, wp_bind]
  refine wp_mono (mapPage_top h (by rw [vpn_trampolineBase]; exact hout _ (by decide))) ?_ ?_
  swap
  · rintro e ⟨he, hbad⟩
    rw [vpn_trampolineBase] at hbad
    exact ⟨he, _, by decide, le_rfl, hbad⟩
  rintro err₁ m₁ ⟨l₁, hholds₁, hmoves₁, hkeep₁, hres₁⟩
  rw [vpn_trampolineBase] at hkeep₁ hres₁
  rw [wp_bind]
  refine wp_mono (mapPage_top hholds₁ (by rw [vpn_trapframeBase]; exact hout _ (by decide))) ?_ ?_
  swap
  · rintro e ⟨he, hbad⟩
    rw [vpn_trapframeBase, hkeep₁ _ (by decide)] at hbad
    exact ⟨he, _, by decide, by decide, hbad⟩
  rintro err₂ m₂ ⟨l₂, hholds₂, hmoves₂, hkeep₂, hres₂⟩
  rw [vpn_trapframeBase] at hkeep₂ hres₂
  rw [wp_bind]
  refine wp_mono (mapPage_top hholds₂ (by rw [vpn_ustackBase]; exact hout _ (by decide))) ?_ ?_
  swap
  · rintro e ⟨he, hbad⟩
    rw [vpn_ustackBase, hkeep₂ _ (by decide), hkeep₁ _ (by decide)] at hbad
    exact ⟨he, _, by decide, by decide, hbad⟩
  rintro err₃ m₃ ⟨l₃, hholds₃, hmoves₃, hkeep₃, hres₃⟩
  rw [vpn_ustackBase] at hkeep₃ hres₃
  refine ⟨l₃, hholds₃, hmoves₁.trans (hmoves₂.trans hmoves₃), fun w hw => ?_, ?_⟩
  · rw [mem_userPages_iff] at hw
    rw [hkeep₃ w (by omega), hkeep₂ w (by omega), hkeep₁ w (by omega)]
  cases err₁ with
  | true => exact hres₁.1.resolve_left (by decide)
  | false =>
    obtain ⟨-, hneed₁, havail₁⟩ := hres₁
    have hfits₂ : need m₁ r 67108862 = 0 := by
      have hmin := hneed₁ 67108862
      have hzero : apart 67108863 67108862 = 0 := hapart₂
      omega
    cases err₂ with
    | true =>
      have hbad := hres₂.1.resolve_left (by decide)
      omega
    | false =>
      obtain ⟨-, hneed₂, havail₂⟩ := hres₂
      have hfits₃ : need m₂ r 67108861 = 0 := by
        have hmin₁ := hneed₁ 67108861
        have hmin₂ := hneed₂ 67108861
        have hzero : apart 67108863 67108861 = 0 := hapart₁
        omega
      cases err₃ with
      | true =>
        have hbad := hres₃.1.resolve_left (by decide)
        omega
      | false =>
        obtain ⟨-, hneed₃, havail₃⟩ := hres₃
        refine ⟨fun w => ?_, ?_⟩
        · obtain ⟨hsame₂, hsame₁⟩ := hapart w
          rw [hneed₃, hneed₂, hneed₁, hsame₂, hsame₁]
          unfold topVpn
          omega
        · unfold topVpn
          omega

/-- Where a table for the three pages is missing, none of them is mapped. -/
theorem top_unmapped (h : 0 < need m r topVpn) {w : ℕ} (hge : 67108861 ≤ w) (hle : w ≤ topVpn) :
    pages m r w = none := by
  by_contra hne
  have hshare : apart w topVpn = 0 := by
    unfold topVpn at hle
    obtain rfl | rfl | rfl : w = 67108861 ∨ w = 67108862 ∨ w = 67108863 := by omega
    · decide
    · decide
    · decide
  have hneed : need m r topVpn ≤ apart w topVpn := Radix.need_le_apart (need_of_pages hne)
  omega

/-- What `map_page` has found and leaves, whatever the table owns. -/
theorem mapPage_fresh (h : Holds S m l r R) (hva : vpn va ∉ S) :
    wp (mapPage r va pa attr) (fun err m' => (∃ l', Holds S m' l' r R) ∧
      (∀ w, w ≠ vpn va → pages m' r w = pages m r w) ∧
      (err = false → pages m r (vpn va) = none ∧ pages m' r (vpn va) ≠ none)) (fun _ => True) m := by
  refine wp_mono (wp_and (mapPage_top h hva) (mapPage_spec h.free h.tables_once)) ?_ fun _ _ => trivial
  rintro (_ | _) m' ⟨⟨l', hholds, -, hkeep, hres⟩, hpost⟩
  · refine ⟨⟨l', hholds⟩, hkeep, fun _ => ⟨hpost.2.1, ?_⟩⟩
    rw [hres.1]
    exact Option.some_ne_none _
  · exact ⟨⟨l', hholds⟩, hkeep, fun herr => nomatch herr⟩

/-- **The three pages, once mapped**, were not mapped before. -/
theorem mapTop_top {tf us : Word} (h : Holds userPages m l r R) :
    wp (mapTop r tf us) (fun err m' => err = false →
      (∀ w, 67108861 ≤ w → w ≤ topVpn → pages m r w = none) ∧ pages m' r 67108861 ≠ none)
      (fun _ => True) m := by
  have hout : ∀ w, 67108861 ≤ w → w ∉ userPages := by
    intro w hw hmem
    rw [mem_userPages_iff] at hmem
    omega
  unfold mapTop
  rw [wp_bind, wp_inspect, wp_bind]
  refine wp_post (mapPage_fresh h (by rw [vpn_trampolineBase]; exact hout _ (by decide))) ?_
  rintro err₁ m₁ ⟨⟨l₁, hholds₁⟩, hkeep₁, hnone₁⟩
  rw [vpn_trampolineBase] at hkeep₁ hnone₁
  rw [wp_bind]
  refine wp_post (mapPage_fresh hholds₁ (by rw [vpn_trapframeBase]; exact hout _ (by decide))) ?_
  rintro err₂ m₂ ⟨⟨l₂, hholds₂⟩, hkeep₂, hnone₂⟩
  rw [vpn_trapframeBase] at hkeep₂ hnone₂
  rw [wp_bind]
  refine wp_post (mapPage_fresh hholds₂ (by rw [vpn_ustackBase]; exact hout _ (by decide))) ?_
  rintro err₃ m₃ ⟨-, hkeep₃, hnone₃⟩
  rw [vpn_ustackBase] at hkeep₃ hnone₃
  rw [wp_pure]
  intro herr
  obtain ⟨herr, herr₃⟩ := Bool.or_eq_false_iff.mp herr
  obtain ⟨herr₁, herr₂⟩ := Bool.or_eq_false_iff.mp herr
  obtain ⟨hnone₃, hmapped⟩ := hnone₃ herr₃
  refine ⟨fun w hge hle => ?_, hmapped⟩
  unfold topVpn at hle
  obtain rfl | rfl | rfl : w = 67108861 ∨ w = 67108862 ∨ w = 67108863 := by omega
  · rw [← hkeep₁ _ (by decide), ← hkeep₂ _ (by decide)]
    exact hnone₃
  · rw [← hkeep₁ _ (by decide)]
    exact (hnone₂ herr₂).1
  · exact (hnone₁ herr₁).1

/-! ## `init_user_pagetable` -/

/-- What `init_user_pagetable` leaves. -/
def PagetableMade (m : Mem) (l : List Word) (r : Word) (R : Word → ℕ) :
    Option (Word × Word) → Mem → Prop
  | none, m' => avail m.deny l.length < 2 + need m r topVpn ∧ ∃ l', Holds userPages m' l' r R ∧
      Moves m m' l l' (space userPages m r) (space userPages m' r) ∧
      ∀ w ∈ userPages, pages m' r w = pages m r w
  | some (us, tf), m' => m.image.IsPage us ∧ m.image.IsPage tf ∧ ∃ l',
      Holds userPages m' l' r (fun q => R q + one tf q + one us q) ∧
      Moves m m' l l' (space userPages m r) (fun q => space userPages m' r q + one tf q + one us q) ∧
      (∀ w ∈ userPages, pages m' r w = pages m r w) ∧
      (∀ w, need m' r w = min (need m r w) (apart topVpn w)) ∧
      avail m.deny l.length = avail m'.deny l'.length + (2 + need m r topVpn)

/-- **`init_user_pagetable`** takes two pages and maps them, or gives them back. -/
theorem initUserPagetable_spec (h : Holds userPages m l r R) (hnone : ∀ w, pages m r w = none) :
    wp (initUserPagetable r) (PagetableMade m l r R) E m := by
  unfold initUserPagetable
  rw [wp_bind]
  refine wp_post (kalloc_holds h) ?_
  rintro (_ | tf) m₁ hpost
  · obtain ⟨havail, hholds, d, rfl⟩ := hpost
    exact ⟨by omega, l, hholds, .of_deny h.free d, fun _ _ => rfl⟩
  obtain ⟨htf, l₁, hholds₁, hmoves₁, htab₁, hneed₁, hpages₁, havail₁⟩ := hpost
  have hspace₁ : space userPages m₁ r = space userPages m r :=
    hmoves₁.space h.tables_once
  have hin₁ : Moves m m₁ l l₁ (space userPages m r) (fun q => space userPages m₁ r q + one tf q) := by
    refine (hmoves₁.beside (space userPages m r)).congr (fun q => (Nat.zero_add _).symm) fun q => ?_
    rw [hspace₁, Nat.add_comm]
  simp only
  rw [wp_bind]
  refine wp_post (kalloc_holds hholds₁) ?_
  rintro (_ | us) m₂ hpost
  · obtain ⟨havail, hholds₂, d, rfl⟩ := hpost
    simp only
    rw [wp_bind]
    refine wp_post (kfree_holds hholds₂ (by simpa [hmoves₁.image] using htf)) ?_
    rintro _ m₃ ⟨-, hholds₃, hmoves₃, htab₃, -, hpages₃⟩
    have hspace₃ : space userPages m₃ r = space userPages { m₁ with deny := d } r := by
      funext q
      rw [space, htab₃, hpages₃, space]
    refine ⟨by omega, _, hholds₃, hin₁.trans ((Moves.of_deny hmoves₁.free d).trans
      ((hmoves₃.beside (space userPages m₁ r)).congr (fun q => Nat.add_comm _ _) fun q => ?_)),
      fun w _ => hpages₃ ▸ congrFun hpages₁ w⟩
    rw [hspace₃, Pi.zero_apply, Nat.zero_add]
    rfl
  obtain ⟨hus, l₂, hholds₂, hmoves₂, htab₂, hneed₂, hpages₂, havail₂⟩ := hpost
  have hspace₂ : space userPages m₂ r = space userPages m₁ r := hmoves₂.space hholds₁.tables_once
  have hin₂ : Moves m₁ m₂ l₁ l₂ (space userPages m₁ r)
      (fun q => space userPages m₂ r q + one us q) := by
    refine (hmoves₂.beside (space userPages m₁ r)).congr (fun q => (Nat.zero_add _).symm) fun q => ?_
    rw [hspace₂, Nat.add_comm]
  have hin : Moves m m₂ l l₂ (space userPages m r)
      (fun q => space userPages m₂ r q + one tf q + one us q) :=
    hin₁.trans ((hin₂.beside (one tf)).congr (fun _ => rfl) fun q => by omega)
  simp only
  rw [wp_bind]
  refine wp_mono (mapTop_spec hholds₂) ?_ ?_
  swap
  · rintro e ⟨-, w, -, -, hbad⟩
    rw [hpages₂, hpages₁] at hbad
    exact absurd (hnone w) hbad
  have himage₂ : m₂.image = m.image := hmoves₂.image.trans hmoves₁.image
  rw [hmoves₁.image] at hus
  rintro (_ | _) m₃ ⟨l₃, hholds₃, hmoves₃, hkeep, hres⟩
  · obtain ⟨hneed₃, havail₃⟩ := hres
    rw [hneed₂, hneed₁] at havail₃
    rw [if_neg (by decide)]
    refine ⟨hus, htf, l₃, hholds₃, hin.trans ((hmoves₃.beside fun q => one tf q + one us q).congr
      (fun q => Nat.add_assoc _ _ _) fun q => Nat.add_assoc _ _ _), fun w hw => ?_, fun w => ?_,
      by omega⟩
    · rw [hkeep w hw, hpages₂, hpages₁]
    · rw [hneed₃, hneed₂, hneed₁]
  · have hshort : avail m₂.deny l₂.length < need m₂ r topVpn := hres
    rw [hneed₂, hneed₁] at hshort
    have himage₃ : m₃.image = m.image := hmoves₃.image.trans himage₂
    rw [if_pos rfl, wp_bind]
    have hswap : Holds userPages m₃ l₃ r (fun q => R q + one us q + one tf q) :=
      hholds₃.congr fun q => Nat.add_right_comm _ _ _
    refine wp_post (kfree_holds hswap (by rw [himage₃]; exact htf)) ?_
    rintro _ m₄ ⟨-, hholds₄, hmoves₄, htab₄, -, hpages₄⟩
    rw [wp_bind]
    refine wp_post (kfree_holds hholds₄ (by rw [hmoves₄.image, himage₃]; exact hus)) ?_
    rintro _ m₅ ⟨-, hholds₅, hmoves₅, htab₅, -, hpages₅⟩
    have hspace : space userPages m₅ r = space userPages m₃ r := by
      funext q
      rw [space, htab₅, htab₄, hpages₅, hpages₄, space]
    have hback : Moves m₃ m₅ l₃ (us :: tf :: l₃) (fun q => one tf q + one us q) 0 :=
      ((hmoves₄.beside (one us)).trans (hmoves₅.congr (fun q => Nat.zero_add _) fun _ => rfl))
    refine ⟨by omega, _, hholds₅, hin.trans (((hmoves₃.beside fun q => one tf q + one us q).congr
      (fun q => Nat.add_assoc _ _ _) fun _ => rfl).trans
      ((hback.beside (space userPages m₃ r)).congr (fun q => Nat.add_comm _ _) fun q => ?_)),
      fun w hw => ?_⟩
    · rw [hspace, Pi.zero_apply, Nat.zero_add]
    · rw [hpages₅, hpages₄, hkeep w hw, hpages₂, hpages₁]

/-! ## `init_user_process` -/

/-- **A new process**: its table with nothing below the stack, its stack, trap frame and kernel stack,
out of six pages of the list. -/
structure Fresh (m m' : Mem) (l l' : List Word) (t us tf ks : Word) (R : Word → ℕ) : Prop where
  holds : Holds userPages m' l' t (fun q => R q + one tf q + one us q + one ks q)
  moves : Moves m m' l l' 0 (fun q => space userPages m' t q + one tf q + one us q + one ks q)
  empty : ∀ w ∈ userPages, pages m' t w = none
  need : ∀ w, need m' t w = apart topVpn w
  avail : avail m.deny l.length = avail m'.deny l'.length + 6
  ustack : m.image.IsPage us
  trapFrame : m.image.IsPage tf
  kstack : m.image.IsPage ks

/-- Filling the trap frame leaves the process fresh. -/
theorem Fresh.fill {t us tf ks : Word} {f : Fin 512 → Word} (h : Fresh m m' l l' t us tf ks R) :
    Fresh m (m'.fill tf f) l l' t us tf ks R := by
  have hR : 0 < R tf + one tf tf + one us tf + one ks tf := by
    rw [one_self]
    omega
  obtain ⟨hholds, -, htab, hneed, hpages⟩ := h.holds.write hR f
  have hspace : space userPages (m'.fill tf f) t = space userPages m' t := by
    funext q
    rw [space, htab, hpages, space]
  have hself : Moves m' (m'.fill tf f) l' l' (one tf) (one tf) := by
    have htf := h.holds.once tf
    exact .of_fill h.holds.free (by omega) (by simp) f
  refine ⟨hholds, h.moves.trans ((hself.beside fun q =>
    space userPages m' t q + one us q + one ks q).congr (fun q => by omega) fun q => ?_),
    fun w hw => ?_, fun w => ?_, h.avail, h.ustack, h.trapFrame, h.kstack⟩
  · rw [hspace]
    omega
  · rw [hpages]
    exact h.empty w hw
  · rw [hneed]
    exact h.need w

/-- The error exit of `init_user_process` gives the table, the stack and the trap frame back. -/
theorem initErr_spec {t us tf : Word} (hholds : Holds userPages s.mem l t (fun q => R q + one tf q + one us q))
    (hnone : ∀ w ∈ userPages, pages s.mem t w = none) (hus : s.mem.image.IsPage us)
    (htf : s.mem.image.IsPage tf) :
    wp (initErr t us tf) (fun err s' => err = true ∧ ∃ m' l', s' = { s with mem := m' } ∧
      Moves s.mem m' l l' (fun q => space userPages s.mem t q + one tf q + one us q) 0) E s := by
  have honce : ∀ q, l.count q + (space userPages s.mem t q + (one tf q + one us q)) ≤ 1 := by
    intro q
    have hq := hholds.once q
    omega
  unfold initErr onMem
  rw [wp_bind, wp_zoom]
  refine wp_post (freePageTable_moves hholds.free honce hholds.page) ?_
  rintro _ m₁ ⟨-, l₁, hmoves₁⟩
  replace hmoves₁ := hmoves₁.congr (fun _ => rfl) fun q =>
    show one tf q + one us q = _ by rw [held_eq_zero hnone, Nat.zero_add]
  have honce₁ : ∀ q, l₁.count q + (one tf q + one us q) ≤ 1 := fun q =>
    (hmoves₁.same q).trans_le (honce q)
  rw [wp_bind, wp_zoom]
  refine wp_post (kfree_moves hmoves₁.free (by rw [hmoves₁.image]; exact hus) honce₁) ?_
  rintro _ m₂ ⟨-, hmoves₂⟩
  rw [wp_bind, wp_zoom]
  refine wp_post (kfree_moves (A := 0) hmoves₂.free (by rw [hmoves₂.image, hmoves₁.image]; exact htf)
    fun q => ?_) ?_
  · have hq := honce₁ q
    have hsame := hmoves₂.same q
    simp only [Pi.zero_apply]
    omega
  rintro _ m₃ ⟨-, hmoves₃⟩
  refine ⟨rfl, m₃, _, rfl, (hmoves₁.trans (hmoves₂.trans (hmoves₃.congr (fun q => ?_)
    fun _ => rfl))).congr (fun q => Nat.add_assoc _ _ _) fun _ => rfl⟩
  exact (Nat.zero_add _).symm

/-- What `init_user_process` leaves. -/
def Initialised (s : Sys) (l : List Word) (i : ProcId) (R : Word → ℕ) : Bool → Sys → Prop
  | true, s' => (avail s.mem.deny l.length < 6 ∨ ∀ pid, s.pidSet pid = true) ∧
      ∃ m' l' t us tf ks, Moves s.mem m' l l' 0 0 ∧ s' = { s with
        mem := m'
        proc := update s.proc i
          { s.proc i with pgtable := t, ustack := us, trapFrame := tf, kstack := ks } }
  | false, s' => ∃ m' l' t us tf ks pid f, Fresh s.mem m' l l' t us tf ks R ∧
      m'.cell tf = trapFrameInit s.symbols ks f ∧ s.pidSet pid = false ∧ s' = { s with
        mem := m'
        pidSet := update s.pidSet pid true
        proc := update s.proc i
          { s.proc i with
            pgtable := t, ustack := us, trapFrame := tf, kstack := ks
            pid := some pid, status := .used, xstatus := 0, parent := none } }

/-- `alloc_pid` takes a free pid, or finds none. -/
theorem allocPid_spec : wp allocPid (fun ret s' => match ret with
    | none => (∀ pid, s.pidSet pid = true) ∧ s' = s
    | some pid => s.pidSet pid = false ∧ s' = { s with pidSet := update s.pidSet pid true }) E s := by
  unfold allocPid
  rw [wp_bind, wp_inspect]
  cases hfind : (List.finRange 64).find? fun i => !s.pidSet i with
  | none => exact ⟨fun pid => by simpa using List.find?_eq_none.mp hfind pid (List.mem_finRange pid), rfl⟩
  | some pid => exact ⟨by simpa using List.find?_some hfind, rfl⟩

/-- **`init_user_process`** makes a process, or gives everything back. -/
theorem initUserProcess_spec (hfree : FreeList s.mem l) (honce : ∀ q, l.count q + R q ≤ 1) :
    wp (initUserProcess i) (Initialised s l i R) E s := by
  have hneed : ∀ w, min maxLevel (apart topVpn w) = apart topVpn w := fun w =>
    Nat.min_eq_right Radix.apart_le
  unfold initUserProcess
  rw [wp_bind, wp_onMem]
  refine wp_post (getPagetable_holds (S := userPages) hfree honce) ?_
  rintro (_ | t) m₁ hpost
  · obtain ⟨havail, d, rfl⟩ := hpost
    refine ⟨.inl (by omega), _, l, (s.proc i).pgtable, (s.proc i).ustack, (s.proc i).trapFrame,
      (s.proc i).kstack, .of_deny hfree d, ?_⟩
    rw [Function.update_eq_self]
  obtain ⟨l₁, hholds₁, hmoves₁, hpages₁, hneed₁, havail₁⟩ := hpost
  have hmade : wp (initUserPagetable t) (PagetableMade m₁ l₁ t R) E m₁ :=
    initUserPagetable_spec hholds₁ hpages₁
  simp only
  rw [wp_bind, wp_setProc, wp_bind, wp_onMem]
  refine wp_post hmade ?_
  rintro (_ | ⟨us, tf⟩) m₂ hpost
  · obtain ⟨havail, l₂, hholds₂, hmoves₂, hpages₂⟩ := hpost
    have honce₂ : ∀ q, l₂.count q + (space userPages m₂ t q + (0 : Word → ℕ) q) ≤ 1 := by
      intro q
      have hq := hholds₂.once q
      simp only [Pi.zero_apply]
      omega
    rw [hneed₁] at havail
    simp only
    rw [wp_bind, wp_onMem]
    refine wp_post (freePageTable_moves hmoves₂.free honce₂ hholds₂.page) ?_
    rintro _ m₃ ⟨-, l₃, hmoves₃⟩
    have hleft : ∀ q, held (pages m₂ t) userPages q = 0 :=
      held_eq_zero fun w hw => (hpages₂ w hw).trans (hpages₁ w)
    refine ⟨.inl ?_, m₃, l₃, t, (s.proc i).ustack, (s.proc i).trapFrame, (s.proc i).kstack,
      hmoves₁.trans (hmoves₂.trans (hmoves₃.congr (fun q => by simp) fun q => by
        simp [hleft])), rfl⟩
    unfold maxLevel at havail
    omega
  obtain ⟨hus, htf, l₂, hholds₂, hmoves₂, hpages₂, hneed₂, havail₂⟩ := hpost
  rw [hneed₁, show maxLevel = 2 from rfl] at havail₂
  have hnone₂ : ∀ w ∈ userPages, pages m₂ t w = none := fun w hw => (hpages₂ w hw).trans (hpages₁ w)
  have himage₁ : m₁.image = s.mem.image := hmoves₁.image
  have himage₂ : m₂.image = m₁.image := hmoves₂.image
  have htaken : wp kalloc (KallocedFor userPages m₂ l₂ t fun q => R q + one tf q + one us q) E m₂ :=
    kalloc_holds hholds₂
  simp only
  rw [wp_bind, wp_setProc, wp_bind, wp_onMem]
  refine wp_post htaken ?_
  rintro (_ | ks) m₃ hpost
  · obtain ⟨havail₃, hholds₃, d, rfl⟩ := hpost
    simp only
    refine wp_post (initErr_spec hholds₃ hnone₂ (himage₂ ▸ hus) (himage₂ ▸ htf)) ?_
    rintro _ s' ⟨rfl, m₄, l₄, rfl, hmoves₄⟩
    refine ⟨.inl (by omega), m₄, l₄, t, us, tf, (s.proc i).kstack,
      hmoves₁.trans (hmoves₂.trans ((Moves.of_deny hmoves₂.free d).trans hmoves₄)), ?_⟩
    simp
  obtain ⟨hks, l₃, hholds₃, hmoves₃, -, hneed₃, hpages₃, havail₃⟩ := hpost
  have hspace₃ : space userPages m₃ t = space userPages m₂ t := hmoves₃.space hholds₂.tables_once
  have hbuilt : Moves s.mem m₃ l l₃ 0
      (fun q => space userPages m₃ t q + one tf q + one us q + one ks q) := by
    refine hmoves₁.trans (hmoves₂.trans ((hmoves₃.beside fun q =>
      space userPages m₂ t q + one tf q + one us q).congr (fun q => (Nat.zero_add _).symm) fun q => ?_))
    rw [hspace₃]
    omega
  have himage₃ : m₃.image = m₁.image := hmoves₃.image.trans himage₂
  have hnone₃ : ∀ w ∈ userPages, pages m₃ t w = none := fun w hw => by rw [hpages₃, hnone₂ w hw]
  simp only
  rw [wp_bind, wp_setProc, wp_bind]
  refine wp_post allocPid_spec ?_
  rintro (_ | pid) s₄ hpost
  · obtain ⟨hfull, rfl⟩ := hpost
    simp only
    have hback : wp (kfree ks) _ E m₃ := kfree_holds hholds₃ (himage₃ ▸ himage₂ ▸ hks)
    rw [wp_bind, wp_onMem]
    refine wp_post hback ?_
    rintro _ m₄ ⟨-, hholds₄, hmoves₄, htab₄, -, hpages₄⟩
    have himage₄ : m₄.image = m₁.image := hmoves₄.image.trans himage₃
    have hspace₄ : space userPages m₄ t = space userPages m₃ t := by
      funext q
      rw [space, htab₄, hpages₄, space]
    refine wp_post (initErr_spec hholds₄ (fun w hw => by rw [hpages₄, hnone₃ w hw])
      (himage₄ ▸ hus) (himage₄ ▸ htf)) ?_
    rintro _ s' ⟨rfl, m₅, l₅, rfl, hmoves₅⟩
    refine ⟨.inr hfull, m₅, l₅, t, us, tf, ks, hbuilt.trans (((hmoves₄.beside fun q =>
      space userPages m₃ t q + one tf q + one us q).congr (fun q => Nat.add_comm _ _) fun q => ?_).trans
      hmoves₅), ?_⟩
    · simp [hspace₄]
    · simp
  · obtain ⟨hfree₄, rfl⟩ := hpost
    simp only
    rw [wp_bind, wp_setProc, wp_bind, wp_inspect, wp_bind, wp_onMem, wp_alter]
    have hfresh : Fresh s.mem m₃ l l₃ t us tf ks R := by
      refine ⟨hholds₃, hbuilt, hnone₃, fun w => ?_, by omega, himage₁ ▸ hus, himage₁ ▸ htf,
        himage₁ ▸ himage₂ ▸ hks⟩
      rw [hneed₃, hneed₂, hneed₁, hneed]
    refine ⟨m₃.fill tf (trapFrameInit s.symbols ks (m₃.cell tf)), l₃, t, us, tf, ks, pid, m₃.cell tf,
      hfresh.fill, Mem.fill_cell_self, hfree₄, ?_⟩
    simp

/-! ## `alloc_process` -/

/-- The slot that `alloc_process` picks. -/
def firstUnused (s : Sys) : Option ProcId :=
  (List.finRange 64).find? fun i => (s.proc i).status = .unused

theorem unused_of_firstUnused (h : firstUnused s = some i) : (s.proc i).status = .unused := by
  simpa using List.find?_some h

/-- What `alloc_process` leaves. -/
def Allocated (s : Sys) (l : List Word) (R : Word → ℕ) : Option ProcId → Sys → Prop
  | none, s' => (firstUnused s = none ∧ s' = s) ∨
      ∃ i, firstUnused s = some i ∧ Initialised s l i R true s'
  | some i, s' => firstUnused s = some i ∧ Initialised s l i R false s'

/-- **`alloc_process`** fills the first free slot, or gives everything back. -/
theorem allocProcess_spec (hfree : FreeList s.mem l) (honce : ∀ q, l.count q + R q ≤ 1) :
    wp allocProcess (Allocated s l R) E s := by
  unfold allocProcess
  rw [wp_bind, wp_inspect]
  cases hfirst : firstUnused s with
  | none =>
    unfold firstUnused at hfirst
    rw [hfirst]
    exact .inl ⟨hfirst, rfl⟩
  | some i =>
    have hunused := unused_of_firstUnused hfirst
    have hfind := hfirst
    unfold firstUnused at hfind
    rw [hfind]
    simp only
    rw [wp_bind, wp_setProc, wp_bind]
    refine wp_post (initUserProcess_spec hfree honce) ?_
    rintro (_ | _) s₁ hpost
    · obtain ⟨m', l', t, us, tf, ks, pid, f, hfresh, hframe, hpid, rfl⟩ := hpost
      refine ⟨hfirst, m', l', t, us, tf, ks, pid, f, hfresh, hframe, hpid, ?_⟩
      simp
    · obtain ⟨hwhy, m', l', t, us, tf, ks, hmoves, rfl⟩ := hpost
      rw [if_pos rfl, wp_bind, wp_setProc]
      refine .inr ⟨i, hfirst, hwhy, m', l', t, us, tf, ks, hmoves, ?_⟩
      simp [hunused]

end Pmem
