import Myv6.Vm.Merge

/-!
# Vm/Grow — pages added to a table one after the other

    kalloc ──▸ map_page ──▸ the page is the table's
       │           │
       ▾           ▾
     nothing    kfree: nothing but table pages

`append_map_page` of the loader, which is also the turn of the loop of `increment_mem_end`, and that
loop: it adds all the pages of a range, or gives back those it has added.
-/

namespace Vm

open Function (update)
open Hoare Own

def appendMapPage (pgtable va attr : Word) : Kernel (Option Word) := do
  match ← kalloc with
  | none => pure none
  | some page =>
    if ← mapPage pgtable va page attr then
      kfree page
      pure none
    else
      pure (some page)

variable {m m' : Mem} {l l' : List Word} {r va attr p q : Word} {R : Word → ℕ} {S : Finset ℕ}
  {f : ℕ → Option Word} {v w j k : ℕ} {E : Panic → Prop}

/-- What `append_map_page` leaves. -/
def Appended (S : Finset ℕ) (m : Mem) (l : List Word) (r va attr : Word) (R : Word → ℕ)
    (ret : Option Word) (m' : Mem) : Prop :=
  (∃ l', Holds S m' l' r R ∧ Moves m m' l l' (space S m r) (space S m' r) ∧
    match ret with
    | none => (maxVpn ≤ vpn va ∨ avail m.deny l.length < 1 + need m r (vpn va)) ∧
        pages m' r = pages m r
    | some p => m.image.IsPage p ∧ pages m r (vpn va) = none ∧
        pages m' r = update (pages m r) (vpn va) (some (makePte p (attr ||| pteV))) ∧
        (∀ w, need m' r w = min (need m r w) (apart (vpn va) w)) ∧
        avail m.deny l.length = avail m'.deny l'.length + (1 + need m r (vpn va))) ∧
  ∀ q, 0 < held (pages m r) S q → m'.cell q = m.cell q

/-- **`append_map_page`** adds a page that was free, or none. -/
theorem appendMapPage_spec (h : Holds S m l r R) (hva : vpn va < maxVpn → vpn va ∈ S) :
    wp (appendMapPage r va attr) (Appended S m l r va attr R)
      (fun e => e = .mapMapped ∧ pages m r (vpn va) ≠ none ∧ 0 < avail m.deny l.length) m := by
  unfold appendMapPage
  rw [wp_bind]
  refine wp_post (kalloc_holds h) ?_
  rintro (_ | p) m₁ hpost
  · obtain ⟨havail, hholds, d, rfl⟩ := hpost
    exact ⟨⟨l, hholds, .of_deny h.free d, .inr (by omega), rfl⟩, fun _ _ => rfl⟩
  obtain ⟨hpage, l₁, hholds₁, hmoves₁, htab₁, hneed₁, hpages₁, havail₁⟩ := hpost
  have hspace₁ : space S m₁ r = space S m r := hmoves₁.space h.tables_once
  -- the page is in the hand
  have hinhand : Moves m m₁ l l₁ (space S m r) (fun q => space S m₁ r q + one p q) := by
    refine (hmoves₁.beside (space S m r)).congr (fun q => (Nat.zero_add _).symm) fun q => ?_
    rw [hspace₁, Nat.add_comm]
  have hkept₁ : ∀ q, 0 < held (pages m r) S q → m₁.cell q = m.cell q := by
    intro q hq
    have honce := h.once q
    unfold space at honce
    exact hmoves₁.frame (by omega) rfl
  have hout₁ : ∀ q, 0 < held (pages m r) S q → l₁.count q = 0 ∧ tables m₁ r q = 0 ∧ q ≠ p := by
    intro q hq
    have honce := hholds₁.once q
    unfold space at honce
    rw [hpages₁] at honce
    refine ⟨by omega, by omega, ?_⟩
    rintro rfl
    rw [one_self] at honce
    omega
  simp only
  rw [wp_bind]
  refine wp_mono (mapPage_hand hholds₁ (by rw [hmoves₁.image]; exact hpage) hva) ?_ ?_
  swap
  · rintro e ⟨he, hbad⟩
    exact ⟨he, hpages₁ ▸ hbad, by omega⟩
  rintro (_ | _) m₂ hpost
  · obtain ⟨hnone, l₂, hholds₂, hmoves₂, hgrow₂, hpages₂, hneed₂, havail₂⟩ := hpost
    rw [if_neg (by decide), wp_pure]
    rw [hpages₁] at hnone hpages₂
    rw [hneed₁] at havail₂
    refine ⟨⟨l₂, hholds₂, hinhand.trans hmoves₂, hpage, hnone, hpages₂, fun w => ?_, by omega⟩,
      fun q hq => ?_⟩
    · rw [hneed₂, hneed₁]
    · obtain ⟨hl, ht, -⟩ := hout₁ q hq
      rw [hgrow₂.frame hl ht, hkept₁ q hq]
  · obtain ⟨hwhy, l₂, hholds₂, hmoves₂, hgrow₂, hpages₂⟩ := hpost
    rw [hneed₁] at hwhy
    rw [if_pos rfl, wp_bind]
    refine wp_post (kfree_holds hholds₂ (by rw [hmoves₂.image, hmoves₁.image]; exact hpage)) ?_
    rintro _ m₃ ⟨-, hholds₃, hmoves₃, htab₃, -, hpages₃⟩
    have hspace₃ : space S m₃ r = space S m₂ r := by
      funext q
      rw [space, htab₃, hpages₃, space]
    refine ⟨⟨p :: l₂, hholds₃, hinhand.trans ((hmoves₂.beside (one p)).trans
      ((hmoves₃.beside (space S m₂ r)).congr (fun q => Nat.add_comm _ _) fun q => ?_)),
      hwhy.imp id fun hlt => by omega, ?_⟩, fun q hq => ?_⟩
    · rw [hspace₃, Pi.zero_apply, Nat.zero_add]
    · rw [hpages₃, hpages₂, hpages₁]
    · obtain ⟨hl, ht, hqp⟩ := hout₁ q hq
      have hl₂ : l₂.count q = 0 := by
        have honce := hholds₂.once q
        unfold space at honce
        rw [hpages₂, hpages₁] at honce
        omega
      rw [hmoves₃.frame hl₂ (one_of_ne hqp), hgrow₂.frame hl ht, hkept₁ q hq]

/-! ## `increment_mem_end` -/

/-- The error exit of `increment_mem_end`. -/
def growErr (pgtable memEnd cur : Word) : Kernel Bool := do
  unmapNPagesFree pgtable memEnd (intOf (cur / pgsize))
  pure true

/-- The loop of `increment_mem_end`, with a bound on the turns. -/
def growLoop (pgtable memEnd bound : Word) : ℕ → Word → Kernel Bool
  | 0, _ => pure false
  | k + 1, cur =>
    if cur < bound then do
      match ← appendMapPage pgtable (memEnd + cur) (pteR ||| pteW ||| pteX ||| pteU) with
      | none => growErr pgtable memEnd cur
      | some _ => growLoop pgtable memEnd bound k (cur + pgsize)
    else pure false

/-- The loop makes no more turns than there are pages to add. -/
def incrementMemEnd (pgtable memEnd pages : Word) : Kernel Bool :=
  growLoop pgtable memEnd (pages * pgsize) (((pages * pgsize).toNat + 4095) / 4096) 0

/-- What adding the page numbers of `[v, v + k)` to the map `f` leaves. -/
def GrownBy (S : Finset ℕ) (m : Mem) (l : List Word) (r : Word) (R : Word → ℕ) (f : ℕ → Option Word)
    (v k : ℕ) (err : Bool) (m' : Mem) : Prop :=
  ∃ l', Holds S m' l' r R ∧ Moves m m' l l' (space S m r) (space S m' r) ∧
    match err with
    | true => pages m' r = f
    | false => ∀ w, if v ≤ w ∧ w < v + k then pages m' r w ≠ none else pages m' r w = f w

/-- **The error exit** gives back what has been added. -/
theorem growErr_spec {memEnd : Word} (h : Holds S m l r R)
    (hS : ∀ w, vpn memEnd ≤ w ∧ w < vpn memEnd + j → w ∈ S) (hj : vpn memEnd + j ≤ 67108861)
    (hpages : ∀ w, if vpn memEnd ≤ w ∧ w < vpn memEnd + j then pages m r w ≠ none
      else pages m r w = f w)
    (hf : ∀ w, vpn memEnd ≤ w ∧ w < vpn memEnd + j → f w = none) :
    wp (growErr r memEnd (BitVec.ofNat 64 j * pgsize)) (fun err m' => err = true ∧
      GrownBy S m l r R f (vpn memEnd) k true m') E m := by
  have hcount : intOf (BitVec.ofNat 64 j * pgsize / pgsize) = j := by
    have hdiv := intOf_div (x := BitVec.ofNat 64 j * pgsize) (y := 0#64) (j := j) (by omega) (by simp)
    rwa [BitVec.sub_zero] at hdiv
  have hmapped : ∀ w, vpn memEnd ≤ w ∧ w < vpn memEnd + j → pages m r w ≠ none := by
    intro w hin
    have hw := hpages w
    rwa [if_pos hin] at hw
  unfold growErr
  rw [wp_bind, hcount]
  refine wp_post (unmapNPagesFree_range h hS (by rw [maxVpn_eq]; omega) hmapped) ?_
  rintro _ m' ⟨⟨l', hholds, hmoves⟩, -, hpages', -⟩
  refine ⟨rfl, l', hholds, hmoves, ?_⟩
  funext w
  have hw := hpages w
  rw [hpages']
  split
  · next hin => exact (hf w hin).symm
  · next hin => rwa [if_neg hin] at hw

/-- **The loop of `increment_mem_end`**, after `j` pages. -/
theorem growLoop_spec {memEnd bound : Word} (k : ℕ) : ∀ {j : ℕ} {m : Mem} {l : List Word},
    Holds S m l r R → (∀ w, vpn memEnd ≤ w ∧ w < vpn memEnd + (j + k) → w ∈ S) →
    vpn memEnd + (j + k) ≤ 67108861 → bound = BitVec.ofNat 64 (j + k) * pgsize →
    (∀ w, if vpn memEnd ≤ w ∧ w < vpn memEnd + j then pages m r w ≠ none else pages m r w = f w) →
    (∀ w, vpn memEnd ≤ w ∧ w < vpn memEnd + (j + k) → f w = none) →
    wp (growLoop r memEnd bound k (BitVec.ofNat 64 j * pgsize))
      (GrownBy S m l r R f (vpn memEnd) (j + k)) E m := by
  induction k with
  | zero =>
    intro j m l h _ _ _ hpages _
    exact ⟨l, h, .refl h.free, hpages⟩
  | succ k ih =>
    intro j m l h hS hbound hend hpages hf
    have hsize : pgsize.toNat = 4096 := by decide
    have hlt : BitVec.ofNat 64 j * pgsize < bound := by
      rw [hend, BitVec.lt_def, BitVec.toNat_mul, BitVec.toNat_mul, BitVec.toNat_ofNat,
        BitVec.toNat_ofNat, hsize]
      omega
    have hvpn : vpn (memEnd + BitVec.ofNat 64 j * pgsize) = vpn memEnd + j :=
      vpn_add_mul_of_le (by rw [maxVpn_eq]; omega)
    have hnext : BitVec.ofNat 64 j * pgsize + pgsize = BitVec.ofNat 64 (j + 1) * pgsize := by
      rw [BitVec.ofNat_add, BitVec.add_mul]
      rfl
    have hwhole : j + (k + 1) = j + 1 + k := by omega
    have hhere : pages m r (vpn memEnd + j) = none := by
      have hw := hpages (vpn memEnd + j)
      rw [if_neg (by omega)] at hw
      rw [hw]
      exact hf _ (by omega)
    rw [growLoop, if_pos hlt, wp_bind]
    refine wp_mono (appendMapPage_spec h fun _ => by rw [hvpn]; exact hS _ (by omega)) ?_ ?_
    swap
    · rintro e ⟨-, hbad, -⟩
      rw [hvpn] at hbad
      exact absurd hhere hbad
    rintro (_ | p) m₁ ⟨⟨l₁, hholds₁, hmoves₁, hres⟩, -⟩
    · have hpages₁ : pages m₁ r = pages m r := hres.2
      refine wp_post (growErr_spec (f := f) (k := j + (k + 1)) hholds₁ (fun w hw => hS w (by omega)) (by omega)
        (by rwa [hpages₁]) fun w hw => hf w (by omega)) ?_
      rintro _ m' ⟨rfl, l', hholds, hmoves, hundone⟩
      exact ⟨l', hholds, hmoves₁.trans hmoves, hundone⟩
    · obtain ⟨-, -, hpages₁, -, -⟩ := hres
      rw [hvpn] at hpages₁
      simp only
      rw [hnext]
      refine wp_post (ih (j := j + 1) hholds₁ (fun w hw => hS w (by omega)) (by omega)
        (by rw [hend, hwhole]) (fun w => ?_) fun w hw => hf w (by omega)) ?_
      · rw [hpages₁]
        have hw := hpages w
        by_cases hwj : w = vpn memEnd + j
        · subst hwj
          rw [if_pos (by omega), Function.update_self]
          exact Option.some_ne_none _
        · rw [Function.update_of_ne hwj]
          by_cases hin : vpn memEnd ≤ w ∧ w < vpn memEnd + j
          · rw [if_pos hin] at hw
            rwa [if_pos (by omega)]
          · rw [if_neg hin] at hw
            rwa [if_neg (by omega)]
      · rintro err m' ⟨l', hholds, hmoves, hpost⟩
        rw [← hwhole] at hpost
        exact ⟨l', hholds, hmoves₁.trans hmoves, hpost⟩

/-- **`increment_mem_end`** adds all the pages of a range that is not mapped, or none. -/
theorem incrementMemEnd_spec {memEnd : Word} (h : Holds S m l r R)
    (hS : ∀ w, vpn memEnd ≤ w ∧ w < vpn memEnd + k → w ∈ S) (hbound : vpn memEnd + k ≤ 67108861)
    (hnone : ∀ w, vpn memEnd ≤ w ∧ w < vpn memEnd + k → pages m r w = none) :
    wp (incrementMemEnd r memEnd (BitVec.ofNat 64 k))
      (GrownBy S m l r R (pages m r) (vpn memEnd) k) E m := by
  have hsize : pgsize.toNat = 4096 := by decide
  have hturns : ((BitVec.ofNat 64 k * pgsize).toNat + 4095) / 4096 = k := by
    rw [BitVec.toNat_mul, BitVec.toNat_ofNat, hsize]
    omega
  have hzero : (0 : Word) = BitVec.ofNat 64 0 * pgsize := by simp
  unfold incrementMemEnd
  rw [hturns, hzero]
  have hloop := growLoop_spec (f := pages m r) (R := R) (E := E) (j := 0) k h (by simpa using hS) (by omega)
    (by rw [Nat.zero_add]) (fun w => by rw [if_neg (by omega)]) (by simpa using hnone)
  rwa [Nat.zero_add] at hloop

end Vm
