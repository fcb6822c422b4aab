import Myv6.Vm.User

/-!
# Vm/Merge — `merge_page_table_in_interval`

    parent   | p | q | r | s |
                 copies ▾
    child    | p'| q'| …            one page and the missing tables for each

The child gets a copy of every page of the interval that has a slot in the parent's table, or none.
`mergeEnd` follows the loop through the slots with the pages that are left: when they run out at a copy
everything is given back, when they run out at a table page the copy in the hand is lost, and a slot
that does not point to memory is a trap.  `toll` is what the copies cost, `bill` the same without holes.
-/

namespace Vm

open Function (update)
open Hoare Own

/-- The error exit of `merge_page_table_in_interval`. -/
def mergeErr (mappedTable start curMem : Word) : Kernel Bool := do
  unmapNPagesFreeHole mappedTable start (intOf ((curMem - start) / pgsize))
  pure true

/-- The loop of `merge_page_table_in_interval`, with a bound on the turns. -/
def mergeLoop (mappedTable pgtable start endMem : Word) : ℕ → Word → Kernel Bool
  | 0, _ => pure false
  | k + 1, curMem =>
    if curMem < endMem then do
      match ← walk pgtable curMem false with
      | none => mergeLoop mappedTable pgtable start endMem k (curMem + pgsize)
      | some (t, i) =>
        let pte ← inspect (·.cell t i)
        match ← kalloc with
        | none => mergeErr mappedTable start curMem
        | some copyPage =>
          memcpyPage copyPage (pteGetPa pte)
          if ← mapPage mappedTable curMem copyPage (pteGetAttribute pte) then
            mergeErr mappedTable start curMem
          else
            mergeLoop mappedTable pgtable start endMem k (curMem + pgsize)
    else pure false

/-- The loop makes no more turns than there are pages between `start` and `endMem`. -/
def mergePageTableInInterval (mappedTable pgtable start endMem : Word) : Kernel Bool :=
  mergeLoop mappedTable pgtable start endMem ((endMem.toNat - start.toNat + 4095) / 4096) start

/-- **What mapping `k` fresh pages from `v` on costs**, in a table that needs `f` table pages for
each page number: the page, and the tables that are missing. -/
def bill (f : ℕ → ℕ) (v : ℕ) : ℕ → ℕ
  | 0 => 0
  | k + 1 => 1 + f v + bill (fun w => min (f w) (apart v w)) (v + 1) k

/-- How the loop ends. -/
inductive MergeEnd
  | done
  /-- there is no page for a copy -/
  | refused
  /-- there is no page for a table, and the copy in the hand is lost -/
  | lost
  /-- a slot does not point to memory -/
  | trapped

/-- **How the loop ends** over `k` pages from `v` on, given the words in the slots of the source, the
table pages that the target needs, and how often `kalloc` succeeds. -/
def mergeEnd (slots : ℕ → Option Word) : ℕ → (ℕ → ℕ) → ℕ → ℕ → MergeEnd
  | 0, _, _, _ => .done
  | k + 1, f, v, a =>
    match slots v with
    | none => mergeEnd slots k f (v + 1) a
    | some pte =>
      if a = 0 then .refused
      else if ¬(kernelBase ≤ pteGetPa pte ∧ pteGetPa pte < memoryEnd) then .trapped
      else if a ≤ f v then .lost
      else mergeEnd slots k (fun w => min (f w) (apart v w)) (v + 1) (a - (1 + f v))

/-- **What copying `k` pages from `v` on costs**, where a page without a slot is passed over. -/
def toll (slots : ℕ → Option Word) : ℕ → (ℕ → ℕ) → ℕ → ℕ
  | 0, _, _ => 0
  | k + 1, f, v =>
    match slots v with
    | none => toll slots k f (v + 1)
    | some _ => 1 + f v + toll slots k (fun w => min (f w) (apart v w)) (v + 1)

variable {m m' : Mem} {l l' : List Word} {rc rp start endMem cur p q : Word} {R : Word → ℕ}
  {f slots : ℕ → Option Word} {g : ℕ → ℕ} {v w j k a : ℕ} {S : Finset ℕ} {E : Panic → Prop}

theorem intOf_div {x y : Word} (hj : j < 2 ^ 31) (h : x = y + BitVec.ofNat 64 j * pgsize) :
    intOf ((x - y) / pgsize) = j := by
  have hsub : x - y = BitVec.ofNat 64 j * pgsize := by
    rw [h, BitVec.add_comm, BitVec.add_sub_cancel]
  have hsize : pgsize.toNat = 4096 := by decide
  have hdiv : ((x - y) / pgsize).toNat = j := by
    rw [hsub, BitVec.toNat_udiv, BitVec.toNat_mul, BitVec.toNat_ofNat, hsize]
    omega
  unfold intOf
  rw [BitVec.toInt_eq_toNat_of_lt]
  · rw [BitVec.toNat_setWidth, hdiv]
    omega
  · rw [BitVec.toNat_setWidth, hdiv]
    omega

/-- **The error exit** gives back what has been mapped. -/
theorem mergeErr_spec (h : Holds S m l rc R) (hS : ∀ w, vpn start ≤ w ∧ w < vpn start + j → w ∈ S)
    (hj : vpn start + j ≤ maxVpn)
    (hpages : ∀ w, ¬(vpn start ≤ w ∧ w < vpn start + j) → pages m rc w = f w)
    (hf : ∀ w, vpn start ≤ w ∧ w < vpn start + j → f w = none) :
    wp (mergeErr rc start (start + BitVec.ofNat 64 j * pgsize)) (fun err m' => err = true ∧
      pages m' rc = f ∧ ∃ l', Holds S m' l' rc R ∧
      Moves m m' l l' (space S m rc) (space S m' rc)) E m := by
  have hmem : ∀ w ∈ addressed start j, w ∈ S := fun w hw => hS w ((mem_addressed_of_le hj).mp hw)
  unfold mergeErr
  rw [wp_bind, intOf_div (by rw [maxVpn_eq] at hj; omega) rfl]
  unfold unmapNPagesFreeHole unmapNPagesFlex
  rw [Int.toNat_natCast]
  refine wp_mono (unmapLoop_user h fun w hw hnot => absurd (hmem w hw) hnot) ?_ ?_
  · rintro _ m' ⟨-, hpages', -, -, l', hholds, hmoves⟩
    refine ⟨rfl, ?_, l', hholds, hmoves⟩
    rw [hpages']
    funext w
    simp only [mem_addressed_of_le hj]
    split
    · next hw => exact (hf w hw).symm
    · next hw => exact hpages w hw
  · rintro e ⟨-, hs, -⟩
    cases hs

/-- The copy of a page, taken and filled. -/
theorem memcpyPage_spec (h : Holds S m l rc (fun x => R x + one p x)) {src : Word} :
    wp (memcpyPage p src) (fun _ m' => (kernelBase ≤ src ∧ src < memoryEnd) ∧
      m'.deny = m.deny ∧ m'.cell p = m.cell src ∧
      Holds S m' l rc (fun x => R x + one p x) ∧ Moves m m' l l (one p) (one p) ∧
      tables m' rc = tables m rc ∧ need m' rc = need m rc ∧ pages m' rc = pages m rc)
      (fun e => e = .kernelTrap ∧ ¬(kernelBase ≤ src ∧ src < memoryEnd)) m := by
  have hp := h.once p
  simp only [one_self] at hp
  have hself : Moves m (m.fill p (m.cell src)) l l (one p) (one p) :=
    .of_fill h.free (by omega) (by simp) _
  have hpos : 0 < R p + one p p := by simp
  obtain ⟨hholds, -, htab, hneed, hpages⟩ := h.write hpos (m.cell src)
  unfold memcpyPage
  rw [wp_ite]
  exact ⟨fun hsrc => ⟨hsrc, rfl, Mem.fill_cell_self, hholds, hself, htab, hneed, hpages⟩,
    fun hsrc => ⟨rfl, hsrc⟩⟩

/-! ## The loop -/

/-- **What the loop leaves when it has come to the end**: `k` pages from `v` on have been copied. -/
structure MergedPages (S : Finset ℕ) (m m' : Mem) (l l' : List Word) (rc rp : Word) (R : Word → ℕ)
    (v k : ℕ) : Prop where
  holds : Holds S m' l' rc R
  moves : Moves m m' l l' (space S m rc) (space S m' rc)
  taken : ∀ q, l'.count q ≤ l.count q
  paid : avail m.deny l.length = avail m'.deny l'.length + toll (slot m rp) k (need m rc) v
  outside : ∀ w, ¬(v ≤ w ∧ w < v + k) → pages m' rc w = pages m rc w
  holes : ∀ w, slot m rp w = none → pages m' rc w = pages m rc w
  /-- the bytes are the same, where the page that is read is nobody else's to write -/
  copies : ∀ w pte, v ≤ w ∧ w < v + k → slot m rp w = some pte → ∃ copy, 0 < l.count copy ∧
    m.image.IsPage copy ∧ pages m' rc w = some (makePte copy (pteGetAttribute pte ||| pteV)) ∧
    (0 < R (pteGetPa pte) → m'.cell copy = m.cell (pteGetPa pte))
  kept : ∀ q, 0 < held (pages m rc) S q → m'.cell q = m.cell q

/-- What it leaves after an error: the map is `f` again, and the pages of `B` are nobody's. -/
structure MergeUndone (S : Finset ℕ) (m m' : Mem) (l l' : List Word) (rc : Word) (R : Word → ℕ)
    (f : ℕ → Option Word) (B : Word → ℕ) : Prop where
  holds : Holds S m' l' rc R
  moves : Moves m m' l l' (space S m rc) (fun q => space S m' rc q + B q)
  undone : pages m' rc = f

/-- **What the loop leaves**, by how it ends. -/
def MergeEnded (S : Finset ℕ) (m : Mem) (l : List Word) (rc rp : Word) (R : Word → ℕ)
    (f : ℕ → Option Word) (v k : ℕ) : MergeEnd → Bool → Mem → Prop
  | .done, false, m' => ∃ l', MergedPages S m m' l l' rc rp R v k
  | .refused, true, m' => ∃ l', MergeUndone S m m' l l' rc R f 0
  | .lost, true, m' => ∃ l' copy, 0 < l.count copy ∧ MergeUndone S m m' l l' rc R f (one copy)
  | _, _, _ => False

/-- **One page has been copied.** -/
structure MergedOne (S : Finset ℕ) (m m' : Mem) (l l' : List Word) (rc : Word) (R : Word → ℕ) (v : ℕ)
    (pte copy : Word) : Prop where
  holds : Holds S m' l' rc R
  moves : Moves m m' l l' (space S m rc) (space S m' rc)
  taken : ∀ q, l'.count q ≤ l.count q
  fresh : 0 < l.count copy
  page : m.image.IsPage copy
  mapped : pages m' rc = update (pages m rc) v (some (makePte copy (pteGetAttribute pte ||| pteV)))
  needs : ∀ w, need m' rc w = min (need m rc w) (apart v w)
  paid : avail m.deny l.length = avail m'.deny l'.length + (1 + need m rc v)
  content : 0 < R (pteGetPa pte) → m'.cell copy = m.cell (pteGetPa pte)
  kept : ∀ q, 0 < held (pages m rc) S q → m'.cell q = m.cell q

namespace MergedOne

variable {m₁ : Mem} {l₁ : List Word} {pte copy : Word}

/-- What the table holds then: one page more. -/
theorem held_eq (h : MergedOne S m m₁ l l₁ rc R v pte copy) (hv : v ∈ S)
    (hnone : pages m rc v = none) (q : Word) :
    held (pages m₁ rc) S q = one copy q + held (pages m rc) S q := by
  have hsum := held_update (f := pages m rc) (p := q)
    (e := some (makePte copy (pteGetAttribute pte ||| pteV))) hv
  rw [hnone, ← h.mapped] at hsum
  simpa [pteGetPa_makePte h.page.isFrame] using hsum

/-- **One page, then the rest of the loop.** -/
theorem cons (h : MergedOne S m m₁ l l₁ rc R v pte copy) (h₀ : Holds S m l rc R) (hv : v ∈ S)
    (hnone : pages m rc v = none) (hslot : slot m rp v = some pte)
    (hR : ∀ q, 0 < tables m rp q → 0 < R q) {l' : List Word}
    (hrest : MergedPages S m₁ m' l₁ l' rc rp R (v + 1) k) :
    MergedPages S m m' l l' rc rp R v (k + 1) := by
  have hslots : slot m₁ rp = slot m rp := slot_congr fun q hq => h₀.kept h.moves (hR q hq)
  have hheld := h.held_eq hv hnone
  refine ⟨hrest.holds, h.moves.trans hrest.moves, fun q => (hrest.taken q).trans (h.taken q), ?_,
    fun w hw => ?_, fun w hw => ?_, fun w pte' hw hpte' => ?_, fun q hq => ?_⟩
  · have hpaid := hrest.paid
    rw [hslots, funext h.needs] at hpaid
    rw [toll, hslot, h.paid, hpaid]
    dsimp only
    omega
  · rw [hrest.outside w (by omega), h.mapped, Function.update_of_ne (by omega)]
  · have hwv : w ≠ v := by
      rintro rfl
      rw [hslot] at hw
      cases hw
    rw [hrest.holes w (by rw [hslots]; exact hw), h.mapped, Function.update_of_ne hwv]
  · by_cases hwv : w = v
    · subst hwv
      obtain rfl : pte = pte' := Option.some.inj (hslot.symm.trans hpte')
      refine ⟨copy, h.fresh, h.page, ?_, fun hpos => ?_⟩
      · rw [hrest.outside w (by omega), h.mapped, Function.update_self]
      · rw [hrest.kept copy (by rw [hheld, one_self]; omega), h.content hpos]
    · obtain ⟨copied, hfresh, hpage, hmap, hsame⟩ :=
        hrest.copies w pte' (by omega) (by rw [hslots]; exact hpte')
      refine ⟨copied, hfresh.trans_le (h.taken copied), h.moves.image ▸ hpage, hmap, fun hpos => ?_⟩
      rw [hsame hpos, h₀.kept h.moves hpos]
  · rw [hrest.kept q (by rw [hheld]; omega), h.kept q hq]

/-- The rest of the loop, by how it ends. -/
theorem ended (h : MergedOne S m m₁ l l₁ rc R v pte copy) (h₀ : Holds S m l rc R) (hv : v ∈ S)
    (hnone : pages m rc v = none) (hslot : slot m rp v = some pte)
    (hR : ∀ q, 0 < tables m rp q → 0 < R q) {x : MergeEnd} {err : Bool}
    (hrest : MergeEnded S m₁ l₁ rc rp R f (v + 1) k x err m') :
    MergeEnded S m l rc rp R f v (k + 1) x err m' := by
  cases x <;> cases err <;> try exact hrest
  · obtain ⟨l', hrest⟩ := hrest
    exact ⟨l', h.cons h₀ hv hnone hslot hR hrest⟩
  · obtain ⟨l', hrest⟩ := hrest
    exact ⟨l', hrest.holds, h.moves.trans hrest.moves, hrest.undone⟩
  · obtain ⟨l', lost, hlost, hrest⟩ := hrest
    exact ⟨l', lost, hlost.trans_le (h.taken lost), hrest.holds, h.moves.trans hrest.moves,
      hrest.undone⟩

end MergedOne

/-- A page without a slot is passed over. -/
theorem MergeEnded.skip {x : MergeEnd} {err : Bool} (hnone : slot m rp v = none)
    (h : MergeEnded S m l rc rp R f (v + 1) k x err m') :
    MergeEnded S m l rc rp R f v (k + 1) x err m' := by
  cases x <;> cases err <;> try exact h
  obtain ⟨l', h⟩ := h
  refine ⟨l', h.holds, h.moves, h.taken, ?_, fun w hw => h.outside w (by omega), h.holes,
    fun w pte hw hpte => ?_, h.kept⟩
  · rw [toll, hnone]
    exact h.paid
  · refine h.copies w pte ?_ hpte
    have hwv : w ≠ v := by
      rintro rfl
      rw [hnone] at hpte
      cases hpte
    omega

/-- Tables that are not written stay the tables. -/
theorem Holds.tables_kept (h : Holds S m l rc R) {l' : List Word}
    (hmoves : Moves m m' l l' (space S m rc) (space S m' rc))
    (hR : ∀ q, 0 < tables m rp q → 0 < R q) : tables m' rp = tables m rp :=
  (table_congr fun q hq => h.kept hmoves (hR q hq)).1

/-- **The copy of one page**, when `kalloc` has given a page for it. -/
theorem mergeOne_spec {m₁ : Mem} {copy : Word} (va pte : Word) (h : Holds S m l rc R)
    (htaken : KallocedFor S m l rc R (some copy) m₁) (hva : vpn va < maxVpn) (hS : vpn va ∈ S)
    (hnone : pages m rc (vpn va) = none) :
    wp (memcpyPage copy (pteGetPa pte)) (fun _ m₂ =>
      wp (mapPage rc va copy (pteGetAttribute pte)) (fun err m' =>
        (kernelBase ≤ pteGetPa pte ∧ pteGetPa pte < memoryEnd) ∧ ∃ l', match err with
        | false => need m rc (vpn va) < avail m.deny l.length ∧
          MergedOne S m m' l l' rc R (vpn va) pte copy
        | true => avail m.deny l.length ≤ need m rc (vpn va) ∧ 0 < l.count copy ∧
          MergeUndone S m m' l l' rc R (pages m rc) (one copy)) E m₂)
      (fun e => e = .kernelTrap ∧ ¬(kernelBase ≤ pteGetPa pte ∧ pteGetPa pte < memoryEnd)) m₁ := by
  obtain ⟨hpage, l₁, hholds₁, htake, htab₁, hneed₁, hpages₁, havail₁⟩ := htaken
  refine wp_post (memcpyPage_spec hholds₁) ?_
  rintro _ m₂ ⟨hram, hdeny₂, hfill, hholds₂, hcopy, htab₂, hneed₂, hpages₂⟩
  have hpages₂' : pages m₂ rc = pages m rc := hpages₂.trans hpages₁
  have hneed₂' : need m₂ rc = need m rc := hneed₂.trans hneed₁
  have hspace₂ : space S m₂ rc = space S m rc := by
    funext x
    rw [space, htab₂, htab₁, hpages₂', space]
  have hfresh : 0 < l.count copy := by
    have hsame := htake.same copy
    rw [one_self, Pi.zero_apply] at hsame
    omega
  have hless : ∀ q, l₁.count q ≤ l.count q := by
    intro q
    have hsame := htake.same q
    rw [Pi.zero_apply] at hsame
    omega
  -- the copy is in the hand: what the table and the hand hold came from the list
  have hinhand : Moves m m₂ l l₁ (space S m rc) (fun x => space S m rc x + one copy x) := by
    refine ((htake.trans hcopy).beside (space S m rc)).congr (fun x => ?_) fun x => ?_
    · exact (Nat.zero_add _).symm
    · exact Nat.add_comm _ _
  refine wp_mono (wp_and (mapPage_hand hholds₂ (by rw [hcopy.image, htake.image]; exact hpage)
    fun _ => hS) (mapPage_taken hholds₂.free hholds₂.tables_once)) ?_ fun e he =>
      absurd (hpages₂' ▸ hnone) he.1.2
  rintro (_ | _) m₃ ⟨hpost, htaken₃⟩
  · obtain ⟨-, l₃, hholds₃, hmoves₃, hgrow₃, hpages₃, hneed₃, havail₃⟩ := hpost
    obtain ⟨l₃', hfree₃, hless₃⟩ := htaken₃
    obtain rfl := hmoves₃.free.unique hfree₃
    rw [hdeny₂, hneed₂'] at havail₃
    have hdst := hholds₂.once copy
    rw [one_self] at hdst
    unfold space at hdst
    refine ⟨hram, l₃, by omega, hholds₃, ?_, fun q => (hless₃ q).trans (hless q), hfresh, hpage, ?_,
      fun w => ?_, by omega, fun hpos => ?_, fun q hq => ?_⟩
    · rw [hspace₂] at hmoves₃
      exact hinhand.trans hmoves₃
    · rw [hpages₃, hpages₂']
    · rw [hneed₃, hneed₂']
    · have hsrc := h.once (pteGetPa pte)
      rw [hgrow₃.frame (by omega) (by omega), hfill, htake.frame (by omega) rfl]
    · have hq₀ := h.once q
      have hsame := htake.same q
      rw [Pi.zero_apply] at hsame
      unfold space at hq₀
      rw [hgrow₃.frame (by omega) (by rw [htab₂, htab₁]; omega), hcopy.frame (by omega) (by omega),
        htake.frame (by omega) rfl]
  · obtain ⟨hwhy, l₃, hholds₃, hmoves₃, -, hpages₃⟩ := hpost
    rw [hdeny₂, hneed₂'] at hwhy
    have hshort := hwhy.resolve_left (by omega)
    refine ⟨hram, l₃, by omega, hfresh, hholds₃.mono fun q => Nat.le_add_right _ _, ?_, ?_⟩
    · rw [hspace₂] at hmoves₃
      exact hinhand.trans (hmoves₃.beside (one copy))
    · rw [hpages₃, hpages₂']

/-- **The loop of `merge_page_table_in_interval`**, after `j` pages, over an interval that is not
mapped in the target; the source's tables are not written. -/
theorem mergeLoop_spec (k : ℕ) : ∀ {j : ℕ} {m : Mem} {l : List Word}, Holds S m l rc R →
    (∀ q, 0 < tables m rp q → 0 < R q) → start.toNat % 4096 = 0 →
    endMem.toNat = start.toNat + 4096 * (j + k) →
    (∀ w, vpn start ≤ w ∧ w < vpn start + (j + k) → w < maxVpn → w ∈ S) →
    (∀ w, ¬(vpn start ≤ w ∧ w < vpn start + j) → pages m rc w = f w) →
    (∀ w, vpn start ≤ w ∧ w < vpn start + (j + k) → f w = none) →
    wp (mergeLoop rc rp start endMem k (start + BitVec.ofNat 64 j * pgsize))
      (fun err m' => MergeEnded S m l rc rp R f (vpn start + j) k
        (mergeEnd (slot m rp) k (need m rc) (vpn start + j) (avail m.deny l.length)) err m')
      (fun e => e = .kernelTrap ∧
        mergeEnd (slot m rp) k (need m rc) (vpn start + j) (avail m.deny l.length) = .trapped) m := by
  induction k with
  | zero =>
    intro j m l h _ _ _ _ _ _
    exact ⟨l, h, .refl h.free, fun _ => le_rfl, rfl, fun _ _ => rfl, fun _ _ => rfl,
      fun w _ hw => absurd hw (by omega), fun _ _ => rfl⟩
  | succ k ih =>
    intro j m l h hR hal hend hS hpages hf
    have hsize : pgsize.toNat = 4096 := by decide
    have hbound := endMem.isLt
    have hcur : (start + BitVec.ofNat 64 j * pgsize).toNat = start.toNat + 4096 * j := by
      rw [BitVec.toNat_add, BitVec.toNat_mul, BitVec.toNat_ofNat, hsize]
      omega
    have hvpn : vpn (start + BitVec.ofNat 64 j * pgsize) = vpn start + j := by
      rw [vpn, hcur, vpn]
      omega
    have hnext : start + BitVec.ofNat 64 j * pgsize + pgsize =
        start + BitVec.ofNat 64 (j + 1) * pgsize := by
      rw [BitVec.ofNat_add, BitVec.add_mul, BitVec.add_assoc]
      rfl
    have hlt : start + BitVec.ofNat 64 j * pgsize < endMem := by
      rw [BitVec.lt_def, hcur]
      omega
    have hslot : slot m rp (vpn start + j) =
        (find m rp (start + BitVec.ofNat 64 j * pgsize)).map fun s => m.cell s.1 s.2 := by
      rw [← hvpn]
      exact slot_of_find
    rw [mergeLoop, if_pos hlt, wp_bind, wp_walk_noAlloc]
    cases hfind : find m rp (start + BitVec.ofNat 64 j * pgsize) with
    | none =>
      rw [hfind, Option.map_none] at hslot
      simp only [mergeEnd, hslot]
      rw [hnext]
      refine wp_post (ih (j := j + 1) h hR hal (by omega) (fun w hw => hS w (by omega))
        (fun w hw => hpages w (by omega)) fun w hw => hf w (by omega)) fun err m' hres =>
          hres.skip hslot
    | some s =>
      obtain ⟨t, i⟩ := s
      obtain ⟨hmax, -, -, -⟩ := bottom_of_find hfind
      rw [hfind, Option.map_some] at hslot
      rw [hvpn] at hmax
      have hmem : vpn start + j ∈ S := hS _ (by omega) hmax
      have hhere : pages m rc (vpn start + j) = none := by
        rw [hpages _ (by omega)]
        exact hf _ (by omega)
      simp only [mergeEnd, hslot]
      rw [wp_bind, wp_inspect, wp_bind]
      generalize m.cell t i = pte at *
      -- the error exit, from a state in which the map is the one of this turn
      have hexit : ∀ {m₁ : Mem} {l₁ : List Word}, Holds S m₁ l₁ rc R → pages m₁ rc = pages m rc →
          wp (mergeErr rc start (start + BitVec.ofNat 64 j * pgsize)) (fun err m' => err = true ∧
            pages m' rc = f ∧ ∃ l', Holds S m' l' rc R ∧
            Moves m₁ m' l₁ l' (space S m₁ rc) (space S m' rc)) (fun _ => False) m₁ := by
        intro m₁ l₁ h₁ hsame
        refine mergeErr_spec h₁ (fun w hw => hS w (by omega) (by omega)) hmax.le (fun w hw => ?_)
          fun w hw => hf w (by omega)
        rw [hsame]
        exact hpages w hw
      refine wp_post (kalloc_holds h) ?_
      rintro (_ | copy) m₁ hpost
      · obtain ⟨havail, hholds₁, d, rfl⟩ := hpost
        rw [if_pos havail]
        refine wp_mono (hexit hholds₁ rfl) ?_ fun _ => False.elim
        rintro _ m' ⟨rfl, hundone, l', hholds, hmoves⟩
        exact ⟨l', hholds, ((Moves.of_deny h.free d).trans hmoves).congr (fun _ => rfl)
          fun _ => by simp, hundone⟩
      · have hpos : avail m.deny l.length ≠ 0 := by
          obtain ⟨-, l₁, -, -, -, -, -, havail₁⟩ := hpost
          omega
        simp only [if_neg hpos]
        rw [wp_bind]
        have hcopy := mergeOne_spec (E := fun _ => False) (start + BitVec.ofNat 64 j * pgsize) pte h
          hpost (hvpn ▸ hmax) (hvpn ▸ hmem) (hvpn ▸ hhere)
        refine wp_mono hcopy ?_ fun e he => ⟨he.1, if_pos he.2⟩
        intro _ m₂ hmap
        rw [wp_bind]
        refine wp_mono hmap ?_ fun _ => False.elim
        rintro (_ | _) m₃ ⟨hram, l₃, hres⟩
        · rw [hvpn] at hres
          obtain ⟨hlt, hone⟩ := hres
          have hslots : slot m₃ rp = slot m rp :=
            slot_congr fun q hq => h.kept hone.moves (hR q hq)
          have hpaid : avail m₃.deny l₃.length =
              avail m.deny l.length - (1 + need m rc (vpn start + j)) := by
            have hpaid := hone.paid
            omega
          rw [if_neg (not_not.mpr hram), if_neg (Nat.not_le.mpr hlt), if_neg Bool.false_ne_true, hnext]
          have hrest := ih (j := j + 1) hone.holds
            (fun q hq => hR q (by rwa [h.tables_kept hone.moves hR] at hq)) hal (by omega)
            (fun w hw => hS w (by omega))
            (fun w hw => by
              rw [hone.mapped, Function.update_of_ne (by omega)]
              exact hpages w (by omega)) fun w hw => hf w (by omega)
          rw [hslots, funext hone.needs, hpaid] at hrest
          exact wp_post hrest fun err m' hres => hone.ended h hmem hhere hslot hR hres
        · rw [hvpn] at hres
          obtain ⟨hle, hfresh, hundone₃⟩ := hres
          rw [if_neg (not_not.mpr hram), if_pos hle, if_pos rfl]
          refine wp_mono (hexit hundone₃.holds hundone₃.undone) ?_ fun _ => False.elim
          rintro _ m' ⟨rfl, hundone, l', hholds, hmoves⟩
          exact ⟨l', copy, hfresh, hholds, hundone₃.moves.trans (hmoves.beside (one copy)), hundone⟩

/-- **`merge_page_table_in_interval`** over an interval of whole pages. -/
theorem mergePageTableInInterval_ended (h : Holds S m l rc R)
    (hR : ∀ q, 0 < tables m rp q → 0 < R q) (hal : start.toNat % 4096 = 0)
    (hend : endMem.toNat = start.toNat + 4096 * k)
    (hS : ∀ w, vpn start ≤ w ∧ w < vpn start + k → w < maxVpn → w ∈ S)
    (hnone : ∀ w, vpn start ≤ w ∧ w < vpn start + k → pages m rc w = none) :
    wp (mergePageTableInInterval rc rp start endMem)
      (fun err m' => MergeEnded S m l rc rp R (pages m rc) (vpn start) k
        (mergeEnd (slot m rp) k (need m rc) (vpn start) (avail m.deny l.length)) err m')
      (fun e => e = .kernelTrap ∧
        mergeEnd (slot m rp) k (need m rc) (vpn start) (avail m.deny l.length) = .trapped) m := by
  have hturns : (endMem.toNat - start.toNat + 4095) / 4096 = k := by omega
  have hzero : start + BitVec.ofNat 64 0 * pgsize = start := by simp
  have hloop := mergeLoop_spec (f := pages m rc) (j := 0) k h hR hal (by rw [hend, Nat.zero_add])
    (by simpa using hS) (fun _ _ => rfl) (by simpa using hnone)
  unfold mergePageTableInInterval
  rw [hturns]
  rwa [hzero, Nat.add_zero] at hloop

/-! ## How the loop ends -/

/-- The slot points to memory that the kernel can read, or there is none. -/
def Backed (slots : ℕ → Option Word) (v : ℕ) : Prop :=
  ∀ pte, slots v = some pte → kernelBase ≤ pteGetPa pte ∧ pteGetPa pte < memoryEnd

theorem backed_of_none (h : slots v = none) : Backed slots v := by
  intro pte hpte
  rw [h] at hpte
  cases hpte

theorem backed_iff {pte : Word} (h : slots v = some pte) :
    Backed slots v ↔ kernelBase ≤ pteGetPa pte ∧ pteGetPa pte < memoryEnd := by
  constructor
  · exact fun hb => hb pte h
  · rintro hram pte' hpte'
    obtain rfl := Option.some.inj (h.symm.trans hpte')
    exact hram

theorem backed_succ : (∀ i < k + 1, Backed slots (v + i)) ↔
    Backed slots v ∧ ∀ i < k, Backed slots (v + 1 + i) := by
  rw [Nat.forall_lt_succ_left]
  simp only [Nat.add_zero, Nat.add_right_comm v 1]
  exact Iff.rfl

/-- **The end is reached** when everything is backed and paid for. -/
theorem mergeEnd_eq_done_iff : mergeEnd slots k g v a = .done ↔
    toll slots k g v ≤ a ∧ ∀ i < k, Backed slots (v + i) := by
  induction k generalizing g v a with
  | zero => simp [mergeEnd, toll]
  | succ k ih =>
    rw [mergeEnd, toll, backed_succ]
    cases hslot : slots v with
    | none => simp only [ih, backed_of_none hslot, true_and]
    | some pte =>
      rw [backed_iff hslot]
      dsimp only
      split
      · simp only [reduceCtorEq, false_iff]
        omega
      split
      · next hram => simp only [reduceCtorEq, hram, false_and, and_false]
      split
      · simp only [reduceCtorEq, false_iff]
        omega
      · next hram hlt =>
        rw [ih]
        simp only [not_not.mp hram, true_and]
        refine and_congr_left fun _ => ?_
        omega

/-- **No page for a copy**: the pages before it have taken all there were. -/
theorem mergeEnd_eq_refused_iff : mergeEnd slots k g v a = .refused ↔
    ∃ i < k, slots (v + i) ≠ none ∧ a = toll slots i g v ∧ ∀ j < i, Backed slots (v + j) := by
  induction k generalizing g v a with
  | zero => simp [mergeEnd]
  | succ k ih =>
    rw [mergeEnd, Nat.exists_lt_succ_left]
    simp only [backed_succ, toll, Nat.add_zero, Nat.not_lt_zero, false_implies, implies_true, and_true]
    cases hslot : slots v with
    | none =>
      simp only [ih, backed_of_none hslot, ne_eq, not_true_eq_false, false_and, false_or, true_and,
        Nat.add_right_comm v 1]
      exact Iff.rfl
    | some pte =>
      simp only [backed_iff hslot, ne_eq, reduceCtorEq, not_false_eq_true, true_and]
      split
      · next ha => simp [ha]
      split
      · next ha hram => simp only [reduceCtorEq, ha, hram, false_and, and_false, exists_false, or_self]
      split
      · next ha hram hle =>
        simp only [reduceCtorEq, false_iff]
        rintro (hzero | ⟨i, hi, -, heq, -⟩)
        · exact ha hzero
        · omega
      · next ha hram hlt =>
        simp only [ih, ha, false_or, not_not.mp hram, true_and, Nat.add_right_comm v 1]
        refine exists_congr fun i => and_congr_right fun _ => and_congr Iff.rfl
          (and_congr_left fun _ => ?_)
        omega

/-- No page for a table. -/
theorem mergeEnd_lost (h : mergeEnd slots k g v a = .lost) :
    ∃ i < k, toll slots i g v + 1 ≤ a ∧ a < toll slots (i + 1) g v := by
  induction k generalizing g v a with
  | zero => cases h
  | succ k ih =>
    rw [mergeEnd] at h
    cases hslot : slots v with
    | none =>
      rw [hslot] at h
      obtain ⟨i, hi, hle, hlt⟩ := ih h
      refine ⟨i + 1, by omega, ?_, ?_⟩
      · rw [toll, hslot]
        exact hle
      · rw [toll, hslot]
        exact hlt
    | some pte =>
      simp only [hslot] at h
      split at h
      · cases h
      split at h
      · cases h
      split at h
      · refine ⟨0, by omega, ?_, ?_⟩
        · rw [toll]
          omega
        · rw [toll, hslot]
          dsimp only
          omega
      · obtain ⟨i, hi, hle, hlt⟩ := ih h
        refine ⟨i + 1, by omega, ?_, ?_⟩
        · rw [toll, hslot]
          dsimp only
          omega
        · rw [toll, hslot]
          dsimp only
          omega

/-- A slot that is not backed. -/
theorem mergeEnd_trapped (h : mergeEnd slots k g v a = .trapped) :
    ∃ i < k, ¬Backed slots (v + i) := by
  by_contra hall
  simp only [not_exists, not_and, not_not] at hall
  induction k generalizing g v a with
  | zero => cases h
  | succ k ih =>
    obtain ⟨hhere, hrest⟩ := backed_succ.mp hall
    rw [mergeEnd] at h
    cases hslot : slots v with
    | none =>
      rw [hslot] at h
      exact ih h hrest
    | some pte =>
      simp only [hslot] at h
      split at h
      · cases h
      split at h
      · next hram => exact hram (hhere pte hslot)
      split at h
      · cases h
      · exact ih h hrest

/-- Without holes, the cost is the bill. -/
theorem toll_eq_bill (h : ∀ i < k, slots (v + i) ≠ none) : toll slots k g v = bill g v k := by
  induction k generalizing g v with
  | zero => rfl
  | succ k ih =>
    obtain ⟨pte, hpte⟩ := Option.ne_none_iff_exists'.mp (h 0 (by omega))
    rw [Nat.add_zero] at hpte
    rw [toll, bill, hpte]
    refine congrArg (1 + g v + ·) (ih fun i hi => ?_)
    rw [Nat.add_right_comm]
    exact h (i + 1) (by omega)

/-! ## The image and the heap of a process -/

/-- The parent maps the page to memory that the kernel can read. -/
def Readable (m : Mem) (r : Word) (v : ℕ) : Prop :=
  ∃ pte, pages m r v = some pte ∧ kernelBase ≤ pteGetPa pte ∧ pteGetPa pte < memoryEnd

/-- **A copied page**: on another frame, with the same attributes and the same words. -/
def Copied (m m' : Mem) (rc rp : Word) (w : ℕ) : Prop :=
  ∃ pte pte', pages m rp w = some pte ∧ pages m' rc w = some pte' ∧
    pteGetAttribute pte' = pteGetAttribute pte ∧
    m'.cell (pteGetPa pte') = m.cell (pteGetPa pte)

/-- Of a parent that is not written, everything below the stack stays. -/
theorem Readable.keep (hparent : ∀ x, 0 < space userPages m rp x → m'.cell x = m.cell x) :
    pages m' rp = pages m rp ∧ space userPages m' rp = space userPages m rp ∧
      ∀ w, Readable m rp w → Readable m' rp w := by
  obtain ⟨htab, -, hpages⟩ := table_congr fun x hx => hparent x (Nat.add_pos_left hx _)
  refine ⟨hpages, ?_, fun w hw => ?_⟩
  · funext x
    rw [space, htab, hpages, space]
  · unfold Readable
    rwa [hpages]

/-- What is left when `k` pages from `v` on are to be copied, in a table that should have the
map `f` again after an error. -/
structure Merged (m m' : Mem) (l : List Word) (rc rp : Word) (R : Word → ℕ) (f : ℕ → Option Word)
    (v k : ℕ) (err : Bool) : Prop where
  /-- an error may leave a page that nobody owns -/
  owns : ∃ l' B, Holds userPages m' l' rc R ∧
    Moves m m' l l' (space userPages m rc) (fun q => space userPages m' rc q + B q) ∧
    (err = false → B = 0 ∧ ((∀ w, v ≤ w ∧ w < v + k → Readable m rp w) →
      avail m.deny l.length = avail m'.deny l'.length + bill (need m rc) v k)) ∧
    (err = true → (∀ w, v ≤ w ∧ w < v + k → Readable m rp w) → ∃ i < k,
      (B = 0 ∧ avail m.deny l.length = bill (need m rc) v i) ∨
      ((∃ copy, B = one copy) ∧ bill (need m rc) v i + 1 ≤ avail m.deny l.length ∧
        avail m.deny l.length < bill (need m rc) v (i + 1)))
  undone : err = true → pages m' rc = f
  outside : err = false → ∀ w, ¬(v ≤ w ∧ w < v + k) → pages m' rc w = pages m rc w
  inside : err = false → (∀ w, v ≤ w ∧ w < v + k → Readable m rp w) →
    ∀ w, v ≤ w ∧ w < v + k → Copied m m' rc rp w
  kept : err = false → ∀ q, 0 < held (pages m rc) userPages q → m'.cell q = m.cell q

/-- **`merge_page_table_in_interval`** over a range below the stack. -/
theorem mergePageTableInInterval_spec (h : Holds userPages m l rc R)
    (hR : ∀ q, 0 < space userPages m rp q → 0 < R q)
    (hbound : vpn start + k ≤ 67108861) (hend : endMem = start + BitVec.ofNat 64 k * pgsize)
    (hal : start.toNat % 4096 = 0)
    (hnone : ∀ w, vpn start ≤ w ∧ w < vpn start + k → pages m rc w = none) :
    wp (mergePageTableInInterval rc rp start endMem)
      (fun err m' => Merged m m' l rc rp R (pages m rc) (vpn start) k err)
      (fun _ => ∃ w, (vpn start ≤ w ∧ w < vpn start + k) ∧ ¬Readable m rp w) m := by
  have hsize : pgsize.toNat = 4096 := by decide
  have hstop : endMem.toNat = start.toNat + 4096 * k := by
    rw [hend, BitVec.toNat_add, BitVec.toNat_mul, BitVec.toNat_ofNat, hsize]
    unfold vpn at hbound
    omega
  have hslot : ∀ w, Readable m rp w → slot m rp w ≠ none ∧ Backed (slot m rp) w := by
    rintro w ⟨pte, hpte, hram⟩
    obtain ⟨hslot, -⟩ := slot_of_pages hpte
    exact ⟨hslot ▸ Option.some_ne_none pte, (backed_iff hslot).mpr hram⟩
  have hbill : (∀ w, vpn start ≤ w ∧ w < vpn start + k → Readable m rp w) → ∀ i ≤ k,
      toll (slot m rp) i (need m rc) (vpn start) = bill (need m rc) (vpn start) i := fun hall i hi =>
    toll_eq_bill fun j hj => (hslot _ (hall _ (by omega))).1
  refine wp_mono (mergePageTableInInterval_ended h (fun q hq => hR q (Nat.add_pos_left hq _)) hal
    hstop (fun w hw _ => mem_userPages_iff.mpr (by omega)) hnone) ?_ ?_
  · intro err m' hended
    generalize hx : mergeEnd (slot m rp) k (need m rc) (vpn start) (avail m.deny l.length) = x
      at hended
    match x, err, hended with
    | .done, false, ⟨l', hm⟩ =>
      have hstay : Moves m m' l l' (space userPages m rc)
          (fun q => space userPages m' rc q + (0 : Word → ℕ) q) :=
        hm.moves.congr (fun _ => rfl) fun _ => by simp
      refine ⟨⟨l', 0, hm.holds, hstay, fun _ => ⟨rfl, fun hall => ?_⟩, by simp⟩, by simp,
        fun _ => hm.outside, fun _ hall w hw => ?_, fun _ => hm.kept⟩
      · rw [← hbill hall k le_rfl]
        exact hm.paid
      · obtain ⟨pte, hpte, -⟩ := hall w hw
        obtain ⟨hslot, hv⟩ := slot_of_pages hpte
        obtain ⟨copy, -, hpage, hmap, hsame⟩ := hm.copies w pte hw hslot
        refine ⟨pte, _, hpte, hmap, pteGetAttribute_copy copy hv, ?_⟩
        rw [pteGetPa_makePte hpage.isFrame]
        refine hsame (hR _ ?_)
        -- the page is one that the parent maps
        have hle := frameOf_le_held (f := pages m rp) (p := pteGetPa pte)
          (mem_userPages_iff.mpr (by omega : w < 67108861))
        rw [hpte, frameOf_some, one_self] at hle
        unfold space
        omega
    | .refused, true, ⟨l', hm⟩ =>
      refine ⟨⟨l', 0, hm.holds, hm.moves, by simp, fun _ hall => ?_⟩, fun _ => hm.undone, by simp,
        by simp, by simp⟩
      obtain ⟨i, hi, -, hpaid, -⟩ := mergeEnd_eq_refused_iff.mp hx
      exact ⟨i, hi, .inl ⟨rfl, by rw [hpaid, hbill hall i hi.le]⟩⟩
    | .lost, true, ⟨l', copy, _, hm⟩ =>
      refine ⟨⟨l', one copy, hm.holds, hm.moves, by simp, fun _ hall => ?_⟩, fun _ => hm.undone,
        by simp, by simp, by simp⟩
      obtain ⟨i, hi, hle, hlt⟩ := mergeEnd_lost hx
      rw [hbill hall i hi.le] at hle
      rw [hbill hall (i + 1) hi] at hlt
      exact ⟨i, hi, .inr ⟨⟨copy, rfl⟩, hle, hlt⟩⟩
  · rintro e ⟨-, htrapped⟩
    obtain ⟨i, hi, hbad⟩ := mergeEnd_trapped htrapped
    exact ⟨vpn start + i, by omega, fun hread => hbad (hslot _ hread).2⟩

end Vm
