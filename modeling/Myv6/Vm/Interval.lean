import Myv6.Vm.Copy
import Myv6.Vm.Merge

/-!
# Vm/Interval — what `merge_page_table_in_interval` copies

    source   | pte | 0 | pte |   no table   | pte |      a page may be missing at any of three levels
    slot       yes  yes  yes        no        yes
    target   | pte'| ? | pte'|              | pte'|

The loop takes every page for mapped that has a slot, whether the entry in it is valid or not; and when
`map_page` finds no page for a table, the copy in the hand is forgotten.  So the target gets exactly
what is mapped when every slot of the interval is valid and the pages suffice, or when they run out
just where a copy is to be taken.
-/

namespace Vm

open Function (update)
open Hoare Own

/-- The page numbers of the interval `[start, endMem)`. -/
def Inside (start endMem : Word) (v : ℕ) : Prop := vpn start ≤ v ∧ v < vpn endMem

/-- **Two tables and an interval of whole pages** that the target does not map. -/
structure Mergeable (m : Mem) (l : List Word) (rc rp start endMem : Word) : Prop where
  free : FreeList m l
  once : ∀ p, l.count p + tables m rc p ≤ 1
  page : ∀ p, 0 < tables m rc p → m.image.IsPage p
  /-- the tables of the source are neither free nor the target's -/
  source : ∀ p, 0 < tables m rp p → l.count p + tables m rc p = 0
  /-- nor is what the source maps in the interval -/
  frames : ∀ v pte, Inside start endMem v → pages m rp v = some pte →
    l.count (pteGetPa pte) + tables m rc (pteGetPa pte) = 0
  aligned : start.toNat % 4096 = 0 ∧ endMem.toNat % 4096 = 0
  unmapped : ∀ v, Inside start endMem v → pages m rc v = none

/-- **Copied exactly**: a leaf where the source has a valid leaf, on a fresh frame. -/
structure CopiedExactly (m m' : Mem) (l : List Word) (rc rp start endMem : Word) : Prop where
  holes : ∀ v, Inside start endMem v → pages m rp v = none → pages m' rc v = none
  leaves : ∀ v pte, Inside start endMem v → pages m rp v = some pte → ∃ pte',
    pages m' rc v = some pte' ∧ pteGetAttribute pte' = pteGetAttribute pte ∧
    m'.cell (pteGetPa pte') = m.cell (pteGetPa pte)
  /-- the frame was free, and is neither free nor a table any more -/
  fresh : ∀ v pte', Inside start endMem v → pages m' rc v = some pte' →
    pteGetPa pte' ∈ l ∧ tables m' rc (pteGetPa pte') = 0 ∧
    ∀ l', FreeList m' l' → pteGetPa pte' ∉ l'
  apart : ∀ v w pte pte', Inside start endMem v → Inside start endMem w →
    pages m' rc v = some pte → pages m' rc w = some pte' → pteGetPa pte = pteGetPa pte' → v = w
  outside : ∀ v, ¬Inside start endMem v → pages m' rc v = pages m rc v
  frame : ∀ p, l.count p + tables m rc p = 0 → m'.cell p = m.cell p

/-- **Left as before**: what was taken from the list is a table of the target or back. -/
structure LeftAsBefore (m m' : Mem) (l : List Word) (rc : Word) : Prop where
  leaves : pages m' rc = pages m rc
  back : ∃ l', FreeList m' l' ∧ ∀ p ∈ l, p ∈ l' ∨ 0 < tables m' rc p
  frame : ∀ p, l.count p + tables m rc p = 0 → m'.cell p = m.cell p

/-- What the function should leave, by what it returns. -/
def MergeExact (m : Mem) (l : List Word) (rc rp start endMem : Word) : Bool → Mem → Prop
  | false, m' => CopiedExactly m m' l rc rp start endMem
  | true, m' => LeftAsBefore m m' l rc

/-- **When the function does that**: the pages run out just where a copy is to be taken; or every slot
is valid and points to memory, and there are pages for all. -/
def MergeFits (m : Mem) (l : List Word) (rc rp start endMem : Word) : Prop :=
  (∃ i < vpn endMem - vpn start, slot m rp (vpn start + i) ≠ none ∧
    avail m.deny l.length = toll (slot m rp) i (need m rc) (vpn start) ∧
    ∀ j < i, Backed (slot m rp) (vpn start + j)) ∨
  toll (slot m rp) (vpn endMem - vpn start) (need m rc) (vpn start) ≤ avail m.deny l.length ∧
    ∀ v, Inside start endMem v → ∀ pte, slot m rp v = some pte →
      valid pte = true ∧ kernelBase ≤ pteGetPa pte ∧ pteGetPa pte < memoryEnd

variable {m m' : Mem} {l l' : List Word} {rc rp start endMem p q : Word} {v : ℕ} {S : Finset ℕ}
  {R : Word → ℕ} {E : Panic → Prop}

/-! ## The pages of the source -/

open Classical in
/-- What the call only reads: the tables of the source, and what it maps in the interval. -/
noncomputable def readOnly (m : Mem) (rp start endMem : Word) (p : Word) : ℕ :=
  if 0 < tables m rp p ∨
    ∃ v pte, Inside start endMem v ∧ pages m rp v = some pte ∧ pteGetPa pte = p then 1 else 0

theorem readOnly_tables (h : 0 < tables m rp p) : 0 < readOnly m rp start endMem p := by
  unfold readOnly
  rw [if_pos (.inl h)]
  exact Nat.one_pos

theorem readOnly_frame {pte : Word} (hv : Inside start endMem v) (h : pages m rp v = some pte) :
    0 < readOnly m rp start endMem (pteGetPa pte) := by
  unfold readOnly
  rw [if_pos (.inr ⟨v, pte, hv, h, rfl⟩)]
  exact Nat.one_pos

/-- The page numbers of the interval, as a set. -/
def inside (start endMem : Word) : Finset ℕ := Finset.Ico (vpn start) (vpn endMem)

theorem mem_inside : v ∈ inside start endMem ↔ Inside start endMem v := Finset.mem_Ico

namespace Mergeable

/-- The target holds nothing in the interval. -/
theorem held_eq (h : Mergeable m l rc rp start endMem) (q : Word) :
    held (pages m rc) (inside start endMem) q = 0 :=
  held_eq_zero (fun w hw => h.unmapped w (mem_inside.mp hw)) q

theorem space_eq (h : Mergeable m l rc rp start endMem) (q : Word) :
    space (inside start endMem) m rc q = tables m rc q := by
  rw [space, h.held_eq, Nat.add_zero]

theorem holds (h : Mergeable m l rc rp start endMem) :
    Holds (inside start endMem) m l rc (readOnly m rp start endMem) where
  free := h.free
  once p := by
    have hp := h.once p
    rw [h.space_eq]
    unfold readOnly
    split
    · next hro =>
      have hzero : l.count p + tables m rc p = 0 := by
        rcases hro with htab | ⟨v, pte, hv, hpte, rfl⟩
        · exact h.source p htab
        · exact h.frames v pte hv hpte
      omega
    · omega
  page p hp := h.page p (by rwa [h.space_eq] at hp)

end Mergeable

/-! ## The call -/

/-- An interval that ends before it starts is empty. -/
theorem mergePageTableInInterval_empty (h : endMem.toNat ≤ start.toNat) :
    mergePageTableInInterval rc rp start endMem = mergePageTableInInterval rc rp start start := by
  have hzero : (endMem.toNat - start.toNat + 4095) / 4096 = 0 := by omega
  have hself : (start.toNat - start.toNat + 4095) / 4096 = 0 := by omega
  unfold mergePageTableInInterval
  rw [hzero, hself]
  rfl

/-- **The call on any interval of whole pages.** -/
theorem Mergeable.ended (h : Mergeable m l rc rp start endMem) :
    wp (mergePageTableInInterval rc rp start endMem)
      (fun err m' => MergeEnded (inside start endMem) m l rc rp (readOnly m rp start endMem)
        (pages m rc) (vpn start) (vpn endMem - vpn start)
        (mergeEnd (slot m rp) (vpn endMem - vpn start) (need m rc) (vpn start)
          (avail m.deny l.length)) err m')
      (fun e => e = .kernelTrap ∧ mergeEnd (slot m rp) (vpn endMem - vpn start) (need m rc)
        (vpn start) (avail m.deny l.length) = .trapped) m := by
  obtain ⟨hstart, hend⟩ := h.aligned
  have hin : ∀ w, vpn start ≤ w ∧ w < vpn start + (vpn endMem - vpn start) →
      Inside start endMem w := by
    intro w hw
    unfold Inside
    omega
  have hmem : ∀ w, vpn start ≤ w ∧ w < vpn start + (vpn endMem - vpn start) → w < maxVpn →
      w ∈ inside start endMem := fun w hw _ => mem_inside.mpr (hin w hw)
  have hnone : ∀ w, vpn start ≤ w ∧ w < vpn start + (vpn endMem - vpn start) →
      pages m rc w = none := fun w hw => h.unmapped w (hin w hw)
  by_cases hle : start.toNat ≤ endMem.toNat
  · refine mergePageTableInInterval_ended h.holds (fun q => readOnly_tables) hstart ?_ hmem hnone
    unfold vpn
    omega
  · rw [mergePageTableInInterval_empty (Nat.le_of_not_le hle)]
    refine mergePageTableInInterval_ended h.holds (fun q => readOnly_tables) hstart ?_ hmem hnone
    unfold vpn
    omega

/-- The end of the loop is reached with every slot valid. -/
theorem CopiedExactly.of_merged (h : Mergeable m l rc rp start endMem)
    (hm : MergedPages (inside start endMem) m m' l l' rc rp (readOnly m rp start endMem)
      (vpn start) (vpn endMem - vpn start))
    (hvalid : ∀ v, Inside start endMem v → ∀ pte, slot m rp v = some pte → valid pte = true) :
    CopiedExactly m m' l rc rp start endMem where
  holes v hv hnone := by
    rw [hm.holes v, h.unmapped v hv]
    cases hslot : slot m rp v with
    | none => rfl
    | some pte =>
      rw [pages_eq_slot, hslot, Option.bind_some, if_pos (hvalid v hv pte hslot)] at hnone
      cases hnone
  leaves v pte hv hpte := by
    obtain ⟨hslot, hval⟩ := slot_of_pages hpte
    obtain ⟨copy, -, hpage, hmap, hsame⟩ := hm.copies v pte (by unfold Inside at hv; omega) hslot
    refine ⟨_, hmap, pteGetAttribute_copy copy hval, ?_⟩
    rw [pteGetPa_makePte hpage.isFrame]
    exact hsame (readOnly_frame hv hpte)
  fresh v pte' hv hpte' := by
    have hle := frameOf_le_held (f := pages m' rc) (p := pteGetPa pte') (mem_inside.mpr hv)
    have honce := hm.holds.once (pteGetPa pte')
    rw [hpte', frameOf_some, one_self] at hle
    unfold space at honce
    refine ⟨?_, by omega, fun l₁ hl₁ hin => ?_⟩
    · cases hslot : slot m rp v with
      | none =>
        rw [hm.holes v hslot, h.unmapped v hv] at hpte'
        cases hpte'
      | some pte =>
        obtain ⟨copy, hcopy, hpage, hmap, -⟩ :=
          hm.copies v pte (by unfold Inside at hv; omega) hslot
        obtain rfl := Option.some.inj (hpte'.symm.trans hmap)
        rw [pteGetPa_makePte hpage.isFrame]
        exact List.count_pos_iff.mp hcopy
    · obtain rfl := hm.holds.free.unique hl₁
      have hpos := List.count_pos_iff.mpr hin
      omega
  apart v w pte pte' hv hw hpte hpte' heq := by
    by_contra hne
    have hmem : w ∈ (inside start endMem).erase v :=
      Finset.mem_erase.mpr ⟨Ne.symm hne, mem_inside.mpr hw⟩
    have hone := frameOf_le_held (f := pages m' rc) (p := pteGetPa pte') hmem
    have hsplit := held_eq (f := pages m' rc) (p := pteGetPa pte') (mem_inside.mpr hv)
    have honce := hm.holds.once (pteGetPa pte')
    rw [hpte', frameOf_some, one_self] at hone
    rw [hpte, frameOf_some, heq, one_self] at hsplit
    unfold space at honce
    omega
  outside v hv := hm.outside v (by unfold Inside at hv; omega)
  frame p hp := hm.moves.frame (by omega) (by rw [h.space_eq]; omega)

/-- After an error, with the pages of `B` in nobody's hands. -/
theorem leftAsBefore_iff (h : Mergeable m l rc rp start endMem) {B : Word → ℕ}
    (hm : MergeUndone (inside start endMem) m m' l l' rc (readOnly m rp start endMem)
      (pages m rc) B) (hB : ∀ p, 0 < B p → p ∈ l) :
    LeftAsBefore m m' l rc ↔ ∀ p, B p = 0 := by
  have hnone : ∀ p, space (inside start endMem) m' rc p = tables m' rc p := by
    intro p
    rw [space, hm.undone, h.held_eq, Nat.add_zero]
  have hsame : ∀ p, l'.count p + (tables m' rc p + B p) = l.count p + tables m rc p := by
    intro p
    have hmoves := hm.moves.same p
    rwa [hnone, h.space_eq] at hmoves
  constructor
  · rintro hleft p
    by_contra hpos
    obtain ⟨l₁, hl₁, hback⟩ := hleft.back
    obtain rfl := hm.holds.free.unique hl₁
    have hp := hB p (Nat.pos_of_ne_zero hpos)
    have hcount := List.count_pos_iff.mpr hp
    have honce := h.once p
    have heq := hsame p
    rcases hback p hp with hin | htab
    · have hin := List.count_pos_iff.mpr hin
      omega
    · omega
  · intro hzero
    refine ⟨hm.undone, ⟨l', hm.holds.free, fun p hp => ?_⟩, fun p hp => ?_⟩
    · have hcount := List.count_pos_iff.mpr hp
      have heq := hsame p
      rw [hzero p] at heq
      by_cases hin : p ∈ l'
      · exact .inl hin
      · rw [List.count_eq_zero.mpr hin] at heq
        exact .inr (by omega)
    · exact hm.moves.frame (by omega) (by rw [h.space_eq]; omega)

/-- The condition, by how the loop ends. -/
theorem mergeFits_iff : MergeFits m l rc rp start endMem ↔
    mergeEnd (slot m rp) (vpn endMem - vpn start) (need m rc) (vpn start)
      (avail m.deny l.length) = .refused ∨
    mergeEnd (slot m rp) (vpn endMem - vpn start) (need m rc) (vpn start)
      (avail m.deny l.length) = .done ∧
      ∀ v, Inside start endMem v → ∀ pte, slot m rp v = some pte → valid pte = true := by
  have hall : (∀ i < vpn endMem - vpn start, Backed (slot m rp) (vpn start + i)) ↔
      ∀ v, Inside start endMem v → Backed (slot m rp) v := by
    constructor
    · rintro hb v ⟨hle, hlt⟩
      obtain ⟨i, rfl⟩ := Nat.exists_eq_add_of_le hle
      exact hb i (by omega)
    · intro hb i hi
      refine hb _ ⟨Nat.le_add_right _ _, ?_⟩
      omega
  rw [mergeEnd_eq_refused_iff, mergeEnd_eq_done_iff, hall]
  unfold MergeFits Backed
  refine or_congr Iff.rfl ⟨?_, ?_⟩
  · rintro ⟨hpaid, hslots⟩
    exact ⟨⟨hpaid, fun v hv pte hpte => (hslots v hv pte hpte).2⟩,
      fun v hv pte hpte => (hslots v hv pte hpte).1⟩
  · rintro ⟨⟨hpaid, hram⟩, hval⟩
    exact ⟨hpaid, fun v hv pte hpte => ⟨hval v hv pte hpte, hram v hv pte hpte⟩⟩

/-- **`merge_page_table_in_interval` copies exactly what is mapped**, and gives everything back when it
fails, if and only if the condition holds. -/
theorem mergePageTableInInterval_exact_iff (h : Mergeable m l rc rp start endMem) :
    (∃ err m', mergePageTableInInterval rc rp start endMem m = .ok (err, m') ∧
      MergeExact m l rc rp start endMem err m') ↔ MergeFits m l rc rp start endMem := by
  refine ends_iff (wp_mono h.ended ?_ ?_)
  · intro err m' hended
    rw [mergeFits_iff]
    generalize mergeEnd (slot m rp) (vpn endMem - vpn start) (need m rc) (vpn start)
      (avail m.deny l.length) = x at hended
    match x, err, hended with
    | .done, false, ⟨l', hm⟩ =>
      simp only [reduceCtorEq, true_and, false_or]
      refine ⟨fun hexact v hv pte hslot => ?_, fun hvalid => .of_merged h hm hvalid⟩
      by_contra hval
      obtain ⟨copy, -, -, hmap, -⟩ := hm.copies v pte (by unfold Inside at hv; omega) hslot
      have hnone : pages m rp v = none := by
        rw [pages_eq_slot, hslot, Option.bind_some, if_neg hval]
      rw [hexact.holes v hv hnone] at hmap
      cases hmap
    | .refused, true, ⟨l', hm⟩ =>
      simp only [reduceCtorEq, false_and, or_false, iff_true]
      exact (leftAsBefore_iff h hm fun p hp => absurd hp (Nat.lt_irrefl 0)).mpr fun _ => rfl
    | .lost, true, ⟨l', copy, hcopy, hm⟩ =>
      simp only [reduceCtorEq, false_and, or_self, iff_false]
      intro hleft
      have hzero := (leftAsBefore_iff h hm fun p hp =>
        eq_of_one_pos hp ▸ List.count_pos_iff.mp hcopy).mp hleft copy
      rw [one_self] at hzero
      cases hzero
  · rintro e ⟨-, htrapped⟩
    rw [mergeFits_iff, htrapped]
    simp

/-! ## Two tables -/

/-- **A table from `get_pagetable` beside another one**, whose leaves are not free. -/
theorem getPagetable_mergeable {m₁ m₂ : Mem} {l₁ : List Word} (hfree : FreeList m₁ l₁)
    (honce : ∀ p, l₁.count p + tables m₁ rp p ≤ 1)
    (hleaf : ∀ v pte, pages m₁ rp v = some pte → l₁.count (pteGetPa pte) = 0)
    (hget : getPagetable m₁ = .ok (some rc, m₂)) (hstart : start.toNat % 4096 = 0)
    (hend : endMem.toNat % 4096 = 0) (d : List Bool) :
    ∃ l, Mergeable { m₂ with deny := d } l rc rp start endMem ∧
      slot { m₂ with deny := d } rp = slot m₁ rp ∧
      ∀ w, need { m₂ with deny := d } rc w = maxLevel := by
  obtain ⟨l, hholds, hmoves, hnone, hneed, -⟩ :=
    (getPagetable_holds (S := ∅) (E := fun _ => True) hfree honce).ok hget
  have hkept : ∀ q, 0 < tables m₁ rp q → m₂.cell q = m₁.cell q :=
    fun q => hmoves.kept (R := tables m₁ rp) (honce q)
  obtain ⟨htab, -, hpages⟩ := table_congr hkept
  have hspace : ∀ p, space ∅ m₂ rc p = tables m₂ rc p := fun _ => Nat.add_zero _
  refine ⟨l, ⟨hholds.free.congr rfl rfl fun _ _ => rfl, hholds.tables_once, fun p hp => ?_,
    fun p hp => ?_, fun v pte _ hpte => ?_, ⟨hstart, hend⟩, fun v _ => hnone v⟩,
    slot_congr hkept, hneed⟩
  · exact hholds.page p (Nat.add_pos_left hp _)
  · have hp₁ := hholds.once p
    have hp : 0 < tables m₂ rp p := hp
    rw [htab] at hp
    rw [hspace] at hp₁
    change l.count p + tables m₂ rc p = 0
    omega
  · have hpte : pages m₂ rp v = some pte := hpte
    rw [hpages] at hpte
    have hsame := hmoves.same (pteGetPa pte)
    rw [hspace, Pi.zero_apply, hleaf v pte hpte] at hsame
    exact hsame

/-- The table with one page. -/
@[irreducible] def mappedTable : Mem := (useRun smallRoot smallTable mapOne).getD smallTable

/-- The root of a table beside it. -/
def secondRoot : Word := 0x87ffb000

/-- The run, the page that it maps, the entry of the source, and the list that is left behind the root
of the second table. -/
theorem mappedTable_run : useRun smallRoot smallTable mapOne = some mappedTable ∧
    callers mappedTable smallRoot [0x87ffe000] = true ∧
    slot mappedTable smallRoot 1 = some (makePte 0x87ffe000 (pteU ||| pteR ||| pteV)) ∧
    slot mappedTable smallRoot 2 = some 0 ∧
    ((getPagetable mappedTable).toOption.map fun x =>
      (x.1, decide (x.2.head ≠ 0 ∧ x.2.cell x.2.head 0 ≠ 0 ∧ x.2.cell (x.2.cell x.2.head 0) 0 ≠ 0))) =
      some (some secondRoot, true) := by
  have hrun : (useRun smallRoot smallTable mapOne).map (fun m => decide (
      callers m smallRoot [0x87ffe000] = true ∧
      slot m smallRoot 1 = some (makePte 0x87ffe000 (pteU ||| pteR ||| pteV)) ∧
      slot m smallRoot 2 = some 0 ∧
      ((getPagetable m).toOption.map fun x =>
        (x.1, decide (x.2.head ≠ 0 ∧ x.2.cell x.2.head 0 ≠ 0 ∧ x.2.cell (x.2.cell x.2.head 0) 0 ≠ 0))) =
        some (some secondRoot, true))) = some true := by
    decide +kernel
  obtain ⟨m, hm, hseen⟩ := Option.map_eq_some_iff.mp hrun
  unfold mappedTable
  rw [hm, Option.getD_some]
  exact ⟨rfl, of_decide_eq_true hseen⟩

/-- A free list that goes on twice has three pages. -/
theorem three_le_length {c : Word → Fin 512 → Word} {p : Word} {l : List Word} (h : Chain c p l)
    (hlinks : p ≠ 0 ∧ c p 0 ≠ 0 ∧ c (c p 0) 0 ≠ 0) : 3 ≤ l.length := by
  obtain ⟨hone, htwo, hthree⟩ := hlinks
  cases l with
  | nil => exact absurd h hone
  | cons q l =>
    obtain ⟨rfl, h⟩ := h
    cases l with
    | nil => exact absurd h htwo
    | cons q l =>
      obtain ⟨rfl, h⟩ := h
      cases l with
      | nil => exact absurd h hthree
      | cons q l => exact Nat.le_add_left 3 l.length

/-- **The two tables**, with whatever refusals of `kalloc`. -/
theorem twoTables_mergeable (start endMem : Word) (hstart : start.toNat % 4096 = 0)
    (hend : endMem.toNat % 4096 = 0) (d : List Bool) :
    ∃ m l, m.deny = d ∧ 3 ≤ l.length ∧ Mergeable m l secondRoot smallRoot start endMem ∧
      slot m smallRoot = slot mappedTable smallRoot ∧ ∀ w, need m secondRoot w = maxLevel := by
  obtain ⟨hrun, hown, -, -, hret⟩ := mappedTable_run
  obtain ⟨l₂, hfree₂, honce₂⟩ := (smallTable_built.of_useRun hrun).sound
  obtain ⟨res, m₂, hget, hres⟩ := ok_of_map hret
  obtain ⟨hroot, hlist⟩ := Prod.mk.inj hres
  obtain rfl : res = some secondRoot := hroot
  obtain ⟨l, h, hslot, hneed⟩ := getPagetable_mergeable hfree₂ honce₂ (fun v pte hpte => by
    -- the one page that is mapped is the caller's
    have hpa : pteGetPa pte = 0x87ffe000 := by
      rcases pages_of_useRun smallTable_built hrun hpte with hold | ⟨va, pa, attr, hmem, rfl, rfl⟩
      · rw [smallTable_pages] at hold
        cases hold
      · simp only [mapOne, List.mem_cons, List.not_mem_nil, Use.op.injEq, Op.mapPage.injEq,
          reduceCtorEq, false_or, or_false] at hmem
        obtain ⟨rfl, rfl, rfl⟩ := hmem
        exact pteGetPa_makePte ⟨by decide, by decide⟩ _
    have hout := spare_of_callers hown hfree₂
    rw [hpa]
    omega) hget hstart hend d
  have hlinks := of_decide_eq_true hlist
  have hthree : 3 ≤ l.length := by
    have hchain : Chain m₂.cell m₂.head l := h.free.chain
    exact three_le_length hchain hlinks
  exact ⟨_, l, rfl, hthree, h, hslot, hneed⟩

/-- The theorem on the interval of the page that is mapped, with pages enough. -/
theorem mergePageTableInInterval_exact_iff_twoTables : ∃ m l,
    MergeFits m l secondRoot smallRoot 0x1000 0x2000 ∧
      ∃ err m', mergePageTableInInterval secondRoot smallRoot 0x1000 0x2000 m = .ok (err, m') ∧
        MergeExact m l secondRoot smallRoot 0x1000 0x2000 err m' := by
  obtain ⟨m, l, hdeny, hlen, h, hslot, hneed⟩ :=
    twoTables_mergeable 0x1000 0x2000 (by decide) (by decide) []
  have hpages : vpn 0x2000 - vpn 0x1000 = 1 ∧ vpn 0x1000 = 1 ∧ vpn 0x2000 = 2 := by decide
  obtain ⟨-, -, hone, -⟩ := mappedTable_run
  have hfits : MergeFits m l secondRoot smallRoot 0x1000 0x2000 := by
    refine .inr ⟨?_, fun v hv pte hpte => ?_⟩
    · rw [hslot, hdeny, hpages.1, hpages.2.1, toll, hone]
      dsimp only
      rw [hneed]
      exact hlen
    · obtain rfl : v = 1 := by
        unfold Inside at hv
        omega
      rw [hslot, hone] at hpte
      obtain rfl := Option.some.inj hpte
      decide
  exact ⟨m, l, hfits, (mergePageTableInInterval_exact_iff h).mpr hfits⟩

/-- **A hole in a last-level table is not treated as a hole**, and **a copy is lost** when there is no
page for a table: the interval of the page next to the one that is mapped, and the interval of that one
when `kalloc` succeeds once. -/
theorem not_mergePageTableInInterval_exact :
    (¬∀ m l rc rp start endMem, Mergeable m l rc rp start endMem →
      ∃ err m', mergePageTableInInterval rc rp start endMem m = .ok (err, m')) ∧
    ¬∀ m l rc rp start endMem err m', Mergeable m l rc rp start endMem →
      mergePageTableInInterval rc rp start endMem m = .ok (err, m') →
      MergeExact m l rc rp start endMem err m' := by
  constructor
  · intro hall
    obtain ⟨m, l, hdeny, hlen, h, hslot, -⟩ :=
      twoTables_mergeable 0x2000 0x3000 (by decide) (by decide) []
    obtain ⟨err, m', hrun⟩ := hall _ l _ _ _ _ h
    have hend := h.ended.ok hrun
    obtain ⟨-, -, -, hzero, -⟩ := mappedTable_run
    have hpages : vpn 0x3000 - vpn 0x2000 = 1 ∧ vpn 0x2000 = 2 := by decide
    have hsome : avail m.deny l.length ≠ 0 := by
      rw [hdeny, avail]
      omega
    rw [hslot, hpages.1, hpages.2, mergeEnd, hzero] at hend
    dsimp only at hend
    rw [if_neg hsome, if_pos (by decide)] at hend
    exact hend
  · intro hall
    obtain ⟨-, -, hone, -⟩ := mappedTable_run
    obtain ⟨m, l, hdeny, hlen, h, hslot, hneed⟩ :=
      twoTables_mergeable 0x1000 0x2000 (by decide) (by decide) [false, true]
    have hpages : vpn 0x2000 - vpn 0x1000 = 1 ∧ vpn 0x1000 = 1 := by decide
    have hlost : mergeEnd (slot m smallRoot) (vpn 0x2000 - vpn 0x1000) (need m secondRoot)
        (vpn 0x1000) (avail m.deny l.length) = .lost := by
      have honce : avail m.deny l.length = 1 := by
        obtain ⟨n, hn⟩ := Nat.exists_eq_succ_of_ne_zero (by omega : l.length ≠ 0)
        rw [hdeny, hn]
        rfl
      rw [hslot, honce, hpages.1, hpages.2, mergeEnd, hone]
      dsimp only
      rw [if_neg Nat.one_ne_zero, if_neg (by decide), hneed, if_pos (by decide)]
    have hended := h.ended
    rw [hlost] at hended
    obtain ⟨err, m', hrun, hend⟩ := (wp_mono hended (fun _ _ => id) fun e he => by cases he.2).ends
    cases err with
    | false => exact hend.elim
    | true =>
      obtain ⟨l', copy, hcopy, hm⟩ := hend
      have hzero := (leftAsBefore_iff h hm fun p hp =>
        eq_of_one_pos hp ▸ List.count_pos_iff.mp hcopy).mp (hall _ _ _ _ _ _ _ _ h hrun) copy
      rw [one_self] at hzero
      cases hzero

end Vm
