import Myv6.Vm.CopyLoop
import Myv6.Vm.Interval

/-!
# Vm/DeepCopy — a deep copy or nothing

    requests   table  table  table  page  page  full  table  page │
                                                                  └ refused
    freed        ✓      ✓      ✓     lost  lost          ✓     ✓

`copy_page_table` returns a deep copy when all requests are served.  When one is refused, it returns
`NULL` and leaves nothing behind if no table at level 0 has been filled by then, and if the pages that
it has copied do not look like tables, for the clean-up of level 0 reads them as such.
-/

namespace Vm

open Function (update)
open Hoare Own

/-- **Everything under a page table**, counted: its tables and the pages that they map. -/
def contents (m : Mem) (r : Word) : Word → ℕ := Radix.own layout m.cell (maxLevel + 1) r

/-- The leaf under the indices of a page number, also in the part of the root that `walk` does not
reach. -/
def leafOf (m : Mem) (r : Word) (v : ℕ) : Option Word := entry m.cell maxLevel r v

/-- The requests for a copy of a page table. -/
def requests (m : Mem) (r : Word) : List Call := calls m.cell (maxLevel + 1) r

/-- A page table that can be copied: nothing of it is free. -/
structure Copyable (m : Mem) (l : List Word) (r : Word) : Prop where
  free : FreeList m l
  used : ∀ p, 0 < contents m r p → l.count p = 0

/-- **A deep copy.** -/
structure DeepCopied (m m' : Mem) (l : List Word) (r copy : Word) : Prop where
  holes : ∀ v, leafOf m r v = none → leafOf m' copy v = none
  leaves : ∀ v pte, leafOf m r v = some pte → ∃ pte', leafOf m' copy v = some pte' ∧
    pteGetAttribute pte' = pteGetAttribute pte ∧ m'.cell (pteGetPa pte') = m.cell (pteGetPa pte) ∧
    pteGetPa pte' ∈ l
  /-- every leaf has a frame of its own -/
  apart : ∀ v w pte pte', leafOf m' copy v = some pte → leafOf m' copy w = some pte' →
    pteGetPa pte = pteGetPa pte' → ∀ level ≤ maxLevel, index v level = index w level
  /-- what is no longer free is in the copy, once -/
  fresh : ∃ l', FreeList m' l' ∧ ∀ p, l'.count p + contents m' copy p = l.count p
  /-- nothing is shared with the source -/
  disjoint : ∀ p, 0 < contents m' copy p → contents m r p = 0
  frame : ∀ p ∉ l, m'.cell p = m.cell p

/-- **Nothing**: every page is back on the free list, once. -/
structure CopyUndone (m m' : Mem) (l : List Word) : Prop where
  back : ∃ l', FreeList m' l' ∧ l'.Perm l
  frame : ∀ p ∉ l, m'.cell p = m.cell p

/-- What the function should do, with room for some calls on the stack. -/
def DeepOrNothing (stack : ℕ) (m : Mem) (l : List Word) (r : Word) : Prop :=
  ∃ ret m', copyPageTable stack r m = .ok (ret, m') ∧
    (ret ≠ 0 → DeepCopied m m' l r ret) ∧ (ret = 0 → CopyUndone m m' l)

/-- **When the function does that**: the pages to copy are memory, and if a request is refused then no
table at level 0 has been filled and no page that was copied looks like a table. -/
structure CopyFits (m : Mem) (l : List Word) (r : Word) : Prop where
  reach : InReach (requests m r) (purse m l)
  notFull : after (requests m r) (purse m l) = none → .full ∉ served (requests m r) (purse m l)
  tame : Tame m.cell (requests m r) (purse m l)

variable {m m' : Mem} {l l' : List Word} {r copy p t : Word} {n v w : ℕ} {E : Panic → Prop}
  {c : Word → Fin 512 → Word}

/-! ## Leaves as bottom cells -/

/-- The pages that are mapped as one more level of the tree. -/
def deeper : Radix.Layout Word (Fin 512 → Word) (Fin 512) ℕ where
  next := layout.next
  digit v level := index v (level - 1)

theorem own_deeper : Radix.own deeper c n t p = Radix.own layout c n t p := by
  induction n generalizing t with
  | zero => rfl
  | succ n ih =>
    rw [Radix.own_succ, Radix.own_succ]
    refine congrArg (one t p + ·) (Finset.sum_congr rfl fun i _ => ?_)
    change (layout.next (c t) i).elim 0 _ = (layout.next (c t) i).elim 0 _
    cases layout.next (c t) i with
    | none => rw [Option.elim_none, Option.elim_none]
    | some u => rw [Option.elim_some, Option.elim_some, ih]

theorem bottom_deeper :
    Radix.bottom deeper c (n + 1) t v = (entry c n t v).map pteGetPa := by
  induction n generalizing t with
  | zero =>
    change (layout.next (c t) (index v 0)).bind some = (leaf (c t) (index v 0)).map pteGetPa
    unfold leaf
    by_cases hv : valid (c t (index v 0)) = true
    · rw [next_of_entry rfl hv, if_pos hv]
      rfl
    · have hnone : layout.next (c t) (index v 0) = none := if_neg hv
      rw [hnone, if_neg hv]
      rfl
  | succ n ih =>
    change (layout.next (c t) (index v (n + 1))).bind _ = _
    cases hu : layout.next (c t) (index v (n + 1)) with
    | none => rw [Option.bind_none, entry_succ_none rfl hu, Option.map_none]
    | some u =>
      rw [Option.bind_some, entry_succ rfl hu]
      exact ih

/-- **Leaves on one frame are one leaf**, in a tree that shares nothing. -/
theorem index_eq_of_frame {pte pte' : Word} (honce : ∀ p, Radix.own layout c (n + 1) t p ≤ 1)
    (hv : entry c n t v = some pte) (hw : entry c n t w = some pte')
    (hframe : pteGetPa pte = pteGetPa pte') : ∀ level ≤ n, index v level = index w level := by
  have hbv : Radix.bottom deeper c (n + 1) t v = some (pteGetPa pte) := by
    rw [bottom_deeper, hv, Option.map_some]
  have hbw : Radix.bottom deeper c (n + 1) t w = some (pteGetPa pte) := by
    rw [bottom_deeper, hw, Option.map_some, hframe]
  have hdigit := Radix.digit_eq_of_bottom (fun p => own_deeper.trans_le (honce p)) hbv hbw
  exact fun level hlevel => hdigit (level + 1) level.succ_pos (Nat.succ_le_succ hlevel)

/-- The frame of a leaf is in the tree. -/
theorem own_pos_of_entry {pte : Word} (hv : entry c n t v = some pte) :
    0 < Radix.own layout c (n + 1) t (pteGetPa pte) := by
  rw [← own_deeper]
  refine Radix.own_pos_of_bottom (v := v) ?_
  rw [bottom_deeper, hv, Option.map_some]

/-! ## The result -/

/-- What `copy_page_table` makes of the result. -/
theorem copyPageTable_eq (stack : ℕ) {E : Panic → Prop} {Q : Word → Mem → Prop}
    (h : wp (copyPageTableAux stack maxLevel r)
      (fun ret => Q (if ret = 0 ∨ ret = -1 then 0 else ret)) E m) : wp (copyPageTable stack r) Q E m := by
  unfold copyPageTable
  generalize copyPageTableAux stack maxLevel r = aux at h ⊢
  rw [wp_bind]
  exact h

/-- **What has been copied is a deep copy.** -/
theorem Copyable.deepCopied (h : Copyable m l r) (hmoves : Moves m m' l l' 0 (contents m' copy))
    (hclone : Clone m.cell m'.cell (maxLevel + 1) r copy) : DeepCopied m m' l r copy := by
  have hsame : ∀ p, l'.count p + contents m' copy p = l.count p := hmoves.same
  have hfresh : ∀ p, 0 < contents m' copy p → p ∈ l := fun p hp => by
    refine List.count_pos_iff.mp ?_
    rw [← hsame]
    exact Nat.add_pos_right _ hp
  have honce : ∀ p, contents m' copy p ≤ 1 := fun p =>
    (Nat.le_add_left _ _).trans (hmoves.made_once h.free p)
  refine ⟨fun v => hclone.entry.1, fun v pte hpte => ?_, fun v w pte pte' hv hw =>
    index_eq_of_frame honce hv hw, ⟨l', hmoves.free, hsame⟩, fun p hp => ?_,
    fun p hp => hmoves.frame (List.count_eq_zero.mpr hp) rfl⟩
  · obtain ⟨w, hw, hentry, hcell⟩ := hclone.entry.2 pte hpte
    have hpa : pteGetPa (makePte w (pteGetAttribute pte)) = w := pteGetPa_makePte hw _
    refine ⟨_, hentry, ?_, by rw [hpa]; exact hcell, ?_⟩
    · rw [pteGetAttribute_makePte, pteGetAttribute, pteGetAttribute, BitVec.and_assoc,
        BitVec.and_self]
    · exact hfresh _ (own_pos_of_entry hentry)
  · by_contra hpos
    have hin := List.count_pos_iff.mpr (hfresh p hp)
    have hout := h.used p (Nat.pos_of_ne_zero hpos)
    omega

/-- **When a request is refused**, all is undone up to what is lost. -/
theorem copyUndone_iff {B : Word → ℕ} (hmoves : Moves m m' l l' 0 B) :
    CopyUndone m m' l ↔ ¬∃ p, 0 < B p := by
  have hsame : ∀ p, l'.count p + B p = l.count p := hmoves.same
  constructor
  · rintro ⟨⟨l₁, hl₁, hperm⟩, -⟩ ⟨p, hp⟩
    obtain rfl := hmoves.free.unique hl₁
    have heq := hsame p
    rw [hperm.count_eq] at heq
    omega
  · intro hzero
    refine ⟨⟨l', hmoves.free, List.perm_iff_count.mpr fun p => ?_⟩,
      fun p hp => hmoves.frame (List.count_eq_zero.mpr hp) rfl⟩
    have heq := hsame p
    have hB : B p = 0 := Nat.eq_zero_of_not_pos fun hp => hzero ⟨p, hp⟩
    omega

/-- What the function leaves, by whether all requests are served. -/
def CopyEnded (m : Mem) (l : List Word) (r ret : Word) (m' : Mem) : Prop :=
  InReach (requests m r) (purse m l) ∧
    (ret ≠ 0 → DeepCopied m m' l r ret ∧ after (requests m r) (purse m l) ≠ none) ∧
    (ret = 0 → (CopyUndone m m' l ↔ (after (requests m r) (purse m l) = none →
      .full ∉ served (requests m r) (purse m l))))

theorem copyPageTable_ended (stack : ℕ) (h : Copyable m l r)
    (htame : Tame m.cell (requests m r) (purse m l)) :
    wp (copyPageTable stack r) (CopyEnded m l r)
      (fun _ => ¬InReach (requests m r) (purse m l)) m := by
  have hsource : Source m.cell m l (maxLevel + 1) r := ⟨h.free, fun p hp => ⟨h.used p hp, rfl⟩⟩
  refine copyPageTable_eq stack (wp_post ((copyPageTableAux_copies stack maxLevel).run hsource htame) ?_)
  rintro ret m' ⟨hreach, hpost⟩
  cases hpost with
  | failed hunpaid hmoves hlost =>
    refine ⟨hreach, fun hret => absurd (if_pos (.inr rfl)) hret, fun _ => ?_⟩
    have hunpaid : after (requests m r) (purse m l) = none := hunpaid
    rw [copyUndone_iff hmoves, hlost]
    exact ⟨fun hfull _ => hfull, fun hfull => hfull hunpaid⟩
  | empty hpaid hmoves hbarren hfull =>
    refine ⟨hreach, fun hret => absurd (if_pos (.inl rfl)) hret, fun _ => ?_⟩
    have hpaid : after (requests m r) (purse m l) = some _ := hpaid
    rw [copyUndone_iff hmoves]
    refine iff_of_true ?_ fun hnone => ?_
    · rintro ⟨p, hp⟩
      exact Nat.lt_irrefl 0 hp
    · rw [hnone] at hpaid
      cases hpaid
  | made hpaid hmoves hpage hclone hlost =>
    rw [if_neg fun hor => hor.elim hpage.ne_zero hpage.ne_neg_one]
    have hpaid : after (requests m r) (purse m l) = some _ := hpaid
    refine ⟨hreach, fun _ => ⟨h.deepCopied hmoves hclone, ?_⟩, fun hret => absurd hret hpage.ne_zero⟩
    rw [hpaid]
    exact Option.some_ne_none _

/-! ## Checking concrete tables -/

/-- The test of `kfree`, on numbers. -/
def Image.takes (k : Image) (p : Word) : Bool :=
  decide (k.kernelEnd.toNat ≤ p.toNat ∧ p.toNat < memoryEnd.toNat ∧ p.toNat % 4096 = 0)

theorem Image.takes_iff {k : Image} : k.takes p = true ↔ k.IsPage p :=
  decide_eq_true_iff.trans ⟨fun h => ⟨h.1, h.2.1, h.2.2⟩, fun h => ⟨h.ge, h.lt, h.aligned⟩⟩

instance decidableChain (c : Word → Fin 512 → Word) :
    (h : Word) → (l : List Word) → Decidable (Chain c h l)
  | h, [] => inferInstanceAs (Decidable (h = 0))
  | h, p :: l =>
    have := decidableChain c (c p 0) l
    inferInstanceAs (Decidable (h = p ∧ Chain c (c p 0) l))

theorem contents_pos_iff : 0 < contents m r p ↔ p ∈ freeOrder m.cell (maxLevel + 1) r := by
  rw [contents, ← count_freeOrder]
  exact List.count_pos_iff

/-- The free list and what is under a table, read off the memory. -/
def Checked (m : Mem) (l : List Word) (r : Word) (order : List Word) : Prop :=
  Chain m.cell m.head l ∧ l.all m.image.takes = true ∧ l.Nodup ∧
    freeOrder m.cell (maxLevel + 1) r = order ∧ (order.all fun p => !l.contains p) = true

instance (m : Mem) (l : List Word) (r : Word) (order : List Word) : Decidable (Checked m l r order) :=
  inferInstanceAs (Decidable (_ ∧ _))

/-- **A table that can be copied**, read off the memory. -/
theorem Checked.copyable {order : List Word} (h : Checked m l r order) : Copyable m l r := by
  obtain ⟨hchain, hpage, hnodup, horder, hused⟩ := h
  refine ⟨⟨hchain, fun p hp => Image.takes_iff.mp (List.all_eq_true.mp hpage p hp), hnodup⟩,
    fun p hp => List.count_eq_zero.mpr ?_⟩
  have hout := List.all_eq_true.mp hused p (horder ▸ contents_pos_iff.mp hp)
  simpa using hout

/-- **`copy_page_table` makes a deep copy or nothing**, if the condition holds; and only then, as long
as no page looks like a table to the clean-up of level 0. -/
theorem copyPageTable_deep_iff (stack : ℕ) (h : Copyable m l r) :
    (CopyFits m l r → DeepOrNothing stack m l r) ∧
      (Tame m.cell (requests m r) (purse m l) → DeepOrNothing stack m l r → CopyFits m l r) := by
  constructor
  · intro hfits
    obtain ⟨ret, m', hrun, -, hdeep, hundone⟩ := (wp_mono (copyPageTable_ended stack h hfits.tame)
      (fun _ _ => id) fun _ he => absurd hfits.reach he).ends
    exact ⟨ret, m', hrun, fun hret => (hdeep hret).1, fun hret => (hundone hret).mpr hfits.notFull⟩
  · rintro htame ⟨ret, m', hrun, -, hundone⟩
    obtain ⟨hreach, hserved, hiff⟩ := (copyPageTable_ended stack h htame).ok hrun
    refine ⟨hreach, ?_, htame⟩
    by_cases hret : ret = 0
    · exact (hiff hret).mp (hundone hret)
    · exact fun hnone => absurd hnone (hserved hret).2

/-! ## Two tables -/

/-- A memory of a kernel with ten pages, with some words in it. -/
def written (head : Word) (ws : List (Word × List (Fin 512 × Word))) : Mem where
  image := { smallImage with kernelEnd := 0x87ff6000, etext_le := by decide, end_le := by decide }
  head := head
  cell p i := (((ws.lookup p).getD []).lookup i).getD 0
  deny := []

/-- A table with one page, and five free pages. -/
def oneLeaf : Mem := written 0x87ffc000
  [(0x87fff000, [(0, makePte 0x87ffe000 pteV)]), (0x87ffe000, [(0, makePte 0x87ffd000 pteV)]),
    (0x87ffd000, [(1, makePte 0x87ff7000 (pteU ||| pteR ||| pteV))]),
    (0x87ffc000, [(0, 0x87ffb000)]), (0x87ffb000, [(0, 0x87ffa000)]),
    (0x87ffa000, [(0, 0x87ff9000)]), (0x87ff9000, [(0, 0x87ff8000)])]

def oneLeafFree : List Word := [0x87ffc000, 0x87ffb000, 0x87ffa000, 0x87ff9000, 0x87ff8000]

/-- A table with two pages in different tables at level 0, and four free pages. -/
def twoLeaves : Mem := written 0x87ffb000
  [(0x87fff000, [(0, makePte 0x87ffe000 pteV)]),
    (0x87ffe000, [(0, makePte 0x87ffd000 pteV), (1, makePte 0x87ffc000 pteV)]),
    (0x87ffd000, [(1, makePte 0x87ff7000 (pteU ||| pteR ||| pteV))]),
    (0x87ffc000, [(0, makePte 0x87ff6000 (pteU ||| pteR ||| pteV))]),
    (0x87ffb000, [(0, 0x87ffa000)]), (0x87ffa000, [(0, 0x87ff9000)]),
    (0x87ff9000, [(0, 0x87ff8000)])]

def twoLeavesFree : List Word := [0x87ffb000, 0x87ffa000, 0x87ff9000, 0x87ff8000]

/-- What is read off the first table. -/
theorem oneLeaf_seen : Checked oneLeaf oneLeafFree smallRoot
      [0x87ff7000, 0x87ffd000, 0x87ffe000, 0x87fff000] ∧
    requests oneLeaf smallRoot = [.table, .table, .table, .page 0x87ff7000, .full] ∧
    leafOf oneLeaf smallRoot 1 ≠ none := by
  decide +kernel

/-- What is read off the second one: its pages do not look like tables. -/
theorem twoLeaves_seen : Checked twoLeaves twoLeavesFree smallRoot
      [0x87ff7000, 0x87ffd000, 0x87ff6000, 0x87ffc000, 0x87ffe000, 0x87fff000] ∧
    requests twoLeaves smallRoot =
      [.table, .table, .table, .page 0x87ff7000, .full, .table, .page 0x87ff6000, .full] ∧
    leafOf twoLeaves smallRoot 1 ≠ none ∧ ∀ j, valid (twoLeaves.cell 0x87ff7000 j) = false := by
  decide +kernel

/-- The theorem on the table with one page, for which the memory is enough. -/
theorem copyPageTable_deep_iff_oneLeaf : leafOf oneLeaf smallRoot 1 ≠ none ∧
    CopyFits oneLeaf oneLeafFree smallRoot ∧ DeepOrNothing 0 oneLeaf oneLeafFree smallRoot := by
  obtain ⟨hchecked, hrequests, hleaf⟩ := oneLeaf_seen
  have hafter : after (requests oneLeaf smallRoot) (purse oneLeaf oneLeafFree) = some ([], 1) := by
    rw [hrequests]
    decide
  have hpaid : after (requests oneLeaf smallRoot) (purse oneLeaf oneLeafFree) ≠ none := by
    rw [hafter]
    exact Option.some_ne_none _
  have hfits : CopyFits oneLeaf oneLeafFree smallRoot := by
    refine ⟨fun p hp => ?_, fun hnone => absurd hnone hpaid, fun hnone => absurd hnone hpaid⟩
    rw [served_of_some hafter, hrequests] at hp
    obtain rfl : p = 0x87ff7000 := by simpa using hp
    decide
  exact ⟨hleaf, hfits, (copyPageTable_deep_iff 0 hchecked.copyable).1 hfits⟩

/-- **The pages of a full table at level 0 are lost**: there is memory for the first of the two tables
at level 0 and the page that it maps, and not for the second. -/
theorem not_copyPageTable_deep : ¬∀ stack m l r, Copyable m l r → (∀ p, contents m r p ≤ 1) →
    (∃ v, leafOf m r v ≠ none) → DeepOrNothing stack m l r := by
  intro hall
  obtain ⟨hchecked, hrequests, hleaf, hpage⟩ := twoLeaves_seen
  have htree : ∀ p, contents twoLeaves smallRoot p ≤ 1 := by
    intro p
    rw [contents, ← count_freeOrder, hchecked.2.2.2.1]
    exact List.nodup_iff_count.mp (by decide) p
  obtain ⟨ret, m', hrun, -, hundone⟩ := hall 0 _ _ _ hchecked.copyable htree ⟨1, hleaf⟩
  have hafter : after (requests twoLeaves smallRoot) (purse twoLeaves twoLeavesFree) = none := by
    rw [hrequests]
    decide
  have hserved : served (requests twoLeaves smallRoot) (purse twoLeaves twoLeavesFree) =
      [.table, .table, .table, .page 0x87ff7000, .full] := by
    rw [hrequests]
    decide
  have htame : Tame twoLeaves.cell (requests twoLeaves smallRoot)
      (purse twoLeaves twoLeavesFree) := by
    intro _ p hp j
    rw [hserved] at hp
    obtain rfl : p = 0x87ff7000 := by simpa using hp
    exact hpage j
  obtain ⟨-, hcopied, hiff⟩ := (copyPageTable_ended 0 hchecked.copyable htame).ok hrun
  by_cases hret : ret = 0
  · have hfull := (hiff hret).mp (hundone hret) hafter
    rw [hserved] at hfull
    exact hfull (by decide)
  · exact (hcopied hret).2 hafter

end Vm
