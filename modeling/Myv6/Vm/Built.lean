import Myv6.Vm.Refine

/-!
# Vm/Built — tables that are built by mapping and unmapping

    table page   0 | pte | 0 | 0 | pte | …      an entry that is not valid is 0
    pte ──▸ frame                               no table page, not free, and memory

A walk that reads an entry without testing `PTE_V` still reads nothing but entries: `Neat` is what
every operation does to the pages it writes, and `Built` what a table keeps over a whole run.
-/

namespace Vm

open Function (update)
open Hoare Own

/-- A page of entries that are valid or 0. -/
def Clean (page : Fin 512 → Word) : Prop := ∀ i, page i = 0 ∨ valid (page i) = true

/-- **Pages stay clean**, and pages that are taken off the list become clean. -/
structure Neat (m : Mem) (l : List Word) (m' : Mem) (l' : List Word) : Prop where
  free : FreeList m' l'
  clean : ∀ p, l'.count p = 0 → 0 < l.count p ∨ Clean (m.cell p) → Clean (m'.cell p)

variable {m m' m'' m₀ m₁ : Mem} {l l' l'' l₀ : List Word} {r t u va pa attr p q w : Word} {v : ℕ}
  {i : Fin 512} {free strict : Bool} {S : Finset ℕ} {E : Panic → Prop}

/-! ## What the operations write -/

theorem clean_zero : Clean fun _ => 0 := fun _ => .inl rfl

theorem Clean.write {page : Fin 512 → Word} (h : Clean page) (hw : w = 0 ∨ valid w = true) :
    Clean (update page i w) := by
  intro j
  by_cases hj : j = i
  · subst hj
    rwa [Function.update_self]
  · rw [Function.update_of_ne hj]
    exact h j

namespace Neat

theorem refl (h : FreeList m l) : Neat m l m l :=
  ⟨h, fun _ hout hor => hor.resolve_left (by omega)⟩

theorem trans (h : Neat m l m' l') (h' : Neat m' l' m'' l'') : Neat m l m'' l'' := by
  refine ⟨h'.free, fun p hout hor => h'.clean p hout ?_⟩
  rcases Nat.eq_zero_or_pos (l'.count p) with hp | hp
  · exact .inr (h.clean p hp hor)
  · exact .inl hp

/-- An entry is written to a page that is not free. -/
theorem write (h : FreeList m l) (ht : l.count t = 0) (hw : w = 0 ∨ valid w = true) :
    Neat m l (m.write t i w) l := by
  refine ⟨h.congr rfl rfl fun q hq => Mem.write_cell_ne ?_, fun p hout hor => ?_⟩
  · rintro rfl
    exact List.count_eq_zero.mp ht hq
  · have hclean := hor.resolve_left (by omega)
    by_cases hp : p = t
    · subst hp
      rw [Mem.write_cell_self]
      exact hclean.write hw
    · rwa [Mem.write_cell_ne hp]

/-- What a transfer leaves alone, it leaves clean. -/
theorem of_moves {A B : Word → ℕ} (h : Moves m m' l l' A B)
    (hw : ∀ p, l'.count p = 0 → 0 < l.count p + A p → Clean (m'.cell p)) : Neat m l m' l' := by
  refine ⟨h.free, fun p hout hor => ?_⟩
  rcases Nat.eq_zero_or_pos (l.count p + A p) with hp | hp
  · rw [h.frame (by omega) (by omega)]
    exact hor.resolve_left (by omega)
  · exact hw p hout hp

end Neat

theorem getClearPage_neat (hfree : FreeList m l) :
    wp getClearPage (fun _ m' => ∃ l', Neat m l m' l') E m := by
  refine wp_post (getClearPage_spec hfree) ?_
  rintro (_ | p) m' hpost
  · obtain ⟨-, d, rfl⟩ := hpost
    exact ⟨l, .of_moves (A := 0) (.of_deny hfree d) fun q hq hpos => absurd hpos (by simp [hq])⟩
  · obtain ⟨-, hzero, l', hmoves, -⟩ := hpost
    refine ⟨l', .of_moves hmoves fun q hq hpos => ?_⟩
    have hsame := hmoves.same q
    obtain rfl : q = p := eq_of_one_pos (by omega)
    rw [hzero]
    exact clean_zero

theorem descend_neat {alloc : Bool} (hfree : FreeList m l) (ht : l.count t = 0) :
    wp (descend t i alloc) (fun _ m' => ∃ l', Neat m l m' l') E m := by
  unfold descend
  rw [wp_bind, wp_inspect]
  split
  · exact ⟨l, .refl hfree⟩
  split
  · exact ⟨l, .refl hfree⟩
  rw [wp_bind]
  refine wp_mono (wp_and (getClearPage_spec hfree) (getClearPage_neat (E := E) hfree)) ?_
    fun _ => And.left
  rintro (_ | p) m₁ ⟨hpost, l₁, hneat⟩
  · exact ⟨l₁, hneat⟩
  · obtain ⟨-, -, l₁', hmoves, -⟩ := hpost
    obtain rfl := hmoves.free.unique hneat.free
    have hsame := hmoves.same t
    simp only [wp_bind, wp_alter, wp_inspect, wp_pure]
    refine ⟨l₁', hneat.trans (.write hneat.free ?_ (.inr (valid_makePte_pteV p)))⟩
    rw [Pi.zero_apply] at hsame
    omega

/-- A tree that has grown still shares nothing with the list, and neither does the child. -/
theorem Grown.once {n : ℕ} (h : Grown m m' l l' n t v)
    (honce : ∀ p, l.count p + Radix.own layout m.cell n t p ≤ 1) (p : Word) :
    l'.count p + Radix.own layout m'.cell n t p ≤ 1 :=
  (h.moves.same p).trans_le (honce p)

theorem walkFrom_neat (n : ℕ) : ∀ {m : Mem} {l : List Word} {t : Word}, FreeList m l →
    (∀ p, l.count p + Radix.own layout m.cell n t p ≤ 1) →
    wp (walkFrom n t va true) (fun _ m' => ∃ l', Neat m l m' l') E m := by
  induction n with
  | zero => exact fun hfree _ => ⟨_, .refl hfree⟩
  | succ n ih =>
    intro m l t hfree honce
    have hroot : l.count t = 0 := by
      have ht := honce t
      have hpos : 0 < Radix.own layout m.cell (n + 1) t t := Radix.own_root_pos
      omega
    rw [walkFrom, tableIndex_eq, wp_bind]
    refine wp_mono (wp_and (descend_spec hfree honce) (descend_neat (E := E) hfree hroot)) ?_
      fun _ => And.left
    rintro (_ | u) m₁ ⟨⟨l₁, hgrown, hpost⟩, l₁', hneat⟩
    · exact ⟨l₁', hneat⟩
    · obtain rfl := hgrown.moves.free.unique hneat.free
      refine wp_post (ih hneat.free fun p => ?_) ?_
      · have hle := Radix.own_child_le (n := n) (p := p) hpost.1
        have hp := hgrown.once honce p
        omega
      · rintro _ m₂ ⟨l₂, hneat₂⟩
        exact ⟨l₂, hneat.trans hneat₂⟩

theorem walk_neat (hfree : FreeList m l) (honce : ∀ p, l.count p + tables m r p ≤ 1) :
    wp (walk r va true) (fun _ m' => ∃ l', Neat m l m' l') E m := by
  unfold walk
  split
  · exact ⟨l, .refl hfree⟩
  · exact walkFrom_neat maxLevel hfree honce

theorem mapPage_neat (hfree : FreeList m l) (honce : ∀ p, l.count p + tables m r p ≤ 1) :
    wp (mapPage r va pa attr) (fun _ m' => ∃ l', Neat m l m' l') (fun _ => True) m := by
  unfold mapPage
  rw [wp_bind]
  refine wp_mono (wp_and (walk_spec (E := fun _ => True) hfree honce)
    (walk_neat (E := fun _ => True) hfree honce)) ?_ fun _ _ => trivial
  rintro (_ | ⟨t, i⟩) m₁ ⟨hpost, l₁, hneat⟩
  · exact ⟨l₁, hneat⟩
  · obtain ⟨-, hbot, -, l₁', hmoves, -, -, -⟩ := hpost
    obtain rfl := hmoves.free.unique hneat.free
    have hpos : 0 < tables m₁ r t := Radix.own_pos_of_bottom hbot
    have ht := (hmoves.same t).trans_le (honce t)
    rw [wp_bind, wp_inspect]
    split
    · trivial
    · exact ⟨l₁', hneat.trans (.write hneat.free (by omega) (.inr (valid_makePte pa attr)))⟩

theorem unmapPageFlex_neat (hfree : FreeList m l)
    (honce : ∀ p, l.count p + (tables m r p + held (pages m r) S p) ≤ 1)
    (hS : free = true ↔ vpn va ∈ S) :
    wp (unmapPageFlex r va free strict) (fun _ m' => ∃ l', Neat m l m' l') (fun _ => True) m := by
  unfold unmapPageFlex
  rw [wp_bind, wp_walk_noAlloc]
  cases hfind : find m r va with
  | none =>
    dsimp only
    split
    · trivial
    · exact ⟨l, .refl hfree⟩
  | some s =>
    obtain ⟨t, i⟩ := s
    obtain ⟨hlt, hbot, rfl, hentry⟩ := bottom_of_find hfind
    simp only [wp_bind, wp_inspect]
    by_cases hv : valid (m.cell t (index (vpn va) 0)) = true
    swap
    · rw [if_pos (by simpa using hv)]
      split
      · trivial
      · exact ⟨l, .refl hfree⟩
    rw [if_neg (by simpa using hv)]
    have hmapped : pages m r (vpn va) = some (m.cell t (index (vpn va) 0)) := by
      rw [hentry, leaf, if_pos hv]
    generalize m.cell t (index (vpn va) 0) = pte at hmapped
    have hpos : 0 < tables m r t := Radix.own_pos_of_bottom hbot
    have ht := honce t
    cases free with
    | false => exact ⟨l, .write hfree (by omega) (.inl rfl)⟩
    | true =>
      have hle := frameOf_le_held (f := pages m r) (p := pteGetPa pte) (hS.mp rfl)
      have hp := honce (pteGetPa pte)
      rw [hmapped, frameOf_some, one_self] at hle
      rw [if_pos rfl, wp_bind]
      refine wp_mono (kfree_spec hfree (by omega)) ?_ fun _ _ => trivial
      rintro _ m₁ ⟨-, hmoves, -⟩
      rw [wp_alter]
      have htp : t ≠ pteGetPa pte := by
        rintro rfl
        omega
      have hsame := hmoves.same t
      rw [one_of_ne htp, Pi.zero_apply] at hsame
      refine ⟨_, Neat.trans (.of_moves hmoves fun q hq hpos => ?_)
        (.write hmoves.free (by omega) (.inl rfl))⟩
      have hsame := hmoves.same q
      rw [Pi.zero_apply] at hsame
      omega

theorem unmapLoop_neat (k : ℕ) : ∀ {m : Mem} {l : List Word} {va : Word}, FreeList m l →
    (∀ p, l.count p + (tables m r p + held (pages m r) S p) ≤ 1) →
    (∀ w ∈ addressed va k, free = true ↔ w ∈ S) →
    wp (unmapLoop r free strict k va) (fun _ m' => ∃ l', Neat m l m' l') (fun _ => True) m := by
  induction k with
  | zero => exact fun hfree _ _ => ⟨_, .refl hfree⟩
  | succ k ih =>
    intro m l va hfree honce hS
    rw [addressed_succ] at hS
    have hhere := hS _ List.mem_cons_self
    rw [unmapLoop, wp_bind]
    refine wp_mono (wp_and (unmapPageFlex_spec hfree honce hhere)
      (unmapPageFlex_neat hfree honce hhere)) ?_ fun _ _ => trivial
    rintro _ m₁ ⟨⟨-, -, l₁, hrel⟩, l₁', hneat⟩
    obtain rfl := hrel.moves.free.unique hneat.free
    refine wp_post (ih hneat.free (fun p => (hrel.moves.same p).trans_le (honce p))
      fun w hw => hS w (List.mem_cons_of_mem _ hw)) ?_
    rintro _ m₂ ⟨l₂, hneat₂⟩
    exact ⟨l₂, hneat.trans hneat₂⟩

theorem mapLoop_neat {vaStart : Word} (k : ℕ) : ∀ {j : ℕ} {m : Mem} {l : List Word} {va pa : Word},
    FreeList m l → (∀ p, l.count p + tables m r p ≤ 1) →
    wp (mapLoop r vaStart attr k j va pa) (fun _ m' => ∃ l', Neat m l m' l') (fun _ => True) m := by
  induction k with
  | zero => exact fun hfree _ => ⟨_, .refl hfree⟩
  | succ k ih =>
    intro j m l va pa hfree honce
    rw [mapLoop, wp_bind]
    refine wp_mono (wp_and (mapPage_spec hfree honce) (mapPage_neat hfree honce)) ?_ fun _ _ => trivial
    rintro err m₁ ⟨hpost, l₁, hneat⟩
    have honce₁ : ∀ p, l₁.count p + tables m₁ r p ≤ 1 := by
      intro p
      cases err with
      | true =>
        obtain ⟨-, l₁', hmoves, -⟩ := hpost
        obtain rfl := hmoves.free.unique hneat.free
        exact (hmoves.same p).trans_le (honce p)
      | false =>
        obtain ⟨-, -, l₁', hmoves, -⟩ := hpost
        obtain rfl := hmoves.free.unique hneat.free
        exact (hmoves.same p).trans_le (honce p)
    split
    · rw [wp_bind]
      refine wp_post (unmapLoop_neat (S := ∅) _ hneat.free ?_ (by simp)) ?_
      · intro p
        rw [held_empty, Nat.add_zero]
        exact honce₁ p
      · rintro _ m₂ ⟨l₂, hneat₂⟩
        exact ⟨l₂, hneat.trans hneat₂⟩
    · refine wp_post (ih hneat.free honce₁) ?_
      rintro _ m₂ ⟨l₂, hneat₂⟩
      exact ⟨l₂, hneat.trans hneat₂⟩

/-! ## The pages that user code reaches -/

/-- `check_uva_attribute_valid`. -/
def checkUvaAttributeValid (attr : Word) : Bool :=
  if attr &&& pteU = 0 then true
  else if attr &&& pteR = 0 ∧ attr &&& pteX = 0 then true
  else false

/-- **The frame of a page that passes the test.** -/
def userPage (m : Mem) (r : Word) (v : ℕ) : Option Word :=
  (pages m r v).bind fun pte =>
    if checkUvaAttributeValid (pteGetAttribute pte) then none else some (pteGetPa pte)

/-- A page of the memory that the kernel maps. -/
def InRam (p : Word) : Prop := kernelBase ≤ p ∧ p < memoryEnd

instance (p : Word) : Decidable (InRam p) := inferInstanceAs (Decidable (_ ∧ _))

/-- Memory that the kernel maps for writing: what is behind its text. -/
def Image.InData (k : Image) (p : Word) : Prop := k.etext ≤ p ∧ p < memoryEnd

instance (k : Image) (p : Word) : Decidable (k.InData p) := inferInstanceAs (Decidable (_ ∧ _))

theorem Image.InData.inRam {k : Image} (h : k.InData p) : InRam p := by
  obtain ⟨hge, hlt⟩ := h
  have hbase := k.base_le
  have hentry := k.entry_lt
  rw [BitVec.le_def] at hge
  exact ⟨BitVec.le_def.mpr (by omega), hlt⟩

/-- The pages that `kfree` takes. -/
theorem Image.IsPage.inData {k : Image} (h : k.IsPage p) : k.InData p :=
  ⟨BitVec.le_def.mpr (k.etext_le.trans h.ge), BitVec.lt_def.mpr h.lt⟩

/-- Memory for writing that is neither free nor a table page. -/
def Spare (m : Mem) (r p : Word) : Prop :=
  m.image.InData p ∧ ∀ l, FreeList m l → l.count p + tables m r p = 0

/-- Nobody outside `S` maps what the table holds at `S` for user code. -/
def Sole (m : Mem) (r : Word) (S : Finset ℕ) : Prop :=
  ∀ v p, v ∉ S → userPage m r v = some p → held (pages m r) S p = 0

/-- **What user code reaches is alive**: it is memory when it is mapped, and mapped nowhere when it is
given back. -/
def Op.Live (m : Mem) (r : Word) : Op → Prop
  | .mapPage _ pa attr => checkUvaAttributeValid (attributes attr) = false → Spare m r pa
  | .mapNPages _ n pa attr => checkUvaAttributeValid (attributes attr) = false →
    ∀ j < n.toNat, Spare m r (pa + BitVec.ofNat 64 j * pgsize)
  | .unmapPageFree va => Sole m r {vpn va}
  | .unmapNPagesFree va n | .unmapNPagesFreeHole va n => Sole m r (addressed va n.toNat).toFinset
  | .kfree p => ∀ v, userPage m r v ≠ some p
  | _ => True

/-- **A table that was built by the operations.** -/
structure Built (r : Word) (m : Mem) : Prop where
  sound : Sound r m
  tidy : ∀ p, 0 < tables m r p → Clean (m.cell p)
  live : ∀ v p, userPage m r v = some p → Spare m r p

theorem userPage_congr (h : pages m' r v = pages m r v) : userPage m' r v = userPage m r v := by
  unfold userPage
  rw [h]

theorem userPage_of_none (h : pages m r v = none) : userPage m r v = none := by
  unfold userPage
  rw [h]
  rfl

/-- The page of a new entry. -/
theorem userPage_makePte (hal : IsFrame pa)
    (h : pages m r v = some (makePte pa (attr ||| pteV))) (hp : userPage m r v = some p) :
    checkUvaAttributeValid (attributes attr) = false ∧ p = pa := by
  rw [userPage, h, Option.bind_some, pteGetAttribute_makePte, pteGetPa_makePte hal] at hp
  obtain ⟨hok, hp⟩ := Option.ite_none_left_eq_some.mp hp
  exact ⟨Bool.eq_false_iff.mpr hok, (Option.some.inj hp).symm⟩

/-- **What a transfer leaves built**: the pages it takes off the list it leaves clean, and the pages
user code reaches afterwards are spare and not given away. -/
theorem Built.of_moves {A B : Word → ℕ} (h : Built r m) (hfree : FreeList m l)
    (hneat : Neat m l m' l') (honce : ∀ p, l.count p + (tables m r p + A p) ≤ 1)
    (hmoves : Moves m m' l l' (fun p => tables m r p + A p) (fun p => tables m' r p + B p))
    (htab : ∀ p, 0 < tables m' r p → 0 < tables m r p ∨ A p = 0)
    (hlive : ∀ v p, userPage m' r v = some p → Spare m r p ∧ A p = 0) : Built r m' where
  sound := .of_moves honce hmoves
  tidy p hp := by
    have hsame := hmoves.same p
    have hp1 := honce p
    refine hneat.clean p (by omega) ?_
    rcases Nat.eq_zero_or_pos (tables m r p) with hzero | hpos
    · have hA := (htab p hp).resolve_left (by omega)
      exact .inl (by omega)
    · exact .inr (h.tidy p hpos)
  live v p hp := by
    obtain ⟨⟨hdata, hout⟩, hA⟩ := hlive v p hp
    refine ⟨hmoves.image ▸ hdata, fun l₁ hl₁ => ?_⟩
    obtain rfl := hmoves.free.unique hl₁
    have hsame := hmoves.same p
    have hl := hout l hfree
    omega

/-- What growing leaves built. -/
theorem Built.of_grown (h : Built r m) (hfree : FreeList m l) (hneat : Neat m l m' l')
    (honce : ∀ p, l.count p + tables m r p ≤ 1)
    (hmoves : Moves m m' l l' (tables m r) (tables m' r))
    (hlive : ∀ v p, userPage m' r v = some p → Spare m r p) : Built r m' := by
  refine h.of_moves (A := fun _ => 0) (B := fun _ => 0) hfree hneat (fun p => ?_)
    (hmoves.congr (fun _ => Nat.add_zero _) fun _ => Nat.add_zero _) (fun _ _ => .inr rfl)
    fun v p hp => ⟨hlive v p hp, rfl⟩
  rw [Nat.add_zero]
  exact honce p

/-- **What leaves the table pages alone** leaves the table built, if what user code reaches stays
spare. -/
theorem Built.of_kept (h : Built r m) (hfree : FreeList m' l') (himage : m'.image = m.image)
    (hkept : ∀ p, 0 < tables m r p → m'.cell p = m.cell p)
    (honce : ∀ p, l'.count p + tables m r p ≤ 1)
    (hlive : ∀ v p, userPage m r v = some p → l'.count p = 0) : Built r m' := by
  obtain ⟨htab, -, hpages⟩ := table_congr hkept
  refine ⟨⟨l', hfree, fun p => by rw [htab]; exact honce p⟩, fun p hp => ?_, fun v p hp => ?_⟩
  · rw [htab] at hp
    rw [hkept p hp]
    exact h.tidy p hp
  · rw [userPage_congr (congrFun hpages v)] at hp
    obtain ⟨hdata, hout⟩ := h.live v p hp
    obtain ⟨l, hl, -⟩ := h.sound
    refine ⟨himage ▸ hdata, fun l₁ hl₁ => ?_⟩
    obtain rfl := hfree.unique hl₁
    have hzero := hlive v p hp
    have hl := hout l hl
    rw [htab]
    omega

/-! ## Every operation keeps a table built -/

theorem mapPage_built (h : Built r m) (hal : IsFrame pa)
    (hlive : checkUvaAttributeValid (attributes attr) = false → Spare m r pa) :
    wp (mapPage r va pa attr) (fun _ => Built r) (fun _ => True) m := by
  obtain ⟨l, hfree, honce⟩ := h.sound
  refine wp_mono (wp_and (mapPage_spec hfree honce) (mapPage_neat hfree honce)) ?_ fun _ _ => trivial
  rintro err m' ⟨hpost, l', hneat⟩
  have hall : Moves m m' l l' (tables m r) (tables m' r) ∧
      ∀ v p, userPage m' r v = some p → Spare m r p := by
    cases err with
    | true =>
      obtain ⟨-, l₁, hmoves, hpages⟩ := hpost
      obtain rfl := hmoves.free.unique hneat.free
      refine ⟨hmoves, fun v p hp => h.live v p ?_⟩
      rwa [userPage_congr (congrFun hpages v)] at hp
    | false =>
      obtain ⟨-, -, l₁, hmoves, hpages, -, -⟩ := hpost
      obtain rfl := hmoves.free.unique hneat.free
      refine ⟨hmoves, fun v p hp => ?_⟩
      by_cases hv : v = vpn va
      · subst hv
        obtain ⟨hok, rfl⟩ := userPage_makePte hal (by rw [hpages, Function.update_self]) hp
        exact hlive hok
      · refine h.live v p ?_
        have hsame : pages m' r v = pages m r v := by rw [hpages, Function.update_of_ne hv]
        rwa [userPage_congr hsame] at hp
  exact h.of_grown hfree hneat honce hall.1 hall.2

theorem mapNPages_built {n : ℤ} (h : Built r m)
    (hal : ∀ j < n.toNat, IsFrame (pa + BitVec.ofNat 64 j * pgsize))
    (hlive : checkUvaAttributeValid (attributes attr) = false →
      ∀ j < n.toNat, Spare m r (pa + BitVec.ofNat 64 j * pgsize)) :
    wp (mapNPages r va n pa attr) (fun _ => Built r) (fun _ => True) m := by
  obtain ⟨l, hfree, honce⟩ := h.sound
  refine wp_mono (wp_and (mapNPages_spec hfree honce) (mapLoop_neat n.toNat hfree honce)) ?_
    fun _ _ => trivial
  rintro err m' ⟨⟨⟨l₁, hmoves⟩, hpost⟩, l', hneat⟩
  obtain rfl := hmoves.free.unique hneat.free
  refine h.of_grown hfree hneat honce hmoves fun v p hp => ?_
  cases err with
  | true =>
    refine h.live v p ?_
    rwa [userPage_congr (congrFun hpost v)] at hp
  | false =>
    obtain ⟨-, -, hpages⟩ := hpost
    by_cases hv : vpn va ≤ v ∧ v < vpn va + n.toNat
    · obtain ⟨hok, rfl⟩ := userPage_makePte (hal (v - vpn va) (by omega))
        (by rw [hpages, spread, if_pos hv]) hp
      exact hlive hok _ (by omega)
    · refine h.live v p ?_
      have hsame : pages m' r v = pages m r v := by rw [hpages, spread, if_neg hv]
      rwa [userPage_congr hsame] at hp

/-- What unmapping leaves: the entries at `ws` are gone, and the pages at `S` are free. -/
theorem Built.of_released (ws : List ℕ) (h : Built r m) (hfree : FreeList m l)
    (hneat : Neat m l m' l') (honce : ∀ p, l.count p + (tables m r p + held (pages m r) S p) ≤ 1)
    (hrel : Released m m' l l₀ r S) (hpages : ∀ v ∉ ws, pages m' r v = pages m r v)
    (hgone : ∀ v ∈ ws, pages m' r v = none) (hS : ∀ v ∈ S, v ∈ ws) (hsole : Sole m r S) :
    Built r m' := by
  obtain rfl := hrel.moves.free.unique hneat.free
  refine h.of_moves hfree hneat honce hrel.moves (fun p hp => .inl ?_) fun v p hp => ?_
  · rwa [hrel.tables_eq] at hp
  · have hv : v ∉ ws := by
      intro hv
      rw [userPage_of_none (hgone v hv)] at hp
      cases hp
    rw [userPage_congr (hpages v hv)] at hp
    exact ⟨h.live v p hp, hsole v p (fun hin => hv (hS v hin)) hp⟩

theorem sole_empty : Sole m r ∅ := fun _ _ _ _ => rfl

theorem unmapPageFlex_built (h : Built r m)
    (honce : ∀ l, FreeList m l → ∀ p, l.count p + (tables m r p + held (pages m r) S p) ≤ 1)
    (hS : free = true ↔ vpn va ∈ S) (hsub : ∀ v ∈ S, v = vpn va) (hsole : Sole m r S) :
    wp (unmapPageFlex r va free strict) (fun _ => Built r) (fun _ => True) m := by
  obtain ⟨l, hfree, -⟩ := h.sound
  have honce := honce l hfree
  refine wp_mono (wp_and (unmapPageFlex_spec hfree honce hS) (unmapPageFlex_neat hfree honce hS)) ?_
    fun _ _ => trivial
  rintro _ m' ⟨⟨-, hpages, l₁, hrel⟩, l', hneat⟩
  refine h.of_released [vpn va] hfree hneat honce hrel (fun v hv => ?_) (fun v hv => ?_)
    (fun v hv => List.mem_singleton.mpr (hsub v hv)) hsole
  · rw [hpages, Function.update_of_ne (List.mem_singleton.not.mp hv)]
  · rw [hpages, List.mem_singleton.mp hv, Function.update_self]

theorem unmapNPagesFlex_built {n : ℤ} (h : Built r m)
    (honce : ∀ l, FreeList m l → ∀ p, l.count p + (tables m r p + held (pages m r) S p) ≤ 1)
    (hS : ∀ w ∈ addressed va n.toNat, free = true ↔ w ∈ S)
    (hsub : ∀ v ∈ S, v ∈ addressed va n.toNat) (hsole : Sole m r S) :
    wp (unmapNPagesFlex r va n free strict) (fun _ => Built r) (fun _ => True) m := by
  obtain ⟨l, hfree, -⟩ := h.sound
  have honce := honce l hfree
  refine wp_mono (wp_and (unmapLoop_spec n.toNat hfree honce hS) (unmapLoop_neat n.toNat hfree honce hS))
    ?_ fun _ _ => trivial
  rintro _ m' ⟨⟨-, hpages, l₁, hrel⟩, l', hneat⟩
  refine h.of_released (addressed va n.toNat) hfree hneat honce hrel (fun v hv => ?_)
    (fun v hv => ?_) hsub hsole
  · rw [hpages]
    exact if_neg hv
  · rw [hpages]
    exact if_pos hv

/-- **Every operation keeps a table built.** -/
theorem exec_built {op : Op} (h : Built r m) (hal : op.Aligned) (hown : op.Owned m r)
    (hlive : op.Live m r) : wp (exec r op) (fun _ => Built r) (fun _ => True) m := by
  have hnothing : ∀ l, FreeList m l →
      ∀ p, l.count p + (tables m r p + held (pages m r) ∅ p) ≤ 1 := by
    obtain ⟨l, hfree, honce⟩ := h.sound
    intro l₁ hl₁ p
    obtain rfl := hfree.unique hl₁
    rw [held_empty, Nat.add_zero]
    exact honce p
  cases op with
  | mapPage va pa attr => exact mapPage_built h hal hlive
  | mapNPages va n pa attr => exact mapNPages_built h hal hlive
  | unmapPage va =>
    rw [exec, wp_map]
    exact unmapPageFlex_built h hnothing (by simp) (by simp) sole_empty
  | unmapPageFree va =>
    rw [exec, wp_map]
    exact unmapPageFlex_built h hown (by simp) (by simp) hlive
  | unmapNPages va n =>
    rw [exec, wp_map]
    exact unmapNPagesFlex_built h hnothing (by simp) (by simp) sole_empty
  | unmapNPagesFree va n =>
    rw [exec, wp_map]
    exact unmapNPagesFlex_built h hown (by simp) (by simp) hlive
  | unmapNPagesFreeHole va n =>
    rw [exec, wp_map]
    exact unmapNPagesFlex_built h hown (by simp) (by simp) hlive
  | kalloc =>
    obtain ⟨l, hfree, honce⟩ := h.sound
    rw [exec, wp_map]
    refine wp_post (kalloc_spec hfree) ?_
    have hspare : ∀ v p, userPage m r v = some p → l.count p = 0 := by
      intro v p hp
      have hout := (h.live v p hp).2 l hfree
      omega
    rintro (_ | p) m' hpost
    · obtain ⟨-, d, rfl⟩ := hpost
      exact h.of_kept (hfree.congr rfl rfl fun _ _ => rfl) rfl (fun _ _ => rfl) honce hspare
    · obtain ⟨-, l', hmoves, -⟩ := hpost
      have hle : ∀ q, l'.count q ≤ l.count q := by
        intro q
        have hsame := hmoves.same q
        rw [Pi.zero_apply] at hsame
        omega
      refine h.of_kept hmoves.free hmoves.image
        (fun q => hmoves.kept (R := tables m r) (honce q)) (fun q => ?_) fun v q hq => ?_
      · exact (Nat.add_le_add_right (hle q) _).trans (honce q)
      · exact Nat.le_zero.mp ((hle q).trans (hspare v q hq).le)
  | kfree p =>
    obtain ⟨l, hfree, honce⟩ := h.sound
    have hout := hown l hfree
    rw [exec, wp_map]
    refine wp_mono (kfree_spec (p := p) hfree (by omega)) ?_ fun _ _ => trivial
    rintro _ m' ⟨-, hmoves, -⟩
    have hthree : ∀ q, l.count q + one p q + tables m r q ≤ 1 := by
      intro q
      by_cases hqp : q = p
      · subst hqp
        rw [one_self]
        omega
      · rw [one_of_ne hqp]
        exact honce q
    refine h.of_kept hmoves.free hmoves.image (fun q => hmoves.kept (hthree q)) (fun q => ?_)
      fun v q hq => ?_
    · simpa using hmoves.once (hthree q)
    · have hqp : q ≠ p := fun heq => hlive v (heq ▸ hq)
      have hzero := (h.live v q hq).2 l hfree
      rw [List.count_cons_of_ne hqp.symm]
      omega

/-! ## Whole runs -/

/-- What happens to the memory of a table: its operations, and writes of whoever uses the pages that
are not in it. -/
inductive Use
  | op (o : Op)
  | fill (p : Word) (f : Fin 512 → Word)

def useStep (r : Word) (m : Mem) : Use → Option Mem
  | .op o => step r m o
  | .fill p f => some (m.fill p f)

/-- What the callers promise. -/
def Use.Ok (r : Word) (m : Mem) : Use → Prop
  | .op o => o.Aligned ∧ o.Owned m r ∧ o.Live m r
  | .fill p _ => ∀ l, FreeList m l → l.count p + tables m r p = 0

theorem built_getPagetable (h : FreeList m₀ l₀) (hget : getPagetable m₀ = .ok (some r, m₁)) :
    Built r m₁ := by
  obtain ⟨-, hzero, -⟩ := (getClearPage_spec (E := fun _ => True) h).ok hget
  refine ⟨sound_getPagetable h hget, fun p hp => ?_, fun v p hp => ?_⟩
  · have hown : tables m₁ r p = one r p := Radix.own_empty (next_zero hzero)
    rw [hown] at hp
    rw [eq_of_one_pos hp, hzero]
    exact clean_zero
  · have hnone : pages m₁ r v = none := by
      unfold pages
      split
      · exact entry_zero hzero
      · rfl
    rw [userPage_of_none hnone] at hp
    cases hp

/-- **Every use keeps a table built.** -/
theorem Built.next {u : Use} (h : Built r m) (hok : u.Ok r m) (hstep : useStep r m u = some m') :
    Built r m' := by
  rcases u with o | ⟨p, f⟩
  · obtain ⟨err, hexec⟩ := step_eq_some_iff.mp hstep
    exact (exec_built h hok.1 hok.2.1 hok.2.2).ok hexec
  · obtain rfl : m.fill p f = m' := Option.some.inj hstep
    obtain ⟨l, hl, honce⟩ := h.sound
    have hout := hok l hl
    have hoff : ∀ q, 0 < l.count q + tables m r q → (m.fill p f).cell q = m.cell q := by
      intro q hq
      refine Mem.fill_cell_ne ?_
      rintro rfl
      omega
    refine h.of_kept (hl.congr rfl rfl fun q hq => hoff q ?_) rfl (fun q hq => hoff q (by omega))
      honce fun v q hq => ?_
    · exact Nat.add_pos_left (List.count_pos_iff.mpr hq) _
    · have hzero := (h.live v q hq).2 l hl
      omega

/-- **In every run the table stays built.** -/
theorem built_of_reach (hfree : FreeList m₀ l₀) (hget : getPagetable m₀ = .ok (some r, m₁))
    (hreach : Run.Reach (useStep r) (fun m u => u.Ok r m) m₁ m) : Built r m :=
  hreach.invariant (built_getPagetable hfree hget) fun _ _ _ h hok hstep => h.next hok hstep

/-! ## Checked runs -/

/-- The conditions on taking, mapping and filling a page, checked. -/
def Use.meets (m : Mem) (r : Word) : Use → Bool
  | .op .kalloc => true
  | .op (.mapPage _ pa _) =>
    decide (IsFrame pa) && decide (m.image.InData pa) && callers m r [pa]
  | .op _ => false
  | .fill p _ => callers m r [p]

theorem spare_of_callers (h : callers m r [p] = true) (hl : FreeList m l) :
    l.count p + tables m r p = 0 := by
  have honce := callers_once h hl p
  rw [List.count_singleton_self] at honce
  omega

theorem Use.ok_of_meets {u : Use} (h : u.meets m r = true) : u.Ok r m := by
  cases u with
  | fill p f => exact fun l hl => spare_of_callers h hl
  | op o =>
    cases o with
    | kalloc => exact ⟨trivial, trivial, trivial⟩
    | mapPage va pa attr =>
      obtain ⟨hlead, hcall⟩ := Bool.and_eq_true_iff.mp h
      obtain ⟨hframe, hdata⟩ := Bool.and_eq_true_iff.mp hlead
      have hframe : IsFrame pa := of_decide_eq_true hframe
      exact ⟨hframe, trivial, fun _ =>
        ⟨of_decide_eq_true hdata, fun l hl => spare_of_callers hcall hl⟩⟩
    | _ => cases h

/-- **What a checked use maps**: no more than it says. -/
theorem pages_of_meets {u : Use} (h : Built r m) (hu : u.meets m r = true)
    (hstep : useStep r m u = some m') {pte : Word} (hpte : pages m' r v = some pte) :
    pages m r v = some pte ∨ ∃ va pa attr, u = .op (.mapPage va pa attr) ∧ v = vpn va ∧
      pte = makePte pa (attr ||| pteV) := by
  obtain ⟨l, hfree, honce⟩ := h.sound
  cases u with
  | fill p f =>
    obtain rfl : m.fill p f = m' := Option.some.inj hstep
    have hout := spare_of_callers hu hfree
    have hkept : ∀ q, 0 < tables m r q → (m.fill p f).cell q = m.cell q := by
      intro q hq
      refine Mem.fill_cell_ne ?_
      rintro rfl
      omega
    rw [(table_congr hkept).2.2] at hpte
    exact .inl hpte
  | op o =>
    obtain ⟨err, hexec⟩ := step_eq_some_iff.mp hstep
    cases o with
    | kalloc =>
      have hsame : wp (exec r .kalloc) (fun _ m' => pages m' r = pages m r) (fun _ => True) m := by
        rw [exec, wp_map]
        refine wp_post (kalloc_spec hfree) ?_
        rintro (_ | p) m' hpost
        · obtain ⟨-, d, rfl⟩ := hpost
          rfl
        · obtain ⟨-, l', hmoves, -⟩ := hpost
          exact (table_congr fun q => hmoves.kept (R := tables m r) (honce q)).2.2
      rw [hsame.ok hexec] at hpte
      exact .inl hpte
    | mapPage va pa attr =>
      cases err with
      | true =>
        obtain ⟨-, l', hmoves, hpages⟩ := (mapPage_spec hfree honce).ok hexec
        rw [hpages] at hpte
        exact .inl hpte
      | false =>
        obtain ⟨-, -, l', hmoves, hpages, -, -⟩ := (mapPage_spec hfree honce).ok hexec
        rw [hpages] at hpte
        by_cases hv : v = vpn va
        · subst hv
          rw [Function.update_self] at hpte
          exact .inr ⟨va, pa, attr, rfl, rfl, (Option.some.inj hpte).symm⟩
        · rw [Function.update_of_ne hv] at hpte
          exact .inl hpte
    | _ => cases hu

/-- The run of a list of checked uses. -/
abbrev useRun (r : Word) : Mem → List Use → Option Mem :=
  Run.run (Run.guard (useStep r) fun m u => u.meets m r)

theorem Built.of_useRun {us : List Use} (h : Built r m) (hrun : useRun r m us = some m') :
    Built r m' :=
  (Run.reach_of_guard (fun _ _ => Use.ok_of_meets) .refl hrun).invariant h
    fun _ _ _ h hok hstep => h.next hok hstep

/-- **What a checked run maps.** -/
theorem pages_of_useRun {us : List Use} : ∀ {m : Mem}, Built r m → useRun r m us = some m' →
    ∀ {v : ℕ} {pte : Word}, pages m' r v = some pte → pages m r v = some pte ∨
      ∃ va pa attr, Use.op (.mapPage va pa attr) ∈ us ∧ v = vpn va ∧
        pte = makePte pa (attr ||| pteV) := by
  induction us with
  | nil =>
    intro m _ hrun v pte hpte
    obtain rfl : m = m' := Option.some.inj hrun
    exact .inl hpte
  | cons u us ih =>
    intro m h hrun v pte hpte
    obtain ⟨m₁, hstep, hrest⟩ := Option.bind_eq_some_iff.mp hrun
    obtain ⟨hu, hstep⟩ := Option.ite_none_right_eq_some.mp hstep
    rcases ih (h.next (Use.ok_of_meets hu) hstep) hrest hpte with hold | ⟨va, pa, attr, hmem, hnew⟩
    · rcases pages_of_meets h hu hstep hold with hold | ⟨va, pa, attr, rfl, hnew⟩
      · exact .inl hold
      · exact .inr ⟨va, pa, attr, List.mem_cons_self, hnew⟩
    · exact .inr ⟨va, pa, attr, List.mem_cons_of_mem u hmem, hnew⟩

end Vm
