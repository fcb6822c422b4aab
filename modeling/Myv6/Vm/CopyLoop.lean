import Myv6.Vm.CopyTable

/-!
# Vm/CopyLoop — the loop of `copy_page_table_aux`

    done             i        is
    | pte' | 0 | pte' |  …  | not copied yet |        u, the copy of a table
        copied           ▴
                         └ a page, a table, nothing to copy, or no memory

One call against the requests of its source: it leaves a copy on fresh pages, nothing when there was
nothing to copy, or nothing but what is lost when a request is refused.  What is lost is what full
tables at level 0 map: the level that has run out frees its own table with the right level argument
only for levels above 0, where the pages that the tables map are not freed.
-/

namespace Vm

open Function (update)
open Hoare Own

variable {m m' m₁ m₂ : Mem} {l l' l₁ l₂ : List Word} {xs ys pre : List Call} {s s' : Purse} {n : ℕ}
  {c c₀ : Word → Fin 512 → Word} {t u p w src : Word} {i : Fin 512} {is : List (Fin 512)}
  {has : Bool} {B : Word → ℕ} {E : Panic → Prop}

/-! ## Requests and the allocator -/

/-- What the requests are served from. -/
def purse (m : Mem) (l : List Word) : Purse := (m.deny, l.length)

/-- A page that `kfree` takes is memory. -/
theorem Image.IsPage.inRam {k : Image} (h : k.IsPage p) : InRam p := h.inData.inRam

theorem Image.IsPage.ne_neg_one {k : Image} (h : k.IsPage p) : p ≠ -1 := by
  rintro rfl
  exact absurd h.aligned (by decide)

/-- What `kalloc` refuses. -/
theorem kalloc_deny (h : FreeList m l) : wp kalloc (fun r m' => m'.deny = m.deny.tail ∧
    (r = none ↔ m.deny.head? = some true ∨ l.length = 0)) E m := by
  have hhead : m.head = 0 ↔ l.length = 0 := by
    cases l with
    | nil => exact ⟨fun _ => rfl, fun _ => h.chain⟩
    | cons p l =>
      have hne : m.head ≠ 0 := h.chain.1 ▸ (h.page p List.mem_cons_self).ne_zero
      exact ⟨fun hz => absurd hz hne, fun hz => by cases hz⟩
  unfold wp kalloc
  rw [← hhead]
  by_cases hor : m.deny.head? = some true ∨ m.head = 0
  · rw [if_pos hor]
    exact ⟨rfl, ⟨fun _ => hor, fun _ => rfl⟩⟩
  · rw [if_neg hor]
    exact ⟨rfl, ⟨fun hnone => absurd hnone (Option.some_ne_none _), fun h => absurd h hor⟩⟩

/-- The requests for a page. -/
def Call.Takes (x : Call) : Prop := x = .table ∨ ∃ p, x = .page p

theorem Call.Takes.serve_eq {x : Call} (hx : x.Takes) (s : Purse) :
    x.serve s = if s.1.head? = some true ∨ s.2 = 0 then none else some (s.1.tail, s.2 - 1) := by
  rcases hx with rfl | ⟨p, rfl⟩
  · rfl
  · rfl

/-- **`kalloc` serves a request**, or refuses it. -/
theorem kalloc_serve {x : Call} (hx : x.Takes) (h : FreeList m l) : wp kalloc (fun r m' =>
    match r with
    | none => x.serve (purse m l) = none ∧ ∃ d, m' = { m with deny := d }
    | some p => m.image.IsPage p ∧ ∃ l', x.serve (purse m l) = some (purse m' l') ∧
        Moves m m' l l' 0 (one p)) E m := by
  refine wp_mono (wp_and (kalloc_spec (E := E) h) (kalloc_deny (E := E) h)) ?_ fun _ => And.left
  rintro (_ | p) m' ⟨hpost, hdeny, hrefused⟩
  · obtain ⟨-, hsame⟩ := hpost
    refine ⟨?_, hsame⟩
    rw [hx.serve_eq]
    exact if_pos (hrefused.mp rfl)
  · obtain ⟨hpage, l', hmoves, -⟩ := hpost
    have hserved : ¬(m.deny.head? = some true ∨ l.length = 0) := fun hor =>
      absurd (hrefused.mpr hor) (Option.some_ne_none p)
    have hperm : l.Perm (p :: l') := by
      refine List.perm_iff_count.mpr fun q => ?_
      have hsame := hmoves.same q
      rw [Pi.zero_apply] at hsame
      rw [count_cons_one]
      omega
    have hlen : l.length - 1 = l'.length := by
      rw [hperm.length_eq, List.length_cons, Nat.add_sub_cancel]
    refine ⟨hpage, l', ?_, hmoves⟩
    rw [hx.serve_eq, purse, purse, if_neg hserved, hlen, hdeny]

theorem getPagetable_serve (h : FreeList m l) : wp getPagetable (fun r m' =>
    match r with
    | none => Call.table.serve (purse m l) = none ∧ ∃ d, m' = { m with deny := d }
    | some p => m.image.IsPage p ∧ m'.cell p = (fun _ => 0) ∧ ∃ l',
        Call.table.serve (purse m l) = some (purse m' l') ∧ Moves m m' l l' 0 (one p)) E m := by
  unfold getPagetable getClearPage
  rw [wp_bind]
  refine wp_post (kalloc_serve (x := .table) (.inl rfl) h) ?_
  rintro (_ | p) m₁ hpost
  · exact hpost
  · obtain ⟨hpage, l', hserve, hmoves⟩ := hpost
    rw [wp_bind, wp_alter]
    have hcount := hmoves.same p
    have hnodup := List.nodup_iff_count.mp h.nodup p
    rw [one_self, Pi.zero_apply] at hcount
    exact ⟨hpage, Mem.fill_cell_self, l', hserve,
      hmoves.trans (.of_fill hmoves.free (by omega) (by simp) _)⟩

/-! ## The clean-up of a level -/

/-- What a level loses when it frees its copy: the pages that its tables map, except at level 0. -/
def leak (n : ℕ) (c : Word → Fin 512 → Word) (u p : Word) : ℕ :=
  if n = 0 then 0 else Radix.rim layout c (n + 1) u p

/-- **Freeing a copy of level `n`**, whose pages do not look like tables if the level is 0. -/
structure Cleans (freeCopy : Word → Kernel Unit) (n : ℕ) : Prop where
  run : ∀ {m : Mem} {l : List Word} {u : Word}, FreeList m l →
    (∀ p, l.count p + Radix.own layout m.cell (n + 1) u p ≤ 1) →
    (∀ p, 0 < Radix.own layout m.cell (n + 1) u p → m.image.IsPage p) →
    (n = 0 → ∀ i w, layout.next (m.cell u) i = some w → ∀ j, valid (m.cell w j) = false) →
    ∃ m' l', freeCopy u m = .ok ((), m') ∧
      Moves m m' l l' (Radix.own layout m.cell (n + 1) u) (leak n m.cell u)

/-- The loop over a page without valid entries. -/
theorem freeChildren_barren {free : Word → Kernel Unit} (h : ∀ j, valid (m.cell t j) = false)
    (is : List (Fin 512)) : freeChildren free t is m = .ok ((), m) := by
  induction is with
  | nil => rfl
  | cons i is ih =>
    rw [freeChildren]
    exact (congrFun (if_neg (by rw [h i]; decide)) m).trans ih

/-- **Below level 0**, a page without valid entries is freed. -/
theorem freeBelow_frees (stack : ℕ) :
    Frees (freeBelow (stack + 1)) (fun c w => ∀ j, valid (c w j) = false) 0 where
  run {m l u} _ _ hpage hbarren := by
    have hram : InRam u := (hpage u Radix.own_root_pos).inRam
    have hrun : (freeChildren (freeBelow stack) u (List.finRange 512) >>= fun _ => kfree u) m =
        kfree u m := bind_ok (freeChildren_barren hbarren _)
    have hbelow : freeBelow (stack + 1) u m =
        (freeChildren (freeBelow stack) u (List.finRange 512) >>= fun _ => kfree u) m :=
      congrFun (if_pos hram) m
    rw [hbelow, hrun]
    exact (freeAll_singleton u).symm
  congr {c c' u} hkept hbarren j := by
    rw [hkept u Radix.own_root_pos]
    exact hbarren j

/-- **Level 0 takes its pages for tables**, and frees them if they do not look like tables. -/
theorem freeBelow_cleans (stack : ℕ) : Cleans (freeBelow (stack + 2)) 0 where
  run {m l u} hfree honce hpage hbarren := by
    have hcount := count_freeOrder m.cell (0 + 1) u
    have hram : InRam u := (hpage u Radix.own_root_pos).inRam
    obtain ⟨m', hrun, -, hmoves⟩ := freeAll_spec (freeOrder m.cell (0 + 1) u) hfree
      (fun p => by rw [hcount]; exact honce p)
      fun p hp => hpage p (by rw [← hcount]; exact List.count_pos_iff.mpr hp)
    have hbelow : freeBelow (stack + 2) u m =
        (freeChildren (freeBelow (stack + 1)) u (List.finRange 512) >>= fun _ => kfree u) m :=
      congrFun (if_pos hram) m
    refine ⟨m', _, ?_, hmoves.congr (fun p => (hcount p).symm) fun p => if_pos rfl⟩
    rw [hbelow, freeTable_eq (freeBelow_frees stack) hfree honce hpage (hbarren rfl), hrun]

/-- The other levels free their tables and forget the pages. -/
theorem freePageTableAux_cleans (hn : n ≠ 0) : Cleans (freePageTableAux n) n where
  run {m l u} hfree honce hpage _ := by
    have hsplit : ∀ p, Radix.own layout m.cell (n + 1) u p =
        Radix.own layout m.cell n u p + Radix.rim layout m.cell (n + 1) u p :=
      fun _ => Radix.own_eq_add_rim
    have honce' : ∀ p, l.count p + Radix.own layout m.cell n u p ≤ 1 := by
      intro p
      have hp := honce p
      rw [hsplit] at hp
      omega
    have hpage' : ∀ p, 0 < Radix.own layout m.cell n u p → m.image.IsPage p :=
      fun p hp => hpage p (by rw [hsplit]; exact Nat.add_pos_left hp _)
    have hspec := freePageTableAux_spec (E := fun _ => False) n hfree honce' hpage'
    obtain ⟨_, m', hrun, -, l', hmoves⟩ := hspec.ends
    refine ⟨m', l', hrun, (hmoves.beside (Radix.rim layout m.cell (n + 1) u)).congr hsplit
      fun p => ?_⟩
    rw [leak, if_neg hn]
    exact (Nat.zero_add _).symm

/-! ## What one call leaves -/

/-- **If a request is not served**, the pages copied by then do not look like tables. -/
def Tame (c : Word → Fin 512 → Word) (xs : List Call) (s : Purse) : Prop :=
  after xs s = none → ∀ p, .page p ∈ served xs s → ∀ j, valid (c p j) = false

/-- The pages that are copied are memory of the kernel. -/
def InReach (xs : List Call) (s : Purse) : Prop := ∀ p, .page p ∈ served xs s → InRam p

/-- A source of height `n`, which nobody has written since. -/
structure Source (c₀ : Word → Fin 512 → Word) (m : Mem) (l : List Word) (n : ℕ) (src : Word) :
    Prop where
  free : FreeList m l
  apart : ∀ p, 0 < Radix.own layout c₀ n src p → l.count p = 0 ∧ m.cell p = c₀ p

/-- **What is left of copying a source of height `n`**: nothing but what is lost, nothing because there
was nothing to copy, or a copy. -/
inductive CopySub (c₀ : Word → Fin 512 → Word) (m : Mem) (l : List Word) (n : ℕ) (src : Word) :
    Word → Mem → Prop
  | failed {m' : Mem} {l' : List Word} {B : Word → ℕ}
      (unpaid : after (calls c₀ n src) (purse m l) = none) (moves : Moves m m' l l' 0 B)
      (lost : (∃ p, 0 < B p) ↔ .full ∈ served (calls c₀ n src) (purse m l)) :
      CopySub c₀ m l n src (-1) m'
  | empty {m' : Mem} {l' : List Word}
      (paid : after (calls c₀ n src) (purse m l) = some (purse m' l')) (moves : Moves m m' l l' 0 0)
      (barren : Barren c₀ n src) (none_full : .full ∉ calls c₀ n src) : CopySub c₀ m l n src 0 m'
  | made {m' : Mem} {l' : List Word} {w : Word}
      (paid : after (calls c₀ n src) (purse m l) = some (purse m' l'))
      (moves : Moves m m' l l' 0 (Radix.own layout m'.cell n w)) (page : m.image.IsPage w)
      (clone : Clone c₀ m'.cell n src w)
      (lost : n ≠ 0 → ((∃ p, 0 < Radix.rim layout m'.cell n w p) ↔ .full ∈ calls c₀ n src)) :
      CopySub c₀ m l n src w m'

/-- What copies every source of height `n`, but for the pages that it cannot read. -/
structure Copies (copySub : Word → Kernel Word) (n : ℕ) : Prop where
  run : ∀ {c₀ : Word → Fin 512 → Word} {m : Mem} {l : List Word} {src : Word},
    Source c₀ m l n src → Tame c₀ (calls c₀ n src) (purse m l) →
    wp (copySub src)
      (fun ret m' => InReach (calls c₀ n src) (purse m l) ∧ CopySub c₀ m l n src ret m')
      (fun _ => ¬InReach (calls c₀ n src) (purse m l)) m

theorem Source.of_moves (h : Source c₀ m l n src) (hmoves : Moves m m' l l' 0 B) :
    Source c₀ m' l' n src where
  free := hmoves.free
  apart p hp := by
    obtain ⟨hcount, hcell⟩ := h.apart p hp
    have hsame := hmoves.same p
    rw [Pi.zero_apply] at hsame
    exact ⟨by omega, (hmoves.frame hcount rfl).trans hcell⟩

theorem Source.child (h : Source c₀ m l (n + 1) src) (hu : layout.next (c₀ src) i = some u) :
    Source c₀ m l n u where
  free := h.free
  apart p hp := h.apart p (by
    have hle := Radix.own_child_le (n := n) (p := p) hu
    omega)

/-- **A leaf is copied** to a page of its own. -/
theorem copyLeaf_copies : Copies copyLeaf 0 where
  run {c₀ m l src} h _ := by
    obtain ⟨hcount, hcell⟩ := h.apart src Radix.own_root_pos
    unfold copyLeaf
    rw [wp_bind]
    refine wp_post (kalloc_serve (x := .page src) (.inr ⟨src, rfl⟩) h.free) ?_
    rintro (_ | q) m₁ hpost
    · obtain ⟨hserve, d, rfl⟩ := hpost
      have hserved : served [.page src] (purse m l) = [] := by rw [served, hserve]; rfl
      have hafter : after [.page src] (purse m l) = none := by rw [after, hserve]; rfl
      refine ⟨fun p hp => ?_, .failed (B := 0) hafter (.of_deny h.free d) ?_⟩
      · rw [calls, hserved] at hp
        cases hp
      · rw [calls, hserved]
        simp
    · obtain ⟨hpage, l₁, hserve, hmoves⟩ := hpost
      have hserved : served [.page src] (purse m l) = [.page src] := by rw [served, hserve]; rfl
      have hafter : after [.page src] (purse m l) = some (purse m₁ l₁) := by rw [after, hserve]; rfl
      have hreach : InReach (calls c₀ 0 src) (purse m l) ↔ InRam src := by
        unfold InReach
        rw [calls, hserved]
        simp
      have hsame := hmoves.same q
      have hnodup := List.nodup_iff_count.mp h.free.nodup q
      rw [one_self, Pi.zero_apply] at hsame
      unfold memcpyPage
      rw [wp_bind, wp_ite]
      refine ⟨fun hram => ?_, fun hram => fun hin => hram (hreach.mp hin)⟩
      refine ⟨hreach.mpr hram, .made hafter ?_ hpage ?_ fun h0 => absurd rfl h0⟩
      · exact hmoves.trans (.of_fill hmoves.free (by omega) (by simp) _)
      · have hread : m₁.cell src = c₀ src := (hmoves.frame hcount rfl).trans hcell
        change (m₁.fill q (m₁.cell src)).cell q = c₀ src
        rw [Mem.fill_cell_self, hread]

/-! ## The requests around an entry -/

theorem served_append_left {x : Call} (h : x ∈ served xs s) : x ∈ served (xs ++ ys) s := by
  cases ha : after xs s with
  | none => rwa [served_append_none ha]
  | some s' =>
    rw [served_append_some ha]
    exact List.mem_append_left _ (served_subset h)

theorem served_between {x : Call} (hpre : after pre s = some s') (h : x ∈ served xs s') :
    x ∈ served (pre ++ (xs ++ ys)) s := by
  rw [served_append_some hpre]
  exact List.mem_append_right _ (served_append_left h)

theorem after_between (hpre : after pre s = some s') (h : after xs s' = none) :
    after (pre ++ (xs ++ ys)) s = none := by
  rw [after_append_some hpre]
  exact after_append_none h

theorem Tame.between (h : Tame c (pre ++ (xs ++ ys)) s) (hpre : after pre s = some s') :
    Tame c xs s' :=
  fun hnone p hp => h (after_between hpre hnone) p (served_between hpre hp)

theorem InReach.between (h : InReach (pre ++ (xs ++ ys)) s) (hpre : after pre s = some s') :
    InReach xs s' :=
  fun p hp => h p (served_between hpre hp)

theorem next_of_entry {pte : Word} (hpte : c t i = pte) (hv : valid pte = true) :
    layout.next (c t) i = some (pteGetPa pte) := by
  rw [← hpte] at hv ⊢
  exact if_pos hv

theorem callsUnder_of_valid (h : valid (c t i) = true) :
    callsUnder c n t i = calls c n (pteGetPa (c t i)) := by
  rw [callsUnder, next_of_entry rfl h, Option.elim_some]

theorem callsUnder_of_not (h : ¬valid (c t i) = true) : callsUnder c n t i = [] := by
  have hnext : layout.next (c t) i = none := if_neg h
  rw [callsUnder, hnext, Option.elim_none]

/-! ## The loop -/

/-- The entries `done` of a table have been copied to the page `u`. -/
structure Filled (c₀ c : Word → Fin 512 → Word) (n : ℕ) (src u : Word) (done : List (Fin 512)) :
    Prop where
  copied : ∀ i ∈ done, EntryCopied (Clone c₀ c n) (Barren c₀ n) (c₀ src i) (c u i)
  todo : ∀ i ∉ done, c u i = 0

/-- The requests for the entries `done` of a table. -/
def callsFor (c : Word → Fin 512 → Word) (n : ℕ) (t : Word) (done : List (Fin 512)) : List Call :=
  .table :: done.flatMap (callsUnder c n t)

/-- **The loop of `copy_page_table_aux`** after the entries `done` of a table at level `n`. -/
structure Copying (c₀ : Word → Fin 512 → Word) (m : Mem) (l : List Word) (n : ℕ) (src u : Word)
    (done : List (Fin 512)) (has : Bool) (m₁ : Mem) (l₁ : List Word) : Prop where
  moves : Moves m m₁ l l₁ 0 (Radix.own layout m₁.cell (n + 1) u)
  paid : after (callsFor c₀ n src done) (purse m l) = some (purse m₁ l₁)
  reach : ∀ p, .page p ∈ callsFor c₀ n src done → InRam p
  page : m.image.IsPage u
  filled : Filled c₀ m₁.cell n src u done
  lost : n ≠ 0 → ((∃ p, 0 < Radix.rim layout m₁.cell (n + 1) u p) ↔ .full ∈ callsFor c₀ n src done)
  has_eq : has = done.any fun i => valid (c₀ src i)

variable {done : List (Fin 512)}

theorem callsFor_concat : callsFor c n t (done ++ [i]) = callsFor c n t done ++ callsUnder c n t i := by
  rw [callsFor, callsFor, List.flatMap_append, List.flatMap_singleton, List.cons_append]

/-- The requests of a table, around those for one entry. -/
theorem calls_between (hall : done ++ i :: is = List.finRange 512) : calls c (n + 1) t =
    callsFor c n t done ++
      (callsUnder c n t i ++ (is.flatMap (callsUnder c n t) ++ closing c n t)) := by
  rw [calls_succ, ← hall, List.flatMap_append, List.flatMap_cons, callsFor, List.cons_append,
    List.append_assoc, List.append_assoc]

theorem calls_at_end (hall : done = List.finRange 512) :
    calls c (n + 1) t = callsFor c n t done ++ closing c n t := by
  rw [calls_succ, ← hall, callsFor, List.cons_append]

/-- The pages of the copy have been free. -/
theorem Moves.made_once (h : Moves m m' l l' 0 B) (hl : FreeList m l) (p : Word) :
    l'.count p + B p ≤ 1 := by
  have hsame := h.same p
  have hnodup := List.nodup_iff_count.mp hl.nodup p
  rw [Pi.zero_apply] at hsame
  omega

theorem Moves.made_page (h : Moves m m' l l' 0 B) (hl : FreeList m l) (hp : 0 < B p) :
    m.image.IsPage p := by
  have hsame := h.same p
  rw [Pi.zero_apply] at hsame
  exact hl.page p (List.count_pos_iff.mp (by omega))

/-- **What is filled depends on its own pages alone.** -/
theorem Filled.congr (h : Filled c₀ c n src u done)
    {c' : Word → Fin 512 → Word} (hroot : ∀ i ∈ done, c' u i = c u i) (htodo : ∀ i ∉ done, c' u i = 0)
    (hkept : ∀ i ∈ done, ∀ w, layout.next (c u) i = some w → ∀ p, 0 < Radix.own layout c n w p →
      c' p = c p) : Filled c₀ c' n src u done where
  copied j hj := by
    rw [hroot j hj]
    refine (h.copied j hj).mono fun w hv hw hcopy => hcopy.congr (hkept j hj w ?_)
    rw [← hw]
    exact if_pos hv
  todo := htodo

namespace Copying

/-- The copy is not free. -/
theorem once (h : Copying c₀ m l n src u done has m₁ l₁) (hl : FreeList m l) (p : Word) :
    l₁.count p + Radix.own layout m₁.cell (n + 1) u p ≤ 1 := h.moves.made_once hl p

/-- **The copy of the next entry** leaves what is there alone. -/
theorem kept (h : Copying c₀ m l n src u done has m₁ l₁) (hl : FreeList m l)
    (hmoves : Moves m₁ m₂ l₁ l₂ 0 B) :
    ∀ p, 0 < Radix.own layout m₁.cell (n + 1) u p → m₂.cell p = m₁.cell p :=
  fun p => hmoves.kept (R := Radix.own layout m₁.cell (n + 1) u) (h.once hl p)

theorem own_kept (h : Copying c₀ m l n src u done has m₁ l₁) (hl : FreeList m l)
    (hmoves : Moves m₁ m₂ l₁ l₂ 0 B) (p : Word) :
    Radix.own layout m₂.cell (n + 1) u p = Radix.own layout m₁.cell (n + 1) u p :=
  (Radix.Agree.of_own (h.kept hl hmoves)).own_eq

theorem rim_kept (h : Copying c₀ m l n src u done has m₁ l₁) (hl : FreeList m l)
    (hmoves : Moves m₁ m₂ l₁ l₂ 0 B) (p : Word) :
    Radix.rim layout m₂.cell (n + 1) u p = Radix.rim layout m₁.cell (n + 1) u p :=
  Radix.Agree.rim_eq (h.kept hl hmoves)

theorem filled_kept (h : Copying c₀ m l n src u done has m₁ l₁) (hl : FreeList m l)
    (hmoves : Moves m₁ m₂ l₁ l₂ 0 B) : Filled c₀ m₂.cell n src u done := by
  have hkept := h.kept hl hmoves
  have hroot : m₂.cell u = m₁.cell u := hkept u Radix.own_root_pos
  refine h.filled.congr (fun i _ => congrFun hroot i) (fun i hi => ?_) fun i _ w hw p hp =>
    hkept p ?_
  · rw [hroot]
    exact h.filled.todo i hi
  · have hle := Radix.own_child_le (n := n) (p := p) hw
    omega

/-- The pages of both copies. -/
theorem moves_beside (h : Copying c₀ m l n src u done has m₁ l₁) (hl : FreeList m l)
    (hmoves : Moves m₁ m₂ l₁ l₂ 0 B) :
    Moves m m₂ l l₂ 0 (fun p => B p + Radix.own layout m₂.cell (n + 1) u p) := by
  have hown := h.own_kept hl hmoves
  refine h.moves.trans ((hmoves.beside (Radix.own layout m₁.cell (n + 1) u)).congr (fun p => ?_)
    fun p => ?_)
  · exact (Nat.zero_add _).symm
  · rw [hown]

theorem has_concat (h : Copying c₀ m l n src u done has m₁ l₁) :
    (has || valid (c₀ src i)) = (done ++ [i]).any fun i => valid (c₀ src i) := by
  rw [List.any_append, ← h.has_eq, List.any_cons, List.any_nil, Bool.or_false]

/-- The requests for one more entry. -/
theorem paid_concat (h : Copying c₀ m l n src u done has m₁ l₁)
    (hpaid : after (callsUnder c₀ n src i) (purse m₁ l₁) = some (purse m₂ l₂)) :
    after (callsFor c₀ n src (done ++ [i])) (purse m l) = some (purse m₂ l₂) := by
  rw [callsFor_concat, after_append_some h.paid, hpaid]

theorem reach_concat (h : Copying c₀ m l n src u done has m₁ l₁)
    (hpaid : after (callsUnder c₀ n src i) (purse m₁ l₁) = some (purse m₂ l₂))
    (hreach : InReach (callsUnder c₀ n src i) (purse m₁ l₁)) :
    ∀ p, .page p ∈ callsFor c₀ n src (done ++ [i]) → InRam p := by
  intro p hp
  rw [callsFor_concat] at hp
  rcases List.mem_append.mp hp with hp | hp
  · exact h.reach p hp
  · exact hreach p (by rwa [served_of_some hpaid])

/-- An empty table. -/
theorem start (hserve : Call.table.serve (purse m l) = some (purse m₁ l₁))
    (hmoves : Moves m m₁ l l₁ 0 (one u)) (hpage : m.image.IsPage u) (hzero : ∀ i, m₁.cell u i = 0) :
    Copying c₀ m l n src u [] false m₁ l₁ := by
  have hempty : ∀ i, layout.next (m₁.cell u) i = none := fun i => if_neg (by rw [hzero]; decide)
  refine ⟨?_, ?_, ?_, hpage, ⟨fun i hi => absurd hi List.not_mem_nil, fun i _ => hzero i⟩,
    fun _ => ?_, rfl⟩
  · exact hmoves.congr (fun _ => rfl) fun p => Radix.own_empty hempty
  · rw [callsFor, List.flatMap_nil, after, hserve, Option.bind_some, after]
  · intro p hp
    cases List.mem_singleton.mp hp
  · refine iff_of_false ?_ ?_
    · rintro ⟨p, hp⟩
      rw [Radix.rim_empty hempty] at hp
      exact Nat.lt_irrefl 0 hp
    · intro hfull
      cases List.mem_singleton.mp hfull

/-- **An entry that is not valid.** -/
theorem skip (h : Copying c₀ m l n src u done has m₁ l₁) (hi : i ∉ done)
    (hv : ¬valid (c₀ src i) = true) : Copying c₀ m l n src u (done ++ [i]) has m₁ l₁ := by
  have hcalls : callsFor c₀ n src (done ++ [i]) = callsFor c₀ n src done := by
    rw [callsFor_concat, callsUnder_of_not hv, List.append_nil]
  refine ⟨h.moves, ?_, ?_, h.page, ⟨fun j hj => ?_, fun j hj => ?_⟩, ?_, ?_⟩
  · rw [hcalls]
    exact h.paid
  · rw [hcalls]
    exact h.reach
  · rcases List.mem_append.mp hj with hj | hj
    · exact h.filled.copied j hj
    · obtain rfl := List.mem_singleton.mp hj
      rw [EntryCopied, if_neg hv]
      exact h.filled.todo j hi
  · exact h.filled.todo j fun hj' => hj (List.mem_append_left _ hj')
  · rw [hcalls]
    exact h.lost
  · rw [← h.has_concat, Bool.eq_false_iff.mpr hv, Bool.or_false]

/-- **An entry with nothing to copy below it.** -/
theorem skipBarren (h : Copying c₀ m l n src u done has m₁ l₁) (hl : FreeList m l) (hi : i ∉ done)
    (hv : valid (c₀ src i) = true) (hreach : InReach (calls c₀ n (pteGetPa (c₀ src i))) (purse m₁ l₁))
    (hpaid : after (calls c₀ n (pteGetPa (c₀ src i))) (purse m₁ l₁) = some (purse m₂ l₂))
    (hmoves : Moves m₁ m₂ l₁ l₂ 0 0) (hbarren : Barren c₀ n (pteGetPa (c₀ src i)))
    (hfull : .full ∉ calls c₀ n (pteGetPa (c₀ src i))) :
    Copying c₀ m l n src u (done ++ [i]) true m₂ l₂ := by
  have hroot : m₂.cell u = m₁.cell u := h.kept hl hmoves u Radix.own_root_pos
  have hfilled := h.filled_kept hl hmoves
  rw [← callsUnder_of_valid hv] at hpaid hreach hfull
  refine ⟨(h.moves_beside hl hmoves).congr (fun _ => rfl) fun p => (Nat.zero_add _).symm,
    h.paid_concat hpaid, h.reach_concat hpaid hreach, h.page,
    ⟨fun j hj => ?_, fun j hj => ?_⟩, fun hn => ?_, ?_⟩
  · rcases List.mem_append.mp hj with hj | hj
    · exact hfilled.copied j hj
    · obtain rfl := List.mem_singleton.mp hj
      rw [EntryCopied, if_pos hv]
      exact .inr ⟨hfilled.todo j hi, hbarren⟩
  · exact hfilled.todo j fun hj' => hj (List.mem_append_left _ hj')
  · have hrim := h.rim_kept hl hmoves
    simp only [hrim]
    rw [h.lost hn, callsFor_concat, List.mem_append, or_iff_left hfull]
  · rw [← h.has_concat, hv, Bool.or_true]

/-- **An entry that has been copied.** -/
theorem put (h : Copying c₀ m l n src u done has m₁ l₁) (hl : FreeList m l) (hi : i ∉ done)
    (hv : valid (c₀ src i) = true) (hreach : InReach (calls c₀ n (pteGetPa (c₀ src i))) (purse m₁ l₁))
    (hpaid : after (calls c₀ n (pteGetPa (c₀ src i))) (purse m₁ l₁) = some (purse m₂ l₂))
    (hmoves : Moves m₁ m₂ l₁ l₂ 0 (Radix.own layout m₂.cell n w)) (hpage : IsFrame w)
    (hclone : Clone c₀ m₂.cell n (pteGetPa (c₀ src i)) w)
    (hlost : n ≠ 0 → ((∃ p, 0 < Radix.rim layout m₂.cell n w p) ↔
      .full ∈ calls c₀ n (pteGetPa (c₀ src i)))) :
    Copying c₀ m l n src u (done ++ [i]) true
      (m₂.write u i (makePte w (pteGetAttribute (c₀ src i)))) l₂ := by
  set pte := makePte w (pteGetAttribute (c₀ src i)) with hpte
  have hfilled := h.filled_kept hl hmoves
  have hbeside := h.moves_beside hl hmoves
  have honce := hbeside.made_once hl
  have hrootpos : 0 < Radix.own layout m₂.cell (n + 1) u u := Radix.own_root_pos
  have hvalid : valid pte = true := valid_copy hv w
  have hpa : pteGetPa pte = w := pteGetPa_makePte hpage _
  have hnone : layout.next (m₂.cell u) i = none :=
    if_neg (by rw [hfilled.todo i hi]; decide)
  have hcell : ∀ p ≠ u, (m₂.write u i pte).cell p = m₂.cell p := fun p hp => Mem.write_cell_ne hp
  have hat : (m₂.write u i pte).cell u i = pte := by
    rw [Mem.write_cell_self, Function.update_self]
  have hnext : layout.next ((m₂.write u i pte).cell u) i = some w := by
    rw [next_of_entry hat hvalid, hpa]
  have hother : ∀ j ≠ i, (m₂.write u i pte).cell u j = m₂.cell u j := fun j hj => by
    rw [Mem.write_cell_self, Function.update_of_ne hj]
  -- neither the new page nor what is below the entries is the table itself
  have hsub : ∀ p, 0 < Radix.own layout m₂.cell n w p → (m₂.write u i pte).cell p = m₂.cell p := by
    intro p hp
    refine hcell p ?_
    rintro rfl
    have hp1 := honce p
    omega
  have hbelow : ∀ j x, layout.next (m₂.cell u) j = some x → ∀ p, 0 < Radix.own layout m₂.cell n x p →
      (m₂.write u i pte).cell p = m₂.cell p := by
    intro j x hx p hp
    refine hcell p ?_
    rintro rfl
    have hle := Radix.own_child_le (n := n) (p := p) hx
    have hp1 := honce p
    rw [one_self] at hle
    omega
  have hnexts : ∀ j ≠ i, layout.next ((m₂.write u i pte).cell u) j = layout.next (m₂.cell u) j := by
    intro j hj
    change (if valid _ then _ else _) = if valid _ then _ else _
    rw [hother j hj]
  have hgraft : Radix.Beside layout m₂.cell (m₂.write u i pte).cell n u i :=
    ⟨hnexts, fun j _ => hbelow j⟩
  have hown : ∀ p, Radix.own layout (m₂.write u i pte).cell (n + 1) u p =
      Radix.own layout m₂.cell n w p + Radix.own layout m₂.cell (n + 1) u p :=
    fun p => Radix.own_graft hnone hnext hgraft hsub
  have hrim : ∀ p, Radix.rim layout (m₂.write u i pte).cell (n + 1) u p =
      Radix.rim layout m₂.cell n w p + Radix.rim layout m₂.cell (n + 1) u p :=
    fun p => Radix.rim_graft hnone hnext hgraft hsub
  rw [← callsUnder_of_valid hv] at hpaid hreach hlost
  refine ⟨?_, h.paid_concat hpaid, h.reach_concat hpaid hreach, h.page,
    ⟨fun j hj => ?_, fun j hj => ?_⟩, fun hn => ?_, ?_⟩
  · have hfree : l₂.count u = 0 := by
      have hp1 := honce u
      omega
    have hwrite : Moves m₂ (m₂.write u i pte) l₂ l₂ (fun p => Radix.own layout m₂.cell n w p +
        Radix.own layout m₂.cell (n + 1) u p) _ :=
      .of_write hbeside.free hfree rfl rfl hcell (Nat.add_pos_right _ hrootpos)
    exact (hbeside.trans hwrite).congr (fun _ => rfl) hown
  · rcases List.mem_append.mp hj with hj | hj
    · have hji : j ≠ i := fun heq => hi (heq ▸ hj)
      rw [hother j hji]
      refine (hfilled.copied j hj).mono fun x hvx hx hcopy => hcopy.congr (hbelow j x ?_)
      rw [← hx]
      exact if_pos hvx
    · obtain rfl := List.mem_singleton.mp hj
      rw [EntryCopied, if_pos hv, hat]
      exact .inl ⟨w, hpage, rfl, hclone.congr hsub⟩
  · have hji : j ≠ i := fun heq => hj (List.mem_append_right _ (List.mem_singleton.mpr heq))
    rw [hother j hji]
    exact hfilled.todo j fun hj' => hj (List.mem_append_left _ hj')
  · have hbefore := h.lost hn
    have hkept := h.rim_kept hl hmoves
    simp only [← hkept] at hbefore
    rw [callsFor_concat, List.mem_append, ← hbefore, ← hlost hn]
    simp only [hrim, Nat.add_pos_iff_pos_or_pos, exists_or]
    exact or_comm
  · rw [← h.has_concat, hv, Bool.or_true]

/-- **The entry that is not copied**: the level cleans up. -/
theorem undo (h : Copying c₀ m l n src u done has m₁ l₁) (hl : FreeList m l)
    {freeCopy : Word → Kernel Unit} (hclean : Cleans freeCopy n)
    (hall : done ++ i :: is = List.finRange 512) (hv : valid (c₀ src i) = true)
    (htame : Tame c₀ (calls c₀ (n + 1) src) (purse m l))
    (hreach : InReach (calls c₀ n (pteGetPa (c₀ src i))) (purse m₁ l₁))
    (hunpaid : after (calls c₀ n (pteGetPa (c₀ src i))) (purse m₁ l₁) = none)
    (hmoves : Moves m₁ m₂ l₁ l₂ 0 B)
    (hlost : (∃ p, 0 < B p) ↔ .full ∈ served (calls c₀ n (pteGetPa (c₀ src i))) (purse m₁ l₁)) :
    ∃ m₃, freeCopy u m₂ = .ok ((), m₃) ∧ InReach (calls c₀ (n + 1) src) (purse m l) ∧
      CopySub c₀ m l (n + 1) src (-1) m₃ := by
  rw [← callsUnder_of_valid hv] at hreach hunpaid hlost
  have hbeside := h.moves_beside hl hmoves
  have honce := hbeside.made_once hl
  have hfilled := h.filled_kept hl hmoves
  -- what has been served: all before the entry, and a part of what the entry asks for
  have hserved : served (calls c₀ (n + 1) src) (purse m l) =
      callsFor c₀ n src done ++ served (callsUnder c₀ n src i) (purse m₁ l₁) := by
    rw [calls_between hall, served_append_some h.paid, served_append_none hunpaid]
  have hnone : after (calls c₀ (n + 1) src) (purse m l) = none := by
    rw [calls_between hall]
    exact after_between h.paid hunpaid
  obtain ⟨m₃, l₃, hrun, hfreed⟩ := hclean.run (u := u) hbeside.free
    (fun p => by
      have hp := honce p
      omega)
    (fun p hp => hmoves.image ▸ h.moves.image ▸ hbeside.made_page hl (Nat.add_pos_right _ hp))
    (by
      rintro rfl j x hx
      -- the page is a copy of one that has been served
      have hvx : valid (m₂.cell u j) = true := by
        by_contra hvx
        have hnext : layout.next (m₂.cell u) j = none := if_neg hvx
        rw [hx] at hnext
        cases hnext
      have hj : j ∈ done := by
        by_contra hj
        rw [hfilled.todo j hj] at hvx
        exact absurd hvx (by decide)
      obtain rfl : pteGetPa (m₂.cell u j) = x := by
        rw [next_of_entry rfl hvx] at hx
        exact Option.some.inj hx
      have hentry := hfilled.copied j hj
      unfold EntryCopied at hentry
      split at hentry
      · next hvj =>
        obtain ⟨w, hw, heq, hcopy⟩ | ⟨heq, -⟩ := hentry
        · have hcell : m₂.cell w = c₀ (pteGetPa (c₀ src j)) := hcopy
          rw [heq, pteGetPa_makePte hw, hcell]
          refine htame hnone _ ?_
          rw [hserved]
          refine List.mem_append_left _ (List.mem_cons_of_mem _ (List.mem_flatMap.mpr ⟨j, hj, ?_⟩))
          rw [callsUnder_of_valid hvj]
          exact List.mem_singleton_self _
        · rw [heq] at hvx
          exact absurd hvx (by decide)
      · rw [hentry] at hvx
        exact absurd hvx (by decide))
  have hback : Moves m₂ m₃ l₂ l₃ (fun p => B p + Radix.own layout m₂.cell (n + 1) u p)
      (fun p => leak n m₂.cell u p + B p) :=
    (hfreed.beside B).congr (fun p => Nat.add_comm _ _) fun p => Eq.refl _
  refine ⟨m₃, hrun, fun p hp => ?_, .failed hnone (hbeside.trans hback) ?_⟩
  · rw [hserved] at hp
    rcases List.mem_append.mp hp with hp | hp
    · exact h.reach p hp
    · exact hreach p hp
  · rw [hserved, List.mem_append, ← hlost]
    simp only [Nat.add_pos_iff_pos_or_pos, exists_or]
    refine or_congr ?_ Iff.rfl
    by_cases hn : n = 0
    · subst hn
      have hnoleak : ¬∃ p, 0 < leak 0 m₂.cell u p := by
        rintro ⟨p, hp⟩
        rw [leak, if_pos rfl] at hp
        exact Nat.lt_irrefl 0 hp
      -- a table at level 0 that is not complete asks for pages only
      refine iff_of_false hnoleak ?_
      intro hfull
      rcases List.mem_cons.mp hfull with hfull | hfull
      · cases hfull
      · obtain ⟨j, -, hj⟩ := List.mem_flatMap.mp hfull
        by_cases hvj : valid (c₀ src j) = true
        · rw [callsUnder_of_valid hvj] at hj
          cases List.mem_singleton.mp hj
        · rw [callsUnder_of_not hvj] at hj
          cases hj
    · have hrim := h.rim_kept hl hmoves
      rw [← h.lost hn]
      simp only [leak, if_neg hn, hrim]

/-- **All entries have been copied.** -/
theorem finish (h : Copying c₀ m l n src u (List.finRange 512) true m₁ l₁) :
    InReach (calls c₀ (n + 1) src) (purse m l) ∧ CopySub c₀ m l (n + 1) src u m₁ := by
  have hhas := h.has_eq
  have hclosing : closing c₀ n src = if n = 0 then [.full] else [] := by
    rw [closing, ← hhas, if_pos rfl]
  have hcalls : calls c₀ (n + 1) src = callsFor c₀ n src (List.finRange 512) ++
      if n = 0 then [.full] else [] := by rw [calls_at_end rfl, hclosing]
  have hpaid : after (calls c₀ (n + 1) src) (purse m l) = some (purse m₁ l₁) := by
    rw [hcalls, after_append_some h.paid]
    split
    · rfl
    · rfl
  refine ⟨fun p hp => ?_, .made hpaid h.moves h.page (fun i => h.filled.copied i (List.mem_finRange i))
    fun _ => ?_⟩
  · rw [served_of_some hpaid, hcalls] at hp
    rcases List.mem_append.mp hp with hp | hp
    · exact h.reach p hp
    · split at hp
      · cases List.mem_singleton.mp hp
      · cases hp
  · rw [hcalls, List.mem_append]
    by_cases hn : n = 0
    · subst hn
      rw [if_pos rfl]
      refine iff_of_true (Radix.rim_pos_iff.mpr ?_) (.inr (List.mem_singleton_self _))
      -- there is an entry, so there is a page
      obtain ⟨i, hi, hv⟩ := List.any_eq_true.mp hhas.symm
      have hentry := h.filled.copied i hi
      rw [EntryCopied, if_pos hv] at hentry
      obtain ⟨w, hw, heq, -⟩ | ⟨-, hbarren⟩ := hentry
      · refine ⟨i, w, ?_, w, ?_⟩
        · rw [next_of_entry heq (valid_copy hv w), pteGetPa_makePte hw]
        · rw [Radix.rim, one_self]
          exact Nat.one_pos
      · exact absurd rfl hbarren.1
    · rw [if_neg hn, h.lost hn, or_iff_left List.not_mem_nil]

/-- **There was nothing to copy.** -/
theorem finishEmpty (h : Copying c₀ m l n src u (List.finRange 512) false m₁ l₁) (hl : FreeList m l) :
    wp (kfree u) (fun _ m₂ => InReach (calls c₀ (n + 1) src) (purse m l) ∧
      CopySub c₀ m l (n + 1) src 0 m₂) E m₁ := by
  have hinvalid : ∀ i, ¬valid (c₀ src i) = true := by
    intro i hv
    have hany : ((List.finRange 512).any fun i => valid (c₀ src i)) = true :=
      List.any_eq_true.mpr ⟨i, List.mem_finRange i, hv⟩
    rw [← h.has_eq] at hany
    cases hany
  have hfor : callsFor c₀ n src (List.finRange 512) = [.table] := by
    rw [callsFor, List.flatMap_eq_nil_iff.mpr fun i _ => callsUnder_of_not (hinvalid i)]
  have hcalls : calls c₀ (n + 1) src = [.table, .back] := by
    rw [calls_at_end rfl, hfor, closing, ← h.has_eq, if_neg (by decide)]
    rfl
  have hcell : ∀ i, layout.next (m₁.cell u) i = none := by
    intro i
    have hentry := h.filled.copied i (List.mem_finRange i)
    rw [EntryCopied, if_neg (hinvalid i)] at hentry
    exact if_neg (by rw [hentry]; decide)
  have hmoves : Moves m m₁ l l₁ 0 (one u) :=
    h.moves.congr (fun _ => rfl) fun p => (Radix.own_empty hcell).symm
  have honce := hmoves.made_once hl u
  rw [one_self] at honce
  have hpage : m₁.image.IsPage u := h.moves.image ▸ h.page
  refine wp_mono (kfree_spec (p := u) hmoves.free (by omega)) ?_ fun e he => absurd hpage he.2
  rintro _ m₂ ⟨-, hfreed, hdeny⟩
  have hpaid : after (calls c₀ (n + 1) src) (purse m l) = some (purse m₂ (u :: l₁)) := by
    have hbefore := h.paid
    rw [hfor] at hbefore
    rw [hcalls]
    change after ([Call.table] ++ [.back]) _ = _
    rw [after_append_some hbefore, purse, purse, hdeny, List.length_cons]
    rfl
  refine ⟨fun p hp => ?_, .empty hpaid (hmoves.trans hfreed) ⟨n.succ_ne_zero, fun i => ?_⟩ ?_⟩
  · rw [served_of_some hpaid, hcalls] at hp
    simp at hp
  · exact Bool.eq_false_iff.mpr (hinvalid i)
  · rw [hcalls]
    simp

end Copying

variable {copySub : Word → Kernel Word} {freeCopy : Word → Kernel Unit}

/-- **The loop over the entries that are left.** -/
theorem copyEntries_spec (hsub : Copies copySub n) (hclean : Cleans freeCopy n)
    (hsource : Source c₀ m l (n + 1) src) (htame : Tame c₀ (calls c₀ (n + 1) src) (purse m l))
    (is : List (Fin 512)) : ∀ {done : List (Fin 512)} {has : Bool} {m₁ : Mem} {l₁ : List Word},
    done ++ is = List.finRange 512 → Copying c₀ m l n src u done has m₁ l₁ →
    wp (copyEntries copySub freeCopy src u is has)
      (fun ret m' => InReach (calls c₀ (n + 1) src) (purse m l) ∧ CopySub c₀ m l (n + 1) src ret m')
      (fun _ => ¬InReach (calls c₀ (n + 1) src) (purse m l)) m₁ := by
  have hl := hsource.free
  induction is with
  | nil =>
    intro done has m₁ l₁ hall h
    rw [List.append_nil] at hall
    rw [hall] at h
    unfold copyEntries
    cases has with
    | true => exact h.finish
    | false =>
      rw [if_neg (by decide), wp_bind]
      exact wp_post (h.finishEmpty hl) fun _ _ hpost => hpost
  | cons i is ih =>
    intro done has m₁ l₁ hall h
    have hnext : (done ++ [i]) ++ is = List.finRange 512 := by rw [List.append_assoc]; exact hall
    have hi : i ∉ done := by
      intro hi
      have hnodup := List.nodup_finRange 512
      rw [← hall] at hnodup
      exact (List.nodup_append.mp hnodup).2.2 i hi i List.mem_cons_self rfl
    have hsame := hsource.of_moves h.moves
    have hread : m₁.cell src = c₀ src := (hsame.apart src Radix.own_root_pos).2
    unfold copyEntries
    rw [wp_bind, wp_inspect, hread, wp_ite]
    refine ⟨fun hv => ih hnext (h.skip hi (by simpa using hv)), fun hv => ?_⟩
    have hv : valid (c₀ src i) = true := by simpa using hv
    have hentry := calls_between (c := c₀) (n := n) (t := src) hall
    rw [callsUnder_of_valid hv] at hentry
    rw [wp_bind]
    refine wp_mono (hsub.run (hsame.child (next_of_entry rfl hv)) ?_) ?_ fun _ he hin => he ?_
    · rw [hentry] at htame
      exact htame.between h.paid
    swap
    · rw [hentry] at hin
      exact hin.between h.paid
    rintro ret m₂ ⟨hreach, hpost⟩
    cases hpost with
    | failed hunpaid hmoves hlost =>
      obtain ⟨m₃, hrun, hdone⟩ := h.undo hl hclean hall hv htame hreach hunpaid hmoves hlost
      rw [if_neg (by decide), if_pos rfl, wp_bind]
      unfold wp
      rw [hrun]
      exact hdone
    | empty hpaid hmoves hbarren hfull =>
      rw [if_pos rfl]
      exact ih hnext (h.skipBarren hl hi hv hreach hpaid hmoves hbarren hfull)
    | made hpaid hmoves hpage hclone hlost =>
      rw [if_neg hpage.ne_zero, if_neg hpage.ne_neg_one, wp_bind, wp_alter]
      exact ih hnext (h.put hl hi hv hreach hpaid hmoves hpage.isFrame hclone hlost)

/-- **A table of level `n`**, with what is below it. -/
theorem copyTableWith_copies (hsub : Copies copySub n) (hclean : Cleans freeCopy n) :
    Copies (copyTableWith copySub freeCopy) (n + 1) where
  run {c₀ m l src} hsource htame := by
    unfold copyTableWith
    rw [wp_bind]
    generalize hall : List.finRange 512 = all
    refine wp_post (getPagetable_serve hsource.free) ?_
    rintro r m₁ hpost
    cases r with
    | none =>
      obtain ⟨hserve, d, rfl⟩ := hpost
      have hserved : served (calls c₀ (n + 1) src) (purse m l) = [] := by
        rw [calls_succ, served, hserve, Option.elim_none]
      have hnone : after (calls c₀ (n + 1) src) (purse m l) = none := by
        rw [calls_succ, after, hserve, Option.bind_none]
      refine ⟨fun p hp => ?_, .failed (B := 0) hnone (.of_deny hsource.free d) ?_⟩
      · rw [hserved] at hp
        cases hp
      · rw [hserved]
        simp
    | some u =>
      obtain ⟨hpage, hclear, l₁, hserve, hmoves⟩ := hpost
      have hstart : [] ++ all = List.finRange 512 := hall.symm
      exact copyEntries_spec hsub hclean hsource htame all hstart
        (.start hserve hmoves hpage (congrFun hclear))

/-- **`copy_page_table_aux`** copies what has the height of its level. -/
theorem copyPageTableAux_copies (stack level : ℕ) :
    Copies (copyPageTableAux stack level) (level + 1) := by
  induction level with
  | zero => exact copyTableWith_copies copyLeaf_copies (freeBelow_cleans stack)
  | succ level ih => exact copyTableWith_copies ih (freePageTableAux_cleans level.succ_ne_zero)

end Vm
