import Myv6.Lib.Bytes
import Myv6.Vm.Grow

/-!
# Vm/Lay — pages laid into a table one after the other, each with its content

    v          v + j
    | c 0 | c 1 | … |  not laid yet
       every page new, every page number free before

What a loop of `append_map_page` has done after `j` turns: `Put` is what its error exit needs,
`Laid` is all of it.
-/

namespace Vm

open Function (update)
open Hoare Own

/-! ## What it costs -/

/-- The table pages that a page number still needs, once the pages of a list are mapped. -/
def needAfter (f : ℕ → ℕ) : List ℕ → ℕ → ℕ
  | [] => f
  | w :: ws => needAfter (fun u => min (f u) (apart w u)) ws

/-- **What mapping fresh pages at the page numbers of a list costs**: a page each, and the tables that
are missing. -/
def cost (f : ℕ → ℕ) : List ℕ → ℕ
  | [] => 0
  | w :: ws => 1 + f w + cost (fun u => min (f u) (apart w u)) ws

variable {m m' m'' : Mem} {l l' : List Word} {r va attr p q : Word} {R : Word → ℕ} {S : Finset ℕ}
  {f : ℕ → ℕ} {v w i j k : ℕ} {ws ws' : List ℕ} {E : Panic → Prop} {c : ℕ → Fin 512 → Word}

theorem needAfter_append : ∀ {f : ℕ → ℕ} {ws : List ℕ},
    needAfter f (ws ++ ws') = needAfter (needAfter f ws) ws'
  | _, [] => rfl
  | _, w :: ws => by rw [List.cons_append, needAfter, needAfter, needAfter_append]

theorem cost_append : ∀ {f : ℕ → ℕ} {ws : List ℕ},
    cost f (ws ++ ws') = cost f ws + cost (needAfter f ws) ws'
  | f, [] => by
    rw [List.nil_append, cost, Nat.zero_add]
    rfl
  | f, w :: ws => by
    rw [List.cons_append, cost, cost, cost_append, needAfter]
    omega

/-- One page more. -/
theorem cost_range_succ (f : ℕ → ℕ) (v j : ℕ) : cost f (List.range' v (j + 1)) =
    cost f (List.range' v j) + (1 + needAfter f (List.range' v j) (v + j)) := by
  rw [List.range'_concat, cost_append, Nat.one_mul]
  rfl

theorem needAfter_range_succ (f : ℕ → ℕ) (v j w : ℕ) : needAfter f (List.range' v (j + 1)) w =
    min (needAfter f (List.range' v j) w) (apart (v + j) w) := by
  rw [List.range'_concat, needAfter_append, Nat.one_mul]
  rfl

/-- More pages cost more. -/
theorem cost_range_mono (f : ℕ → ℕ) (v : ℕ) (h : j ≤ k) :
    cost f (List.range' v j) ≤ cost f (List.range' v k) := by
  obtain ⟨n, rfl⟩ := Nat.exists_eq_add_of_le h
  rw [← List.range'_append_1, cost_append]
  exact Nat.le_add_right _ _

/-! ## What has been laid -/

theorem pages_of_le (h : maxVpn ≤ v) : pages m r v = none := if_neg (Nat.not_lt.mpr h)

/-- **A write to a page that the table maps.** -/
theorem Holds.fill (h : Holds S m l r R) (hp : 0 < held (pages m r) S p) (g : Fin 512 → Word) :
    Holds S (m.fill p g) l r R ∧ Moves m (m.fill p g) l l (space S m r) (space S (m.fill p g) r) ∧
      need (m.fill p g) r = need m r ∧ pages (m.fill p g) r = pages m r := by
  have honce := h.once p
  have hspace : 0 < space S m r p := Nat.lt_of_lt_of_le hp (Nat.le_add_left _ _)
  have hcell : ∀ q, 0 < tables m r q → (m.fill p g).cell q = m.cell q := fun q hq =>
    Mem.fill_cell_ne (by
      rintro rfl
      unfold space at honce
      omega)
  obtain ⟨htab, hneed, hpages⟩ := table_congr hcell
  have hsame : space S (m.fill p g) r = space S m r := by
    funext q
    rw [space, htab, hpages, space]
  have hmoves : Moves m (m.fill p g) l l (space S m r) (space S m r) :=
    .of_fill h.free (by omega) hspace g
  rw [hsame]
  refine ⟨h.of_moves (by rw [hsame]; exact hmoves), hmoves, hneed, hpages⟩

/-- **After `j` pages from `v` on**, mapped where nothing was. -/
structure Put (S : Finset ℕ) (m : Mem) (l : List Word) (r : Word) (R : Word → ℕ) (v j : ℕ) (m' : Mem)
    (l' : List Word) : Prop where
  holds : Holds S m' l' r R
  moves : Moves m m' l l' (space S m r) (space S m' r)
  fresh : ∀ w, v ≤ w ∧ w < v + j → pages m r w = none
  mapped : ∀ w, v ≤ w ∧ w < v + j → pages m' r w ≠ none
  outside : ∀ w, ¬(v ≤ w ∧ w < v + j) → pages m' r w = pages m r w
  kept : ∀ q, 0 < held (pages m r) S q → m'.cell q = m.cell q

/-- **The same with what the pages hold**, and what they have cost. -/
structure Laid (S : Finset ℕ) (m : Mem) (l : List Word) (r : Word) (R : Word → ℕ) (v : ℕ) (attr : Word)
    (c : ℕ → Fin 512 → Word) (j : ℕ) (m' : Mem) (l' : List Word) : Prop where
  put : Put S m l r R v j m' l'
  content : ∀ i < j, ∃ p, m.image.IsPage p ∧ pages m' r (v + i) = some (makePte p (attr ||| pteV)) ∧
    m'.cell p = c i
  need_eq : ∀ w, need m' r w = needAfter (need m r) (List.range' v j) w
  avail_eq : avail m.deny l.length = avail m'.deny l'.length + cost (need m r) (List.range' v j)

/-- Nothing laid yet. -/
theorem Laid.refl (h : Holds S m l r R) : Laid S m l r R v attr c 0 m l where
  put := ⟨h, .refl h.free, fun w hw => by omega, fun w hw => by omega, fun _ _ => rfl, fun _ _ => rfl⟩
  content i hi := by omega
  need_eq _ := rfl
  avail_eq := rfl

/-- A frame of the table is held. -/
theorem frame_held {pte : Word} (hpte : pages m r w = some pte) (hw : w ∈ S) :
    0 < held (pages m r) S (pteGetPa pte) := by
  have hle := frameOf_le_held (f := pages m r) (p := pteGetPa pte) hw
  rw [hpte, frameOf_some, one_self] at hle
  exact hle

/-- What the table held before is held still. -/
theorem Put.held_le (h : Put S m l r R v j m' l') (hq : 0 < held (pages m r) S q) :
    0 < held (pages m' r) S q := by
  refine Nat.lt_of_lt_of_le hq (Finset.sum_le_sum fun w _ => ?_)
  by_cases hw : v ≤ w ∧ w < v + j
  · rw [h.fresh w hw, frameOf_none]
    exact Nat.zero_le _
  · rw [h.outside w hw]

/-- What one turn leaves: nothing new, or a page to be written. -/
def Turn (S : Finset ℕ) (m : Mem) (l : List Word) (r : Word) (R : Word → ℕ) (v : ℕ) (attr : Word)
    (c : ℕ → Fin 512 → Word) (j : ℕ) : Option Word → Mem → Prop
  | none, m' => (∃ l', Put S m l r R v j m' l') ∧
      (maxVpn < v + (j + 1) ∨ avail m.deny l.length < cost (need m r) (List.range' v (j + 1)))
  | some page, m' => v + (j + 1) ≤ maxVpn ∧ ∀ g, ∃ l', Put S m l r R v (j + 1) (m'.fill page g) l' ∧
      (g = c j → Laid S m l r R v attr c (j + 1) (m'.fill page g) l')

/-- **One turn of a loop that appends pages.** -/
theorem appendMapPage_turn (hall : ∀ w < maxVpn, w ∈ S) (h : Laid S m l r R v attr c j m' l')
    (hva : vpn va = v + j) :
    wp (appendMapPage r va attr) (Turn S m l r R v attr c j)
      (fun e => e = .mapMapped ∧ pages m r (v + j) ≠ none) m' := by
  have hput := h.put
  refine wp_mono (appendMapPage_spec hput.holds fun hlt => hall _ hlt) ?_ ?_
  swap
  · rintro e ⟨he, hbad, -⟩
    rw [hva, hput.outside _ (by omega)] at hbad
    exact ⟨he, hbad⟩
  rintro (_ | page) m₁ ⟨⟨l₁, hholds, hmoves, hres⟩, hkept⟩
  · obtain ⟨hwhy, hpages⟩ := hres
    refine ⟨⟨l₁, hholds, hput.moves.trans hmoves, hput.fresh, ?_, ?_, fun q hq => ?_⟩, ?_⟩
    · rw [hpages]
      exact hput.mapped
    · rw [hpages]
      exact hput.outside
    · rw [hkept q (hput.held_le hq), hput.kept q hq]
    · rw [hva, h.need_eq] at hwhy
      rw [cost_range_succ, h.avail_eq]
      exact hwhy.imp (fun hle => by omega) fun hlt => by omega
  obtain ⟨hpage, hnone, hpages, hneed, havail⟩ := hres
  rw [hva] at hnone hpages hneed havail
  have hlt : v + j < maxVpn := by
    by_contra hge
    have hsome : pages m₁ r (v + j) = some (makePte page (attr ||| pteV)) := by
      rw [hpages, Function.update_self]
    rw [pages_of_le (by omega)] at hsome
    cases hsome
  have hframe : pteGetPa (makePte page (attr ||| pteV)) = page := pteGetPa_makePte hpage.isFrame _
  have hheld : 0 < held (pages m₁ r) S page := by
    have hpos := frame_held (m := m₁) (r := r) (w := v + j) (S := S)
      (by rw [hpages, Function.update_self]) (hall _ hlt)
    rwa [hframe] at hpos
  have hnew : held (pages m' r) S page = 0 := by
    have honce := hholds.once page
    have hupd := held_update (f := pages m' r) (e := some (makePte page (attr ||| pteV))) (p := page)
      (hall _ hlt)
    rw [hnone, ← hpages, frameOf_none, frameOf_some, hframe, one_self] at hupd
    unfold space at honce
    omega
  refine ⟨hlt, fun g => ?_⟩
  obtain ⟨hholds₂, hmoves₂, hneed₂, hpages₂⟩ := hholds.fill hheld g
  have hcell : ∀ q, 0 < held (pages m' r) S q → (m₁.fill page g).cell q = m'.cell q := by
    intro q hq
    rw [Mem.fill_cell_ne (by rintro rfl; omega), hkept q hq]
  have hat : ∀ w, pages (m₁.fill page g) r w =
      if w = v + j then some (makePte page (attr ||| pteV)) else pages m' r w := by
    intro w
    rw [hpages₂, hpages, Function.update_apply]
  have hput₂ : Put S m l r R v (j + 1) (m₁.fill page g) l₁ := by
    refine ⟨hholds₂, hput.moves.trans (hmoves.trans hmoves₂), fun w hw => ?_, fun w hw => ?_,
      fun w hw => ?_, fun q hq => ?_⟩
    · by_cases hwj : w = v + j
      · rw [hwj, ← hput.outside _ (by omega), hnone]
      · exact hput.fresh w (by omega)
    · rw [hat]
      split
      · exact Option.some_ne_none _
      · exact hput.mapped w (by omega)
    · rw [hat, if_neg (by omega)]
      exact hput.outside w (by omega)
    · rw [hcell q (hput.held_le hq), hput.kept q hq]
  refine ⟨l₁, hput₂, fun hg => ⟨hput₂, fun i hi => ?_, fun w => ?_, ?_⟩⟩
  · by_cases hij : i = j
    · subst hij
      refine ⟨page, hput.moves.image ▸ hpage, by rw [hat, if_pos rfl], ?_⟩
      rw [Mem.fill_cell_self, hg]
    · obtain ⟨p, hp, hmap, hc⟩ := h.content i (by omega)
      have hvi : v + i < maxVpn := by omega
      have hposs := frame_held hmap (hall _ hvi)
      refine ⟨p, hp, by rw [hat, if_neg (by omega), hmap], ?_⟩
      rw [pteGetPa_makePte hp.isFrame] at hposs
      rw [hcell p hposs, hc]
  · rw [hneed₂, hneed, h.need_eq, needAfter_range_succ]
  · have hafter := h.need_eq (v + j)
    have hbefore := h.avail_eq
    rw [cost_range_succ, ← hafter, Mem.fill_deny]
    omega

/-- **The byte behind a virtual address**, if its page is mapped. -/
def byteOfVa (m : Mem) (r : Word) (a : ℕ) : Option Bytes.Byte :=
  (pages m r (a / 4096)).map fun pte => Bytes.byteAt (m.cell (pteGetPa pte)) (a % 4096)

/-- **Pages taken out again**: the table is as it was, but for table pages. -/
structure Undone (S : Finset ℕ) (m : Mem) (l : List Word) (r : Word) (R : Word → ℕ) (m' : Mem)
    (l' : List Word) : Prop where
  holds : Holds S m' l' r R
  moves : Moves m m' l l' (space S m r) (space S m' r)
  pages_eq : pages m' r = pages m r
  kept : ∀ q, 0 < held (pages m r) S q → m'.cell q = m.cell q

/-- **The error exit** of a loop that appends pages. -/
theorem Put.undo (hall : ∀ w < maxVpn, w ∈ S) (h : Put S m l r R (vpn va) j m' l')
    (hj : j = 0 ∨ vpn va + j ≤ maxVpn) :
    wp (unmapNPagesFree r va j) (fun _ m'' => ∃ l'', Undone S m l r R m'' l'') E m' := by
  rcases hj with rfl | hj
  · exact ⟨l', h.holds, h.moves, funext fun w => h.outside w (by omega), h.kept⟩
  refine wp_post (unmapNPagesFree_range h.holds (fun w hw => hall w (by omega)) hj h.mapped) ?_
  rintro _ m'' ⟨⟨l'', hholds, hmoves⟩, hkept, hpages, -⟩
  refine ⟨l'', hholds, h.moves.trans hmoves, funext fun w => ?_, fun q hq => ?_⟩
  · rw [hpages]
    split
    · next hin => exact (h.fresh w hin).symm
    · next hin => exact h.outside w hin
  · have hout : ∀ w ∈ S \ Finset.Ico (vpn va) (vpn va + j), pages m' r w = pages m r w := by
      intro w hw
      rw [Finset.mem_sdiff, Finset.mem_Ico] at hw
      exact h.outside w hw.2
    have hsame : held (pages m r) S q =
        held (pages m r) (S \ Finset.Ico (vpn va) (vpn va + j)) q :=
      held_subset Finset.sdiff_subset fun w hw hnot => h.fresh w (by
        rw [Finset.mem_sdiff, Finset.mem_Ico, not_and_not_right] at hnot
        exact hnot hw)
    rw [hkept q (by rwa [held_congr hout, ← hsame]), h.kept q hq]

end Vm
