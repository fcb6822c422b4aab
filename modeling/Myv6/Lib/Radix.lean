import Mathlib.Algebra.BigOperators.Group.Finset.Basic
import Mathlib.Algebra.Order.BigOperators.Group.Finset
import Mathlib.Data.Fintype.Basic
import Myv6.Lib.Own

/-!
# Lib/Radix — radix trees laid out in the cells of a memory

    level n      t
                 ├─ digit v n ──▸ u
    level n-1    │                ├─ digit v (n-1) ──▸ …
                                                         level 0   bottom cell of v

A cell holds children by index.  `own` counts how often a cell occurs in the tree under a root, so a
tree in which nothing is shared owns every cell at most once; `bottom` follows the digits of a key to
the cell that holds its entry.  Writing a bottom cell, or grafting a fresh empty cell where there was
no child, is all that a table ever sees.
-/

namespace Radix

open Own

/-- How the content of a cell names its children, and the digits of a key. -/
structure Layout (P C I V : Type*) where
  next : C → I → Option P
  digit : V → ℕ → I

variable {P C I V : Type*} [DecidableEq P] [Fintype I] (L : Layout P C I V)

/-- **How often a cell occurs** in the tree of `n + 1` levels under `t`. -/
def own (c : P → C) : ℕ → P → P → ℕ
  | 0, t, p => one t p
  | n + 1, t, p => one t p + ∑ i, (L.next (c t) i).elim 0 fun u => own c n u p

/-- The same for the cells that hold children, all but the bottom ones. -/
def inner (c : P → C) : ℕ → P → P → ℕ
  | 0, _, _ => 0
  | n + 1, t, p => one t p + ∑ i, (L.next (c t) i).elim 0 fun u => inner c n u p

/-- **The bottom cell of a key.** -/
def bottom (c : P → C) : ℕ → P → V → Option P
  | 0, t, _ => some t
  | n + 1, t, v => (L.next (c t) (L.digit v (n + 1))).bind fun u => bottom c n u v

/-- How many cells are missing on the way to the bottom cell of a key. -/
def need (c : P → C) : ℕ → P → V → ℕ
  | 0, _, _ => 0
  | n + 1, t, v => (L.next (c t) (L.digit v (n + 1))).elim (n + 1) fun u => need c n u v

/-- How many cells the way to one key leaves missing for another. -/
def apart [DecidableEq I] : ℕ → V → V → ℕ
  | 0, _, _ => 0
  | n + 1, v, w => if L.digit v (n + 1) = L.digit w (n + 1) then apart n v w else n + 1

/-- What the tree holds beside the child `i` of its root. -/
def around [DecidableEq I] (c : P → C) (n : ℕ) (t : P) (i : I) (p : P) : ℕ :=
  one t p + ∑ j ∈ Finset.univ.erase i, (L.next (c t) j).elim 0 fun u => own L c n u p

/-- The bottom cells of the tree, counted. -/
def rim (c : P → C) : ℕ → P → P → ℕ
  | 0, t, p => one t p
  | n + 1, t, p => ∑ i, (L.next (c t) i).elim 0 fun u => rim c n u p

/-- The memories agree on the cells with children. -/
def Agree (c c' : P → C) (n : ℕ) (t : P) : Prop := ∀ p, 0 < inner L c n t p → c' p = c p

variable {L} {c c' : P → C} {n : ℕ} {t u p : P} {v w : V} {i : I}

/-! ## The root and its children -/

theorem own_succ : own L c (n + 1) t p =
    one t p + ∑ i, (L.next (c t) i).elim 0 fun u => own L c n u p := rfl

theorem rim_succ : rim L c (n + 1) t p = ∑ i, (L.next (c t) i).elim 0 fun u => rim L c n u p := rfl

omit [DecidableEq P] [Fintype I] in
theorem bottom_succ : bottom L c (n + 1) t v =
    (L.next (c t) (L.digit v (n + 1))).bind fun u => bottom L c n u v := rfl

omit [DecidableEq P] [Fintype I] in
theorem need_succ : need L c (n + 1) t v =
    (L.next (c t) (L.digit v (n + 1))).elim (n + 1) fun u => need L c n u v := rfl

omit [DecidableEq P] [Fintype I] in
theorem apart_succ [DecidableEq I] : apart L (n + 1) v w =
    if L.digit v (n + 1) = L.digit w (n + 1) then apart L n v w else n + 1 := rfl

theorem one_le_own : one t p ≤ own L c n t p := by
  cases n with
  | zero => exact le_rfl
  | succ n => exact Nat.le_add_right _ _

theorem own_root_pos : 0 < own L c n t t := by
  have hle : one t t ≤ own L c n t t := one_le_own
  rwa [one_self] at hle

theorem inner_le_own : inner L c n t p ≤ own L c n t p := by
  induction n generalizing t with
  | zero => exact Nat.zero_le _
  | succ n ih =>
    refine Nat.add_le_add_left (Finset.sum_le_sum fun i _ => ?_) _
    cases L.next (c t) i with
    | none => exact le_rfl
    | some u => exact ih

/-- A child's cells are the parent's. -/
theorem own_child_le (h : L.next (c t) i = some u) :
    one t p + own L c n u p ≤ own L c (n + 1) t p := by
  refine Nat.add_le_add_left ?_ _
  calc own L c n u p = (L.next (c t) i).elim 0 fun u => own L c n u p := by rw [h]; rfl
    _ ≤ _ := Finset.single_le_sum (f := fun i => (L.next (c t) i).elim 0 fun u => own L c n u p)
      (fun _ _ => Nat.zero_le _) (Finset.mem_univ i)

theorem inner_child_le (h : L.next (c t) i = some u) :
    one t p + inner L c n u p ≤ inner L c (n + 1) t p := by
  refine Nat.add_le_add_left ?_ _
  calc inner L c n u p = (L.next (c t) i).elim 0 fun u => inner L c n u p := by rw [h]; rfl
    _ ≤ _ := Finset.single_le_sum (f := fun i => (L.next (c t) i).elim 0 fun u => inner L c n u p)
      (fun _ _ => Nat.zero_le _) (Finset.mem_univ i)

/-- **A tree is the tree of one level less and its bottom cells.** -/
theorem own_eq_add_rim : own L c (n + 1) t p = own L c n t p + rim L c (n + 1) t p := by
  induction n generalizing t with
  | zero => rfl
  | succ n ih =>
    have hchild : ∀ i, ((L.next (c t) i).elim 0 fun u => own L c (n + 1) u p) =
        ((L.next (c t) i).elim 0 fun u => own L c n u p) +
          (L.next (c t) i).elim 0 fun u => rim L c (n + 1) u p := by
      intro i
      cases L.next (c t) i with
      | none => rfl
      | some u => exact ih
    rw [own_succ, Finset.sum_congr rfl fun i _ => hchild i, Finset.sum_add_distrib, ← Nat.add_assoc]
    rfl

/-- There is a bottom cell below a child, or none at all. -/
theorem rim_pos_iff : (∃ p, 0 < rim L c (n + 1) t p) ↔
    ∃ i u, L.next (c t) i = some u ∧ ∃ p, 0 < rim L c n u p := by
  constructor
  · rintro ⟨p, hp⟩
    obtain ⟨i, -, hi⟩ := Finset.exists_ne_zero_of_sum_ne_zero (Nat.pos_iff_ne_zero.mp hp)
    cases hu : L.next (c t) i with
    | none =>
      rw [hu] at hi
      exact absurd rfl hi
    | some u =>
      rw [hu] at hi
      exact ⟨i, u, hu, p, Nat.pos_of_ne_zero hi⟩
  · rintro ⟨i, u, hu, p, hp⟩
    refine ⟨p, Nat.lt_of_lt_of_le hp ?_⟩
    calc rim L c n u p = (L.next (c t) i).elim 0 fun u => rim L c n u p := by rw [hu]; rfl
      _ ≤ _ := Finset.single_le_sum (f := fun i => (L.next (c t) i).elim 0 fun u => rim L c n u p)
        (fun _ _ => Nat.zero_le _) (Finset.mem_univ i)

/-! ## What the tree depends on -/

namespace Agree

theorem of_own (h : ∀ p, 0 < own L c n t p → c' p = c p) : Agree L c c' n t :=
  fun p hp => h p (Nat.lt_of_lt_of_le hp inner_le_own)

theorem root (h : Agree L c c' (n + 1) t) : c' t = c t :=
  h t (Nat.lt_of_lt_of_le (by simp) (Nat.le_add_right (one t t) _))

theorem child (h : Agree L c c' (n + 1) t) (hu : L.next (c t) i = some u) : Agree L c c' n u := by
  intro p hp
  have hle := inner_child_le (n := n) (p := p) hu
  exact h p (by omega)

theorem own_eq (h : Agree L c c' n t) : own L c' n t p = own L c n t p := by
  induction n generalizing t with
  | zero => rfl
  | succ n ih =>
    refine congrArg (one t p + ·) (Finset.sum_congr rfl fun i _ => ?_)
    rw [h.root]
    cases hu : L.next (c t) i with
    | none => rfl
    | some u => exact ih (h.child hu)

theorem rim_eq (h : ∀ p, 0 < own L c n t p → c' p = c p) : rim L c' n t p = rim L c n t p := by
  induction n generalizing t with
  | zero => rfl
  | succ n ih =>
    refine Finset.sum_congr rfl fun i _ => ?_
    rw [h t own_root_pos]
    cases hu : L.next (c t) i with
    | none => rfl
    | some u =>
      refine ih fun p hp => h p ?_
      have hle := own_child_le (n := n) (p := p) hu
      omega

theorem bottom_eq (h : Agree L c c' n t) : bottom L c' n t v = bottom L c n t v := by
  induction n generalizing t with
  | zero => rfl
  | succ n ih =>
    rw [bottom_succ, bottom_succ, h.root]
    cases hu : L.next (c t) (L.digit v (n + 1)) with
    | none => rfl
    | some u => exact ih (h.child hu)

theorem need_eq (h : Agree L c c' n t) : need L c' n t v = need L c n t v := by
  induction n generalizing t with
  | zero => rfl
  | succ n ih =>
    rw [need_succ, need_succ, h.root]
    cases hu : L.next (c t) (L.digit v (n + 1)) with
    | none => rfl
    | some u => exact ih (h.child hu)

end Agree

/-! ## Bottom cells -/

omit [DecidableEq P] [Fintype I] in
theorem need_le : need L c n t v ≤ n := by
  induction n generalizing t with
  | zero => exact le_rfl
  | succ n ih =>
    rw [need_succ]
    cases L.next (c t) (L.digit v (n + 1)) with
    | none => exact le_rfl
    | some u => exact ih.trans (Nat.le_succ n)

omit [DecidableEq P] [Fintype I] in
/-- A way that ends in a bottom cell is there. -/
theorem need_of_bottom (h : bottom L c n t v = some u) : need L c n t v = 0 := by
  induction n generalizing t with
  | zero => rfl
  | succ n ih =>
    obtain ⟨w, hw, hu⟩ := Option.bind_eq_some_iff.mp h
    rw [need_succ, hw]
    exact ih hu

/-- A bottom cell occurs once more in the tree than among the cells with children. -/
theorem inner_lt_own_of_bottom (h : bottom L c n t v = some u) :
    inner L c n t u < own L c n t u := by
  induction n generalizing t with
  | zero =>
    obtain rfl : t = u := Option.some.inj h
    exact own_root_pos
  | succ n ih =>
    obtain ⟨w, hw, hu⟩ := Option.bind_eq_some_iff.mp h
    refine Nat.add_lt_add_left (Finset.sum_lt_sum (fun i _ => ?_)
      ⟨L.digit v (n + 1), Finset.mem_univ _, ?_⟩) _
    · cases L.next (c t) i with
      | none => exact le_rfl
      | some w => exact inner_le_own
    · rw [hw]
      exact ih hu

theorem own_pos_of_bottom (h : bottom L c n t v = some u) : 0 < own L c n t u :=
  Nat.zero_lt_of_lt (inner_lt_own_of_bottom h)

/-- **In a tree that shares nothing, a bottom cell tells the digits that lead to it.** -/
theorem digit_eq_of_bottom [DecidableEq I] (honce : ∀ p, own L c n t p ≤ 1)
    (hv : bottom L c n t v = some u) (hw : bottom L c n t w = some u) :
    ∀ k, 0 < k → k ≤ n → L.digit v k = L.digit w k := by
  induction n generalizing t with
  | zero => exact fun k hk hk' => absurd hk (by omega)
  | succ n ih =>
    obtain ⟨x, hx, hxu⟩ := Option.bind_eq_some_iff.mp hv
    obtain ⟨y, hy, hyu⟩ := Option.bind_eq_some_iff.mp hw
    have hdig : L.digit v (n + 1) = L.digit w (n + 1) := by
      by_contra hne
      -- two different children would both hold the cell
      have hpair := Finset.add_le_sum (s := Finset.univ)
        (f := fun i => (L.next (c t) i).elim 0 fun z => own L c n z u)
        (fun _ _ => Nat.zero_le _) (Finset.mem_univ _) (Finset.mem_univ _) hne
      simp only [hx, hy, Option.elim_some] at hpair
      have hposx := own_pos_of_bottom hxu
      have hposy := own_pos_of_bottom hyu
      have hle := honce u
      rw [own_succ] at hle
      omega
    have hxy : x = y := by
      rw [hdig, hy] at hx
      exact (Option.some.inj hx).symm
    subst hxy
    intro k hk hkn
    rcases Nat.lt_or_ge n k with hlt | hle
    · obtain rfl : k = n + 1 := by omega
      exact hdig
    · refine ih (fun p => ?_) hxu hyu k hk hle
      have hchild := own_child_le (n := n) (p := p) hx
      have hp := honce p
      omega

omit [DecidableEq P] [Fintype I] in
/-- Where the way to one key is there, another key needs no more than what sets it apart. -/
theorem need_le_apart [DecidableEq I] (h : need L c n t v = 0) : need L c n t w ≤ apart L n v w := by
  induction n generalizing t with
  | zero => exact le_rfl
  | succ n ih =>
    rw [need_succ] at h
    rw [apart_succ, need_succ]
    cases hu : L.next (c t) (L.digit v (n + 1)) with
    | none =>
      rw [hu] at h
      cases h
    | some u =>
      rw [hu] at h
      split
      · next heq =>
        rw [← heq, hu]
        exact ih h
      · cases L.next (c t) (L.digit w (n + 1)) with
        | none => exact le_rfl
        | some x => exact Nat.le_succ_of_le need_le

/-! ## Changing the tree at one child of its root -/

section Child

variable [DecidableEq I]

/-- **The tree, split at one child.** -/
theorem own_split (i : I) : own L c (n + 1) t p =
    ((L.next (c t) i).elim 0 fun u => own L c n u p) + around L c n t i p := by
  have hsum := Finset.add_sum_erase Finset.univ
    (fun j => (L.next (c t) j).elim 0 fun u => own L c n u p) (Finset.mem_univ i)
  rw [own_succ, around, ← hsum]
  exact Nat.add_left_comm _ _ _

theorem around_child_le {j : I} (hj : j ≠ i) (h : L.next (c t) j = some u) :
    one t p + own L c n u p ≤ around L c n t i p := by
  refine Nat.add_le_add_left ?_ _
  calc own L c n u p = (L.next (c t) j).elim 0 fun u => own L c n u p := by rw [h]; rfl
    _ ≤ _ := Finset.single_le_sum (f := fun j => (L.next (c t) j).elim 0 fun u => own L c n u p)
      (fun _ _ => Nat.zero_le _) (Finset.mem_erase.mpr ⟨hj, Finset.mem_univ j⟩)

variable (L) in
/-- The memories agree beside the child `i`. -/
structure Beside (c c' : P → C) (n : ℕ) (t : P) (i : I) : Prop where
  next : ∀ j ≠ i, L.next (c' t) j = L.next (c t) j
  agree : ∀ j ≠ i, ∀ u, L.next (c t) j = some u → ∀ p, 0 < own L c n u p → c' p = c p

namespace Beside

/-- Leaving alone what the tree holds beside the child is enough. -/
theorem of_around (honce : around L c n t i t ≤ 1) (hnext : ∀ j ≠ i, L.next (c' t) j = L.next (c t) j)
    (h : ∀ p ≠ t, 0 < around L c n t i p → c' p = c p) : Beside L c c' n t i where
  next := hnext
  agree j hj u hu p hp := by
    have hle := around_child_le (n := n) (p := p) hj hu
    refine h p ?_ (by omega)
    rintro rfl
    rw [one_self] at hle
    omega

theorem around_eq (h : Beside L c c' n t i) : around L c' n t i p = around L c n t i p := by
  refine congrArg (one t p + ·) (Finset.sum_congr rfl fun j hj => ?_)
  have hne := Finset.ne_of_mem_erase hj
  rw [h.next j hne]
  cases hu : L.next (c t) j with
  | none => rfl
  | some u => exact (Agree.of_own (h.agree j hne u hu)).own_eq

omit [DecidableEq I] in
/-- Keys that do not pass the child see nothing. -/
theorem bottom_eq (h : Beside L c c' n t i) (hv : L.digit v (n + 1) ≠ i) :
    bottom L c' (n + 1) t v = bottom L c (n + 1) t v := by
  rw [bottom_succ, bottom_succ, h.next _ hv]
  cases hu : L.next (c t) (L.digit v (n + 1)) with
  | none => rfl
  | some u => exact (Agree.of_own (h.agree _ hv u hu)).bottom_eq

omit [DecidableEq I] in
theorem need_eq (h : Beside L c c' n t i) (hv : L.digit v (n + 1) ≠ i) :
    need L c' (n + 1) t v = need L c (n + 1) t v := by
  rw [need_succ, need_succ, h.next _ hv]
  cases hu : L.next (c t) (L.digit v (n + 1)) with
  | none => rfl
  | some u => exact (Agree.of_own (h.agree _ hv u hu)).need_eq

end Beside

end Child

/-! ## A new child -/

section Graft

variable [DecidableEq I]

omit [DecidableEq P] in
/-- A sum over the children, when one comes to them. -/
theorem sum_graft {f g : P → ℕ} (hnone : L.next (c t) i = none) (hnext : L.next (c' t) i = some u)
    (hother : ∀ j ≠ i, L.next (c' t) j = L.next (c t) j)
    (hfg : ∀ j ≠ i, ∀ w, L.next (c t) j = some w → g w = f w) :
    ∑ j, (L.next (c' t) j).elim 0 g = g u + ∑ j, (L.next (c t) j).elim 0 f := by
  rw [← Finset.add_sum_erase Finset.univ (fun j => (L.next (c' t) j).elim 0 g) (Finset.mem_univ i),
    ← Finset.add_sum_erase Finset.univ (fun j => (L.next (c t) j).elim 0 f) (Finset.mem_univ i)]
  simp only [hnone, hnext, Option.elim_some, Option.elim_none, Nat.zero_add]
  refine congrArg (g u + ·) (Finset.sum_congr rfl fun j hj => ?_)
  have hne := Finset.ne_of_mem_erase hj
  rw [hother j hne]
  cases hw : L.next (c t) j with
  | none => rfl
  | some w => exact hfg j hne w hw

/-- **Grafting a tree** adds its cells. -/
theorem own_graft (hnone : L.next (c t) i = none) (hnext : L.next (c' t) i = some u)
    (hbeside : Beside L c c' n t i) (hsub : ∀ p, 0 < own L c n u p → c' p = c p) :
    own L c' (n + 1) t p = own L c n u p + own L c (n + 1) t p := by
  have hsum := sum_graft (f := fun w => own L c n w p) (g := fun w => own L c' n w p) hnone hnext
    hbeside.next fun j hj w hw => (Agree.of_own (hbeside.agree j hj w hw)).own_eq
  rw [own_succ, own_succ, hsum, (Agree.of_own hsub).own_eq]
  exact Nat.add_left_comm _ _ _

theorem rim_graft (hnone : L.next (c t) i = none) (hnext : L.next (c' t) i = some u)
    (hbeside : Beside L c c' n t i) (hsub : ∀ p, 0 < own L c n u p → c' p = c p) :
    rim L c' (n + 1) t p = rim L c n u p + rim L c (n + 1) t p := by
  have hsum := sum_graft (f := fun w => rim L c n w p) (g := fun w => rim L c' n w p) hnone hnext
    hbeside.next fun j hj w hw => Agree.rim_eq (hbeside.agree j hj w hw)
  rw [rim_succ, rim_succ, hsum, Agree.rim_eq hsub]

end Graft

/-! ## An empty cell -/

theorem rim_empty (h : ∀ i, L.next (c t) i = none) : rim L c (n + 1) t p = 0 := by
  simp [rim_succ, h]

theorem own_empty (h : ∀ i, L.next (c t) i = none) : own L c n t p = one t p := by
  cases n with
  | zero => rfl
  | succ n => simp [own_succ, h]

omit [DecidableEq P] [Fintype I] in
theorem need_empty (h : ∀ i, L.next (c t) i = none) : need L c n t v = n := by
  cases n with
  | zero => rfl
  | succ n => simp [need_succ, h]

omit [DecidableEq P] [Fintype I] in
theorem bottom_empty (h : ∀ i, L.next (c t) i = none) (hu : bottom L c n t v = some u) : u = t := by
  cases n with
  | zero => exact (Option.some.inj hu).symm
  | succ n => simp [bottom_succ, h] at hu

omit [DecidableEq P] [Fintype I] in
theorem apart_le [DecidableEq I] : apart L n v w ≤ n := by
  induction n with
  | zero => exact le_rfl
  | succ n ih =>
    rw [apart_succ]
    split
    · exact ih.trans (Nat.le_succ n)
    · exact le_rfl

end Radix
