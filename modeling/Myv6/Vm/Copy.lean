import Myv6.Lib.Bytes
import Myv6.Vm.Built

/-!
# Vm/Copy — copying between user addresses and a kernel buffer

    uva      |···xxxx|xxxxxxxx|xx······|       a page at a time, each behind its own frame
               off     whole     rest
    kva      |xxxxxxxxxxxxxx|

`copy_in` and `copy_out` against the byte loop: `translate` is the physical address behind a user
address, `sent n` the memory after the first `n` bytes have been carried over one by one.
-/

namespace Vm

open Function (update)
open Hoare Own Bytes

/-! ## Bytes of memory -/

def Mem.byte (m : Mem) (a : Word) : Byte := byteAt (m.cell (roundDownPgsize a)) (a.toNat % 4096)

def Mem.setByte (m : Mem) (a : Word) (b : Byte) : Mem :=
  m.fill (roundDownPgsize a) (poke (m.cell (roundDownPgsize a)) (a.toNat % 4096) [b])

/-- `*a` of a `char` pointer. -/
def load (a : Word) : Kernel Byte :=
  if InRam a then inspect (·.byte a) else panic .kernelTrap

/-- `*a = b`; the text is mapped without `PTE_W`. -/
def store (a : Word) (b : Byte) : Kernel Unit := do
  let image ← inspect (·.image)
  if image.InData a then alter (·.setByte a b) else panic .kernelTrap

/-- The loop of `memcpy`, its turns in order. -/
def memcpy (dest src : Word) : ℕ → Kernel Unit
  | 0 => pure ()
  | i + 1 => do
    memcpy dest src i
    let b ← load (src + BitVec.ofNat 64 i)
    store (dest + BitVec.ofNat 64 i) b

/-! ## The code -/

inductive CopyWay
  | copyIn
  | copyOut
  | copyInStr
  | copyOutStr
  deriving DecidableEq, Repr

inductive CopyResult
  | success
  | fail
  | finish
  deriving DecidableEq, Repr

/-- The loop of `copy_str_in_page`, with the turns left. -/
def copyStrInPage (meetEnd : Bool) (way : CopyWay) : ℕ → Word → Word → Kernel CopyResult
  | 0, _, _ => pure (if meetEnd then .fail else .success)
  | i + 1, memStart, kva => do
    let copyChar ← load (if way = .copyInStr then memStart else kva)
    store (if way = .copyInStr then kva else memStart) copyChar
    if copyChar = 0 then
      pure .finish
    else
      copyStrInPage meetEnd way i (memStart + 1) (kva + 1)

def handleCopyForPageWithWay (memStart kva copySize size : Word) (way : CopyWay) :
    Kernel CopyResult :=
  match way with
  | .copyIn => do
    memcpy kva memStart copySize.toNat
    pure .success
  | .copyOut => do
    memcpy memStart kva copySize.toNat
    pure .success
  | .copyInStr => copyStrInPage (size == copySize) .copyInStr copySize.toNat memStart kva
  | .copyOutStr => copyStrInPage (size == copySize) .copyOutStr copySize.toNat memStart kva

/-- `MIN(PGSIZE - uva % PGSIZE, size)` -/
def copySize (uva size : Word) : Word :=
  if pgsize - uva % pgsize < size then pgsize - uva % pgsize else size

theorem pgsize_toNat : pgsize.toNat = 4096 := by decide

theorem umod_pgsize_toNat (a : Word) : (a % pgsize).toNat = a.toNat % 4096 := by
  rw [BitVec.toNat_umod, pgsize_toNat]

theorem copySize_toNat (uva size : Word) :
    (copySize uva size).toNat = min (4096 - uva.toNat % 4096) size.toNat := by
  have hmod := umod_pgsize_toNat uva
  have hsub : (pgsize - uva % pgsize).toNat = 4096 - uva.toNat % 4096 := by
    have hlt : uva.toNat % 4096 < 4096 := Nat.mod_lt _ (by decide)
    rw [BitVec.toNat_sub_of_le (by rw [BitVec.le_def, hmod, pgsize_toNat]; omega), hmod, pgsize_toNat]
  unfold copySize
  split
  · next h =>
    rw [BitVec.lt_def, hsub] at h
    omega
  · next h =>
    rw [BitVec.lt_def, hsub] at h
    omega

/-- The loop goes on with less. -/
theorem sub_copySize_lt (uva : Word) {size : Word} (h : size ≠ 0) :
    (size - copySize uva size).toNat < size.toNat := by
  have hsize := copySize_toNat uva size
  have hpos : 0 < size.toNat := Nat.pos_of_ne_zero fun hz => h (BitVec.eq_of_toNat_eq hz)
  have hlt : uva.toNat % 4096 < 4096 := Nat.mod_lt _ (by decide)
  rw [BitVec.toNat_sub_of_le (by rw [BitVec.le_def]; omega)]
  omega

/-- Returns `true` for `-1`. -/
def copyInOrOutMayStr (upgtable uva kva size : Word) (way : CopyWay) : Kernel Bool :=
  if _ : size = 0 then
    pure false
  else do
    match ← walk upgtable uva false with
    | none => pure true
    | some (t, i) =>
      let pte ← inspect (·.cell t i)
      if checkUvaAttributeValid (pteGetAttribute pte) then
        pure true
      else
        let memStart := pteGetPa pte + uva % pgsize
        match ← handleCopyForPageWithWay memStart kva (copySize uva size) size way with
        | .success =>
          copyInOrOutMayStr upgtable (uva + copySize uva size) (kva + copySize uva size)
            (size - copySize uva size) way
        | .fail => pure true
        | .finish => pure false
termination_by size.toNat
decreasing_by exact sub_copySize_lt uva (by assumption)

def copyIn (upgtable uva kva size : Word) : Kernel Bool :=
  copyInOrOutMayStr upgtable uva kva size .copyIn

def copyOut (upgtable uva kva size : Word) : Kernel Bool :=
  copyInOrOutMayStr upgtable uva kva size .copyOut

def copyInStr (upgtable uva kva size : Word) : Kernel Bool :=
  copyInOrOutMayStr upgtable uva kva size .copyInStr

def copyOutStr (upgtable uva kva size : Word) : Kernel Bool :=
  copyInOrOutMayStr upgtable uva kva size .copyOutStr

variable {m m' m₀ m₁ : Mem} {l l₀ : List Word} {r uva kva size a b p va memStart dest src : Word}
  {way : CopyWay} {c : Byte} {v k j n : ℕ} {E : Panic → Prop}

/-! ## One byte -/

theorem eq_of_page (h : roundDownPgsize a = roundDownPgsize b)
    (hoff : a.toNat % 4096 = b.toNat % 4096) : a = b := by
  have hpage := congrArg BitVec.toNat h
  rw [roundDownPgsize_toNat, roundDownPgsize_toNat] at hpage
  exact BitVec.eq_of_toNat_eq (by omega)

/-- **Writing a byte** writes no other. -/
theorem byte_setByte : (m.setByte a c).byte b = if b = a then c else m.byte b := by
  unfold Mem.byte Mem.setByte
  have hlt : b.toNat % 4096 < 4096 := Nat.mod_lt _ (by decide)
  by_cases hpage : roundDownPgsize b = roundDownPgsize a
  · rw [hpage, Mem.fill_cell_self, byteAt_poke hlt, List.length_singleton]
    by_cases hoff : b.toNat % 4096 = a.toNat % 4096
    · rw [if_pos (by omega), if_pos (eq_of_page hpage hoff), hoff, Nat.sub_self]
      rfl
    · rw [if_neg (by omega), if_neg (fun h : b = a => hoff (h ▸ rfl))]
  · rw [Mem.fill_cell_ne hpage, if_neg (fun h : b = a => hpage (h ▸ rfl))]

theorem setByte_cell_ne (h : p ≠ roundDownPgsize a) : (m.setByte a c).cell p = m.cell p :=
  Mem.fill_cell_ne h

@[simp] theorem setByte_image : (m.setByte a c).image = m.image := rfl

theorem wp_store {Q : Unit → Mem → Prop} (h : m.image.InData a) :
    wp (store a c) Q E m ↔ Q () (m.setByte a c) := by
  rw [store, wp_bind, wp_inspect, if_pos h, wp_alter]

/-! ## The reference -/

/-- **The physical address behind a user address**, if its page has a leaf with `PTE_U` and `PTE_R` or
`PTE_X`. -/
def translate (m : Mem) (r va : Word) : Option Word :=
  (userPage m r (vpn va)).map (· + va % pgsize)

/-- The page of a user address has a leaf with `PTE_U` and `PTE_R` or `PTE_X`. -/
def Accessible (m : Mem) (r va : Word) : Prop :=
  ∃ pte, pages m r (vpn va) = some pte ∧ pte &&& pteU ≠ 0 ∧ (pte &&& pteR ≠ 0 ∨ pte &&& pteX ≠ 0)

theorem checkUvaAttributeValid_iff (pte : Word) :
    checkUvaAttributeValid (pteGetAttribute pte) = false ↔
      pte &&& pteU ≠ 0 ∧ (pte &&& pteR ≠ 0 ∨ pte &&& pteX ≠ 0) := by
  have hU : pteGetAttribute pte &&& pteU = pte &&& pteU := by
    rw [pteGetAttribute, BitVec.and_assoc, show pteAttributeMask &&& pteU = pteU from by decide]
  have hR : pteGetAttribute pte &&& pteR = pte &&& pteR := by
    rw [pteGetAttribute, BitVec.and_assoc, show pteAttributeMask &&& pteR = pteR from by decide]
  have hX : pteGetAttribute pte &&& pteX = pte &&& pteX := by
    rw [pteGetAttribute, BitVec.and_assoc, show pteAttributeMask &&& pteX = pteX from by decide]
  rw [checkUvaAttributeValid, hU, hR, hX]
  split
  · next h => simp [h]
  · next h =>
    split
    · next h' => simp [h'.1, h'.2]
    · next h' => exact ⟨fun _ => ⟨h, not_and_or.mp h'⟩, fun _ => rfl⟩

/-- **What can be translated.** -/
theorem accessible_iff : Accessible m r va ↔ ∃ a, translate m r va = some a := by
  unfold Accessible translate userPage
  cases hpte : pages m r (vpn va) with
  | none => simp
  | some pte =>
    rw [Option.bind_some]
    by_cases hok : checkUvaAttributeValid (pteGetAttribute pte) = false
    · rw [hok, if_neg (by decide)]
      exact ⟨fun _ => ⟨_, rfl⟩, fun _ => ⟨pte, rfl, (checkUvaAttributeValid_iff pte).mp hok⟩⟩
    · rw [if_pos (Bool.not_eq_false _ ▸ hok)]
      refine ⟨?_, fun ⟨a, ha⟩ => nomatch ha⟩
      rintro ⟨_, ⟨⟩, hatt⟩
      exact absurd ((checkUvaAttributeValid_iff pte).mpr hatt) hok

theorem not_accessible (h : userPage m r (vpn va) = none) : ¬Accessible m r va := by
  rw [accessible_iff, translate, h]
  exact fun ⟨a, ha⟩ => nomatch ha

/-- One byte, between the address `a` of a user page and the address `k` of the buffer. -/
def carry (way : CopyWay) (a k : Word) (m : Mem) : Mem :=
  match way with
  | .copyIn | .copyInStr => m.setByte k (m.byte a)
  | .copyOut | .copyOutStr => m.setByte a (m.byte k)

@[simp] theorem carry_image (way : CopyWay) (a k : Word) : (carry way a k m).image = m.image := by
  cases way <;> rfl

/-- **The byte loop**: the memory after the bytes below `n`, carried over in order. -/
def sent (way : CopyWay) (m : Mem) (r uva kva : Word) : ℕ → Mem
  | 0 => m
  | n + 1 =>
    match translate m r (uva + BitVec.ofNat 64 n) with
    | none => sent way m r uva kva n
    | some a => carry way a (kva + BitVec.ofNat 64 n) (sent way m r uva kva n)

/-- The pages of the first `n` bytes pass the test. -/
def Reaches (m : Mem) (r uva : Word) (n : ℕ) : Prop :=
  ∀ k < n, Accessible m r (uva + BitVec.ofNat 64 k)

/-- **The bytes of the buffer that the copy comes to** are memory for writing, outside of the table
pages and of the frames of user pages. -/
def Buffer (m : Mem) (r uva kva size : Word) : Prop :=
  ∀ k < size.toNat, Reaches m r uva (k + 1) → m.image.InData (kva + BitVec.ofNat 64 k) ∧
    tables m r (roundDownPgsize (kva + BitVec.ofNat 64 k)) = 0 ∧
    ∀ v, userPage m r v ≠ some (roundDownPgsize (kva + BitVec.ofNat 64 k))

/-! ## Addresses in a page -/

theorem pteGetPa_aligned (pte : Word) : (pteGetPa pte).toNat % 4096 = 0 := by
  rw [pteGetPa, BitVec.toNat_shiftLeft, Nat.shiftLeft_eq]
  omega

theorem userPage_aligned (h : userPage m r v = some p) : p.toNat % 4096 = 0 := by
  obtain ⟨pte, -, hp⟩ := Option.bind_eq_some_iff.mp h
  obtain ⟨-, hp⟩ := Option.ite_none_left_eq_some.mp hp
  rw [← Option.some.inj hp]
  exact pteGetPa_aligned pte

/-- An address in a page is at its offset. -/
theorem add_umod_toNat (va : Word) (h : p.toNat % 4096 = 0) :
    (p + va % pgsize).toNat = p.toNat + va.toNat % 4096 := by
  have hlt : va.toNat % 4096 < 4096 := Nat.mod_lt _ (by decide)
  have hp := p.isLt
  rw [BitVec.toNat_add, umod_pgsize_toNat]
  omega

theorem roundDownPgsize_add (h : p.toNat % 4096 = 0) : roundDownPgsize (p + va % pgsize) = p := by
  refine BitVec.eq_of_toNat_eq ?_
  rw [roundDownPgsize_toNat, add_umod_toNat va h]
  omega

/-- An address in a page for writing is for writing. -/
theorem Image.InData.add {k : Image} (h : k.InData p) (hal : p.toNat % 4096 = 0) :
    k.InData (p + va % pgsize) := by
  obtain ⟨hge, hlt⟩ := h
  have hadd := add_umod_toNat va hal
  have hend : memoryEnd.toNat = 0x88000000 := by decide
  rw [BitVec.le_def] at hge
  rw [BitVec.lt_def, hend] at hlt
  refine ⟨?_, ?_⟩
  · rw [BitVec.le_def]
    omega
  · rw [BitVec.lt_def, hend]
    omega

/-- Inside a page the next address is next to the one before. -/
theorem translate_add (h : va.toNat % 4096 + k < 4096) :
    translate m r (va + BitVec.ofNat 64 k) = (translate m r va).map (· + BitVec.ofNat 64 k) := by
  have hlt := va.isLt
  have hadd : (va + BitVec.ofNat 64 k).toNat = va.toNat + k := by
    rw [BitVec.toNat_add, BitVec.toNat_ofNat]
    omega
  have hvpn : vpn (va + BitVec.ofNat 64 k) = vpn va := by
    rw [vpn, vpn, hadd]
    omega
  have hoff : (va + BitVec.ofNat 64 k) % pgsize = va % pgsize + BitVec.ofNat 64 k := by
    refine BitVec.eq_of_toNat_eq ?_
    rw [umod_pgsize_toNat, hadd, BitVec.toNat_add, umod_pgsize_toNat, BitVec.toNat_ofNat]
    omega
  have hfun : (fun q : Word => q + (va % pgsize + BitVec.ofNat 64 k)) =
      (· + BitVec.ofNat 64 k) ∘ (· + va % pgsize) := funext fun q => (BitVec.add_assoc ..).symm
  rw [translate, translate, hvpn, hoff, Option.map_map, hfun]

/-- **What is behind a user address** is memory for writing and in no table page. -/
theorem Built.translate_spare (h : Built r m) (ha : translate m r va = some a) :
    m.image.InData a ∧ tables m r (roundDownPgsize a) = 0 := by
  obtain ⟨p, hp, rfl⟩ := Option.map_eq_some_iff.mp ha
  obtain ⟨l, hfree, -⟩ := h.sound
  obtain ⟨hdata, hout⟩ := h.live _ p hp
  have hal := userPage_aligned hp
  have hzero := hout l hfree
  refine ⟨hdata.add hal, ?_⟩
  rw [roundDownPgsize_add hal]
  omega

/-! ## A turn of the loop -/

/-- The slot that the walk finds tells whether the page passes the test. -/
theorem userPage_of_find (htidy : ∀ p, 0 < tables m r p → Clean (m.cell p)) {t : Word} {i : Fin 512}
    (h : find m r va = some (t, i)) : userPage m r (vpn va) =
      if checkUvaAttributeValid (pteGetAttribute (m.cell t i)) then none
      else some (pteGetPa (m.cell t i)) := by
  obtain ⟨-, hbot, rfl, hentry⟩ := bottom_of_find h
  rcases htidy t (Radix.own_pos_of_bottom hbot) (index (vpn va) 0) with hzero | hv
  · -- an entry that is not valid has no attribute, so the test refuses it without `PTE_V`
    have hinvalid : valid (m.cell t (index (vpn va) 0)) ≠ true := by simp [hzero]
    rw [userPage, hentry, leaf, if_neg hinvalid, hzero, if_pos (by decide)]
    rfl
  · rw [userPage, hentry, leaf, if_pos hv, Option.bind_some]

/-- A memory with the same table pages. -/
def SameTable (r : Word) (m m' : Mem) : Prop := ∀ p, 0 < tables m r p → m'.cell p = m.cell p

namespace SameTable

theorem userPage_eq (h : SameTable r m m') (v : ℕ) : userPage m' r v = userPage m r v :=
  userPage_congr (congrFun (table_congr h).2.2 v)

theorem tidy (h : SameTable r m m') (htidy : ∀ p, 0 < tables m r p → Clean (m.cell p)) :
    ∀ p, 0 < tables m' r p → Clean (m'.cell p) := by
  intro p hp
  rw [(table_congr h).1] at hp
  rw [h p hp]
  exact htidy p hp

end SameTable

/-- **`memcpy`** takes one byte after the other. -/
theorem memcpy_spec {f : ℕ → Mem} : ∀ n : ℕ, (∀ i < n, (f i).image.InData (dest + BitVec.ofNat 64 i) ∧
      InRam (src + BitVec.ofNat 64 i) ∧ f (i + 1) =
        (f i).setByte (dest + BitVec.ofNat 64 i) ((f i).byte (src + BitVec.ofNat 64 i))) →
    wp (memcpy dest src n) (fun _ m' => m' = f n) E (f 0)
  | 0, _ => rfl
  | n + 1, h => by
    obtain ⟨hdest, hsrc, hnext⟩ := h n (Nat.lt_succ_self n)
    rw [memcpy, wp_bind]
    refine wp_post (memcpy_spec n fun i hi => h i (Nat.lt_succ_of_lt hi)) ?_
    rintro _ m' rfl
    rw [wp_bind, load, if_pos hsrc, wp_inspect, wp_store hdest, hnext]

/-- The ways without strings. -/
def CopyWay.Plain (way : CopyWay) : Prop := way = .copyIn ∨ way = .copyOut

/-- The copy of a part of a page carries its bytes over one by one. -/
theorem handleCopy_spec (hway : way.Plain) {f : ℕ → Mem} (n : Word)
    (h : ∀ i < n.toNat, (f i).image.InData (memStart + BitVec.ofNat 64 i) ∧
      (f i).image.InData (kva + BitVec.ofNat 64 i) ∧
      f (i + 1) = carry way (memStart + BitVec.ofNat 64 i) (kva + BitVec.ofNat 64 i) (f i)) :
    wp (handleCopyForPageWithWay memStart kva n size way)
      (fun res m' => res = .success ∧ m' = f n.toNat) E (f 0) := by
  obtain rfl | rfl := hway
  · rw [handleCopyForPageWithWay, wp_bind]
    refine wp_post (memcpy_spec n.toNat fun i hi => ?_) fun _ m' hm' => ⟨rfl, hm'⟩
    obtain ⟨hmem, hkva, hnext⟩ := h i hi
    exact ⟨hkva, hmem.inRam, hnext⟩
  · rw [handleCopyForPageWithWay, wp_bind]
    refine wp_post (memcpy_spec n.toNat fun i hi => ?_) fun _ m' hm' => ⟨rfl, hm'⟩
    obtain ⟨hmem, hkva, hnext⟩ := h i hi
    exact ⟨hmem, hkva.inRam, hnext⟩

theorem sent_succ (h : translate m r (uva + BitVec.ofNat 64 n) = some a) :
    sent way m r uva kva (n + 1) = carry way a (kva + BitVec.ofNat 64 n) (sent way m r uva kva n) := by
  rw [sent, h]

@[simp] theorem sent_image (way : CopyWay) (n : ℕ) : (sent way m r uva kva n).image = m.image := by
  induction n with
  | zero => rfl
  | succ n ih =>
    rw [sent]
    split
    · exact ih
    · rw [carry_image, ih]

theorem Reaches.mono (h : Reaches m r uva n) (hk : k ≤ n) : Reaches m r uva k :=
  fun i hi => h i (hi.trans_le hk)

/-- **No byte of the copy falls into a table page.** -/
theorem sent_sameTable (way : CopyWay) (h : Built r m) (hbuf : Buffer m r uva kva size) (n : ℕ)
    (hn : n ≤ size.toNat) (hreach : Reaches m r uva n) : SameTable r m (sent way m r uva kva n) := by
  induction n with
  | zero => exact fun _ _ => rfl
  | succ n ih =>
    have ih := ih (Nat.le_of_succ_le hn) (hreach.mono (Nat.le_succ n))
    obtain ⟨a, ha⟩ := accessible_iff.mp (hreach n (Nat.lt_succ_self n))
    obtain ⟨-, hout, -⟩ := hbuf n hn hreach
    have hout' := (h.translate_spare ha).2
    intro p hp
    rw [sent_succ ha, ← ih p hp]
    have hoff : ∀ b, tables m r (roundDownPgsize b) = 0 → p ≠ roundDownPgsize b := by
      rintro b hb rfl
      omega
    cases way with
    | copyIn => exact setByte_cell_ne (hoff _ hout)
    | copyInStr => exact setByte_cell_ne (hoff _ hout)
    | copyOut => exact setByte_cell_ne (hoff _ hout')
    | copyOutStr => exact setByte_cell_ne (hoff _ hout')

/-- What the loop leaves: it has carried over the bytes up to the end, or up to the first page that
fails the test. -/
def Sent (way : CopyWay) (m : Mem) (r uva kva size : Word) (err : Bool) (m' : Mem) : Prop :=
  ∃ n ≤ size.toNat, Reaches m r uva n ∧ m' = sent way m r uva kva n ∧
    match err with
    | false => n = size.toNat
    | true => n < size.toNat ∧ ¬Accessible m r (uva + BitVec.ofNat 64 n)

/-- At the end the loop returns 0. -/
theorem copyEnd_spec {Q : Bool → Mem → Prop} (hQ : Q false m') :
    wp (copyInOrOutMayStr r (uva + BitVec.ofNat 64 size.toNat) (kva + BitVec.ofNat 64 size.toNat)
      (size - BitVec.ofNat 64 size.toNat) way) Q E m' := by
  have hzero : size - BitVec.ofNat 64 size.toNat = 0 := by
    rw [BitVec.ofNat_toNat, BitVec.setWidth_eq, BitVec.sub_self]
    rfl
  rw [copyInOrOutMayStr, dif_pos hzero]
  exact hQ

/-- **A turn of the loop** after `j` bytes: the page of the next one fails the test, or the bytes of the
turn are all in one page that passes it. -/
theorem copyTurn_spec {Q : Bool → Mem → Prop} (h : Built r m) (hsame : SameTable r m m')
    (hpos : j < size.toNat) (hreach : Reaches m r uva j)
    (hstop : ¬Accessible m r (uva + BitVec.ofNat 64 j) → Q true m')
    (hturn : ∀ start chunk : Word, 0 < chunk.toNat → j + chunk.toNat ≤ size.toNat →
      Reaches m r uva (j + chunk.toNat) →
      (∀ i < chunk.toNat,
        translate m r (uva + BitVec.ofNat 64 (j + i)) = some (start + BitVec.ofNat 64 i)) →
      wp (handleCopyForPageWithWay start (kva + BitVec.ofNat 64 j) chunk (size - BitVec.ofNat 64 j) way)
        (fun res m'' => match res with
          | .success => wp (copyInOrOutMayStr r (uva + BitVec.ofNat 64 (j + chunk.toNat))
              (kva + BitVec.ofNat 64 (j + chunk.toNat)) (size - BitVec.ofNat 64 (j + chunk.toNat)) way)
              Q E m''
          | .fail => Q true m''
          | .finish => Q false m'') E m') :
    wp (copyInOrOutMayStr r (uva + BitVec.ofNat 64 j) (kva + BitVec.ofNat 64 j)
      (size - BitVec.ofNat 64 j) way) Q E m' := by
  have hsize := size.isLt
  have hleft : (size - BitVec.ofNat 64 j).toNat = size.toNat - j := by
    rw [BitVec.toNat_sub, BitVec.toNat_ofNat]
    omega
  have hne : size - BitVec.ofNat 64 j ≠ 0 := by
    intro hzero
    rw [hzero, show (0 : Word).toNat = 0 from rfl] at hleft
    omega
  rw [copyInOrOutMayStr, dif_neg hne, wp_bind, wp_walk_noAlloc]
  cases hfind : find m' r (uva + BitVec.ofNat 64 j) with
  | none =>
    refine hstop (not_accessible ?_)
    rw [← hsame.userPage_eq, userPage_of_none (pages_of_find_none hfind)]
  | some s =>
    obtain ⟨t, i⟩ := s
    have hpage := userPage_of_find (hsame.tidy h.tidy) hfind
    rw [hsame.userPage_eq] at hpage
    simp only [wp_bind, wp_inspect]
    generalize m'.cell t i = pte at hpage
    split
    · next hbad =>
      rw [if_pos hbad] at hpage
      exact hstop (not_accessible hpage)
    next hgood =>
    rw [if_neg hgood] at hpage
    have hstart : translate m r (uva + BitVec.ofNat 64 j) =
        some (pteGetPa pte + (uva + BitVec.ofNat 64 j) % pgsize) := by
      rw [translate, hpage]
      rfl
    -- the bytes of this turn, all in one page
    have hcount := copySize_toNat (uva + BitVec.ofNat 64 j) (size - BitVec.ofNat 64 j)
    have hless := sub_copySize_lt (uva + BitVec.ofNat 64 j) hne
    generalize copySize (uva + BitVec.ofNat 64 j) (size - BitVec.ofNat 64 j) = chunk at hcount hless
    have hbyte : ∀ i < chunk.toNat, translate m r (uva + BitVec.ofNat 64 (j + i)) =
        some (pteGetPa pte + (uva + BitVec.ofNat 64 j) % pgsize + BitVec.ofNat 64 i) := by
      intro i hi
      rw [BitVec.ofNat_add, ← BitVec.add_assoc, translate_add (by omega), hstart]
      rfl
    have hreach' : Reaches m r uva (j + chunk.toNat) := by
      intro k hk
      by_cases hkj : k < j
      · exact hreach k hkj
      · obtain ⟨i, rfl⟩ := Nat.exists_eq_add_of_le (Nat.le_of_not_lt hkj)
        exact accessible_iff.mpr ⟨_, hbyte i (by omega)⟩
    have hnext : ∀ x : Word,
        x + BitVec.ofNat 64 j + chunk = x + BitVec.ofNat 64 (j + chunk.toNat) := by
      intro x
      rw [BitVec.ofNat_add, BitVec.ofNat_toNat, BitVec.setWidth_eq, BitVec.add_assoc]
    have hsub : size - BitVec.ofNat 64 j - chunk = size - BitVec.ofNat 64 (j + chunk.toNat) := by
      refine BitVec.eq_of_toNat_eq ?_
      rw [BitVec.toNat_sub, hleft, BitVec.toNat_sub, BitVec.toNat_ofNat]
      omega
    rw [BitVec.toNat_sub_of_le (by rw [BitVec.le_def]; omega)] at hless
    rw [wp_bind]
    refine wp_post (hturn _ chunk (by omega) (by omega) hreach' hbyte) ?_
    simp only [hnext, hsub]
    rintro (_ | _ | _) m'' hpost
    · exact hpost
    · exact hpost
    · exact hpost

/-- **The loop**, when `j` bytes have been carried over. -/
theorem copyLoop_spec (hway : way.Plain) (h : Built r m) (hbuf : Buffer m r uva kva size) :
    ∀ j ≤ size.toNat, Reaches m r uva j →
    wp (copyInOrOutMayStr r (uva + BitVec.ofNat 64 j) (kva + BitVec.ofNat 64 j)
      (size - BitVec.ofNat 64 j) way) (Sent way m r uva kva size) E (sent way m r uva kva j) := by
  intro j
  induction hrest : size.toNat - j using Nat.strongRecOn generalizing j with
  | ind rest ih =>
  intro hj hreach
  rcases hj.eq_or_lt with rfl | hpos
  · exact copyEnd_spec ⟨_, le_rfl, hreach, rfl, rfl⟩
  refine copyTurn_spec h (sent_sameTable way h hbuf j hj hreach) hpos hreach
    (fun hnot => ⟨j, hj, hreach, rfl, hpos, hnot⟩) fun start chunk hchunk hle hreach' hbyte => ?_
  refine wp_post (handleCopy_spec (f := fun i => sent way m r uva kva (j + i)) hway chunk ?_) ?_
  · intro i hi
    obtain ⟨hdata, -, -⟩ := hbuf (j + i) (by omega) (hreach'.mono (by omega))
    rw [BitVec.ofNat_add, ← BitVec.add_assoc] at hdata
    rw [sent_image]
    refine ⟨(h.translate_spare (hbyte i hi)).1, hdata, ?_⟩
    rw [← Nat.add_assoc, sent_succ (hbyte i hi), BitVec.ofNat_add, ← BitVec.add_assoc]
  · rintro _ _ ⟨rfl, rfl⟩
    exact ih _ (by omega) _ rfl hle hreach'

/-! ## What the byte loop does -/

/-- The address of a byte of the user range. -/
def userByte (m : Mem) (r uva : Word) (k : ℕ) (a : Word) : Prop :=
  translate m r (uva + BitVec.ofNat 64 k) = some a

/-- The address of a byte of the buffer. -/
def bufferByte (kva : Word) (k : ℕ) (a : Word) : Prop := a = kva + BitVec.ofNat 64 k

/-- **Bytes carried over in order**: where several fall on one address, the last one counts. -/
structure Carried (dst src : ℕ → Word → Prop) (n : ℕ) (m m' : Mem) : Prop where
  last : ∀ k < n, ∀ a b, dst k a → src k b → (∀ j < n, k < j → ¬dst j a) → m'.byte a = m.byte b
  frame : ∀ a, (∀ k < n, ¬dst k a) → m'.byte a = m.byte a
  rest : m' = { m with cell := m'.cell }

/-- One byte more. -/
theorem Carried.succ {D C : ℕ → Word → Prop} (h : Carried D C n m m')
    (hD : ∀ k x y, D k x → D k y → x = y) (hC : ∀ k x y, C k x → C k y → x = y) (ha : D n a)
    (hb : C n b) (hapart : ∀ k < n, ¬D k b) :
    Carried D C (n + 1) m (m'.setByte a (m'.byte b)) where
  last k hk x y hx hy hlast := by
    rcases Nat.lt_succ_iff_lt_or_eq.mp hk with hkn | rfl
    · have hne : x ≠ a := by
        rintro rfl
        exact hlast n (Nat.lt_succ_self n) hkn ha
      rw [byte_setByte, if_neg hne]
      exact h.last k hkn x y hx hy fun j hj hkj => hlast j (Nat.lt_succ_of_lt hj) hkj
    · rw [hD k x a hx ha, hC k y b hy hb, byte_setByte, if_pos rfl]
      exact h.frame b hapart
  frame x hx := by
    have hne : x ≠ a := by
      rintro rfl
      exact hx n (Nat.lt_succ_self n) ha
    rw [byte_setByte, if_neg hne]
    exact h.frame x fun k hk => hx k (Nat.lt_succ_of_lt hk)
  rest := by
    rw [h.rest]
    rfl

theorem Carried.zero (D C : ℕ → Word → Prop) (m : Mem) : Carried D C 0 m m :=
  ⟨fun _ hk => absurd hk (Nat.not_lt_zero _), fun _ _ => rfl, rfl⟩

theorem userByte_unique (k : ℕ) (x y : Word) (hx : userByte m r uva k x) (hy : userByte m r uva k y) :
    x = y :=
  Option.some.inj (hx.symm.trans hy)

theorem bufferByte_unique (k : ℕ) (x y : Word) (hx : bufferByte kva k x) (hy : bufferByte kva k y) :
    x = y :=
  hx.trans hy.symm

/-- The buffer and the user range have no byte in common. -/
theorem Buffer.apart (hbuf : Buffer m r uva kva size) (hk : k < size.toNat)
    (hreach : Reaches m r uva (k + 1)) (hb : bufferByte kva k b) : ¬userByte m r uva j b := by
  intro hj
  obtain ⟨p, hp, heq⟩ := Option.map_eq_some_iff.mp hj
  have hpage : roundDownPgsize (_ + (uva + BitVec.ofNat 64 j) % pgsize) = _ :=
    roundDownPgsize_add (userPage_aligned hp)
  obtain ⟨-, -, hframe⟩ := hbuf k hk hreach
  obtain rfl : b = kva + BitVec.ofNat 64 k := hb
  rw [heq] at hpage
  exact hframe _ (hpage ▸ hp)

/-- Where the bytes go, and where they come from. -/
def CopyWay.target (way : CopyWay) (m : Mem) (r uva kva : Word) : ℕ → Word → Prop :=
  if way = .copyIn then bufferByte kva else userByte m r uva

def CopyWay.source (way : CopyWay) (m : Mem) (r uva kva : Word) : ℕ → Word → Prop :=
  if way = .copyIn then userByte m r uva else bufferByte kva

theorem sent_carried (hway : way.Plain) (hbuf : Buffer m r uva kva size) (n : ℕ)
    (hn : n ≤ size.toNat) (hreach : Reaches m r uva n) :
    Carried (way.target m r uva kva) (way.source m r uva kva) n m (sent way m r uva kva n) := by
  induction n with
  | zero => exact .zero _ _ m
  | succ n ih =>
    have ih := ih (Nat.le_of_succ_le hn) (hreach.mono (Nat.le_succ n))
    obtain ⟨a, ha⟩ := accessible_iff.mp (hreach n (Nat.lt_succ_self n))
    rw [sent_succ ha]
    obtain rfl | rfl := hway
    · refine ih.succ bufferByte_unique userByte_unique rfl ha fun k hk hb => ?_
      exact hbuf.apart (hk.trans hn) (hreach.mono (Nat.succ_le_succ hk.le)) hb ha
    · refine ih.succ userByte_unique bufferByte_unique ha rfl fun k _ hb => ?_
      exact hbuf.apart hn hreach rfl hb

/-- **How far a copy gets**: to the end, or to the first page that fails the test. -/
structure Stops (m : Mem) (r uva size : Word) (n : ℕ) : Prop where
  le : n ≤ size.toNat
  passed : Reaches m r uva n
  failed : n < size.toNat → ¬Accessible m r (uva + BitVec.ofNat 64 n) ∧
    (n = 0 ∨ (uva + BitVec.ofNat 64 n).toNat % 4096 = 0)

/-- The first byte that fails is the first one of all or the first one of its page. -/
theorem boundary (hreach : Reaches m r uva n) (hnot : ¬Accessible m r (uva + BitVec.ofNat 64 n)) :
    n = 0 ∨ (uva + BitVec.ofNat 64 n).toNat % 4096 = 0 := by
  by_contra hinside
  obtain ⟨hpos, hoff⟩ := not_or.mp hinside
  obtain ⟨k, rfl⟩ := Nat.exists_eq_succ_of_ne_zero hpos
  have hlt := (uva + BitVec.ofNat 64 k).isLt
  have hnext : uva + BitVec.ofNat 64 (k + 1) = uva + BitVec.ofNat 64 k + BitVec.ofNat 64 1 := by
    rw [BitVec.ofNat_add, BitVec.add_assoc]
  rw [Nat.succ_eq_add_one, hnext] at hnot hoff
  have hone : (BitVec.ofNat 64 1).toNat = 1 := rfl
  rw [BitVec.toNat_add, hone] at hoff
  obtain ⟨a, ha⟩ := accessible_iff.mp (hreach k (Nat.lt_succ_self k))
  exact hnot (accessible_iff.mpr ⟨_, (translate_add (by omega)).trans (congrArg _ ha)⟩)

/-- The bytes that a copy comes to. -/
theorem Stops.lt_iff (h : Stops m r uva size n) (hk : k < size.toNat) :
    k < n ↔ Reaches m r uva (k + 1) := by
  constructor
  · exact fun hkn => h.passed.mono hkn
  · intro hreach
    by_contra hnot
    exact (h.failed (by omega)).1 (hreach n (by omega))

/-- **What the byte-wise reference leaves.** -/
def Transferred (D C : ℕ → Word → Prop) (m : Mem) (r uva size : Word) (err : Bool) (m' : Mem) : Prop :=
  (err = false ↔ Reaches m r uva size.toNat) ∧ ∃ n, Stops m r uva size n ∧ Carried D C n m m'

/-- A copy of either way. -/
theorem copy_spec (hway : way.Plain) (h : Built r m) (hbuf : Buffer m r uva kva size) :
    wp (copyInOrOutMayStr r uva kva size way)
      (Transferred (way.target m r uva kva) (way.source m r uva kva) m r uva size) E m := by
  have hloop := copyLoop_spec (E := E) hway h hbuf 0 (Nat.zero_le _)
    fun k hk => absurd hk (Nat.not_lt_zero k)
  rw [BitVec.add_zero, BitVec.add_zero, BitVec.sub_zero] at hloop
  refine wp_post hloop ?_
  rintro err m' ⟨n, hn, hreach, rfl, hend⟩
  have hcarried := sent_carried hway hbuf n hn hreach
  cases err with
  | false =>
    obtain rfl : n = size.toNat := hend
    exact ⟨⟨fun _ => hreach, fun _ => rfl⟩, _, ⟨le_rfl, hreach, fun hlt => absurd hlt (lt_irrefl _)⟩,
      hcarried⟩
  | true =>
    obtain ⟨hlt, hnot⟩ := hend
    refine ⟨⟨nofun, fun hall => absurd (hall n hlt) hnot⟩, n, ⟨hn, hreach, fun _ => ?_⟩, hcarried⟩
    exact ⟨hnot, boundary hreach hnot⟩

/-- **`copy_in` and `copy_out` are the byte loop**: on a table built by the operations they end, return
0 when every page passes the test, and have carried over, in order, the bytes before the first page
that fails, and no others. -/
theorem copy_refines_bytes (hfree : FreeList m₀ l₀) (hget : getPagetable m₀ = .ok (some r, m₁))
    (hreach : Run.Reach (useStep r) (fun m u => u.Ok r m) m₁ m)
    (hbuf : Buffer m r uva kva size) :
    (∃ err m', copyIn r uva kva size m = .ok (err, m') ∧
      Transferred (bufferByte kva) (userByte m r uva) m r uva size err m') ∧
    (∃ err m', copyOut r uva kva size m = .ok (err, m') ∧
      Transferred (userByte m r uva) (bufferByte kva) m r uva size err m') :=
  have hbuilt := built_of_reach hfree hget hreach
  ⟨(copy_spec (.inl rfl) hbuilt hbuf).ends, (copy_spec (.inr rfl) hbuilt hbuf).ends⟩

/-! ## A table with two pages -/

theorem smallTable_built : Built smallRoot smallTable := by
  obtain ⟨l, hfree⟩ := smallMem_free
  exact built_getPagetable hfree smallTable_get

theorem smallTable_pages (v : ℕ) : pages smallTable smallRoot v = none := by
  obtain ⟨l, hfree⟩ := smallMem_free
  obtain ⟨-, hzero, -⟩ := (getClearPage_spec (E := fun _ => True) hfree).ok smallTable_get
  unfold pages
  split
  · exact entry_zero hzero
  · rfl

/-- A page from `kalloc`, mapped for user code at `0x1000`. -/
def mapOne : List Use := [.op .kalloc, .op (.mapPage 0x1000 0x87ffe000 (pteU ||| pteR))]

/-- A second one behind it, which user code can write, and two pages for a buffer; every page has its
own contents. -/
def fillTwo : List Use :=
  [.op .kalloc, .op .kalloc, .op .kalloc,
    .op (.mapPage 0x2000 0x87ffb000 (pteU ||| pteR ||| pteW)),
    .fill 0x87ffe000 fun _ => 0x4141414141414141,
    .fill 0x87ffb000 fun j => if j = 0 then 0x42424242 else 0x4343434343434343,
    .fill 0x87ff9000 fun _ => 0x5858585858585858, .fill 0x87ffa000 fun _ => 0x5959595959595959]

@[irreducible] def filledTable : Mem :=
  (useRun smallRoot smallTable (mapOne ++ fillTwo)).getD smallTable

/-- The run, what it leaves to the caller, and a byte on either side. -/
theorem filledTable_run : useRun smallRoot smallTable (mapOne ++ fillTwo) = some filledTable ∧
    callers filledTable smallRoot [0x87ff9000#64, 0x87ffa000#64] = true ∧
    filledTable.image.etext = 0x80002000 ∧
    filledTable.byte 0x87ffe800 = 0x41 ∧ filledTable.byte 0x87ff9000 = 0x58 := by
  have hrun : (useRun smallRoot smallTable (mapOne ++ fillTwo)).map (fun m =>
      decide (callers m smallRoot [0x87ff9000#64, 0x87ffa000#64] = true ∧
        m.image.etext = 0x80002000 ∧ m.byte 0x87ffe800 = 0x41 ∧ m.byte 0x87ff9000 = 0x58)) =
      some true := by
    decide +kernel
  obtain ⟨m, hm, hseen⟩ := Option.map_eq_some_iff.mp hrun
  unfold filledTable
  rw [hm, Option.getD_some]
  exact ⟨rfl, of_decide_eq_true hseen⟩

theorem filledTable_reach :
    Run.Reach (useStep smallRoot) (fun m u => u.Ok smallRoot m) smallTable filledTable :=
  Run.reach_of_guard (fun _ _ => Use.ok_of_meets) .refl filledTable_run.1

/-- The two pages. -/
theorem filledTable_pages {pte : Word} (h : pages filledTable smallRoot v = some pte) :
    (v = 1 ∧ pte = makePte 0x87ffe000 (pteU ||| pteR ||| pteV)) ∨
      (v = 2 ∧ pte = makePte 0x87ffb000 (pteU ||| pteR ||| pteW ||| pteV)) := by
  rcases pages_of_useRun smallTable_built filledTable_run.1 h with hold | ⟨va, pa, attr, hmem, rfl, rfl⟩
  · rw [smallTable_pages] at hold
    cases hold
  · simp only [mapOne, fillTwo, List.cons_append, List.nil_append, List.mem_cons, List.not_mem_nil,
      Use.op.injEq, Op.mapPage.injEq, reduceCtorEq, false_or, or_false] at hmem
    rcases hmem with ⟨rfl, rfl, rfl⟩ | ⟨rfl, rfl, rfl⟩
    · exact .inl ⟨by decide, rfl⟩
    · exact .inr ⟨by decide, rfl⟩

/-- The frames of the two pages. -/
theorem filledTable_frame (h : userPage filledTable smallRoot v = some p) :
    (v = 1 ∧ p = 0x87ffe000) ∨ (v = 2 ∧ p = 0x87ffb000) := by
  obtain ⟨pte, hpte, hp⟩ := Option.bind_eq_some_iff.mp h
  obtain ⟨-, hp⟩ := Option.ite_none_left_eq_some.mp hp
  obtain rfl := Option.some.inj hp
  rcases filledTable_pages hpte with ⟨rfl, rfl⟩ | ⟨rfl, rfl⟩
  · exact .inl ⟨rfl, by decide⟩
  · exact .inr ⟨rfl, by decide⟩

/-- **The two pages beside them are a buffer.** -/
theorem filledTable_buffer (uva : Word) (hsize : size.toNat ≤ 0x2000) :
    Buffer filledTable smallRoot uva 0x87ff9000 size := by
  intro k hk _
  have hbase : (0x87ff9000#64).toNat = 0x87ff9000 := rfl
  have hadd : (0x87ff9000 + BitVec.ofNat 64 k : Word).toNat = 0x87ff9000 + k := by
    rw [BitVec.toNat_add, BitVec.toNat_ofNat, show (0x87ff9000 : Word).toNat = 0x87ff9000 from rfl]
    omega
  have hpage : roundDownPgsize (0x87ff9000 + BitVec.ofNat 64 k) ∈ [0x87ff9000#64, 0x87ffa000#64] := by
    have hnext : (0x87ffa000#64).toNat = 0x87ffa000 := rfl
    rw [List.mem_pair]
    by_cases hlow : k < 4096
    · refine .inl (BitVec.eq_of_toNat_eq ?_)
      rw [roundDownPgsize_toNat, hadd, hbase]
      omega
    · refine .inr (BitVec.eq_of_toNat_eq ?_)
      rw [roundDownPgsize_toNat, hadd, hnext]
      omega
  have hend : memoryEnd.toNat = 0x88000000 := by decide
  obtain ⟨hrun, hown, htext, -⟩ := filledTable_run
  obtain ⟨l, hfree, -⟩ := (smallTable_built.of_useRun hrun).sound
  refine ⟨⟨BitVec.le_def.mpr ?_, BitVec.lt_def.mpr ?_⟩, ?_, fun v hv => ?_⟩
  · rw [htext, hadd, show (0x80002000 : Word).toNat = 0x80002000 from rfl]
    omega
  · rw [hadd, hend]
    omega
  · have honce := callers_once hown hfree (roundDownPgsize (0x87ff9000 + BitVec.ofNat 64 k))
    have hcount := List.count_pos_iff.mpr hpage
    omega
  · rcases filledTable_frame hv with ⟨-, heq⟩ | ⟨-, heq⟩
    · rw [heq] at hpage
      exact absurd hpage (by decide)
    · rw [heq] at hpage
      exact absurd hpage (by decide)

/-- The theorem on a range over the end of the first page, the second page, and the page behind it,
which is not mapped. -/
theorem copy_refines_bytes_filledTable :
    filledTable.byte 0x87ffe800 = 0x41 ∧ filledTable.byte 0x87ff9000 = 0x58 ∧
    (∃ m', copyIn smallRoot 0x1800 0x87ff9000 0x2000 filledTable = .ok (true, m') ∧
      Transferred (bufferByte 0x87ff9000) (userByte filledTable smallRoot 0x1800) filledTable smallRoot
        0x1800 0x2000 true m') ∧
    (∃ m', copyOut smallRoot 0x1800 0x87ff9000 0x2000 filledTable = .ok (true, m') ∧
      Transferred (userByte filledTable smallRoot 0x1800) (bufferByte 0x87ff9000) filledTable smallRoot
        0x1800 0x2000 true m') := by
  obtain ⟨l, hfree⟩ := smallMem_free
  have hstop : ¬Reaches filledTable smallRoot 0x1800 (0x2000 : Word).toNat := by
    intro hreach
    obtain ⟨a, ha⟩ := accessible_iff.mp (hreach 0x1800 (by decide))
    obtain ⟨p, hp, -⟩ := Option.map_eq_some_iff.mp ha
    rcases filledTable_frame hp with ⟨hv, -⟩ | ⟨hv, -⟩
    · exact absurd hv (by decide)
    · exact absurd hv (by decide)
  obtain ⟨⟨err, m', hin, htrans⟩, err', m'', hout, htrans'⟩ := copy_refines_bytes hfree smallTable_get
    filledTable_reach (filledTable_buffer 0x1800 (by decide : (0x2000 : Word).toNat ≤ 0x2000))
  obtain rfl : err = true := Bool.of_not_eq_false fun herr => hstop (htrans.1.mp herr)
  obtain rfl : err' = true := Bool.of_not_eq_false fun herr => hstop (htrans'.1.mp herr)
  obtain ⟨-, -, -, huser, hbuffer⟩ := filledTable_run
  exact ⟨huser, hbuffer, ⟨m', hin, htrans⟩, m'', hout, htrans'⟩

end Vm
