import Mathlib.Data.Nat.Notation
import Myv6.Lib.Index

/-!
# Vm/Pte — Sv39 addresses and page table entries

    va    | level 2 | level 1 | level 0 | offset |       pte   |    ppn    | attributes |
             9 bits    9 bits    9 bits   12 bits                 44 bits      10 bits

The macros of `vm_system.h` on 64-bit words, and the page number `vpn` of an address, whose three
digits in base 512 are the indices a walk uses.
-/

namespace Vm

/-- `uint64`. -/
abbrev Word := BitVec 64

def pgsize : Word := 1#64 <<< 12

def pgsizeMask : Word := (1#64 <<< 12) - 1

def vaEnd : Word := 1#64 <<< 38

def maxVa : Word := vaEnd - 1

def maxLevel : ℕ := 2

def pteV : Word := 1#64 <<< 0

def pteR : Word := 1#64 <<< 1

def pteW : Word := 1#64 <<< 2

def pteX : Word := 1#64 <<< 3

def pteU : Word := 1#64 <<< 4

def pteAttributeMask : Word := (1#64 <<< 10) - 1

def ptePpnMask : Word := ((1#64 <<< 44) - 1) <<< 10

def vpnLevelNMask : Word := (1#64 <<< 9) - 1

def vpnLevelN (va : Word) (level : ℕ) : Word := (va >>> (12 + level * 9)) &&& vpnLevelNMask

def pteGetPpn (pte : Word) : Word := (pte &&& ptePpnMask) >>> 10

def pteGetAttribute (pte : Word) : Word := pte &&& pteAttributeMask

def pteGetPa (pte : Word) : Word := pteGetPpn pte <<< 12

def makePte (pa attr : Word) : Word :=
  (((pa >>> 12) <<< 10) &&& ptePpnMask) ||| (attr &&& pteAttributeMask)

def roundUpPgsize (addr : Word) : Word := (addr + pgsize - 1) &&& ~~~pgsizeMask

def roundDownPgsize (addr : Word) : Word := addr &&& ~~~pgsizeMask

/-- `pte & PTE_V`. -/
def valid (pte : Word) : Bool := pte &&& pteV != 0

/-! ## Packing an entry -/

/-- A physical address an entry can hold: aligned to a page and below `2 ^ 56`. -/
structure IsFrame (pa : Word) : Prop where
  aligned : pa.toNat % 4096 = 0
  small : pa.toNat < 2 ^ 56

theorem valid_eq (pte : Word) : valid pte = pte.getLsbD 0 := by
  have hone : pteV = BitVec.twoPow 64 0 := by decide
  have hne : BitVec.twoPow 64 0 ≠ 0#64 := by decide
  rw [valid, hone, BitVec.and_twoPow]
  cases hbit : pte.getLsbD 0 <;> simp [hne]

@[simp] theorem valid_zero : valid 0#64 = false := by decide

theorem getLsbD_ptePpnMask (i : ℕ) : ptePpnMask.getLsbD i = decide (10 ≤ i ∧ i < 54) := by
  by_cases hi : i < 64
  · have hall : ∀ i : Fin 64, ptePpnMask.getLsbD i = decide (10 ≤ (i : ℕ) ∧ (i : ℕ) < 54) := by
      decide
    exact hall ⟨i, hi⟩
  · rw [BitVec.getLsbD_of_ge _ _ (by omega)]
    simp only [Bool.false_eq, decide_eq_false_iff_not]
    omega

theorem getLsbD_pteAttributeMask (i : ℕ) : pteAttributeMask.getLsbD i = decide (i < 10) := by
  by_cases hi : i < 64
  · have hall : ∀ i : Fin 64, pteAttributeMask.getLsbD i = decide ((i : ℕ) < 10) := by decide
    exact hall ⟨i, hi⟩
  · rw [BitVec.getLsbD_of_ge _ _ (by omega)]
    simp only [Bool.false_eq, decide_eq_false_iff_not]
    omega

/-- The bits of an entry. -/
theorem getLsbD_makePte (pa attr : Word) (i : ℕ) :
    (makePte pa attr).getLsbD i =
      if i < 10 then attr.getLsbD i else decide (i < 54) && pa.getLsbD (i + 2) := by
  simp only [makePte, BitVec.getLsbD_or, BitVec.getLsbD_and, BitVec.getLsbD_shiftLeft,
    BitVec.getLsbD_ushiftRight, getLsbD_ptePpnMask, getLsbD_pteAttributeMask]
  by_cases hi : i < 10
  · simp [hi]
  · have hadd : 12 + (i - 10) = i + 2 := by omega
    by_cases h54 : i < 54
    · simp [hi, h54, hadd, show i < 64 by omega, show 10 ≤ i by omega]
    · simp [hi, h54]

/-- **The attributes come back.** -/
theorem pteGetAttribute_makePte (pa attr : Word) :
    pteGetAttribute (makePte pa attr) = pteGetAttribute attr := by
  refine BitVec.eq_of_getLsbD_eq fun i _ => ?_
  simp only [pteGetAttribute, BitVec.getLsbD_and, getLsbD_makePte, getLsbD_pteAttributeMask]
  by_cases hi : i < 10 <;> simp [hi]

/-- **The physical page comes back.** -/
theorem pteGetPa_makePte {pa : Word} (h : IsFrame pa) (attr : Word) :
    pteGetPa (makePte pa attr) = pa := by
  refine BitVec.eq_of_getLsbD_eq fun i hi => ?_
  simp only [pteGetPa, pteGetPpn, BitVec.getLsbD_shiftLeft, BitVec.getLsbD_ushiftRight,
    BitVec.getLsbD_and, getLsbD_makePte, getLsbD_ptePpnMask]
  by_cases h12 : i < 12
  · -- the offset bits of an aligned address are zero
    have hmod : (4096 : ℕ) = 2 ^ 12 := by decide
    have hzero : (pa.toNat % 2 ^ 12).testBit i = false := by rw [← hmod, h.aligned]; simp
    rw [Nat.testBit_mod_two_pow, decide_eq_true h12, Bool.true_and] at hzero
    simp [h12, BitVec.getLsbD, hzero]
  by_cases h56 : i < 56
  · simp [h12, hi, show ¬10 + (i - 12) < 10 by omega, show 10 + (i - 12) < 54 by omega,
      show 10 + (i - 12) + 2 = i by omega]
  · have hbig : pa.getLsbD i = false :=
      Nat.testBit_lt_two_pow (Nat.lt_of_lt_of_le h.small
        (Nat.pow_le_pow_right (by decide) (by omega)))
    rw [hbig]
    simp [h12, hi, show ¬10 + (i - 12) < 54 by omega]

/-- The attributes of a valid entry, given to another one. -/
theorem pteGetAttribute_copy {pte : Word} (pa : Word) (h : valid pte = true) :
    pteGetAttribute (makePte pa (pteGetAttribute pte ||| pteV)) = pteGetAttribute pte := by
  rw [valid_eq] at h
  have hone : ∀ i : ℕ, pteV.getLsbD i = decide (i = 0) := by
    intro i
    by_cases hi : i < 64
    · have hall : ∀ i : Fin 64, pteV.getLsbD i = decide ((i : ℕ) = 0) := by decide
      exact hall ⟨i, hi⟩
    · rw [BitVec.getLsbD_of_ge _ _ (by omega)]
      simp only [Bool.false_eq, decide_eq_false_iff_not]
      omega
  rw [pteGetAttribute_makePte]
  refine BitVec.eq_of_getLsbD_eq fun i _ => ?_
  simp only [pteGetAttribute, BitVec.getLsbD_and, BitVec.getLsbD_or, getLsbD_pteAttributeMask, hone]
  by_cases hi : i = 0
  · simp [hi, h]
  · by_cases h10 : i < 10 <;> simp [hi, h10]

/-- An entry made with `PTE_V` is valid. -/
theorem valid_makePte (pa attr : Word) : valid (makePte pa (attr ||| pteV)) = true := by
  have hone : pteV.getLsbD 0 = true := by decide
  rw [valid_eq, getLsbD_makePte]
  simp [hone]

theorem valid_makePte_pteV (pa : Word) : valid (makePte pa pteV) = true := by
  have hzero : (0 : Word) ||| pteV = pteV := by decide
  rw [← hzero]
  exact valid_makePte pa 0

/-! ## Rounding -/

theorem roundDownPgsize_toNat (x : Word) : (roundDownPgsize x).toNat = x.toNat / 4096 * 4096 := by
  have hmask : ∀ i : Fin 64, pgsizeMask.getLsbD i = decide ((i : ℕ) < 12) := by decide
  have hshift : roundDownPgsize x = (x >>> 12) <<< 12 := by
    refine BitVec.eq_of_getLsbD_eq fun i hi => ?_
    simp only [roundDownPgsize, BitVec.getLsbD_and, BitVec.getLsbD_not, hmask ⟨i, hi⟩, hi,
      BitVec.getLsbD_shiftLeft, BitVec.getLsbD_ushiftRight]
    by_cases h12 : i < 12
    · simp [h12]
    · simp [h12, show 12 + (i - 12) = i by omega]
  rw [hshift, BitVec.toNat_shiftLeft, BitVec.toNat_ushiftRight, Nat.shiftLeft_eq,
    Nat.shiftRight_eq_div_pow]
  have hlt := x.isLt
  omega

theorem roundUpPgsize_toNat {x : Word} (h : x.toNat + 4095 < 2 ^ 64) :
    (roundUpPgsize x).toNat = (x.toNat + 4095) / 4096 * 4096 := by
  have hadd : (x + pgsize - 1).toNat = x.toNat + 4095 := by
    have hsize : pgsize.toNat = 4096 := by decide
    simp only [BitVec.toNat_sub, BitVec.toNat_add, hsize]
    rw [show (1 : Word).toNat = 1 from rfl]
    omega
  have hdown : roundUpPgsize x = roundDownPgsize (x + pgsize - 1) := rfl
  rw [hdown, roundDownPgsize_toNat, hadd]

/-! ## The page number and its digits -/

/-- The virtual page number of an address. -/
def vpn (va : Word) : ℕ := va.toNat / 4096

/-- The index a walk uses at a level: a digit of the page number in base 512. -/
def index (v level : ℕ) : Fin 512 := Fin.ofNat 512 (v / 512 ^ level)

/-- `VPN_LEVEL_N` as an index in a table. -/
def tableIndex (va : Word) (level : ℕ) : Fin 512 := Fin.ofNat 512 (vpnLevelN va level).toNat

theorem vpnLevelN_toNat (va : Word) (level : ℕ) :
    (vpnLevelN va level).toNat = va.toNat / 2 ^ (12 + level * 9) % 512 := by
  have hmask : vpnLevelNMask.toNat = 2 ^ 9 - 1 := by decide
  rw [vpnLevelN, BitVec.toNat_and, hmask, Nat.and_two_pow_sub_one_eq_mod,
    BitVec.toNat_ushiftRight, Nat.shiftRight_eq_div_pow]

/-- **A walk reads the digits of the page number.** -/
theorem tableIndex_eq (va : Word) (level : ℕ) : tableIndex va level = index (vpn va) level := by
  have hpow : 2 ^ (12 + level * 9) = 4096 * 512 ^ level := by
    rw [Nat.pow_add, Nat.mul_comm level 9, Nat.pow_mul]
  refine Fin.ext ?_
  simp only [tableIndex, index, vpn, Fin.val_ofNat, vpnLevelN_toNat, Nat.mod_mod, hpow,
    Nat.div_div_eq_div_mul]

/-- The page numbers of addresses up to `MAX_VA`. -/
def maxVpn : ℕ := 2 ^ 26

theorem vpn_lt_iff (va : Word) : vpn va < maxVpn ↔ ¬va > maxVa := by
  have hmax : maxVa.toNat = 2 ^ 38 - 1 := by decide
  rw [gt_iff_lt, BitVec.lt_def, hmax, vpn, maxVpn]
  omega

/-- **Page numbers with the same three digits are the same.** -/
theorem eq_of_index {v w : ℕ} (hv : v < maxVpn) (hw : w < maxVpn)
    (h : ∀ level ≤ 2, index v level = index w level) : v = w := by
  have h0 := congrArg Fin.val (h 0 (by decide))
  have h1 := congrArg Fin.val (h 1 (by decide))
  have h2 := congrArg Fin.val (h 2 (by decide))
  simp only [index, Fin.val_ofNat] at h0 h1 h2
  unfold maxVpn at hv hw
  omega

end Vm
