import Myv6.Loader.Image
import Myv6.Vm.Copy

/-!
# Loader/ReadOnly — `copy_out` and pages without `PTE_W`

    p_flags ──▸ PTE_U, PTE_R, PTE_X, PTE_W ──▸ check_uva_attribute_valid: PTE_U and PTE_R or PTE_X

One test serves both ways of a copy, and it does not ask for `PTE_W`; so a page that the program cannot
write is written for it.
-/

namespace Loader

open Bytes Hoare Vm

variable {m m' m₀ m₁ : Mem} {l₀ : List Word} {r uva kva size a : Word} {j k n : ℕ} {err : Bool}

/-- The address is in the frame of a user page without `PTE_W`. -/
def ReadOnly (m : Mem) (r a : Word) : Prop :=
  ∃ v pte, pages m r v = some pte ∧ pte &&& pteU ≠ 0 ∧ pte &&& pteW = 0 ∧
    pteGetPa pte = roundDownPgsize a

/-- **Read-only pages are left alone**: none of their bytes changes, and a range that touches one is
refused. -/
structure Protected (m : Mem) (r uva size : Word) (err : Bool) (m' : Mem) : Prop where
  unchanged : ∀ a, ReadOnly m r a → m'.byte a = m.byte a
  refused : ∀ k < size.toNat, ∀ pte, pages m r (vpn (uva + BitVec.ofNat 64 k)) = some pte →
    pte &&& pteU ≠ 0 → pte &&& pteW = 0 → err = true

/-- **The range spares the read-only pages**: if it passes the test as a whole it has none; and what the
copy comes to writes over their bytes what they already hold. -/
structure Spares (m : Mem) (r uva kva size : Word) : Prop where
  writable : Reaches m r uva size.toNat → ∀ k < size.toNat, ∀ pte,
    pages m r (vpn (uva + BitVec.ofNat 64 k)) = some pte → pte &&& pteW ≠ 0
  same : ∀ k < size.toNat, Reaches m r uva (k + 1) → ∀ a, userByte m r uva k a → ReadOnly m r a →
    (∀ j < size.toNat, k < j → Reaches m r uva (j + 1) → ¬userByte m r uva j a) →
    m.byte (kva + BitVec.ofNat 64 k) = m.byte a

/-- The last one of some numbers below a bound. -/
theorem exists_last {P : ℕ → Prop} (hk : k < n) (h : P k) :
    ∃ i < n, P i ∧ ∀ j < n, i < j → ¬P j := by
  induction n with
  | zero => exact absurd hk (Nat.not_lt_zero k)
  | succ n ih =>
    by_cases hn : P n
    · exact ⟨n, Nat.lt_succ_self n, hn, fun j hj hnj => absurd hj (by omega)⟩
    · have hkn : k ≠ n := by
        rintro rfl
        exact hn h
      obtain ⟨i, hi, hp, hlast⟩ := ih (by omega)
      refine ⟨i, Nat.lt_succ_of_lt hi, hp, fun j hj hij => ?_⟩
      rcases Nat.lt_succ_iff_lt_or_eq.mp hj with hjn | rfl
      · exact hlast j hjn hij
      · exact hn

/-- **What a copy does to read-only pages.** -/
theorem protected_iff
    (h : Transferred (userByte m r uva) (bufferByte kva) m r uva size err m') :
    Protected m r uva size err m' ↔ Spares m r uva kva size := by
  obtain ⟨hok, n, hstops, hcarried⟩ := h
  have hle := hstops.le
  constructor
  · rintro ⟨hunchanged, hrefused⟩
    refine ⟨fun hreach k hk pte hpte hwrite => ?_, fun k hk hreach a ha hread hlast => ?_⟩
    · obtain ⟨pte', hpte', huser, -⟩ := hreach k hk
      obtain rfl : pte = pte' := Option.some.inj (hpte.symm.trans hpte')
      have herr := hrefused k hk pte hpte huser hwrite
      rw [hok.mpr hreach] at herr
      cases herr
    · rw [← hunchanged a hread]
      refine (hcarried.last k ((hstops.lt_iff hk).mpr hreach) a _ ha rfl fun j hj hkj => ?_).symm
      exact hlast j (hj.trans_le hle) hkj ((hstops.lt_iff (hj.trans_le hle)).mp hj)
  · rintro ⟨hwritable, hsame⟩
    refine ⟨fun a hread => ?_, fun k hk pte hpte huser hwrite => ?_⟩
    · by_cases hhit : ∃ k < n, userByte m r uva k a
      · obtain ⟨k₀, hk₀, ha₀⟩ := hhit
        obtain ⟨k, hk, ha, hlast⟩ := exists_last (P := fun k => userByte m r uva k a) hk₀ ha₀
        have hksize := hk.trans_le hle
        rw [hcarried.last k hk a _ ha rfl hlast]
        refine hsame k hksize ((hstops.lt_iff hksize).mp hk) a ha hread fun j hj hkj hreach => ?_
        exact hlast j ((hstops.lt_iff hj).mpr hreach) hkj
      · exact hcarried.frame a fun k hk ha => hhit ⟨k, hk, ha⟩
    · by_contra herr
      exact hwritable (hok.mp (Bool.not_eq_true _ ▸ herr)) k hk pte hpte hwrite

/-- **`copy_out` leaves read-only pages alone** exactly when the range spares them. -/
theorem copyOut_protects_iff (hfree : FreeList m₀ l₀) (hget : getPagetable m₀ = .ok (some r, m₁))
    (hreach : Run.Reach (useStep r) (fun m u => u.Ok r m) m₁ m) (hbuf : Buffer m r uva kva size) :
    (∃ err m', copyOut r uva kva size m = .ok (err, m') ∧ Protected m r uva size err m') ↔
      Spares m r uva kva size :=
  ends_iff (wp_post (copy_spec (.inr rfl) (built_of_reach hfree hget hreach) hbuf)
    fun _ _ hpost => protected_iff hpost)

/-- The one page of `filledTable` without `PTE_W`. -/
theorem filledTable_readOnly {a : Word} (h : ReadOnly filledTable smallRoot a) :
    roundDownPgsize a = 0x87ffe000 := by
  obtain ⟨v, pte, hpte, -, hwrite, hpage⟩ := h
  rcases filledTable_pages hpte with ⟨-, rfl⟩ | ⟨-, rfl⟩
  · rw [← hpage]
    decide
  · exact absurd hwrite (by decide)

/-- A range in the other page spares it. -/
theorem filledTable_spares : Spares filledTable smallRoot 0x2000 0x87ff9000 0x1000 := by
  have hvpn : ∀ k < (0x1000 : Word).toNat, vpn (0x2000 + BitVec.ofNat 64 k) = 2 := by
    intro k hk
    have hk : k < 4096 := hk
    rw [vpn, BitVec.toNat_add, BitVec.toNat_ofNat, show (0x2000 : Word).toNat = 0x2000 from rfl]
    omega
  refine ⟨fun _ k hk pte hpte => ?_, fun k hk _ a ha hread => ?_⟩
  · rw [hvpn k hk] at hpte
    rcases filledTable_pages hpte with ⟨htwo, -⟩ | ⟨-, rfl⟩
    · exact absurd htwo (by decide)
    · decide
  · obtain ⟨p, hp, rfl⟩ := Option.map_eq_some_iff.mp ha
    have hround := filledTable_readOnly hread
    rw [roundDownPgsize_add (userPage_aligned hp)] at hround
    rw [hvpn k hk] at hp
    rcases filledTable_frame hp with ⟨htwo, -⟩ | ⟨-, rfl⟩
    · exact absurd htwo (by decide)
    · exact absurd hround (by decide)

/-- The theorem on that range, which is left to the copy. -/
theorem copyOut_protects_iff_filledTable : Spares filledTable smallRoot 0x2000 0x87ff9000 0x1000 ∧
    ∃ err m', copyOut smallRoot 0x2000 0x87ff9000 0x1000 filledTable = .ok (err, m') ∧
      Protected filledTable smallRoot 0x2000 0x1000 err m' := by
  obtain ⟨l, hfree⟩ := smallMem_free
  exact ⟨filledTable_spares, (copyOut_protects_iff hfree smallTable_get filledTable_reach
    (filledTable_buffer 0x2000 (by decide : (0x1000 : Word).toNat ≤ 0x2000))).mpr filledTable_spares⟩

/-- Text that can only be executed, and a page of zeros behind it. -/
def executeOnly : File :=
  smallFile [{ smallText with pFlags := pfX }, bss 0x2000 0x1000] [0x13, 0x05, 0xa0, 0x02, 0x73]

/-- **The first byte of its text** is overwritten, and `copy_out` returns 0. -/
theorem not_copyOut_protects : ¬∀ (file : File) (m : Mem) (l : List Word) (r memEnd : Word) (R : Word → ℕ)
    (s : Loading) (uva kva size : Word), Holds allPages m l r R → (∀ w, pages m r w = none) →
    loadProcessElf file r { mem := m, short := [] } = .ok (some memEnd, s) →
    ∃ err m', copyOut r uva kva size s.mem = .ok (err, m') ∧ Protected s.mem r uva size err m' := by
  intro hall
  obtain ⟨l, hholds, hnone⟩ := smallTable_spec
  have hrun : ((loadProcessElf executeOnly smallTable.2 { mem := smallTable.1, short := [] }).toOption.map
      fun x => (x.1, pages x.2.mem smallTable.2 1,
        (copyOut smallTable.2 0x1000 0x80002000 1 x.2.mem).toOption.map fun y => y.1)) =
      some (some 0x3000, some 0x21fff81b, some false) := by
    decide +kernel
  obtain ⟨ret, s, hload, hres⟩ := ok_of_map hrun
  obtain ⟨rfl, hres⟩ := Prod.mk.inj hres
  obtain ⟨hpage, hcopy⟩ := Prod.mk.inj hres
  obtain ⟨err, m', hok, hprotected⟩ := hall _ _ l _ _ 0 s 0x1000 0x80002000 1 hholds hnone hload
  rw [hok] at hcopy
  obtain rfl : err = false := Option.some.inj hcopy
  exact absurd (hprotected.refused 0 (by decide) _ hpage (by decide) (by decide)) (by decide)

end Loader
